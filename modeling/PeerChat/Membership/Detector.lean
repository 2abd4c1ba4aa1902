/-
The failure detector over whole histories of calls (`PresenceManager`,
`peer_discovery/membership/presence.py`), with a callback that may unregister
the user it is told about.

The table of the manager is a machine for each user (`stepEntry`), and its
entry for a user says since when he has been silent and since when he has been
suspected (`get?_run_iff`). `detector_safety` reads the reports off that.
-/
import PeerChat.Lib.Since
import PeerChat.Membership.Presence

namespace PeerChat.Membership

open Lib

/-- The calls of a manager. -/
inductive PresenceCall
  | registerMember (userId : String)
  | unregisterMember (userId : String)
  | recordHeartbeat (userId : String)
  | checkLiveness
  deriving DecidableEq, Repr

/-- A call, its time, and whom its callback unregisters on which report. -/
structure TimedCall where
  now : Time
  call : PresenceCall
  unregisters : String → ChangeType → Bool

namespace PresenceManager

/-- `__init__`. -/
def start (heartbeatIntervalS : Time) (suspectAfterMissed : Int) (deadAfterSuspectS : Time) : PresenceManager :=
  ⟨heartbeatIntervalS, suspectAfterMissed, deadAfterSuspectS, Dict.empty⟩

/-- `_on_state_change`. -/
def onStateChange (p : PresenceManager) (x : TimedCall) (userId : String) (change : ChangeType) : PresenceManager :=
  if x.unregisters userId change then p.unregisterMember userId else p

/-- One round of the loop of `check_liveness`. -/
def checkRound (x : TimedCall) (r : PresenceManager × List (String × ChangeType)) (userId : String) :
    PresenceManager × List (String × ChangeType) :=
  match r.1.checkEntry x.now userId with
  | (p, none) => (p, r.2)
  | (p, some change) => (p.onStateChange x userId change, r.2 ++ [(userId, change)])

/-- A call, and what it reports. -/
def step (p : PresenceManager) (x : TimedCall) : PresenceManager × List (String × ChangeType) :=
  match x.call with
  | .registerMember userId => (p.registerMember x.now userId, [])
  | .unregisterMember userId => (p.unregisterMember userId, [])
  | .recordHeartbeat userId =>
    match p.recordHeartbeat x.now userId with
    | (p, false) => (p, [])
    | (p, true) => (p.onStateChange x userId .reconnected, [(userId, .reconnected)])
  | .checkLiveness => p.members.keys.foldl (checkRound x) (p, [])

/-- The manager after a sequence of calls. -/
def run (p : PresenceManager) (h : List TimedCall) : PresenceManager := h.foldl (fun p x => (p.step x).1) p

/-- What a call reports after others. -/
def reports (p : PresenceManager) (h : List TimedCall) (x : TimedCall) : List (String × ChangeType) :=
  ((p.run h).step x).2

/-- The silence after which a member is suspected. -/
def suspectThreshold (p : PresenceManager) : Time := p.heartbeatIntervalS * p.suspectAfterMissed

/-! ## One user -/

/-- What becomes of the entry of a user who is checked, and what is reported. -/
def checked (p : PresenceManager) (x : TimedCall) (u : String) (e : PresenceEntry) :
    Option PresenceEntry × Option ChangeType :=
  let told (change : ChangeType) (e : PresenceEntry) := if x.unregisters u change then none else some e
  match e.state with
  | .alive =>
    if x.now - e.lastHeartbeat > p.suspectThreshold then
      (told .suspected { e with state := .suspected, suspectedAt := some x.now }, some .suspected)
    else (some e, none)
  | .suspected => if p.dead x.now e then (told .timeout e, some .timeout) else (some e, none)

/-- What becomes of the entry of a user who is heard of, and what is reported. -/
def heard (x : TimedCall) (u : String) (e : PresenceEntry) : Option PresenceEntry × Option ChangeType :=
  match e.state with
  | .alive => (some { e with lastHeartbeat := x.now }, none)
  | .suspected =>
    (if x.unregisters u .reconnected then none
      else some { e with lastHeartbeat := x.now, state := .alive, suspectedAt := none }, some .reconnected)

/-- What a call does to the entry of a user, and what it reports about him. -/
def stepEntry (p : PresenceManager) (x : TimedCall) (u : String) :
    Option PresenceEntry → Option PresenceEntry × Option ChangeType
  | entry =>
    match x.call with
    | .registerMember v => (if u = v then some { userId := u, lastHeartbeat := x.now } else entry, none)
    | .unregisterMember v => (if u = v then none else entry, none)
    | .recordHeartbeat v => if u = v then entry.elim (none, none) (heard x u) else (entry, none)
    | .checkLiveness => entry.elim (none, none) (p.checked x u)

variable {p p' : PresenceManager} {x : TimedCall} {u v : String} {change : ChangeType} {e e' : PresenceEntry}

/-- The settings are the same. -/
def SameSettings (p p' : PresenceManager) : Prop :=
  p.suspectThreshold = p'.suspectThreshold ∧ p.deadAfterSuspectS = p'.deadAfterSuspectS

theorem SameSettings.trans {p'' : PresenceManager} (h : SameSettings p p') (h' : SameSettings p' p'') :
    SameSettings p p'' :=
  ⟨h.1.trans h'.1, h.2.trans h'.2⟩

theorem SameSettings.checked_eq (h : SameSettings p p') : p.checked x u e = p'.checked x u e := by
  have hdead : p.dead x.now e = p'.dead x.now e := by simp only [dead, h.2]
  simp only [checked, h.1, hdead]

theorem SameSettings.stepEntry_eq (h : SameSettings p p') (o : Option PresenceEntry) :
    p.stepEntry x u o = p'.stepEntry x u o := by
  have hchecked : p.checked x u = p'.checked x u := funext fun e => h.checked_eq
  simp only [stepEntry, hchecked]

theorem sameSettings_onStateChange (p : PresenceManager) (x : TimedCall) (u : String) (change : ChangeType) :
    SameSettings (p.onStateChange x u change) p := by
  unfold onStateChange
  split <;> exact ⟨rfl, rfl⟩

theorem sameSettings_checkEntry (p : PresenceManager) (now : Time) (u : String) :
    SameSettings (p.checkEntry now u).1 p := by
  unfold checkEntry
  repeat' split
  all_goals exact ⟨rfl, rfl⟩

theorem get?_onStateChange_of_ne (h : v ≠ u) :
    (p.onStateChange x u change).members.get? v = p.members.get? v := by
  unfold onStateChange
  split
  · exact (Dict.get?_erase _ _ _).trans (if_neg h)
  · rfl

theorem get?_onStateChange_self : (p.onStateChange x u change).members.get? u =
    if x.unregisters u change then none else p.members.get? u := by
  unfold onStateChange
  split
  · exact Dict.get?_erase_self _ _
  · rfl

theorem sameSettings_checkRound (x : TimedCall) (r : PresenceManager × List (String × ChangeType)) (u : String) :
    SameSettings (checkRound x r u).1 r.1 := by
  have hentry := sameSettings_checkEntry r.1 x.now u
  unfold checkRound
  split
  · next p h =>
    rw [h] at hentry
    exact hentry
  · next p change h =>
    rw [h] at hentry
    exact (sameSettings_onStateChange p x u change).trans hentry

theorem get?_checkRound_of_ne (r : PresenceManager × List (String × ChangeType)) (h : v ≠ u) :
    (checkRound x r u).1.members.get? v = r.1.members.get? v := by
  have hentry := get?_checkEntry r.1 x.now h
  unfold checkRound
  split
  · next p hp =>
    rw [hp] at hentry
    exact hentry
  · next p change hp =>
    rw [hp] at hentry
    exact (get?_onStateChange_of_ne h).trans hentry

/-- A round is about one user. -/
theorem checkRound_eq (r : PresenceManager × List (String × ChangeType)) :
    (checkRound x r u).1.members.get? u = ((r.1.members.get? u).elim (none, none) (r.1.checked x u)).1 ∧
    (checkRound x r u).2 = r.2 ++ (((r.1.members.get? u).elim (none, none) (r.1.checked x u)).2.map (u, ·)).toList := by
  cases hg : r.1.members.get? u with
  | none => simp [checkRound, checkEntry, hg]
  | some e =>
    cases hs : e.state with
    | alive =>
      by_cases hlate : x.now - e.lastHeartbeat > r.1.suspectThreshold
      · have hlate' : x.now - e.lastHeartbeat > r.1.heartbeatIntervalS * r.1.suspectAfterMissed := hlate
        simp [checkRound, checkEntry, hg, hs, checked, hlate, hlate', get?_onStateChange_self]
      · have hlate' : ¬ x.now - e.lastHeartbeat > r.1.heartbeatIntervalS * r.1.suspectAfterMissed := hlate
        simp only [checkRound, checkEntry, hg, hs, checked, if_neg hlate, if_neg hlate', Option.elim]
        simp
    | suspected =>
      cases hd : r.1.dead x.now e with
      | true => simp [checkRound, checkEntry, hg, hs, checked, hd, get?_onStateChange_self]
      | false => simp [checkRound, checkEntry, hg, hs, checked, hd]

theorem mem_checkRound_of_ne (r : PresenceManager × List (String × ChangeType)) (h : v ≠ u) :
    (v, change) ∈ (checkRound x r u).2 ↔ (v, change) ∈ r.2 := by
  rw [(checkRound_eq r).2, List.mem_append, or_iff_left]
  intro hmem
  obtain ⟨_, -, heq⟩ := Option.map_eq_some_iff.1 (Option.mem_toList.1 hmem)
  exact h (Prod.mk.inj heq).1.symm

theorem sameSettings_foldl (x : TimedCall) : ∀ (l : List String) (r : PresenceManager × List (String × ChangeType)),
    SameSettings (l.foldl (checkRound x) r).1 r.1
  | [], _ => ⟨rfl, rfl⟩
  | u :: l, r => (sameSettings_foldl x l (checkRound x r u)).trans (sameSettings_checkRound x r u)

/-- The rounds of the others leave a user alone. -/
theorem foldl_checkRound_of_notMem (x : TimedCall) (change : ChangeType) :
    ∀ (l : List String) (r : PresenceManager × List (String × ChangeType)), u ∉ l →
    (l.foldl (checkRound x) r).1.members.get? u = r.1.members.get? u ∧
    ((u, change) ∈ (l.foldl (checkRound x) r).2 ↔ (u, change) ∈ r.2)
  | [], _, _ => ⟨rfl, Iff.rfl⟩
  | v :: l, r, h => by
    obtain ⟨hne, hl⟩ := List.ne_and_not_mem_of_not_mem_cons h
    obtain ⟨hget, hmem⟩ := foldl_checkRound_of_notMem x change l (checkRound x r v) hl
    exact ⟨hget.trans (get?_checkRound_of_ne r hne), hmem.trans (mem_checkRound_of_ne r hne)⟩

/-- The loop comes to each user once. -/
theorem foldl_checkRound_of_mem (x : TimedCall) (change : ChangeType) :
    ∀ (l : List String) (r : PresenceManager × List (String × ChangeType)), l.Nodup → u ∈ l →
    (l.foldl (checkRound x) r).1.members.get? u = (checkRound x r u).1.members.get? u ∧
    ((u, change) ∈ (l.foldl (checkRound x) r).2 ↔ (u, change) ∈ (checkRound x r u).2)
  | v :: l, r, hnodup, h => by
    obtain ⟨hv, hnodup⟩ := List.nodup_cons.1 hnodup
    by_cases huv : u = v
    · subst huv
      exact foldl_checkRound_of_notMem x change l _ hv
    · have hl : u ∈ l := (List.mem_cons.1 h).resolve_left huv
      obtain ⟨hget, hmem⟩ := foldl_checkRound_of_mem x change l (checkRound x r v) hnodup hl
      have hsame : (checkRound x r v).1.checked x u = r.1.checked x u :=
        funext fun e => (sameSettings_checkRound x r v).checked_eq
      constructor
      · rw [List.foldl_cons, hget, (checkRound_eq _).1, (checkRound_eq _).1, get?_checkRound_of_ne r huv, hsame]
      · rw [List.foldl_cons, hmem, (checkRound_eq (checkRound x r v)).2, List.mem_append, mem_checkRound_of_ne r huv,
          get?_checkRound_of_ne r huv, hsame, (checkRound_eq r).2, List.mem_append]

theorem sameSettings_step (p : PresenceManager) (x : TimedCall) : SameSettings (p.step x).1 p := by
  unfold step
  split
  · exact ⟨rfl, rfl⟩
  · exact ⟨rfl, rfl⟩
  · next v _ =>
    have hbeat : SameSettings (p.recordHeartbeat x.now v).1 p := by
      unfold recordHeartbeat
      cases p.members.get? v with
      | none => exact ⟨rfl, rfl⟩
      | some e =>
        simp only
        split <;> exact ⟨rfl, rfl⟩
    split
    · next h =>
      rw [h] at hbeat
      exact hbeat
    · next h =>
      rw [h] at hbeat
      exact (sameSettings_onStateChange _ x v .reconnected).trans hbeat
  · exact sameSettings_foldl x _ _

theorem sameSettings_run (p : PresenceManager) (h : List TimedCall) : SameSettings (p.run h) p := by
  induction h generalizing p with
  | nil => exact ⟨rfl, rfl⟩
  | cons x h ih => exact (ih (p.step x).1).trans (sameSettings_step p x)

theorem step_recordHeartbeat (p : PresenceManager) (h : x.call = .recordHeartbeat v) :
    (p.step x).1.members.get? u = (p.stepEntry x u (p.members.get? u)).1 ∧
    ((u, change) ∈ (p.step x).2 ↔ (p.stepEntry x u (p.members.get? u)).2 = some change) := by
  simp only [step, stepEntry, h]
  cases hg : p.members.get? v with
  | none =>
    by_cases huv : u = v
    · subst huv
      simp [recordHeartbeat, hg]
    · simp [recordHeartbeat, hg, huv]
  | some e =>
    cases hs : e.state with
    | alive =>
      by_cases huv : u = v
      · subst huv
        simp [recordHeartbeat, hg, hs, heard]
      · simp [recordHeartbeat, hg, hs, huv, Dict.get?_set]
    | suspected =>
      by_cases huv : u = v
      · subst huv
        simp [recordHeartbeat, hg, hs, heard, get?_onStateChange_self, @eq_comm _ change]
      · simp [recordHeartbeat, hg, hs, huv, get?_onStateChange_of_ne huv, Dict.get?_set]

/-- **The table is a machine for each user.** -/
theorem step_eq (p : PresenceManager) (x : TimedCall) (u : String) (change : ChangeType) :
    (p.step x).1.members.get? u = (p.stepEntry x u (p.members.get? u)).1 ∧
    ((u, change) ∈ (p.step x).2 ↔ (p.stepEntry x u (p.members.get? u)).2 = some change) := by
  cases h : x.call with
  | registerMember v =>
    by_cases huv : u = v
    · subst huv
      simp [step, stepEntry, h, registerMember]
    · simp [step, stepEntry, h, registerMember, Dict.get?_set, huv]
  | unregisterMember v => simp [step, stepEntry, h, unregisterMember, Dict.get?_erase]
  | recordHeartbeat v => exact step_recordHeartbeat p h
  | checkLiveness =>
    simp only [step, stepEntry, h]
    by_cases hu : u ∈ p.members.keys
    · obtain ⟨hget, hmem⟩ :=
        foldl_checkRound_of_mem x change p.members.keys (p, []) p.members.nodup hu
      rw [hget, hmem, (checkRound_eq _).1, (checkRound_eq _).2]
      refine ⟨rfl, ?_⟩
      simp
    · obtain ⟨hget, hmem⟩ := foldl_checkRound_of_notMem x change p.members.keys (p, []) hu
      have hnone : p.members.get? u = none := by
        rw [Option.eq_none_iff_forall_ne_some]
        exact fun e he => hu ((Dict.mem_keys_iff _).2 ⟨e, he⟩)
      rw [hget, hmem, hnone]
      simp

/-! ## What is reported -/

end PresenceManager

/-- The call is a registration or a heartbeat of a user. -/
def TimedCall.Contacts (x : TimedCall) (u : String) : Prop :=
  x.call = .registerMember u ∨ x.call = .recordHeartbeat u

namespace PresenceManager

variable {p : PresenceManager} {x : TimedCall} {u : String} {o : Option PresenceEntry} {e e' : PresenceEntry}

theorem stepEntry_suspected : (p.stepEntry x u o).2 = some .suspected ↔
    x.call = .checkLiveness ∧ ∃ e, o = some e ∧ e.state = .alive ∧ x.now - e.lastHeartbeat > p.suspectThreshold := by
  unfold stepEntry
  cases o with
  | none => cases x.call <;> simp
  | some e =>
    cases x.call with
    | registerMember v | unregisterMember v => simp
    | recordHeartbeat v => by_cases huv : u = v <;> cases hs : e.state <;> simp [heard, huv, hs]
    | checkLiveness =>
      simp only [Option.elim, checked]
      repeat' split
      all_goals simp_all

theorem stepEntry_timeout : (p.stepEntry x u o).2 = some .timeout ↔
    x.call = .checkLiveness ∧ ∃ e, o = some e ∧ e.state = .suspected ∧ p.dead x.now e = true := by
  unfold stepEntry
  cases o with
  | none => cases x.call <;> simp
  | some e =>
    cases x.call with
    | registerMember v | unregisterMember v => simp
    | recordHeartbeat v => by_cases huv : u = v <;> cases hs : e.state <;> simp [heard, huv, hs]
    | checkLiveness =>
      simp only [Option.elim, checked]
      repeat' split
      all_goals simp_all

theorem stepEntry_reconnected : (p.stepEntry x u o).2 = some .reconnected ↔
    x.call = .recordHeartbeat u ∧ ∃ e, o = some e ∧ e.state = .suspected := by
  unfold stepEntry
  cases o with
  | none => cases x.call <;> simp
  | some e =>
    cases x.call with
    | registerMember v | unregisterMember v => simp
    | recordHeartbeat v => by_cases huv : u = v <;> cases hs : e.state <;> simp [heard, huv, hs, @eq_comm _ v]
    | checkLiveness =>
      simp only [Option.elim, checked]
      repeat' split
      all_goals simp_all

/-- After a contact a user who is registered is alive. -/
theorem stepEntry_of_contacts (hc : x.Contacts u) (h : (p.stepEntry x u o).1 = some e) :
    e.state = .alive ∧ e.lastHeartbeat = x.now := by
  unfold stepEntry at h
  rcases hc with hc | hc
  · rw [hc] at h
    simp only [if_true, Option.some.injEq] at h
    subst h
    exact ⟨rfl, rfl⟩
  · rw [hc] at h
    cases o with
    | none => simp at h
    | some e' =>
      cases hs : e'.state with
      | alive =>
        simp only [if_true, Option.elim, heard, hs, Option.some.injEq] at h
        subst h
        exact ⟨rfl, rfl⟩
      | suspected =>
        simp only [if_true, Option.elim, heard, hs] at h
        split at h
        · cases h
        · cases h
          exact ⟨rfl, rfl⟩

/-- A check that keeps an entry leaves it as it is, or suspects its user. -/
theorem checked_cases (h : (p.checked x u e).1 = some e') :
    e' = e ∧ (p.checked x u e).2 ≠ some .suspected ∨
      e' = { e with state := .suspected, suspectedAt := some x.now } ∧ (p.checked x u e).2 = some .suspected := by
  unfold checked at h ⊢
  cases hs : e.state with
  | alive =>
    simp only [hs] at h ⊢
    split at h
    · next hlate =>
      rw [if_pos hlate]
      split at h
      · cases h
      · cases h
        exact .inr ⟨rfl, rfl⟩
    · next hlate =>
      rw [if_neg hlate]
      cases h
      exact .inl ⟨rfl, nofun⟩
  | suspected =>
    simp only [hs] at h ⊢
    split at h
    · next hd =>
      rw [if_pos hd]
      split at h
      · cases h
      · cases h
        exact .inl ⟨rfl, nofun⟩
    · next hd =>
      rw [if_neg hd]
      cases h
      exact .inl ⟨rfl, nofun⟩

/-- Other calls leave his entry as it is, or suspect him. -/
theorem stepEntry_of_not_contacts (hc : ¬ x.Contacts u) (h : (p.stepEntry x u o).1 = some e') :
    ∃ e, o = some e ∧
      (e' = e ∧ (p.stepEntry x u o).2 ≠ some .suspected ∨
        e' = { e with state := .suspected, suspectedAt := some x.now } ∧
          (p.stepEntry x u o).2 = some .suspected) := by
  unfold stepEntry at h ⊢
  simp only [TimedCall.Contacts, not_or] at hc
  cases hx : x.call with
  | registerMember v =>
    have huv : u ≠ v := fun huv => hc.1 (huv ▸ hx)
    simp only [hx, if_neg huv] at h
    exact ⟨e', h, .inl ⟨rfl, nofun⟩⟩
  | unregisterMember v =>
    simp only [hx] at h
    split at h
    · cases h
    · exact ⟨e', h, .inl ⟨rfl, nofun⟩⟩
  | recordHeartbeat v =>
    have huv : u ≠ v := fun huv => hc.2 (huv ▸ hx)
    simp only [hx, if_neg huv] at h ⊢
    exact ⟨e', h, .inl ⟨rfl, nofun⟩⟩
  | checkLiveness =>
    simp only [hx] at h ⊢
    cases o with
    | none => cases h
    | some e => exact ⟨e, rfl, checked_cases h⟩

/-! ## Histories -/

section

variable (p : PresenceManager) (u : String) (s : Time)

/-- The call leaves a user registered. -/
def Stays (h : List TimedCall) (x : TimedCall) : Prop := (p.run (h ++ [x])).Tracks u

/-- The last contact with a user was at time `s`, and he has been registered
since. -/
def SilentSince : List TimedCall → Prop :=
  Since (fun h x => ¬ x.Contacts u ∧ p.Stays u h x) fun h x => x.Contacts u ∧ x.now = s ∧ p.Stays u h x

/-- And he has not been suspected since. -/
def UnsuspectedSince : List TimedCall → Prop :=
  Since (fun h x => ¬ x.Contacts u ∧ p.Stays u h x ∧ (u, .suspected) ∉ p.reports h x)
    fun h x => x.Contacts u ∧ x.now = s ∧ p.Stays u h x

/-- A user was reported as suspected at time `s`, and he has been registered
and not been in contact since. -/
def SuspectedSince : List TimedCall → Prop :=
  Since (fun h x => ¬ x.Contacts u ∧ p.Stays u h x) fun h x =>
    (u, .suspected) ∈ p.reports h x ∧ x.now = s ∧ p.Stays u h x

end

variable {h : List TimedCall} {s : Time}

@[simp] theorem run_concat (p : PresenceManager) (h : List TimedCall) (x : TimedCall) :
    p.run (h ++ [x]) = ((p.run h).step x).1 := by
  simp only [run, List.foldl_append, List.foldl_cons, List.foldl_nil]

theorem get?_run_concat (p : PresenceManager) (h : List TimedCall) (x : TimedCall) (u : String) :
    (p.run (h ++ [x])).members.get? u = (p.stepEntry x u ((p.run h).members.get? u)).1 := by
  rw [run_concat, (step_eq _ x u .suspected).1, (sameSettings_run p h).stepEntry_eq]

theorem mem_reports {change : ChangeType} :
    (u, change) ∈ p.reports h x ↔ (p.stepEntry x u ((p.run h).members.get? u)).2 = some change := by
  rw [reports, (step_eq _ x u change).2, (sameSettings_run p h).stepEntry_eq]

theorem stays_iff : p.Stays u h x ↔ ∃ e, (p.stepEntry x u ((p.run h).members.get? u)).1 = some e := by
  rw [Stays, Tracks, get?_run_concat, Option.isSome_iff_exists]

variable (hp : p.members = Dict.empty)

include hp

theorem get?_run_nil (u : String) : (p.run []).members.get? u = none := by
  show p.members.get? u = none
  rw [hp]
  rfl

/-- An entry says since when its user has been silent. -/
theorem silentSince_iff (h : List TimedCall) :
    (∃ e, (p.run h).members.get? u = some e ∧ e.lastHeartbeat = s) ↔ p.SilentSince u s h := by
  refine iff_since (R := fun h => ∃ e, (p.run h).members.get? u = some e ∧ e.lastHeartbeat = s)
    (fun hnil => ?_) (fun h x => ?_) h
  · obtain ⟨e, he, -⟩ := hnil
    rw [get?_run_nil hp] at he
    cases he
  rw [get?_run_concat, stays_iff]
  cases hstep : (p.stepEntry x u ((p.run h).members.get? u)).1 with
  | none => simp
  | some e' =>
    by_cases hc : x.Contacts u
    · simp [hc, (stepEntry_of_contacts hc hstep).2]
    · obtain ⟨e, he, hcase⟩ := stepEntry_of_not_contacts hc hstep
      have hlast : e'.lastHeartbeat = e.lastHeartbeat := by rcases hcase with ⟨rfl, -⟩ | ⟨rfl, -⟩ <;> rfl
      simp [hc, he, hlast]

theorem unsuspectedSince_iff (h : List TimedCall) :
    (∃ e, (p.run h).members.get? u = some e ∧ e.state = .alive ∧ e.lastHeartbeat = s) ↔ p.UnsuspectedSince u s h := by
  refine iff_since (R := fun h => ∃ e, (p.run h).members.get? u = some e ∧ e.state = .alive ∧ e.lastHeartbeat = s)
    (fun hnil => ?_) (fun h x => ?_) h
  · obtain ⟨e, he, -⟩ := hnil
    rw [get?_run_nil hp] at he
    cases he
  rw [get?_run_concat, stays_iff, mem_reports]
  cases hstep : (p.stepEntry x u ((p.run h).members.get? u)).1 with
  | none => simp
  | some e' =>
    by_cases hc : x.Contacts u
    · obtain ⟨halive, hlast⟩ := stepEntry_of_contacts hc hstep
      simp [hc, halive, hlast]
    · obtain ⟨e, he, ⟨rfl, hnot⟩ | ⟨rfl, hsus⟩⟩ := stepEntry_of_not_contacts hc hstep
      · simp [hc, he, he ▸ hnot]
      · simp [hc, he, he ▸ hsus]

theorem suspectedSince_iff (h : List TimedCall) :
    (∃ e, (p.run h).members.get? u = some e ∧ e.state = .suspected ∧ e.suspectedAt = some s) ↔
      p.SuspectedSince u s h := by
  refine iff_since
    (R := fun h => ∃ e, (p.run h).members.get? u = some e ∧ e.state = .suspected ∧ e.suspectedAt = some s)
    (fun hnil => ?_) (fun h x => ?_) h
  · obtain ⟨e, he, -⟩ := hnil
    rw [get?_run_nil hp] at he
    cases he
  rw [get?_run_concat, stays_iff, mem_reports]
  cases hstep : (p.stepEntry x u ((p.run h).members.get? u)).1 with
  | none => simp
  | some e' =>
    by_cases hc : x.Contacts u
    · have hcall : x.call ≠ .checkLiveness := by rcases hc with hc | hc <;> simp [hc]
      have hnot : (p.stepEntry x u ((p.run h).members.get? u)).2 ≠ some .suspected :=
        fun hsus => hcall (stepEntry_suspected.1 hsus).1
      simp [hc, (stepEntry_of_contacts hc hstep).1, hnot]
    · obtain ⟨e, he, ⟨rfl, hnot⟩ | ⟨rfl, hsus⟩⟩ := stepEntry_of_not_contacts hc hstep
      · simp [hc, he, he ▸ hnot]
      · have halive : e.state = .alive := by
          obtain ⟨-, e₁, he₁, halive, -⟩ := stepEntry_suspected.1 hsus
          cases he.symm.trans he₁
          exact halive
        simp [hc, he, he ▸ hsus, halive]

/-- A suspected entry knows since when, and there was silence before. -/
theorem late_of_suspected (h : List TimedCall) {e : PresenceEntry} (he : (p.run h).members.get? u = some e)
    (hs : e.state = .suspected) : ∃ s, e.suspectedAt = some s ∧ s - e.lastHeartbeat > p.suspectThreshold := by
  induction h using List.reverseRecOn generalizing e with
  | nil =>
    rw [get?_run_nil hp] at he
    cases he
  | append_singleton h x ih =>
    rw [get?_run_concat] at he
    by_cases hc : x.Contacts u
    · rw [(stepEntry_of_contacts hc he).1] at hs
      cases hs
    · obtain ⟨e₀, he₀, ⟨rfl, -⟩ | ⟨rfl, hsus⟩⟩ := stepEntry_of_not_contacts hc he
      · exact ih he₀ hs
      · obtain ⟨-, e₁, he₁, -, hlate⟩ := stepEntry_suspected.1 hsus
        cases he₀.symm.trans he₁
        exact ⟨x.now, rfl, hlate⟩

theorem suspected_iff (h : List TimedCall) (x : TimedCall) (u : String) : (u, .suspected) ∈ p.reports h x ↔
    x.call = .checkLiveness ∧ ∃ s, p.UnsuspectedSince u s h ∧ x.now - s > p.suspectThreshold := by
  rw [mem_reports, stepEntry_suspected]
  simp only [← unsuspectedSince_iff hp]
  refine and_congr_right fun _ => ⟨?_, ?_⟩
  · rintro ⟨e, he, halive, hlate⟩
    exact ⟨e.lastHeartbeat, ⟨e, he, halive, rfl⟩, hlate⟩
  · rintro ⟨_, ⟨e, he, halive, rfl⟩, hlate⟩
    exact ⟨e, he, halive, hlate⟩

theorem timeout_iff (h : List TimedCall) (x : TimedCall) (u : String) : (u, .timeout) ∈ p.reports h x ↔
    x.call = .checkLiveness ∧ ∃ s, p.SuspectedSince u s h ∧ x.now - s > p.deadAfterSuspectS := by
  rw [mem_reports, stepEntry_timeout]
  simp only [← suspectedSince_iff hp]
  refine and_congr_right fun _ => ⟨?_, ?_⟩
  · rintro ⟨e, he, hs, hdead⟩
    obtain ⟨s, hat, -⟩ := late_of_suspected hp h he hs
    rw [dead, hat] at hdead
    exact ⟨s, ⟨e, he, hs, hat⟩, of_decide_eq_true hdead⟩
  · rintro ⟨s, ⟨e, he, hs, hat⟩, hdead⟩
    refine ⟨e, he, hs, ?_⟩
    rw [dead, hat]
    exact decide_eq_true hdead

theorem reconnected_iff (h : List TimedCall) (x : TimedCall) (u : String) : (u, .reconnected) ∈ p.reports h x ↔
    x.call = .recordHeartbeat u ∧ ∃ s, p.SuspectedSince u s h := by
  rw [mem_reports, stepEntry_reconnected]
  simp only [← suspectedSince_iff hp]
  refine and_congr_right fun _ => ⟨?_, ?_⟩
  · rintro ⟨e, he, hs⟩
    obtain ⟨s, hat, -⟩ := late_of_suspected hp h he hs
    exact ⟨s, e, he, hs, hat⟩
  · rintro ⟨s, e, he, hs, -⟩
    exact ⟨e, he, hs⟩

/-- Suspicion comes after silence, and the silence lasts. -/
theorem silent_of_suspectedSince (hs : p.SuspectedSince u s h) :
    ∃ s₀, p.SilentSince u s₀ h ∧ s - s₀ > p.suspectThreshold := by
  obtain ⟨e, he, hstate, hat⟩ := (suspectedSince_iff hp h).2 hs
  obtain ⟨s', hat', hlate⟩ := late_of_suspected hp h he hstate
  cases hat.symm.trans hat'
  exact ⟨e.lastHeartbeat, (silentSince_iff hp h).1 ⟨e, he, rfl⟩, hlate⟩

omit hp in
theorem silent_of_unsuspectedSince (hs : p.UnsuspectedSince u s h) : p.SilentSince u s h :=
  Since.mono (fun _ _ h => ⟨h.1, h.2.1⟩) hs

/-- Silence has one beginning. -/
theorem silentSince_unique {s' : Time} (hs : p.SilentSince u s h) (hs' : p.SilentSince u s' h) : s = s' := by
  obtain ⟨e, he, rfl⟩ := (silentSince_iff hp h).2 hs
  obtain ⟨e', he', rfl⟩ := (silentSince_iff hp h).2 hs'
  cases he.symm.trans he'
  rfl

end PresenceManager

/-- **What the failure detector reports, after any history of calls.** A member
is suspected at a check that comes later than the threshold after the last
contact, and once. He is timed out at a check that comes later than the second
period after he was suspected, in silence. He is reconnected exactly when a
heartbeat of his arrives while he is suspected. So he is not suspected when the
next heartbeat, or any other call from the check on, comes within the threshold
of the last contact, and timed out only after silence longer than both periods
together. -/
theorem detector_safety (heartbeatIntervalS : Time) (suspectAfterMissed : Int) (deadAfterSuspectS : Time)
    (h : List TimedCall) (x : TimedCall) (u : String) :
    let p := PresenceManager.start heartbeatIntervalS suspectAfterMissed deadAfterSuspectS
    ((u, .suspected) ∈ p.reports h x ↔ x.call = .checkLiveness ∧
      ∃ s, p.UnsuspectedSince u s h ∧ x.now - s > heartbeatIntervalS * suspectAfterMissed) ∧
    ((u, .timeout) ∈ p.reports h x ↔ x.call = .checkLiveness ∧
      ∃ s, p.SuspectedSince u s h ∧ x.now - s > deadAfterSuspectS) ∧
    ((u, .reconnected) ∈ p.reports h x ↔ x.call = .recordHeartbeat u ∧ ∃ s, p.SuspectedSince u s h) ∧
    (∀ later s y, (h ++ x :: later).Pairwise (fun a b => a.now ≤ b.now) → p.SilentSince u s h → y ∈ x :: later →
      y.now - s ≤ heartbeatIntervalS * suspectAfterMissed → (u, .suspected) ∉ p.reports h x) ∧
    ((u, .timeout) ∈ p.reports h x →
      ∃ s, p.SilentSince u s h ∧ x.now - s > heartbeatIntervalS * suspectAfterMissed + deadAfterSuspectS) := by
  intro p
  have hp : p.members = Dict.empty := rfl
  have hthreshold : p.suspectThreshold = heartbeatIntervalS * suspectAfterMissed := rfl
  have hdead : p.deadAfterSuspectS = deadAfterSuspectS := rfl
  rw [← hthreshold, ← hdead]
  refine ⟨PresenceManager.suspected_iff hp h x u, PresenceManager.timeout_iff hp h x u,
    PresenceManager.reconnected_iff hp h x u, ?_, ?_⟩
  · intro later s y hsorted hsilent hy hnear hsus
    obtain ⟨-, s', hs', hlate⟩ := (PresenceManager.suspected_iff hp h x u).1 hsus
    have hs : s = s' := PresenceManager.silentSince_unique hp hsilent (PresenceManager.silent_of_unsuspectedSince hs')
    have hle : x.now ≤ y.now := by
      rcases List.mem_cons.1 hy with rfl | hy
      · exact Int.le_refl _
      · exact (List.pairwise_cons.1 (List.pairwise_append.1 hsorted).2.1).1 y hy
    rw [← hs] at hlate
    exact absurd (Int.lt_of_lt_of_le hlate (Int.sub_le_sub_right hle s)) (Int.not_lt.2 hnear)
  · intro htimeout
    obtain ⟨-, s, hs, hlate⟩ := (PresenceManager.timeout_iff hp h x u).1 htimeout
    obtain ⟨s₀, hs₀, hlate₀⟩ := PresenceManager.silent_of_suspectedSince hp hs
    have hsum : x.now - s₀ = s - s₀ + (x.now - s) := by rw [add_comm, sub_add_sub_cancel]
    exact ⟨s₀, hs₀, hsum ▸ Int.add_lt_add hlate₀ hlate⟩

end PeerChat.Membership
