/-
The local user and the presence (`local_user_id` of
`MembershipCoordinator`).

`handle_join` and `recover` do not register the local user with the
presence; `_apply_remote_event` registers whoever an event is about, and
`_sweep_backfill_timeouts` times out every member whose backfill lasts too
long. `never_suspects_itself_iff`: a node has no entry for itself, and no
tick of it logs a suspicion or a timeout of itself, exactly when no other
node passes on a join or a heartbeat of it and no tick finds its own
backfill overdue.
-/
import PeerChat.Membership.Commands
import PeerChat.Membership.Ledger

namespace PeerChat.Membership

open Lib

/-- The time at which the sweep of a tick begins. -/
def sweepTime (clock : Nat → Time) (c : Coordinator) : Time := clock (checkLiveness.run (exec clock) c).2.reads

/-- The user is in a backfill that a tick would end. -/
def Overdue (clock : Nat → Time) (c : Coordinator) (u : String) : Prop :=
  ∃ m, c.snapshot.members.get? u = some m ∧ m.state = .backfilling ∧
    sweepTime clock c - m.joinedAt > c.settings.backfillTimeoutS

/-- What happens to the node neither registers the user nor times it out. -/
def Spares (clock : Nat → Time) (u : String) (c : Coordinator) : Life → Prop
  | .call (.remote e) => e.userId = u → e.eventType ≠ .joinAccepted ∧ e.eventType ≠ .heartbeat
  | .call .tick => ¬ 1 < c.log.currentTerm → ¬ Overdue clock c u
  | _ => True

/-- So it is in all of a run. -/
def RunSpares (clock : Nat → Time) (u : String) : Coordinator → List Life → Prop
  | _, [] => True
  | c, l :: ls => Spares clock u c l ∧ RunSpares clock u (c.live clock l) ls

/-- Nothing that was logged since is a suspicion or a timeout of the user. -/
def NotSuspected (u : String) (c c' : Coordinator) : Prop :=
  ∀ e ∈ c'.log.log.drop c.log.log.length, e.userId = u →
    e.eventType ≠ .disconnectSuspected ∧ e.eventType ≠ .disconnectTimeout

/-- In all of a run the presence has no entry for the user, and no tick logs
a suspicion or a timeout of it. -/
def NeverSuspects (clock : Nat → Time) (u : String) : Coordinator → List Life → Prop
  | _, [] => True
  | c, l :: ls => ¬ (c.live clock l).presence.Tracks u ∧
    (l = .call .tick → NotSuspected u c (c.live clock l)) ∧ NeverSuspects clock u (c.live clock l) ls

variable {clock : Nat → Time} {cfg : Settings} {c c' c₀ : Coordinator} {u : String}

/-! ## Who is registered -/

/-- A command that does not register the user. -/
theorem untracked_command {r : Option MembershipEvent} (hloc : cfg.localUserId = some u) (hr : r = none) {β : Type}
    (cmd : Cmd β) (c : Coordinator) (hcmd : Usual cfg r cmd) (h : ¬ c.presence.Tracks u) :
    ¬ (exec clock cmd c).2.presence.Tracks u ∧ ∀ x, (exec clock cmd c).1 = .error x → True := by
  refine ⟨?_, fun _ _ => trivial⟩
  cases cmd with
  | registerMember v =>
    have hne : some v ≠ some u := hloc ▸ hcmd hr
    refine fun ht => h (((PresenceManager.tracks_registerMember _ _ v u).1 ht).resolve_left fun he => hne ?_)
    rw [he]
  | unregisterMember v => exact fun ht => h ((PresenceManager.tracks_unregisterMember _ v u).1 ht).2
  | recordHeartbeat v => exact fun ht => h ((PresenceManager.tracks_recordHeartbeat _ _ v u).1 ht)
  | checkEntry now v => exact fun ht => h ((PresenceManager.tracks_checkEntry _ now v u).1 ht)
  | append a =>
    simp only [exec]
    split
    · exact h
    · exact h
  | restore =>
    simp only [exec]
    split
    · exact h
    · exact h
  | _ => exact h

/-- No operation of the node registers the local user. -/
theorem untracked_step (hloc : c.settings.localUserId = some u) {op : Op} (hop : op.remoteEvent = none)
    (h : ¬ c.presence.Tracks u) : ¬ (c.step clock op).presence.Tracks u := by
  have hall := (op.all_usual c.settings).mono (Y := fun _ => True) (fun _ h => h) fun _ _ => trivial
  exact (hall.run (fun cmd c => untracked_command hloc hop cmd c) h).1

variable (clock) in
/-- Whom an event from another node registers. -/
theorem tracks_remote (h : Sane c) (e : MembershipEvent) (v : String) :
    (c.step clock (.remote e)).presence.Tracks v ↔
      c.presence.Tracks v ∨ (v = e.userId ∧ (e.eventType = .joinAccepted ∨ e.eventType = .heartbeat)) := by
  refine Prog.wp_run (E := fun c' : Coordinator => c'.presence.Tracks v ↔ c.presence.Tracks v ∨
    (v = e.userId ∧ (e.eventType = .joinAccepted ∨ e.eventType = .heartbeat))) ?_
  refine wp_remote h fun e' c' he' hl => ?_
  subst he'
  have hreg : ∀ now, (c'.presence.registerMember now e.userId).Tracks v ↔ c.presence.Tracks v ∨ v = e.userId := by
    intro now
    rw [PresenceManager.tracks_registerMember, hl.presence, or_comm]
  simp only [Prog.wp_bind, Prog.wp_when, Prog.wp_lift, exec]
  refine ⟨fun ht => ⟨fun _ => ⟨fun hr => ?_, fun _ => ?_⟩, fun _ => ?_⟩, fun ht => ?_⟩
  · rw [watching_presence, recordHeartbeat_registerMember] at hr
    cases hr
  · have ht' : e.eventType = .joinAccepted ∨ e.eventType = .heartbeat := ht
    simp only [ht', and_true, checkpointed_presence, watching_presence]
    exact (PresenceManager.tracks_recordHeartbeat _ _ _ v).trans (hreg _)
  · have ht' : e.eventType = .joinAccepted ∨ e.eventType = .heartbeat := ht
    simp only [ht', and_true, checkpointed_presence, watching_presence]
    exact hreg _
  · have ht' : ¬ (e.eventType = .joinAccepted ∨ e.eventType = .heartbeat) := ht
    simp only [ht', and_false, or_false, checkpointed_presence, hl.presence]

/-! ## The tick of an untracked user -/

namespace Snapshot

/-- An event touches only the record of its user. -/
theorem get?_members_applyEvent {s : Snapshot} {e : MembershipEvent} {v : String} (h : v ≠ e.userId) :
    (s.applyEvent e).1.members.get? v = s.members.get? v := by
  have hupd : ∀ f, (s.update e.userId (s.members.get? e.userId) f).members.get? v = s.members.get? v := by
    intro f
    unfold update
    split
    · exact Dict.get?_set_of_ne _ _ h
    · rfl
  by_cases ha : s.Accepts e
  · rw [applyEvent_of_accepts ha]
    unfold dispatch
    cases e.eventType with
    | joinAccepted => exact Dict.get?_set_of_ne _ _ h
    | joinRequested => rfl
    | joinRejected => rfl
    | _ => exact hupd _
  · rw [applyEvent_of_not_accepts ha]

end Snapshot

/-- What was logged since another state, with none of it about the user. -/
structure Bystander (u : String) (c₀ c : Coordinator) : Prop where
  sane : Sane c
  log : ∃ es, c.log.log = c₀.log.log ++ es ∧ ∀ e ∈ es, e.userId ≠ u
  member : c.snapshot.members.get? u = c₀.snapshot.members.get? u
  term : 1 < c.log.currentTerm ↔ 1 < c₀.log.currentTerm
  settings : c.settings = c₀.settings

theorem Bystander.refl (h : Sane c) (r : Nat) : Bystander u c { c with reads := r } :=
  ⟨h.reading r, ⟨[], by simp⟩, rfl, Iff.rfl, rfl⟩

theorem Bystander.reading (h : Bystander u c₀ c) (r : Nat) : Bystander u c₀ { c with reads := r } :=
  ⟨h.sane.reading r, h.log, h.member, h.term, h.settings⟩

theorem Bystander.watching (h : Bystander u c₀ c) (p : PresenceManager) : Bystander u c₀ (c.watching p) :=
  ⟨h.sane.watching p, h.log, h.member, h.term, h.settings⟩

/-- An event of somebody else. -/
theorem Bystander.logged (h : Bystander u c₀ c) {e : MembershipEvent} {out : List (MembershipEvent × MembershipDelta)}
    (hl : Logged c c' e 1 out) (hu : e.userId ≠ u) (p : PresenceManager) :
    Bystander u c₀ (c'.watching p).checkpointed where
  sane := (hl.sane.watching p).checkpointed
  log := by
    obtain ⟨es, hes, hne⟩ := h.log
    refine ⟨es ++ [e], ?_, fun x hx => ?_⟩
    · rw [checkpointed_log, watching_log, hl.log, ← List.append_assoc, ← hes]
      rfl
    · rcases List.mem_append.1 hx with hx | hx
      · exact hne x hx
      · rw [List.mem_singleton.1 hx]
        exact hu
  member := by
    rw [checkpointed_snapshot, watching_snapshot, hl.snapshot, Snapshot.get?_members_applyEvent hu.symm]
    exact h.member
  term := by
    rw [checkpointed_log, watching_log, hl.term, ← h.term]
    simp
  settings := hl.settings.trans h.settings

theorem Bystander.notSuspected (h : Bystander u c₀ c) : NotSuspected u c₀ c := by
  obtain ⟨es, hes, hne⟩ := h.log
  intro e he hu
  rw [hes, List.drop_left] at he
  exact absurd hu (hne e he)

variable (clock) in
/-- The liveness check is about tracked users; in the first term it raises
nothing. -/
theorem Sane.checkLiveness (h : Sane c) (hu : ¬ c.presence.Tracks u) :
    Prog.wp (exec clock) Membership.checkLiveness (fun _ => Bystander u c)
      (fun c' => 1 < c.log.currentTerm ∧ Bystander u c c') c := by
  simp only [Membership.checkLiveness, Prog.wp_bind, Prog.wp_lift, exec]
  refine Prog.wp_forEach (I := fun _ => Bystander u c) (.refl h _) fun v l c₁ hv hb => ?_
  have hne : v ≠ u := by
    rintro rfl
    obtain ⟨entry, hentry⟩ := (Dict.mem_keys_iff _).1 hv
    exact hu (by rw [PresenceManager.Tracks, hentry]; rfl)
  refine wp_checkMember hb.sane (fun ht => ⟨hb.term.1 ht, hb.watching _⟩) (fun _ => hb.watching _)
    fun ch _ _ e c' heu _ _ _ hl => ?_
  exact (hb.watching _).logged hl (heu ▸ hne) _

/-- A tick that finds no overdue backfill of the user. -/
theorem Sane.tick_spares (h : Sane c) (hu : ¬ c.presence.Tracks u)
    (hs : ¬ 1 < c.log.currentTerm → ¬ Overdue clock c u) :
    Prog.wp (exec clock) (Membership.tick c.settings) (fun _ => Bystander u c) (Bystander u c) c := by
  rw [Membership.tick, Prog.wp_bind]
  refine Prog.wp_mono (fun _ c₁ h₁ => ?_) (fun _ h₁ => h₁.2) (Prog.wp_self (h.checkLiveness clock hu))
  obtain ⟨hb, hc₁⟩ := h₁
  simp only [sweepBackfillTimeouts, Prog.wp_bind, Prog.wp_lift, exec]
  refine Prog.wp_forEach (I := fun _ => Bystander u c) (hb.reading _) fun p l c₂ hp hb₂ => ?_
  have hquiet := fun (_ : p.2.state ≠ .backfilling ∨ clock c₁.reads - p.2.joinedAt ≤ c.settings.backfillTimeoutS) => hb₂
  by_cases hpu : p.1 = u
  · -- the record of the user is the one before the tick
    have hget : c.snapshot.members.get? u = some p.2 := by
      rw [← hb.member, ← hpu]
      exact (Dict.mem_items_iff _).1 hp
    by_cases hlate : p.2.state = .backfilling ∧ clock c₁.reads - p.2.joinedAt > c.settings.backfillTimeoutS
    · refine wp_sweepMember hb₂.sane (fun _ => hb₂) hquiet fun _ ht => ?_
      refine absurd ⟨p.2, hget, hlate.1, ?_⟩ (hs fun hlt => ht (hb₂.term.2 hlt))
      rw [sweepTime, ← hc₁]
      exact hlate.2
    · simp only [sweepMember, Prog.wp_when, hlate]
      exact ⟨fun hf => absurd hf id, fun _ => hb₂⟩
  · refine wp_sweepMember hb₂.sane (fun _ => hb₂) hquiet fun _ _ e c' heu _ _ _ hl => ?_
    exact hb₂.logged hl (heu ▸ hpu) _

/-- A tick that finds one. -/
theorem Sane.tick_times_out (h : Sane c) (hu : ¬ c.presence.Tracks u) (ht : ¬ 1 < c.log.currentTerm)
    (hs : Overdue clock c u) :
    Prog.wp (exec clock) (Membership.tick c.settings) (fun _ c' => ¬ NotSuspected u c c') (fun _ => False) c := by
  obtain ⟨m, hm, hst, hlate⟩ := hs
  rw [Membership.tick, Prog.wp_bind]
  refine Prog.wp_mono (fun _ c₁ h₁ => ?_) (fun _ h₁ => absurd h₁.1 ht) (Prog.wp_self (h.checkLiveness clock hu))
  obtain ⟨hb, hc₁⟩ := h₁
  rw [sweepTime, ← hc₁] at hlate
  simp only [sweepBackfillTimeouts, Prog.wp_bind, Prog.wp_lift, exec]
  -- the record is still to come, or the timeout has been logged
  let I (l : List (String × MemberInfo)) (c' : Coordinator) : Prop :=
    Sane c' ∧ ¬ 1 < c'.log.currentTerm ∧ ∃ es, c'.log.log = c.log.log ++ es ∧
      ((u, m) ∈ l ∨ ∃ e ∈ es, e.userId = u ∧ e.eventType = .disconnectTimeout)
  have hstart : I c₁.snapshot.members.items { c₁ with reads := c₁.reads + 1 } := by
    obtain ⟨es, hes, -⟩ := hb.log
    refine ⟨hb.sane.reading _, fun hlt => ht (hb.term.1 hlt), es, hes, .inl ?_⟩
    rw [Dict.mem_items_iff]
    exact hb.member.trans hm
  refine Prog.wp_mono (fun _ c₂ h₂ => ?_) (fun _ hf => hf) (Prog.wp_forEach (I := I) hstart fun p l c₂ _ h₂ => ?_)
  · obtain ⟨-, -, es, hes, hin | ⟨e, he, heu, het⟩⟩ := h₂
    · cases hin
    · intro hn
      rw [NotSuspected, hes, List.drop_left] at hn
      exact (hn e he heu).2 het
  · obtain ⟨hsane, hterm, es, hes, hin⟩ := h₂
    refine wp_sweepMember hsane (fun hlt => absurd hlt hterm) (fun hq => ?_) fun _ _ e c' heu het _ _ hl => ?_
    · refine ⟨hsane, hterm, es, hes, hin.imp_left fun hmem => ?_⟩
      rcases List.mem_cons.1 hmem with rfl | hmem
      · rcases hq with hq | hq
        · exact absurd hst hq
        · exact absurd hlate (not_lt.2 hq)
      · exact hmem
    · refine ⟨(hl.sane.watching _).checkpointed, ?_, es ++ [e], ?_, ?_⟩
      · rw [checkpointed_log, watching_log, hl.term]
        simpa using hterm
      · rw [checkpointed_log, watching_log, hl.log, ← List.append_assoc, ← hes]
        rfl
      · rcases hin with hmem | ⟨x, hx, hxu⟩
        · rcases List.mem_cons.1 hmem with rfl | hmem
          · exact .inr ⟨e, by simp, heu, het⟩
          · exact .inl hmem
        · exact .inr ⟨x, List.mem_append_left _ hx, hxu⟩

/-! ## Runs -/

/-- A node without an entry for itself. -/
structure Unwatched (u : String) (c : Coordinator) : Prop where
  sane : Sane c
  localUser : c.settings.localUserId = some u
  untracked : ¬ c.presence.Tracks u

theorem Coordinator.settings_live (h : Sane c) (l : Life) : (c.live clock l).settings = c.settings := by
  cases l with
  | restart => rfl
  | call op =>
    by_cases hop : op = .recover
    · subst hop
      exact (Restored.recover c).settings
    · obtain ⟨es, hes⟩ : ∃ es, Ledger c es (c.step clock op) := Ledger.step h hop
      exact hes.settings

/-- What one event of the life of a node does to the entry. -/
theorem Unwatched.untracked_live_iff (h : Unwatched u c) (l : Life) :
    ¬ (c.live clock l).presence.Tracks u ↔
      ∀ e, l = .call (.remote e) → e.userId = u → e.eventType ≠ .joinAccepted ∧ e.eventType ≠ .heartbeat := by
  cases l with
  | restart =>
    refine ⟨fun _ e he => (nomatch he), fun _ => ?_⟩
    simp [Coordinator.live, Coordinator.restarted, Coordinator.new, PresenceManager.new, PresenceManager.Tracks]
  | call op =>
    cases hop : op.remoteEvent with
    | none =>
      refine ⟨fun _ e he => ?_, fun _ => untracked_step h.localUser hop h.untracked⟩
      cases he
      cases hop
    | some e =>
      obtain rfl : op = .remote e := by
        cases op with
        | remote e' => exact congrArg Op.remote (Option.some.inj hop)
        | _ => cases hop
      have hiff := tracks_remote clock h.sane e u
      constructor
      · intro hn e' he hu
        cases he
        refine ⟨fun ht => hn (hiff.2 (.inr ⟨hu.symm, .inl ht⟩)), fun ht => hn (hiff.2 (.inr ⟨hu.symm, .inr ht⟩))⟩
      · intro hs ht
        rcases hiff.1 ht with ht | ⟨hu, ht | ht⟩
        · exact h.untracked ht
        · exact (hs e rfl hu.symm).1 ht
        · exact (hs e rfl hu.symm).2 ht

theorem Unwatched.notSuspected_tick_iff (h : Unwatched u c) :
    NotSuspected u c (c.step clock .tick) ↔ (¬ 1 < c.log.currentTerm → ¬ Overdue clock c u) := by
  constructor
  · intro hn ht hlate
    have hwp := h.sane.tick_times_out h.untracked ht hlate
    exact Prog.wp_run (E := fun c' => ¬ NotSuspected u c c')
      (Prog.wp_mono (fun _ _ hq => hq) (fun _ hf => hf.elim) hwp) hn
  · intro hs
    exact Bystander.notSuspected (Prog.wp_run (h.sane.tick_spares h.untracked hs))

/-- One event of the life of a node. -/
theorem Unwatched.live_iff (h : Unwatched u c) (l : Life) :
    (¬ (c.live clock l).presence.Tracks u ∧ (l = .call .tick → NotSuspected u c (c.live clock l))) ↔
      Spares clock u c l := by
  rw [h.untracked_live_iff l]
  by_cases hl : l = .call .tick
  · subst hl
    refine ⟨fun hs => h.notSuspected_tick_iff.1 (hs.2 rfl), fun hs => ⟨fun e he => (nomatch he), fun _ => ?_⟩⟩
    exact h.notSuspected_tick_iff.2 hs
  · constructor
    · intro hs
      match l, hl with
      | .restart, _ => trivial
      | .call (.remote e), _ => exact hs.1 e rfl
      | .call .tick, hl => exact absurd rfl hl
      | .call (.join _ _ _ _ _), _ | .call (.startBackfill _), _ | .call (.completeBackfill _), _
      | .call (.heartbeat _), _ | .call (.leave _), _ | .call .recover, _ => trivial
    · intro hs
      refine ⟨fun e he => ?_, fun ht => absurd ht hl⟩
      subst he
      exact hs

theorem Unwatched.run_iff : ∀ {ls : List Life} {c : Coordinator}, Unwatched u c →
    (NeverSuspects clock u c ls ↔ RunSpares clock u c ls)
  | [], _, _ => Iff.rfl
  | l :: ls, c, h => by
    have hnext : ¬ (c.live clock l).presence.Tracks u → Unwatched u (c.live clock l) := fun ht =>
      ⟨h.sane.live l, (congrArg Settings.localUserId (Coordinator.settings_live h.sane l)).trans h.localUser, ht⟩
    constructor
    · rintro ⟨ht, hn, hrest⟩
      exact ⟨(h.live_iff l).1 ⟨ht, hn⟩, (hnext ht).run_iff.1 hrest⟩
    · rintro ⟨hs, hrest⟩
      obtain ⟨ht, hn⟩ := (h.live_iff l).2 hs
      exact ⟨ht, hn, (hnext ht).run_iff.2 hrest⟩

/-- **When a node does not suspect itself**: in a run of a node, at any
times, exactly when no join or heartbeat of it comes from another node and
no tick finds its backfill overdue. -/
theorem never_suspects_itself_iff (clock : Nat → Time) (roomId u : String) (second : Time) (ls : List Life) :
    NeverSuspects clock u (.new ⟨roomId, some u, second⟩ Dict.empty) ls ↔
      RunSpares clock u (.new ⟨roomId, some u, second⟩ Dict.empty) ls := by
  refine Unwatched.run_iff ⟨Sane.new _, rfl, ?_⟩
  simp [Coordinator.new, PresenceManager.new, PresenceManager.Tracks]

/-- The join of the node itself, as the seed's response brings it, and a
tick twenty seconds later. -/
def ownJoin : List Life :=
  [.call (.remote
    { seqNo := 1, roomId := "room", userId := "a:1", eventType := .joinAccepted, timestamp := 0
      membershipVersion := 1, source := "coordinator", term := 1 }), .call .tick]

/-- The node of the run, in seconds. -/
def joiner : Coordinator := .new ⟨"room", some "a:1", 1⟩ Dict.empty

/-- A clock that is read every twenty seconds. -/
def twentySeconds (n : Nat) : Time := 20 * n

theorem joiner_suspects_itself :
    ((ownJoin.take 1).foldl (Coordinator.live twentySeconds) joiner).presence.Tracks "a:1" ∧
    (∃ e ∈ (ownJoin.foldl (Coordinator.live twentySeconds) joiner).log.log,
      e.userId = "a:1" ∧ e.eventType = .disconnectSuspected) ∧
    ¬ NeverSuspects twentySeconds "a:1" joiner ownJoin := by
  have htracks : ((ownJoin.take 1).foldl (Coordinator.live twentySeconds) joiner).presence.Tracks "a:1" := by
    decide +kernel
  exact ⟨htracks, by decide +kernel, fun hn => hn.1 htracks⟩

end PeerChat.Membership
