/-
A member that falls silent: the failure detector of the coordinator, from
the heartbeats to the snapshot and the subscribers
(`MembershipCoordinator.tick`, `_handle_presence_change`,
`handle_heartbeat`).

`Stands` says that the snapshot, the presence and the subscribers agree with
a watch (`Lib.Watch`) that sees the heartbeats of the member and the ticks.
Every call that is not otherwise about the member keeps it, so the watch
decides what becomes of the member: `failure_detection`.
-/
import PeerChat.Lib.Watchdog
import PeerChat.Membership.Calls

namespace PeerChat.Membership

open Lib

/-- What the detector learns about a user from a call: a tick looks at the
time it begins, and a heartbeat is recorded at the second reading. -/
def signOf (clock : Nat → Time) (u : String) (c : Coordinator) : Op → List (Sign Time)
  | .tick => [.checked (clock c.reads)]
  | .heartbeat v => if v = u then [.heard (clock (c.reads + 1))] else []
  | _ => []

/-- What it learns from a run. -/
def signs (clock : Nat → Time) (u : String) : Coordinator → List Op → List (Sign Time)
  | _, [] => []
  | c, op :: ops => signOf clock u c op ++ signs clock u (c.step clock op) ops

/-- A call that is about the user in no other way than by a heartbeat, and
that does not restore a checkpoint or bring in another term. -/
def Regards (u : String) : Op → Prop
  | .join v _ _ _ _ | .leave v => v ≠ u
  | .remote e => e.userId ≠ u ∧ e.term ≤ 1
  | .recover => False
  | .startBackfill _ | .completeBackfill _ | .heartbeat _ | .tick => True

/-- The events about a user that were passed to the subscribers. -/
def heardOf (u : String) (c : Coordinator) : List EventType :=
  (c.dispatched.filter (·.1.userId = u)).map (·.1.eventType)

/-- The event that goes with a report. -/
def newsType : News → EventType
  | .suspected => .disconnectSuspected
  | .recovered => .reconnected
  | .gaveUp => .disconnectTimeout

/-- The silence after which a member is suspected, and the same again until
it is timed out. -/
def Settings.patience (cfg : Settings) : Time := 15 * cfg.second

/-- A presence with the periods of a coordinator. -/
structure Timed (cfg : Settings) (p : PresenceManager) : Prop where
  suspect : p.heartbeatIntervalS * p.suspectAfterMissed = cfg.patience
  dead : p.deadAfterSuspectS = cfg.patience

/-- The state and the entry of a user who is watched. -/
def Shows : Watch Time → Option MemberState → Option PresenceEntry → Prop
  | .alive s, st, entry => st = some .active ∧ ∃ x, entry = some x ∧ x.state = .alive ∧ x.lastHeartbeat = s
  | .suspected s, st, entry =>
    st = some .suspected ∧ ∃ x, entry = some x ∧ x.state = .suspected ∧ x.suspectedAt = some s
  | .gone, st, entry => st = some .disconnected ∧ entry = none

/-- The coordinator agrees with a watch over a user, of whom the subscribers
have heard these events. -/
structure Stands (cfg : Settings) (u : String) (w : Watch Time) (news : List EventType) (c : Coordinator) : Prop where
  sane : Sane c
  term : ¬ 1 < c.log.currentTerm
  settings : c.settings = cfg
  timed : Timed cfg c.presence
  shows : Shows w (c.snapshot.stateOf u) (c.presence.members.get? u)
  news : heardOf u c = news

variable {clock : Nat → Time} {cfg : Settings} {c c' : Coordinator} {u : String} {w : Watch Time}
  {news : List EventType}

/-! ## What leaves the watch alone -/

theorem Stands.watching (h : Stands cfg u w news c) {p : PresenceManager} (ht : Timed cfg p)
    (hp : p.members.get? u = c.presence.members.get? u) : Stands cfg u w news (c.watching p) where
  sane := h.sane.watching p
  term := h.term
  settings := h.settings
  timed := ht
  shows := by
    rw [watching_presence, hp]
    exact h.shows
  news := h.news

theorem Stands.reading (h : Stands cfg u w news c) (r : Nat) : Stands cfg u w news { c with reads := r } :=
  ⟨h.sane.reading r, h.term, h.settings, h.timed, h.shows, h.news⟩

theorem Stands.checkpointed (h : Stands cfg u w news c) : Stands cfg u w news c.checkpointed :=
  ⟨h.sane.checkpointed, h.term, h.settings, h.timed, h.shows, h.news⟩

theorem Stands.guarded (h : Stands cfg u w news c) (v : String) : Stands cfg u w news (c.guarded v) :=
  ⟨h.sane.guarded v, h.term, h.settings, h.timed, h.shows, h.news⟩

theorem heardOf_append {es : List (MembershipEvent × MembershipDelta)} (hd : c'.dispatched = c.dispatched ++ es) :
    heardOf u c' = heardOf u c ++ (es.filter (·.1.userId = u)).map (·.1.eventType) := by
  rw [heardOf, heardOf, hd, List.filter_append, List.map_append]

theorem fst_of_mem_deltas {s : Snapshot} {e : MembershipEvent} {x : MembershipEvent × MembershipDelta}
    (h : x ∈ deltas s e) : x.1 = e := by
  simp only [deltas, Option.mem_toList, Option.map_eq_some_iff] at h
  obtain ⟨d, -, rfl⟩ := h
  rfl

/-- The event of somebody else. -/
theorem Stands.logged (h : Stands cfg u w news c) {e : MembershipEvent} {t : Int}
    {out : List (MembershipEvent × MembershipDelta)} (hl : Logged c c' e t out) (ht : t ≤ 1) (hu : e.userId ≠ u)
    (hout : ∀ x ∈ out, x.1 = e) : Stands cfg u w news c' where
  sane := hl.sane
  term := by
    have := h.term
    rw [hl.term]
    omega
  settings := hl.settings.trans h.settings
  timed := by
    rw [hl.presence]
    exact h.timed
  shows := by
    rw [hl.state, if_neg (Ne.symm hu), hl.presence]
    exact h.shows
  news := by
    have hnone : out.filter (·.1.userId = u) = [] := by
      rw [List.filter_eq_nil_iff]
      intro x hx
      rw [hout x hx]
      simpa using hu
    rw [heardOf_append hl.dispatched, hnone, List.map_nil, List.append_nil]
    exact h.news

theorem Timed.registerMember {p : PresenceManager} (h : Timed cfg p) (now : Time) (v : String) :
    Timed cfg (p.registerMember now v) := ⟨h.suspect, h.dead⟩

theorem Timed.unregisterMember {p : PresenceManager} (h : Timed cfg p) (v : String) :
    Timed cfg (p.unregisterMember v) := ⟨h.suspect, h.dead⟩

theorem Timed.recordHeartbeat {p : PresenceManager} (h : Timed cfg p) (now : Time) (v : String) :
    Timed cfg (p.recordHeartbeat now v).1 := by
  unfold PresenceManager.recordHeartbeat
  cases p.members.get? v with
  | none => exact h
  | some entry =>
    simp only
    split
    · exact ⟨h.suspect, h.dead⟩
    · exact ⟨h.suspect, h.dead⟩

theorem Timed.checkEntry {p : PresenceManager} (h : Timed cfg p) (now : Time) (v : String) :
    Timed cfg (p.checkEntry now v).1 := by
  unfold PresenceManager.checkEntry
  cases p.members.get? v with
  | none => exact h
  | some entry =>
    cases hs : entry.state with
    | suspected => simpa only [hs] using h
    | alive =>
      simp only [hs]
      split
      · exact ⟨h.suspect, h.dead⟩
      · exact h

theorem get?_registerMember (p : PresenceManager) (now : Time) {v : String} (h : v ≠ u) :
    (p.registerMember now v).members.get? u = p.members.get? u := Dict.get?_set_of_ne _ _ h.symm

theorem get?_unregisterMember (p : PresenceManager) {v : String} (h : v ≠ u) :
    (p.unregisterMember v).members.get? u = p.members.get? u := by
  simp only [PresenceManager.unregisterMember, Dict.get?_erase, h.symm, if_false]

theorem get?_recordHeartbeat (p : PresenceManager) (now : Time) {v : String} (h : v ≠ u) :
    (p.recordHeartbeat now v).1.members.get? u = p.members.get? u := by
  unfold PresenceManager.recordHeartbeat
  cases p.members.get? v with
  | none => rfl
  | some entry =>
    simp only
    split
    · exact Dict.get?_set_of_ne _ _ h.symm
    · exact Dict.get?_set_of_ne _ _ h.symm

/-- A presence change of somebody else, that no exception ends. -/
theorem Stands.presenceChange (h : Stands cfg u w news c) {v : String} (hv : v ≠ u) (ch : ChangeType)
    {E : Coordinator → Prop} :
    Prog.wp (exec clock) (handlePresenceChange v ch) (fun _ => Stands cfg u w news) E c := by
  refine wp_handlePresenceChange h.sane (fun _ => h) (fun ht => absurd ht h.term) fun _ e c' heu _ _ _ hl => ?_
  have h' : Stands cfg u w news c' := h.logged hl (le_refl 1) (heu ▸ hv) fun _ hx => fst_of_mem_deltas hx
  by_cases hch : ch = .timeout
  · rw [if_pos hch]
    exact (h'.watching (h'.timed.unregisterMember v) (get?_unregisterMember _ hv)).checkpointed
  · rw [if_neg hch]
    exact (h'.watching h'.timed rfl).checkpointed

theorem Stands.join (h : Stands cfg u w news c) {v : String} (hv : v ≠ u) (name : String) (key : Option Bytes)
    (trace : Option String) (x : Verdict) :
    Prog.wp (exec clock) (Op.prog c.settings (.join v name key trace x)) (fun _ => Stands cfg u w news)
      (Stands cfg u w news) c := by
  have hg := h.guarded v
  refine wp_join h.sane hg hg (fun e c' heu _ _ _ hl => ?_) fun e c' heu _ _ _ hl => ?_
  · exact hg.logged hl (le_refl 1) (heu ▸ hv) fun y hy => by rw [List.mem_singleton.1 hy]
  · have h' : Stands cfg u w news c' := hg.logged hl (le_refl 1) (heu ▸ hv) fun _ hy => fst_of_mem_deltas hy
    split
    · have hreg := h'.watching (h'.timed.registerMember (clock c'.reads) v) (get?_registerMember _ _ hv)
      exact (hreg.reading _).checkpointed
    · exact h'.checkpointed

theorem Stands.leave (h : Stands cfg u w news c) {v : String} (hv : v ≠ u) :
    Prog.wp (exec clock) (handleLeave v) (fun _ => Stands cfg u w news) (Stands cfg u w news) c := by
  have hgo {c' : Coordinator} (h' : Stands cfg u w news c') :
      Stands cfg u w news (c'.watching (c'.presence.unregisterMember v)).checkpointed :=
    (h'.watching (h'.timed.unregisterMember v) (get?_unregisterMember _ hv)).checkpointed
  refine wp_handleLeave h.sane (fun _ => h) (fun _ => h) (fun _ _ e c' heu _ _ _ hl => ?_)
    fun _ _ _ _ _ _ e₁ c₁ e₂ c₂ heu₁ _ heu₂ _ _ _ hl₁ hl₂ => ?_
  · exact hgo (h.logged hl (le_refl 1) (heu ▸ hv) fun _ hx => fst_of_mem_deltas hx)
  · have h₁ : Stands cfg u w news c₁ := h.logged hl₁ (le_refl 1) (heu₁ ▸ hv) (by simp)
    exact hgo (h₁.logged hl₂ (le_refl 1) (heu₂ ▸ hv) fun _ hx => fst_of_mem_deltas hx)

theorem Stands.remote (h : Stands cfg u w news c) {event : MembershipEvent} (hu : event.userId ≠ u)
    (ht : event.term ≤ 1) :
    Prog.wp (exec clock) (applyRemoteEvent event) (fun _ => Stands cfg u w news) (Stands cfg u w news) c := by
  refine wp_remote h.sane fun e c' he hl => ?_
  have heu : e.userId ≠ u := he ▸ hu
  have h' : Stands cfg u w news c' := h.logged hl ht heu fun _ hx => fst_of_mem_deltas hx
  have h₁ := (h'.watching (h'.timed.registerMember (clock c'.reads) e.userId)
    (get?_registerMember _ _ heu)).reading (c'.reads + 1)
  have h₂ := (h₁.watching (h₁.timed.recordHeartbeat (clock (c'.reads + 1)) e.userId)
    (get?_recordHeartbeat _ _ heu)).reading (c'.reads + 2)
  simp only [Prog.wp_bind, Prog.wp_when, Prog.wp_lift, exec]
  refine ⟨fun _ => ⟨fun _ => ⟨fun _ => ?_, fun _ => ?_⟩, fun _ => ?_⟩, fun _ => ?_⟩
  · exact Prog.wp_mono (fun _ _ hi => hi.checkpointed) (fun _ hi => hi) (h₂.presenceChange heu _)
  · exact h₂.checkpointed
  · exact h₁.checkpointed
  · exact h'.checkpointed

/-- Nobody who is watched is in a backfill. -/
theorem Shows.ne {st : Option MemberState} {entry : Option PresenceEntry} (h : Shows w st entry) :
    st ≠ none ∧ st ≠ some .joining ∧ st ≠ some .backfilling := by
  match w, h with
  | .alive _, ⟨h, _⟩ => simp [h]
  | .suspected _, ⟨h, _⟩ => simp [h]
  | .gone, ⟨h, _⟩ => simp [h]

theorem Stands.moveBackfill (h : Stands cfg u w news c) {from_ : MemberState} {t : EventType} {v : String}
    (hf : from_ = .joining ∨ from_ = .backfilling) :
    Prog.wp (exec clock) (moveBackfill from_ t v) (fun _ => Stands cfg u w news) (Stands cfg u w news) c := by
  refine wp_moveBackfill h.sane (fun _ => h) (fun _ => h) fun _ hst e c' heu _ _ _ hl => ?_
  have hv : v ≠ u := by
    intro hv
    obtain ⟨-, hj, hb⟩ := h.shows.ne
    rw [hv] at hst
    rcases hf with rfl | rfl
    · exact hj hst
    · exact hb hst
  exact (h.logged hl (le_refl 1) (heu ▸ hv) fun _ hx => fst_of_mem_deltas hx).checkpointed

/-! ## Heartbeats -/

/-- An event of the user itself, with its delta. -/
theorem Stands.moved (h : Stands cfg u w news c) {p₀ p : PresenceManager} {e : MembershipEvent} {d : DeltaType}
    {w' : Watch Time} (hl : Logged (c.watching p₀) c' e 1 (deltas c.snapshot e)) (heu : e.userId = u)
    (hd : deltaType e.eventType = some d) (hv : isTransitionValid e.eventType (c.snapshot.stateOf u) = true)
    (hp : Timed cfg p) (hs : Shows w' (target e.eventType (c.snapshot.stateOf u)) (p.members.get? u)) :
    Stands cfg u w' (news ++ [e.eventType]) (c'.watching p) where
  sane := hl.sane.watching p
  term := by
    have hterm : c'.log.currentTerm = max 1 c.log.currentTerm := hl.term
    have := h.term
    rw [watching_log, hterm]
    omega
  settings := hl.settings.trans h.settings
  timed := hp
  shows := by
    have hstate : c'.snapshot.stateOf u = target e.eventType (c.snapshot.stateOf u) := by
      rw [hl.state, if_pos heu.symm, watching_snapshot, transition, if_pos hv]
    rw [watching_snapshot, watching_presence, hstate]
    exact hs
  news := by
    have hdelta : deltas c.snapshot e = [(e, ⟨d, e.userId, e⟩)] := deltas_of_valid (heu ▸ hv) hd
    have hout := heardOf_append (u := u) hl.dispatched
    rw [hdelta] at hout
    have hsame : heardOf u (c.watching p₀) = news := h.news
    rw [show heardOf u (c'.watching p) = heardOf u c' from rfl, hout, hsame]
    simp [heu]

/-- The heartbeat event leaves its user where it is. -/
theorem Stands.beat (h : Stands cfg u w news c) {e : MembershipEvent} (hl : Logged c c' e 1 [])
    (het : e.eventType = .heartbeat) : Stands cfg u w news c' where
  sane := hl.sane
  term := by
    have := h.term
    rw [hl.term]
    omega
  settings := hl.settings.trans h.settings
  timed := by
    rw [hl.presence]
    exact h.timed
  shows := by
    rw [hl.state, het, transition_heartbeat, ite_self, hl.presence]
    exact h.shows
  news := by
    rw [heardOf_append hl.dispatched]
    simpa using h.news

/-- The heartbeat of a user who has a record, with the readings it takes. -/
theorem wp_heartbeat_known (h : Sane c) (ht : ¬ 1 < c.log.currentTerm) (hu : c.snapshot.stateOf u ≠ none)
    {Q : Unit → Coordinator → Prop} {E : Coordinator → Prop}
    (hQ : ∀ e c', e.userId = u → e.eventType = .heartbeat → Logged c c' e 1 [] →
      let p := c'.presence.recordHeartbeat (clock (c.reads + 1)) u
      if p.2 = true then
        Prog.wp (exec clock) (handlePresenceChange u .reconnected) (fun _ c => Q () c.checkpointed) E
          { c'.watching p.1 with reads := c.reads + 2 }
      else Q () { c'.watching p.1 with reads := c.reads + 2 }.checkpointed) :
    Prog.wp (exec clock) (handleHeartbeat u) Q E c := by
  obtain ⟨m, hm⟩ := Option.ne_none_iff_exists'.1 (fun hn => hu (getMember_eq_none hn))
  let a : NewEvent :=
    { eventType := .heartbeat, userId := u, source := "coordinator", term := 1, displayName := m.displayName }
  have hl := h.logged (c.log.stamp (clock c.reads) a) a.term (c.reads + 1) [] rfl rfl
  have hq := hQ _ _ rfl rfl hl
  simp only [List.append_nil] at hq
  simp only [handleHeartbeat, Prog.wp_bind, Prog.wp_lift, exec, hm, EventLog.append, ht, if_false, Prog.wp_when]
  split at hq
  · next hr => exact ⟨fun _ => hq, fun hn => absurd hr hn⟩
  · next hr => exact ⟨fun hn => absurd hn hr, fun _ => hq⟩

/-- What a watch makes of a sign, and what the subscribers hear of it. -/
def Stands.Next (cfg : Settings) (u : String) (w : Watch Time) (news : List EventType) (x : Sign Time) :
    Coordinator → Prop :=
  Stands cfg u (w.step cfg.patience cfg.patience x) (news ++ (w.report cfg.patience cfg.patience x).map newsType)

theorem Stands.heartbeat (h : Stands cfg u w news c) {E : Coordinator → Prop} :
    Prog.wp (exec clock) (handleHeartbeat u)
      (fun _ => Stands.Next cfg u w news (.heard (clock (c.reads + 1)))) E c := by
  refine wp_heartbeat_known h.sane h.term h.shows.ne.1 fun e c' _ het hl => ?_
  have hb := h.beat hl het
  have hp := hb.timed.recordHeartbeat (clock (c.reads + 1)) u
  cases w with
  | gone =>
    obtain ⟨hst, hentry⟩ := hb.shows
    have hrec : c'.presence.recordHeartbeat (clock (c.reads + 1)) u = (c'.presence, false) := by
      simp [PresenceManager.recordHeartbeat, hentry]
    simp only [hrec, Bool.false_eq_true, if_false]
    have hkept := (hb.reading (c.reads + 2)).checkpointed
    simpa [Stands.Next, Watch.step, Watch.report] using hkept
  | alive s =>
    obtain ⟨hst, entry, hentry, halive, -⟩ := hb.shows
    have hquiet : (c'.presence.recordHeartbeat (clock (c.reads + 1)) u).2 = false := by
      refine recordHeartbeat_of_not_doubts (fun hdoubts => ?_) _
      obtain ⟨x, hx, hsus⟩ := hdoubts
      cases hentry.symm.trans hx
      rw [halive] at hsus
      cases hsus
    simp only [hquiet, Bool.false_eq_true, if_false, Stands.Next, Watch.step, Watch.report, List.map_nil,
      List.append_nil]
    have hshow : Shows (.alive (clock (c.reads + 1))) (c'.snapshot.stateOf u)
        ((c'.presence.recordHeartbeat (clock (c.reads + 1)) u).1.members.get? u) :=
      ⟨hst, { entry with lastHeartbeat := clock (c.reads + 1) },
        by simp [PresenceManager.recordHeartbeat, hentry, halive], halive, rfl⟩
    exact ⟨((hb.sane.watching _).reading _).checkpointed, hb.term, hb.settings, hp, hshow, hb.news⟩
  | suspected s =>
    obtain ⟨hst, entry, hentry, hsus, -⟩ := hb.shows
    have hdoubt : (c'.presence.recordHeartbeat (clock (c.reads + 1)) u).2 = true :=
      (recordHeartbeat_of_doubts ⟨entry, hentry, hsus⟩ _).1
    have hs := (hb.sane.watching (c'.presence.recordHeartbeat (clock (c.reads + 1)) u).1).reading (c.reads + 2)
    simp only [hdoubt, if_true]
    refine wp_handlePresenceChange hs (fun hn => ?_) (fun ht => absurd ht hb.term) fun _ e₂ c₂ heu₂ het₂ _ _ hl₂ => ?_
    · rw [show c'.snapshot.stateOf u = none from hn] at hst
      cases hst
    · rw [if_neg (by decide), watching_self]
      have hpres : c₂.presence = (c'.presence.recordHeartbeat (clock (c.reads + 1)) u).1 := hl₂.presence
      have hshow : Shows (.alive (clock (c.reads + 1))) (target e₂.eventType (c'.snapshot.stateOf u))
          (c₂.presence.members.get? u) := by
        refine ⟨by rw [het₂]; rfl,
          { entry with lastHeartbeat := clock (c.reads + 1), state := .alive, suspectedAt := none }, ?_, rfl, rfl⟩
        rw [hpres]
        simp [PresenceManager.recordHeartbeat, hentry, hsus]
      have hmoved := (hb.reading (c.reads + 2)).moved (p := c₂.presence) hl₂ heu₂
        (by rw [het₂]; rfl) (by rw [het₂]; exact hst ▸ rfl) (hpres ▸ hp) hshow
      rw [het₂, watching_self] at hmoved
      exact hmoved.checkpointed.checkpointed

/-- The heartbeat of somebody else. -/
theorem Stands.otherHeartbeat (h : Stands cfg u w news c) {v : String} (hv : v ≠ u) :
    Prog.wp (exec clock) (handleHeartbeat v) (fun _ => Stands cfg u w news) (Stands cfg u w news) c := by
  refine wp_handleHeartbeat h.sane (fun _ => h) (fun _ => h) fun _ e c' heu _ hl => ?_
  have h' : Stands cfg u w news c' := h.logged hl (le_refl 1) (heu ▸ hv) (by simp)
  have h₁ := (h'.watching (h'.timed.recordHeartbeat (clock c'.reads) v) (get?_recordHeartbeat _ _ hv)).reading
    (c'.reads + 1)
  simp only
  split
  · exact Prog.wp_mono (fun _ _ hi => hi.checkpointed) (fun _ hi => hi) (h₁.presenceChange hv .reconnected)
  · exact h₁.checkpointed

/-! ## Ticks -/

/-- The round of somebody else. -/
theorem Stands.checkOther (h : Stands cfg u w news c) (now : Time) {v : String} (hv : v ≠ u) {E : Coordinator → Prop} :
    Prog.wp (exec clock) (checkMember now v) (fun _ => Stands cfg u w news) E c := by
  have h₁ : Stands cfg u w news (c.watching (c.presence.checkEntry now v).1) :=
    h.watching (h.timed.checkEntry now v) (PresenceManager.get?_checkEntry _ _ hv.symm)
  refine wp_checkMember h.sane (fun ht => absurd ht h.term) (fun _ => h₁) fun ch _ _ e c' heu _ _ _ hl => ?_
  have h' : Stands cfg u w news c' := h₁.logged hl (le_refl 1) (heu ▸ hv) fun _ hx => fst_of_mem_deltas hx
  by_cases hch : ch = .timeout
  · rw [if_pos hch]
    exact (h'.watching (h'.timed.unregisterMember v) (get?_unregisterMember _ hv)).checkpointed
  · rw [if_neg hch]
    exact (h'.watching h'.timed rfl).checkpointed

/-- What a check finds of a user who is watched: nothing new, silence, or
silence that has lasted. -/
theorem checkEntry_of_shows {p : PresenceManager} {st : Option MemberState} (ht : Timed cfg p)
    (h : Shows w st (p.members.get? u)) (now : Time) :
    (p.checkEntry now u = (p, none) ∧ w.step cfg.patience cfg.patience (.checked now) = w ∧
      w.report cfg.patience cfg.patience (.checked now) = []) ∨
    (∃ s, w = .alive s ∧ now - s > cfg.patience ∧ (p.checkEntry now u).2 = some .suspected ∧
      Shows (.suspected now) (some .suspected) ((p.checkEntry now u).1.members.get? u)) ∨
    ∃ s, w = .suspected s ∧ now - s > cfg.patience ∧ (p.checkEntry now u).2 = some .timeout := by
  match w, h with
  | .gone, ⟨_, hentry⟩ => exact .inl ⟨by simp [PresenceManager.checkEntry, hentry], rfl, rfl⟩
  | .alive s, ⟨_, entry, hentry, halive, hs⟩ =>
    by_cases hlate : now - s > cfg.patience
    · refine .inr (.inl ⟨s, rfl, hlate, ?_, rfl,
        { entry with state := .suspected, suspectedAt := some now }, ?_, rfl, rfl⟩)
      · simp [PresenceManager.checkEntry, hentry, halive, hs, ht.suspect, hlate]
      · simp [PresenceManager.checkEntry, hentry, halive, hs, ht.suspect, hlate]
    · refine .inl ⟨?_, by simp [Watch.step, hlate], by simp [Watch.report, hlate]⟩
      simp [PresenceManager.checkEntry, hentry, halive, hs, ht.suspect, hlate]
  | .suspected s, ⟨_, entry, hentry, hsus, hs⟩ =>
    by_cases hlate : now - s > cfg.patience
    · refine .inr (.inr ⟨s, rfl, hlate, ?_⟩)
      simp [PresenceManager.checkEntry, PresenceManager.dead, hentry, hsus, hs, ht.dead, hlate]
    · refine .inl ⟨?_, by simp [Watch.step, hlate], by simp [Watch.report, hlate]⟩
      simp [PresenceManager.checkEntry, PresenceManager.dead, hentry, hsus, hs, ht.dead, hlate]

/-- The round of the user. -/
theorem Stands.checkSelf (h : Stands cfg u w news c) (now : Time) {E : Coordinator → Prop} :
    Prog.wp (exec clock) (checkMember now u) (fun _ => Stands.Next cfg u w news (.checked now)) E c := by
  have hp := h.timed.checkEntry now u
  refine wp_checkMember h.sane (fun ht => absurd ht h.term) (fun hq => ?_) fun ch hch _ e c' heu het _ _ hl => ?_
  · have hnone := hq.resolve_right h.shows.ne.1
    obtain ⟨hcheck, hstep, hreport⟩ | ⟨_, _, _, hsus, _⟩ | ⟨_, _, _, hto⟩ := checkEntry_of_shows h.timed h.shows now
    · rw [hcheck, watching_self, Stands.Next, hstep, hreport]
      simpa using h
    · simp [hnone] at hsus
    · simp [hnone] at hto
  · have hpres : c'.presence = (c.presence.checkEntry now u).1 := hl.presence
    obtain ⟨hcheck, _, _⟩ | ⟨s, rfl, hlate, hsus, hshow⟩ | ⟨s, rfl, hlate, hto⟩ :=
      checkEntry_of_shows h.timed h.shows now
    · simp [hcheck] at hch
    · -- the first check that finds the silence
      obtain rfl : ChangeType.suspected = ch := Option.some.inj (hsus.symm.trans hch)
      have hst : c.snapshot.stateOf u = some .active := h.shows.1
      have het' : e.eventType = newsType .suspected := het
      have hmoved : Stands cfg u (.suspected now) (news ++ [e.eventType]) (c'.watching c'.presence) :=
        h.moved hl heu (by rw [het]; rfl) (by rw [het, hst]; rfl) (hpres ▸ hp) (by rw [het, hpres]; exact hshow)
      rw [het'] at hmoved
      rw [if_neg (by decide), Stands.Next, Watch.step, Watch.report, if_pos hlate, if_pos hlate]
      exact hmoved.checkpointed
    · -- the first that finds the suspicion old
      obtain rfl : ChangeType.timeout = ch := Option.some.inj (hto.symm.trans hch)
      have hst : c.snapshot.stateOf u = some .suspected := h.shows.1
      have het' : e.eventType = newsType .gaveUp := het
      have hmoved : Stands cfg u .gone (news ++ [e.eventType]) (c'.watching (c'.presence.unregisterMember u)) :=
        h.moved hl heu (by rw [het]; rfl) (by rw [het, hst]; rfl) ((hpres ▸ hp).unregisterMember u)
        ⟨by rw [het]; rfl, by simp [PresenceManager.unregisterMember]⟩
      rw [het'] at hmoved
      rw [if_pos rfl, Stands.Next, Watch.step, Watch.report, if_pos hlate, if_pos hlate]
      exact hmoved.checkpointed

/-- The loop of `check_liveness`: before the round of the user the watch
stands as it did, and from there on it has seen the check. -/
theorem Stands.checks (h : Stands cfg u w news c) {E : Coordinator → Prop} :
    Prog.wp (exec clock) (Prog.forEach (checkMember (clock c.reads)) c.presence.members.keys)
      (fun _ => Stands.Next cfg u w news (.checked (clock c.reads))) E { c with reads := c.reads + 1 } := by
  refine Prog.wp_mono (fun _ c' hc' => hc'.2.2 (by simp)) (fun _ he => he) (Prog.wp_forEach
    (I := fun l c' => l.Nodup ∧ (u ∈ l → Stands cfg u w news c') ∧
      (u ∉ l → Stands.Next cfg u w news (.checked (clock c.reads)) c')) ?_ ?_)
  · refine ⟨c.presence.members.nodup, fun _ => h.reading _, fun hn => ?_⟩
    have hentry : c.presence.members.get? u = none := by
      cases hg : c.presence.members.get? u with
      | none => rfl
      | some entry => exact absurd ((Dict.mem_keys_iff _).2 ⟨entry, hg⟩) hn
    match w, h with
    | .gone, h => simpa [Stands.Next, Watch.step, Watch.report] using h.reading (c.reads + 1)
    | .alive s, h =>
      obtain ⟨-, entry, hsome, -⟩ := h.shows
      rw [hentry] at hsome
      cases hsome
    | .suspected s, h =>
      obtain ⟨-, entry, hsome, -⟩ := h.shows
      rw [hentry] at hsome
      cases hsome
  · rintro v l c₁ - ⟨hnodup, hin, hout⟩
    obtain ⟨hv, hl⟩ := List.nodup_cons.1 hnodup
    by_cases hvu : v = u
    · subst hvu
      exact Prog.wp_mono (fun _ _ hn => ⟨hl, fun hm => absurd hm hv, fun _ => hn⟩) (fun _ he => he)
        ((hin (by simp)).checkSelf _)
    · by_cases hu : u ∈ l
      · exact Prog.wp_mono (fun _ _ hs => ⟨hl, fun _ => hs, fun hn => absurd hu hn⟩) (fun _ he => he)
          ((hin (by simp [hu])).checkOther _ hvu)
      · exact Prog.wp_mono (fun _ _ hs => ⟨hl, fun hm => absurd hm hu, fun _ => hs⟩) (fun _ he => he)
          (Stands.checkOther (hout (by simp [hu, Ne.symm hvu])) _ hvu)

/-- The loop of `_sweep_backfill_timeouts` passes the user by. -/
theorem Stands.sweep (h : Stands cfg u w news c) (settings : Settings) (now : Time) (r : Nat)
    {E : Coordinator → Prop} :
    Prog.wp (exec clock) (Prog.forEach (sweepMember settings now) c.snapshot.members.items)
      (fun _ => Stands cfg u w news) E { c with reads := r } := by
  refine Prog.wp_mono (fun _ _ hc' => hc') (fun _ he => he)
    (Prog.wp_forEach (I := fun _ => Stands cfg u w news) (h.reading r) fun p l c₁ hp h₁ => ?_)
  refine wp_sweepMember h₁.sane (fun ht => absurd ht h₁.term) (fun _ => h₁) fun hb _ e c' heu _ _ _ hl => ?_
  have hne : p.1 ≠ u := by
    intro hpu
    have hst : c.snapshot.stateOf u = some p.2.state := by
      rw [← hpu, Snapshot.stateOf, (Dict.mem_items_iff _).1 hp]
      rfl
    exact h.shows.ne.2.2 (by rw [hst, hb])
  have h' : Stands cfg u w news c' := h₁.logged hl (le_refl 1) (heu ▸ hne) fun _ hx => fst_of_mem_deltas hx
  exact (h'.watching (h'.timed.unregisterMember p.1) (get?_unregisterMember _ hne)).checkpointed

theorem Stands.tick (h : Stands cfg u w news c) {E : Coordinator → Prop} :
    Prog.wp (exec clock) (Membership.tick c.settings) (fun _ => Stands.Next cfg u w news (.checked (clock c.reads)))
      E c :=
  wp_tick (R := Stands.Next cfg u w news (.checked (clock c.reads))) c.settings h.checks fun _ h₁ =>
    Stands.sweep h₁ _ _ _

/-! ## Runs -/

variable (clock) in
theorem Stands.step (h : Stands cfg u w news c) {op : Op} (hop : Regards u op) :
    Stands cfg u (w.run cfg.patience cfg.patience (signOf clock u c op))
      (news ++ (w.news cfg.patience cfg.patience (signOf clock u c op)).map newsType) (c.step clock op) := by
  have hquiet (hs : signOf clock u c op = []) (hk : Stands cfg u w news (c.step clock op)) :
      Stands cfg u (w.run cfg.patience cfg.patience (signOf clock u c op))
        (news ++ (w.news cfg.patience cfg.patience (signOf clock u c op)).map newsType) (c.step clock op) := by
    rw [hs]
    simpa [Watch.run, Watch.news] using hk
  have hnext {x : Sign Time} (hs : signOf clock u c op = [x]) (hk : Stands.Next cfg u w news x (c.step clock op)) :
      Stands cfg u (w.run cfg.patience cfg.patience (signOf clock u c op))
        (news ++ (w.news cfg.patience cfg.patience (signOf clock u c op)).map newsType) (c.step clock op) := by
    rw [hs]
    simpa [Watch.run, Watch.news, Stands.Next] using hk
  cases op with
  | join v name key trace x => exact hquiet rfl (Prog.wp_run (h.join hop name key trace x))
  | startBackfill v => exact hquiet rfl (Prog.wp_run (h.moveBackfill (.inl rfl)))
  | completeBackfill v => exact hquiet rfl (Prog.wp_run (h.moveBackfill (.inr rfl)))
  | leave v => exact hquiet rfl (Prog.wp_run (h.leave hop))
  | remote e => exact hquiet rfl (Prog.wp_run (h.remote hop.1 hop.2))
  | recover => exact hop.elim
  | tick => exact hnext rfl (Prog.wp_run h.tick)
  | heartbeat v =>
    by_cases hv : v = u
    · subst hv
      exact hnext (by simp [signOf]) (Prog.wp_run h.heartbeat)
    · exact hquiet (by simp [signOf, hv]) (Prog.wp_run (h.otherHeartbeat hv))

variable (clock) in
theorem Stands.run : ∀ {ops : List Op} {c : Coordinator} {w : Watch Time} {news : List EventType},
    Stands cfg u w news c → (∀ op ∈ ops, Regards u op) →
      Stands cfg u (w.run cfg.patience cfg.patience (signs clock u c ops))
        (news ++ (w.news cfg.patience cfg.patience (signs clock u c ops)).map newsType) (c.run clock ops)
  | [], c, w, news, h, _ => by simpa [signs, Watch.run, Watch.news, Coordinator.run] using h
  | op :: ops, c, w, news, h, hops => by
    have hrest := Stands.run (h.step clock (hops op (by simp)))
      fun x hx => hops x (List.mem_cons_of_mem _ hx)
    rw [signs, Watch.run_append, Watch.news_append, List.map_append, ← List.append_assoc]
    exact hrest

/-! ## Time -/

theorem wp_reads {α : Type} (p : Action α) (c : Coordinator) :
    Prog.wp (exec clock) p (fun _ c' => c.reads ≤ c'.reads) (fun c' => c.reads ≤ c'.reads) c := by
  have hcmd {β : Type} (cmd : Cmd β) (c : Coordinator) : c.reads ≤ (exec clock cmd c).2.reads := by
    cases cmd with
    | append a =>
      simp only [exec]
      split
      · exact le_refl _
      · exact Nat.le_succ _
    | restore =>
      simp only [exec]
      split
      · exact le_refl _
      · exact le_refl _
    | now | registerMember v | recordHeartbeat v => exact Nat.le_succ _
    | _ => exact le_refl _
  induction p generalizing c with
  | pure a => exact le_refl c.reads
  | raise e => exact le_refl c.reads
  | op cmd k ih =>
    have hc := hcmd cmd c
    rw [Prog.wp_op]
    rcases he : exec clock cmd c with ⟨e | b, c₁⟩
    · rw [he] at hc
      exact hc
    · rw [he] at hc
      exact Prog.wp_mono (fun _ _ h => hc.trans h) (fun _ h => hc.trans h) (ih b c₁)

theorem reads_step (c : Coordinator) (op : Op) : c.reads ≤ (c.step clock op).reads :=
  Prog.wp_run (E := fun c' : Coordinator => c.reads ≤ c'.reads) (wp_reads _ c)

/-- The clock does not go back. -/
def Forward (clock : Nat → Time) : Prop := ∀ ⦃i j⦄, i ≤ j → clock i ≤ clock j

/-- The signs of a call come before what is read after it. -/
theorem Stands.time_le (h : Stands cfg u w news c) (hclock : Forward clock) {op : Op} {x : Sign Time}
    (hx : x ∈ signOf clock u c op) : clock c.reads ≤ x.time ∧ x.time ≤ clock (c.step clock op).reads := by
  cases op with
  | tick =>
    rw [List.mem_singleton.1 hx]
    exact ⟨Int.le_refl _, hclock (reads_step c .tick)⟩
  | heartbeat v =>
    simp only [signOf] at hx
    split at hx
    · next hv =>
      subst hv
      rw [List.mem_singleton.1 hx]
      refine ⟨hclock (Nat.le_succ _), hclock ?_⟩
      refine Prog.wp_run (E := fun c' : Coordinator => c.reads + 1 ≤ c'.reads) ?_
      refine wp_heartbeat_known h.sane h.term h.shows.ne.1 fun e c' _ _ _ => ?_
      simp only
      split
      · refine Prog.wp_mono (fun _ c'' hc'' => ?_) (fun c'' hc'' => ?_) (wp_reads _ _)
        · exact (Nat.le_succ _).trans hc''
        · exact (Nat.le_succ _).trans hc''
      · exact Nat.le_succ _
    · cases hx
  | _ => cases hx

theorem Stands.sorted (hclock : Forward clock) : ∀ {ops : List Op} {c : Coordinator} {w : Watch Time}
    {news : List EventType}, Stands cfg u w news c → (∀ op ∈ ops, Regards u op) →
      (signs clock u c ops).Pairwise (fun x y => x.time ≤ y.time) ∧ ∀ x ∈ signs clock u c ops, clock c.reads ≤ x.time
  | [], _, _, _, _, _ => ⟨.nil, nofun⟩
  | op :: ops, c, w, news, h, hops => by
    obtain ⟨hsorted, hlater⟩ := Stands.sorted hclock (h.step clock (hops op (by simp)))
      fun x hx => hops x (List.mem_cons_of_mem _ hx)
    have hone : (signOf clock u c op).Pairwise fun x y => x.time ≤ y.time := by
      cases op with
      | heartbeat v =>
        simp only [signOf]
        split
        · exact List.pairwise_singleton _ _
        · exact .nil
      | tick => exact List.pairwise_singleton _ _
      | _ => exact .nil
    refine ⟨List.pairwise_append.2 ⟨hone, hsorted, fun x hx y hy => ?_⟩, fun x hx => ?_⟩
    · exact (h.time_le hclock hx).2.trans (hlater y hy)
    · rcases List.mem_append.1 hx with hx | hx
      · exact (h.time_le hclock hx).1
      · exact (hclock (reads_step c op)).trans (hlater x hx)

/-! ## The periods -/

variable (clock) in
theorem Timed.command {β : Type} (cmd : Cmd β) (c : Coordinator) (h : Timed c.settings c.presence) :
    Timed (exec clock cmd c).2.settings (exec clock cmd c).2.presence := by
  cases cmd with
  | append a =>
    simp only [exec]
    split
    · exact h
    · exact h
  | restore =>
    simp only [exec]
    split
    · exact h
    · exact h
  | registerMember v => exact h.registerMember _ v
  | unregisterMember v => exact h.unregisterMember v
  | recordHeartbeat v => exact h.recordHeartbeat _ v
  | checkEntry now v => exact h.checkEntry now v
  | _ => exact h

theorem Timed.prog {α : Type} (p : Action α) : ∀ {c : Coordinator}, Timed c.settings c.presence →
    Timed (p.run (exec clock) c).2.settings (p.run (exec clock) c).2.presence := by
  induction p with
  | pure a => exact fun h => h
  | raise e => exact fun h => h
  | op cmd k ih =>
    intro c h
    have hc := Timed.command clock cmd c h
    rw [Prog.run]
    rcases he : exec clock cmd c with ⟨e | b, c₁⟩
    · rw [he] at hc
      exact hc
    · rw [he] at hc
      exact ih b hc

theorem Timed.new (cfg : Settings) : Timed cfg (.new cfg.second) := by
  refine ⟨?_, rfl⟩
  have hmul (n : Int) : 5 * n * 3 = 15 * n := by omega
  exact hmul cfg.second

theorem Reached.timed (h : Reached clock c) : Timed c.settings c.presence := by
  obtain ⟨cfg, ls, rfl⟩ := h
  have key : ∀ (ls : List Life) (c : Coordinator), Timed c.settings c.presence →
      Timed (ls.foldl (Coordinator.live clock) c).settings (ls.foldl (Coordinator.live clock) c).presence := by
    intro ls
    induction ls with
    | nil => exact fun _ h => h
    | cons l ls ih =>
      refine fun c h => ih _ ?_
      cases l with
      | call op => exact Timed.prog _ h
      | restart => exact .new c.settings
  exact key ls _ (.new cfg)

/-! ## The detector -/

theorem Shows.gone_iff {st : Option MemberState} {entry : Option PresenceEntry} (h : Shows w st entry) :
    (st = some .disconnected ↔ w = .gone) ∧ (entry.isSome = false ↔ w = .gone) := by
  match w, h with
  | .alive s, ⟨hst, x, hx, _⟩ => simp [hst, hx]
  | .suspected s, ⟨hst, x, hx, _⟩ => simp [hst, hx]
  | .gone, ⟨hst, hx⟩ => simp [hst, hx]

theorem newsType_injective : Function.Injective newsType := by
  intro a b h
  cases a <;> cases b <;> first | rfl | cases h

/-- **What becomes of a member of whom nothing but heartbeats is heard.**
From a state in which the member is active and tracked, over any calls at
any times: it is disconnected, and no longer tracked, exactly when a tick
found its last heartbeat more than fifteen seconds old and a later tick,
with no heartbeat in between, found that tick more than fifteen seconds old;
this is announced once. The subscribers hear nothing of it, and it stays
active, exactly when no tick found the last heartbeat so old. -/
theorem failure_detection (hclock : Forward clock) (hc : Reached clock c) (hterm : ¬ 1 < c.log.currentTerm)
    (hactive : c.snapshot.stateOf u = some .active) {entry : PresenceEntry}
    (hentry : c.presence.members.get? u = some entry) (halive : entry.state = .alive) {ops : List Op}
    (hops : ∀ op ∈ ops, Regards u op) :
    let q := c.settings.patience
    let removed := Watch.Silenced q q entry.lastHeartbeat (signs clock u c ops)
    let c' := c.run clock ops
    (c'.snapshot.stateOf u = some .disconnected ↔ removed) ∧ (¬ c'.presence.Tracks u ↔ removed) ∧
    (removed → (heardOf u c').count .disconnectTimeout = (heardOf u c).count .disconnectTimeout + 1) ∧
    (¬ removed → (heardOf u c').count .disconnectTimeout = (heardOf u c).count .disconnectTimeout) ∧
    (heardOf u c' = heardOf u c ↔ ∀ pre t post, signs clock u c ops = pre ++ .checked t :: post →
      t - lastHeard entry.lastHeartbeat pre ≤ q) ∧
    (heardOf u c' = heardOf u c → c'.snapshot.stateOf u = some .active) := by
  intro q removed c'
  have h₀ : Stands c.settings u (.alive entry.lastHeartbeat) (heardOf u c) c :=
    ⟨hc.sane, hterm, rfl, hc.timed, ⟨hactive, entry, hentry, halive, rfl⟩, rfl⟩
  have h := h₀.run clock hops
  have hgone : (Watch.alive entry.lastHeartbeat).run q q (signs clock u c ops) = .gone ↔ removed :=
    Watch.run_eq_gone_iff (Stands.sorted hclock h₀ hops).1
  have hcount : (heardOf u c').count .disconnectTimeout = (heardOf u c).count .disconnectTimeout +
      if (Watch.alive entry.lastHeartbeat).run q q (signs clock u c ops) = .gone then 1 else 0 := by
    rw [h.news, List.count_append, ← Watch.count_gaveUp (by simp)]
    exact congrArg _ (List.count_map_of_injective _ newsType newsType_injective .gaveUp)
  have hquiet : heardOf u c' = heardOf u c ↔
      (Watch.alive entry.lastHeartbeat).news q q (signs clock u c ops) = [] := by
    rw [h.news]
    simp [q]
  obtain ⟨hstate, hentry'⟩ := h.shows.gone_iff
  refine ⟨hstate.trans hgone, ?_, fun hr => ?_, fun hn => ?_, hquiet.trans Watch.news_eq_nil_iff, fun hsame => ?_⟩
  · rw [PresenceManager.Tracks, Bool.not_eq_true]
    exact hentry'.trans hgone
  · rw [hcount, if_pos (hgone.2 hr)]
  · rw [hcount, if_neg fun hg => hn (hgone.1 hg), Nat.add_zero]
  · obtain ⟨r, hr⟩ := Watch.run_of_news_eq_nil (hquiet.1 hsame)
    have hshow := h.shows
    rw [hr] at hshow
    exact hshow.1

/-- The member `b:1` is suspected, comes back, and falls silent for good
while somebody else joins. -/
def lastWords : List Op :=
  [.tick, .heartbeat "b:1", .tick, .join "c:1" "C" none none .accepts, .tick]

theorem failure_detection_lastWords :
    let c := (lived twentySeconds arrival).run twentySeconds lastWords
    (c.snapshot.stateOf "b:1" = some .disconnected ∧ ¬ c.presence.Tracks "b:1") ∧
      (heardOf "b:1" c).count .disconnectTimeout = 1 := by
  have hentry : ((lived twentySeconds arrival).presence.members.get? "b:1").map (fun x => (x.state, x.lastHeartbeat)) =
      some (.alive, 20) := by decide +kernel
  obtain ⟨entry, hget, hx⟩ := Option.map_eq_some_iff.1 hentry
  have halive : entry.state = .alive := congrArg Prod.fst hx
  have hlast : entry.lastHeartbeat = 20 := congrArg Prod.snd hx
  have hsigns : signs twentySeconds "b:1" (lived twentySeconds arrival) lastWords =
      [.checked 80, .heard 160, .checked 200, .checked 300] := by decide +kernel
  have hregards : ∀ op ∈ lastWords, Regards "b:1" op := by simp [lastWords, Regards]
  have hmono : Forward twentySeconds := fun i j h => by
    show (20 * i : Int) ≤ 20 * j
    omega
  have hremoved : Watch.Silenced (lived twentySeconds arrival).settings.patience
      (lived twentySeconds arrival).settings.patience entry.lastHeartbeat
      (signs twentySeconds "b:1" (lived twentySeconds arrival) lastWords) := by
    rw [hsigns, hlast]
    exact ⟨[.checked 80, .heard 160], 200, [], 300, [], rfl, by decide, nofun, by decide⟩
  obtain ⟨hstate, htracks, hcount, -⟩ := failure_detection hmono (reached_lived _ arrival) (by decide +kernel)
    (by decide +kernel) hget halive hregards
  refine ⟨⟨hstate.2 hremoved, htracks.2 hremoved⟩, (hcount hremoved).trans ?_⟩
  decide +kernel

end PeerChat.Membership
