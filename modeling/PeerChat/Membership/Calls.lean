/-
What a single call achieves, from any state that a node can be in
(`handle_join`, `handle_heartbeat`, `handle_leave`).

Each call is meant to bring its user somewhere: a join lets a user in, a
heartbeat clears a suspicion, a leave removes. Each depends on a record
that is kept apart from the snapshot: a join on the window of the duplicate
guard, a heartbeat on the entry of the presence tracker, a leave on two
events that the snapshot accepts or not. `handleJoin_admits_iff`,
`handleHeartbeat_revives_iff` and `handleLeave_removes_iff` say from which
reachable states the call does its work.
-/
import PeerChat.Membership.LocalUser

namespace PeerChat.Membership

open Lib

/-- The user has no record, or one that says they are gone. -/
def Gone (c : Coordinator) (u : String) : Prop :=
  c.snapshot.stateOf u = none ∨ c.snapshot.stateOf u = some .left ∨ c.snapshot.stateOf u = some .disconnected

instance (c : Coordinator) (u : String) : Decidable (Gone c u) :=
  inferInstanceAs (Decidable (c.snapshot.stateOf u = none ∨ c.snapshot.stateOf u = some .left ∨
    c.snapshot.stateOf u = some .disconnected))

variable {clock : Nat → Time} {c : Coordinator} {u : String}

/-- The node `a:1` after a run. -/
def lived (clock : Nat → Time) (ls : List Life) : Coordinator :=
  ls.foldl (Coordinator.live clock) (.new ⟨"room", some "a:1", 1⟩ Dict.empty)

theorem reached_lived (clock : Nat → Time) (ls : List Life) : Reached clock (lived clock ls) := ⟨_, ls, rfl⟩

/-- The user `b:1` joins and becomes active. -/
def arrival : List Life :=
  [.call (.join "b:1" "B" none none .accepts), .call (.startBackfill "b:1"), .call (.completeBackfill "b:1")]

/-- An event of `b:1` that another node has logged. -/
def reported (t : EventType) : MembershipEvent where
  seqNo := 1
  roomId := "room"
  userId := "b:1"
  eventType := t
  timestamp := 0
  membershipVersion := 1
  source := "coordinator"
  term := 1

/-! ## Joining -/

/-- `handle_join` returns that the user is accepted, and leaves them joining
under the name and the key of the request. -/
def Admits (clock : Nat → Time) (c : Coordinator) (u name : String) (key : Option Bytes) (trace : Option String) :
    Prop :=
  Prog.wp (exec clock) (handleJoin c.settings u name key trace .accepts)
    (fun r c' => r.accepted = true ∧ ∃ m, c'.snapshot.getMember u = some m ∧ m.state = .joining ∧
      m.displayName = name ∧ m.publicKey = key)
    (fun _ => False) c

/-- The record that an accepted join leaves. -/
theorem getMember_joined {s : Snapshot} {e : MembershipEvent} (h : s.Accepts e) (ht : e.eventType = .joinAccepted) :
    ∃ m, (s.applyEvent e).1.getMember e.userId = some m ∧ m.state = .joining ∧ m.displayName = e.displayName ∧
      m.publicKey = e.publicKey ∧ m.membershipVersion = e.membershipVersion := by
  rw [Snapshot.applyEvent_of_accepts h]
  simp only [Snapshot.getMember, Snapshot.dispatch, ht, Dict.get?_set, if_true]
  exact ⟨_, rfl, rfl, rfl, rfl, rfl⟩

theorem Gone.joinable (h : Gone c u) : isTransitionValid .joinAccepted (c.snapshot.stateOf u) = true := by
  rcases h with h | h | h <;> rw [h] <;> decide

theorem not_admits_of_duplicate {name : String} {key : Option Bytes} {trace : Option String}
    (h : (u, EventType.joinRequested.value) ∈ c.duplicateGuard.recent) : ¬ Admits clock c u name key trace := by
  intro hadm
  simp [Admits, handleJoin, exec, DuplicateGuard.isDuplicate, h] at hadm

theorem not_admits_of_stale {name : String} {key : Option Bytes} {trace : Option String}
    (h : 1 < c.log.currentTerm) : ¬ Admits clock c u name key trace := by
  intro hadm
  by_cases hdup : (u, EventType.joinRequested.value) ∈ c.duplicateGuard.recent
  · exact not_admits_of_duplicate hdup hadm
  · simp [Admits, handleJoin, record, exec, DuplicateGuard.isDuplicate, hdup, EventLog.append, h] at hadm

/-- **When a join lets its user in.** -/
theorem handleJoin_admits_iff (h : Reached clock c) (hu : Gone c u) (name : String) (key : Option Bytes)
    (trace : Option String) :
    Admits clock c u name key trace ↔
      (u, EventType.joinRequested.value) ∉ c.duplicateGuard.recent ∧ ¬ 1 < c.log.currentTerm := by
  constructor
  · intro hadm
    exact ⟨fun hdup => not_admits_of_duplicate hdup hadm, fun hterm => not_admits_of_stale hterm hadm⟩
  · rintro ⟨hdup, hterm⟩
    refine wp_handleJoin h.sane (fun hd => absurd hd hdup) (fun _ hx => hx.elim nofun hterm)
      (fun _ _ _ hv => nomatch hv)
      fun _ _ _ e c' he hl => ?_
    have hacc : c.snapshot.Accepts e := by
      subst he
      exact ⟨h.sane.numbered.snapshot, hu.joinable⟩
    obtain ⟨m, hm, hst, hname, hkey, -⟩ := getMember_joined hacc (by subst he; rfl)
    have hsnap : c'.snapshot = (c.snapshot.applyEvent e).1 := hl.snapshot
    rw [← hsnap] at hm
    subst he
    have hmember : ∃ m, c'.snapshot.getMember u = some m ∧ m.state = .joining ∧ m.displayName = name ∧
        m.publicKey = key := ⟨m, hm, hst, hname, hkey⟩
    refine ⟨rfl, ?_⟩
    split <;> exact hmember

/-- A user whom another node let in leaves, and may come back through this one. -/
theorem handleJoin_admits_returning :
    Admits still (lived still [.call (.remote (reported .joinAccepted)), .call (.startBackfill "b:1"),
      .call (.completeBackfill "b:1"), .call (.leave "b:1")]) "b:1" "B" none none :=
  (handleJoin_admits_iff (reached_lived still _) (by decide +kernel) "B" none none).2 (by decide +kernel)

/-- A user whom this node let in leaves, and is refused. -/
theorem returning_is_refused :
    Reached still (lived still (arrival ++ [.call (.leave "b:1")])) ∧
      Gone (lived still (arrival ++ [.call (.leave "b:1")])) "b:1" ∧
      ¬ Admits still (lived still (arrival ++ [.call (.leave "b:1")])) "b:1" "B" none none :=
  ⟨reached_lived still _, by decide +kernel, not_admits_of_duplicate (by decide +kernel)⟩

/-! ## Heartbeats -/

/-- `handle_heartbeat` returns and takes the suspicion back: the member is
active, one RECONNECTED event of theirs was logged, it is what was
dispatched, and the presence tracker holds them alive. -/
def Revives (clock : Nat → Time) (c : Coordinator) (u : String) : Prop :=
  Prog.wp (exec clock) (handleHeartbeat u)
    (fun _ c' => c'.snapshot.stateOf u = some .active ∧
      (∃ es e, c'.log.log = c.log.log ++ es ∧ es.filter (fun x => x.eventType = .reconnected ∧ x.userId = u) = [e] ∧
        c'.dispatched = c.dispatched ++ [(e, ⟨.reconnected, u, e⟩)]) ∧
      ∃ entry, c'.presence.members.get? u = some entry ∧ entry.state = .alive)
    (fun _ => False) c

/-- The entry of the presence tracker says that its user is suspected. -/
def Doubts (p : PresenceManager) (u : String) : Prop :=
  ∃ entry, p.members.get? u = some entry ∧ entry.state = .suspected

theorem recordHeartbeat_of_doubts {p : PresenceManager} (h : Doubts p u) (now : Time) :
    (p.recordHeartbeat now u).2 = true ∧
      ∃ entry, (p.recordHeartbeat now u).1.members.get? u = some entry ∧ entry.state = .alive := by
  obtain ⟨entry, hget, hstate⟩ := h
  simp [PresenceManager.recordHeartbeat, hget, hstate]

theorem recordHeartbeat_of_not_doubts {p : PresenceManager} (h : ¬ Doubts p u) (now : Time) :
    (p.recordHeartbeat now u).2 = false := by
  unfold PresenceManager.recordHeartbeat
  cases hget : p.members.get? u with
  | none => rfl
  | some entry =>
    have hstate : entry.state ≠ .suspected := fun hs => h ⟨entry, hget, hs⟩
    simp only [hstate, if_false]

theorem transition_heartbeat (s : Option MemberState) : transition .heartbeat s = s := by
  unfold transition
  split <;> rfl

theorem deltas_of_valid {s : Snapshot} {e : MembershipEvent} {d : DeltaType}
    (hv : isTransitionValid e.eventType (s.stateOf e.userId) = true) (hd : deltaType e.eventType = some d) :
    deltas s e = [(e, ⟨d, e.userId, e⟩)] := by
  simp [deltas, deltaOf, hv, hd]

/-- The report of a reconnection, for a member that is suspected. -/
theorem wp_reconnected (h : Sane c) (hu : c.snapshot.stateOf u = some .suspected) (hterm : ¬ 1 < c.log.currentTerm)
    {E : Coordinator → Prop} :
    Prog.wp (exec clock) (handlePresenceChange u .reconnected)
      (fun _ c' => c'.snapshot.stateOf u = some .active ∧ c'.presence = c.presence ∧
        ∃ e, e.eventType = .reconnected ∧ e.userId = u ∧ c'.log.log = c.log.log ++ [e] ∧
          c'.dispatched = c.dispatched ++ [(e, ⟨.reconnected, u, e⟩)])
      E c := by
  refine wp_handlePresenceChange h (fun hn => ?_) (fun ht => absurd ht hterm) fun _ e c' heu het _ _ hl => ?_
  · rw [hu] at hn
    cases hn
  · have hdelta : deltas c.snapshot e = [(e, ⟨.reconnected, e.userId, e⟩)] := by
      refine deltas_of_valid ?_ (by rw [het]; rfl)
      rw [het, heu, hu]
      decide
    have hstate := hl.state u
    rw [heu, if_pos rfl, het, hu] at hstate
    refine ⟨hstate, hl.presence, e, het, heu, ?_, ?_⟩
    · show c'.log.log = _
      rw [hl.log]
      rfl
    · show c'.dispatched = _
      rw [hl.dispatched, hdelta, heu]

/-- A heartbeat that finds no doubt leaves the state of its user as it is. -/
theorem wp_heartbeat_quiet (h : Sane c) (hdoubt : ¬ Doubts c.presence u) :
    Prog.wp (exec clock) (handleHeartbeat u) (fun _ c' => c'.snapshot.stateOf u = c.snapshot.stateOf u)
      (fun _ => True) c := by
  refine wp_handleHeartbeat h (fun _ => rfl) (fun _ => trivial) fun _ e c' heu het hl => ?_
  rw [← hl.presence] at hdoubt
  simp only [recordHeartbeat_of_not_doubts hdoubt, Bool.false_eq_true, if_false]
  show c'.snapshot.stateOf u = _
  rw [hl.state, heu, if_pos rfl, het, transition_heartbeat]

theorem not_revives_of_quiet (h : Sane c) (hu : c.snapshot.stateOf u = some .suspected)
    (hdoubt : ¬ Doubts c.presence u) : ¬ Revives clock c u := by
  intro hrev
  refine Prog.wp_absurd hrev (Prog.wp_mono (fun _ c' hc' hact => ?_) (fun _ ht => ht) (wp_heartbeat_quiet h hdoubt))
  rw [hc', hu] at hact
  exact absurd hact.1 (by decide)

theorem not_revives_of_stale (hu : c.snapshot.stateOf u = some .suspected) (h : 1 < c.log.currentTerm) :
    ¬ Revives clock c u := by
  intro hrev
  obtain ⟨m, hm, -⟩ := Option.map_eq_some_iff.1 hu
  simp [Revives, handleHeartbeat, exec, Snapshot.getMember, hm, EventLog.append, h] at hrev

/-- **When a heartbeat revives a suspected member.** -/
theorem handleHeartbeat_revives_iff (h : Reached clock c) (hu : c.snapshot.stateOf u = some .suspected) :
    Revives clock c u ↔ Doubts c.presence u ∧ ¬ 1 < c.log.currentTerm := by
  constructor
  · intro hrev
    exact ⟨by_contra fun hd => not_revives_of_quiet h.sane hu hd hrev, fun ht => not_revives_of_stale hu ht hrev⟩
  · rintro ⟨hdoubt, hterm⟩
    refine wp_handleHeartbeat h.sane (fun hn => by simp [hu] at hn) (fun ht => hterm ht) fun _ e c' heu het hl => ?_
    rw [← hl.presence] at hdoubt
    obtain ⟨hrec, halive⟩ := recordHeartbeat_of_doubts hdoubt (clock c'.reads)
    have hst : c'.snapshot.stateOf u = some .suspected := by
      rw [hl.state, heu, if_pos rfl, het, transition_heartbeat, hu]
    have hterm' : ¬ 1 < c'.log.currentTerm := by
      rw [hl.term]
      omega
    have hs₁ := (hl.sane.watching (c'.presence.recordHeartbeat (clock c'.reads) u).1).reading (c'.reads + 1)
    simp only [hrec, if_true]
    refine Prog.wp_mono ?_ (fun _ he => he) (wp_reconnected hs₁ hst hterm')
    rintro _ c₂ ⟨hact, hpres, e₂, het₂, heu₂, hlog, hdisp⟩
    refine ⟨hact, ⟨[e, e₂], e₂, ?_, ?_, ?_⟩, ?_⟩
    · have hlog' : c₂.log.log = c'.log.log ++ [e₂] := hlog
      rw [checkpointed_log, hlog', hl.log]
      simp [EventLog.push]
    · simp [het, het₂, heu₂]
    · have hdisp' : c₂.dispatched = c'.dispatched ++ [(e₂, ⟨.reconnected, u, e₂⟩)] := hdisp
      rw [checkpointed_dispatched, hdisp', hl.dispatched, List.append_nil]
    · rw [checkpointed_presence, hpres]
      exact halive

/-- A member is suspected here, and its next heartbeat revives it. -/
theorem handleHeartbeat_revives_silent :
    (lived twentySeconds (arrival ++ [.call .tick])).snapshot.stateOf "b:1" = some .suspected ∧
      Revives twentySeconds (lived twentySeconds (arrival ++ [.call .tick])) "b:1" := by
  have hst : (lived twentySeconds (arrival ++ [.call .tick])).snapshot.stateOf "b:1" = some .suspected := by
    decide +kernel
  have hdoubt : ((lived twentySeconds (arrival ++ [.call .tick])).presence.members.get? "b:1").map (·.state) =
      some .suspected := by
    decide +kernel
  refine ⟨hst, (handleHeartbeat_revives_iff (reached_lived _ _) hst).2 ⟨?_, by decide +kernel⟩⟩
  exact Option.map_eq_some_iff.1 hdoubt

/-- A member that another node suspects is alive to the presence tracker
here, and stays suspected whatever its heartbeats say. -/
theorem reported_suspect_not_revived :
    Reached still (lived still (arrival ++ [.call (.remote (reported .disconnectSuspected))])) ∧
      (lived still (arrival ++ [.call (.remote (reported .disconnectSuspected))])).snapshot.stateOf "b:1" =
        some .suspected ∧
      ¬ Revives still (lived still (arrival ++ [.call (.remote (reported .disconnectSuspected))])) "b:1" := by
  have hst : (lived still (arrival ++ [.call (.remote (reported .disconnectSuspected))])).snapshot.stateOf "b:1" =
      some .suspected := by
    decide +kernel
  have halive : ((lived still (arrival ++ [.call (.remote (reported .disconnectSuspected))])).presence.members.get?
      "b:1").map (·.state) ≠ some .suspected := by
    decide +kernel
  refine ⟨reached_lived still _, hst, not_revives_of_quiet (reached_lived still _).sane hst fun hdoubt => ?_⟩
  exact halive (Option.map_eq_some_iff.2 hdoubt)

/-! ## Leaving -/

/-- `handle_leave` returns and the user is gone: the snapshot says so, the
presence tracker has no entry, a change of state was dispatched as LEFT,
and a second call logs nothing. -/
def Removes (clock : Nat → Time) (c : Coordinator) (u : String) : Prop :=
  Prog.wp (exec clock) (handleLeave u)
    (fun _ c' => Gone c' u ∧ ¬ c'.presence.Tracks u ∧
      (c'.snapshot.stateOf u ≠ c.snapshot.stateOf u →
        ∃ e, e.eventType = .leaveConfirmed ∧ c'.dispatched = c.dispatched ++ [(e, ⟨.left, u, e⟩)]) ∧
      Prog.wp (exec clock) (handleLeave u) (fun _ c'' => c''.log = c'.log) (fun _ => False) c')
    (fun _ => False) c

/-- The states from which the snapshot accepts what `handle_leave` logs. -/
def Leaves (c : Coordinator) (u : String) : Prop :=
  c.snapshot.stateOf u = some .active ∨ c.snapshot.stateOf u = some .leaving

/-- A user who is gone is passed over. -/
theorem wp_leave_gone (h : Gone c u) {Q : Unit → Coordinator → Prop} {E : Coordinator → Prop} (hQ : Q () c) :
    Prog.wp (exec clock) (handleLeave u) Q E c := by
  simp only [handleLeave]
  rw [Prog.wp_bind, Prog.wp_lift]
  simp only [exec]
  cases hm : c.snapshot.getMember u with
  | none => exact hQ
  | some m =>
    have hst := getMember_eq_some hm
    have hgone : m.state = .left ∨ m.state = .disconnected := by
      simpa [Gone, hst] using h
    simp only [hgone, if_true]
    exact hQ

/-- The confirmation of a leave, for a member that is leaving. -/
theorem Logged.left {c' : Coordinator} {e : MembershipEvent} (hl : Logged c c' e 1 (deltas c.snapshot e))
    (hu : c.snapshot.stateOf u = some .leaving) (heu : e.userId = u) (het : e.eventType = .leaveConfirmed) :
    c'.snapshot.stateOf u = some .left ∧ c'.dispatched = c.dispatched ++ [(e, ⟨.left, u, e⟩)] := by
  have hdelta : deltas c.snapshot e = [(e, ⟨.left, e.userId, e⟩)] := by
    refine deltas_of_valid ?_ (by rw [het]; rfl)
    rw [het, heu, hu]
    decide
  have hstate := hl.state u
  rw [heu, if_pos rfl, het, hu] at hstate
  refine ⟨hstate, ?_⟩
  rw [hl.dispatched, hdelta, heu]

/-- What a leave does to a user who is there. -/
theorem wp_leave_present (clock : Nat → Time) (h : Sane c) (hu : ¬ Gone c u) {E : Coordinator → Prop}
    (hE : 1 < c.log.currentTerm → E c) :
    Prog.wp (exec clock) (handleLeave u)
      (fun _ c' => ¬ c'.presence.Tracks u ∧
        (Leaves c u → c'.snapshot.stateOf u = some .left ∧
          ∃ e, e.eventType = .leaveConfirmed ∧ c'.dispatched = c.dispatched ++ [(e, ⟨.left, u, e⟩)]) ∧
        (¬ Leaves c u → c'.snapshot.stateOf u = c.snapshot.stateOf u)) E c := by
  refine wp_handleLeave h (fun hg => absurd hg hu) hE (fun _ hst e c' heu het _ _ hl => ?_)
    fun _ st hst hleft hdis hleav e₁ c₁ e₂ c₂ heu₁ het₁ heu₂ het₂ _ _ hl₁ hl₂ => ?_
  · obtain ⟨hstate, hdisp⟩ := hl.left hst heu het
    refine ⟨by simp [PresenceManager.tracks_unregisterMember], fun _ => ⟨hstate, e, het, hdisp⟩, fun hn => ?_⟩
    exact absurd (.inr hst) hn
  · have hst₁ : c₁.snapshot.stateOf u = transition .leaveRequested (some st) := by
      rw [hl₁.state, heu₁, if_pos rfl, het₁, hst]
    refine ⟨by simp [PresenceManager.tracks_unregisterMember], fun hl => ?_, fun hn => ?_⟩
    · have hact : st = .active := by
        rcases hl with ha | hl
        · rw [hst] at ha
          exact Option.some.inj ha
        · rw [hst] at hl
          exact absurd (Option.some.inj hl) hleav
      subst hact
      obtain ⟨hstate, hdisp⟩ := hl₂.left hst₁ heu₂ het₂
      refine ⟨hstate, e₂, het₂, ?_⟩
      rw [hl₁.dispatched, List.append_nil] at hdisp
      exact hdisp
    · show c₂.snapshot.stateOf u = _
      rw [hl₂.state, heu₂, if_pos rfl, het₂, hst₁, hst]
      rw [Leaves, hst] at hn
      revert hn hleft hdis hleav
      cases st <;> decide

theorem not_removes_of_stays (h : Sane c) (hu : ¬ Gone c u) (hstay : ¬ Leaves c u) : ¬ Removes clock c u := by
  intro hrem
  have hleave := wp_leave_present clock (E := fun _ => True) h hu fun _ => trivial
  refine Prog.wp_absurd hrem (Prog.wp_mono (fun _ c' hc' hgone => ?_) (fun _ ht => ht) hleave)
  have hg := hgone.1
  rw [Gone, hc'.2.2 hstay] at hg
  exact hu hg

theorem not_removes_of_stale (h : Sane c) (hu : ¬ Gone c u) (hterm : 1 < c.log.currentTerm) :
    ¬ Removes clock c u := by
  intro hrem
  exact Prog.wp_absurd (E := fun _ => True) hrem (wp_handleLeave h (fun hg => absurd hg hu) (fun _ => trivial)
    (fun ht => absurd hterm ht) fun ht => absurd hterm ht)

/-- **When a leave removes its user.** -/
theorem handleLeave_removes_iff (h : Reached clock c) (u : String) :
    Removes clock c u ↔ (Gone c u ∧ ¬ c.presence.Tracks u) ∨ (Leaves c u ∧ ¬ 1 < c.log.currentTerm) := by
  by_cases hu : Gone c u
  · have hstay : ¬ Leaves c u := by
      rcases hu with hg | hg | hg <;> simp [Leaves, hg]
    simp only [hu, hstay, true_and, false_and, or_false]
    constructor
    · intro hrem ht
      exact Prog.wp_absurd (E := fun _ => True) hrem (wp_leave_gone hu fun hc => hc.2.1 ht)
    · intro ht
      exact wp_leave_gone hu ⟨hu, ht, fun hn => absurd rfl hn, wp_leave_gone hu rfl⟩
  · simp only [hu, false_and, false_or]
    constructor
    · intro hrem
      exact ⟨by_contra fun hs => not_removes_of_stays h.sane hu hs hrem,
        fun ht => not_removes_of_stale h.sane hu ht hrem⟩
    · rintro ⟨hl, hterm⟩
      refine Prog.wp_mono ?_ (fun _ he => he) (wp_leave_present clock h.sane hu fun ht => hterm ht)
      rintro _ c' ⟨htracks, hleft, -⟩
      obtain ⟨hstate, hdisp⟩ := hleft hl
      have hgone : Gone c' u := .inr (.inl hstate)
      exact ⟨hgone, htracks, fun _ => hdisp, wp_leave_gone hgone rfl⟩

theorem handleLeave_removes_active :
    (lived still arrival).snapshot.stateOf "b:1" = some .active ∧ Removes still (lived still arrival) "b:1" := by
  have hst : (lived still arrival).snapshot.stateOf "b:1" = some .active := by decide +kernel
  exact ⟨hst, (handleLeave_removes_iff (reached_lived still _) "b:1").2 (.inr ⟨.inl hst, by decide +kernel⟩)⟩

/-- A member that has only just joined stays, and is watched no longer. -/
theorem joining_is_not_removed :
    Reached still (lived still (arrival.take 1)) ∧ ¬ Removes still (lived still (arrival.take 1)) "b:1" := by
  refine ⟨reached_lived still _, not_removes_of_stays (reached_lived still _).sane (by decide +kernel) ?_⟩
  have hst : (lived still (arrival.take 1)).snapshot.stateOf "b:1" = some .joining := by decide +kernel
  simp [Leaves, hst]

end PeerChat.Membership
