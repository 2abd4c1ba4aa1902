/-
The materialized membership view (`peer_discovery/membership/snapshot.py`).

`apply_event` skips an event that is not newer than the last one applied,
and one that the state of its user does not allow. `stateOf_applyEvent`
reads it as a state machine: an event moves its own user along
`transition` and touches nobody else. `delta_applyEvent` says which events
have a delta.
-/
import PeerChat.Membership.Models

namespace PeerChat.Membership

open Lib

/-- `MembershipSnapshot`. -/
structure Snapshot where
  roomId : String
  members : Dict String MemberInfo
  version : Int
  asOfSeqNo : Int
  deriving DecidableEq, Repr

/-- `_ALLOWED_FROM_STATES`; `none` is no precondition. -/
def allowedFromStates : EventType → Option (List MemberState)
  | .joinRequested => none
  | .joinAccepted => some [.disconnected, .left]
  | .joinRejected => none
  | .historyBackfillStarted => some [.joining]
  | .historyBackfillComplete => some [.backfilling]
  | .leaveRequested => some [.active]
  | .leaveConfirmed => some [.leaving]
  | .heartbeat => none
  | .disconnectSuspected => some [.active]
  | .disconnectTimeout => some [.suspected, .backfilling]
  | .reconnected => some [.suspected]

/-- `_is_transition_valid`; a user without a record has no state. -/
def isTransitionValid (eventType : EventType) (current : Option MemberState) : Bool :=
  if eventType = .joinAccepted then
    current = none ∨ current = some .disconnected ∨ current = some .left
  else if eventType = .heartbeat then current.isSome
  else
    match allowedFromStates eventType with
    | none => true
    | some allowed => current.any (· ∈ allowed)

namespace Snapshot

/-- A snapshot that has just been constructed. -/
def new (roomId : String) : Snapshot := ⟨roomId, Dict.empty, 0, 0⟩

/-- `get_member`. -/
def getMember (s : Snapshot) (userId : String) : Option MemberInfo := s.members.get? userId

/-- `get_active_members`. -/
def getActiveMembers (s : Snapshot) : List MemberInfo := s.members.values.filter (·.state = .active)

/-- An assignment to fields of `current`, the record of a user. -/
def update (s : Snapshot) (userId : String) (current : Option MemberInfo) (f : MemberInfo → MemberInfo) :
    Snapshot :=
  match current with
  | some m => { s with members := s.members.set userId (f m) }
  | none => s

/-- `_dispatch`: the effect of a valid event and its delta. -/
def dispatch (s : Snapshot) (event : MembershipEvent) (current : Option MemberInfo) :
    Snapshot × Option MembershipDelta :=
  let uid := event.userId
  let moved (state : MemberState) :=
    s.update uid current fun m => { m with state, membershipVersion := event.membershipVersion }
  match event.eventType with
  | .joinRequested | .joinRejected => (s, none)
  | .joinAccepted =>
    let m : MemberInfo :=
      { userId := uid
        displayName := event.displayName
        state := .joining
        joinedAt := event.timestamp
        lastHeartbeat := event.timestamp
        membershipVersion := event.membershipVersion
        publicKey := event.publicKey }
    ({ s with members := s.members.set uid m }, some ⟨.joined, uid, event⟩)
  | .historyBackfillStarted => (moved .backfilling, none)
  | .historyBackfillComplete => (moved .active, some ⟨.active, uid, event⟩)
  | .leaveRequested => (moved .leaving, none)
  | .leaveConfirmed => (moved .left, some ⟨.left, uid, event⟩)
  | .heartbeat => (s.update uid current fun m => { m with lastHeartbeat := event.timestamp }, none)
  | .disconnectSuspected => (moved .suspected, some ⟨.suspected, uid, event⟩)
  | .disconnectTimeout => (moved .disconnected, some ⟨.disconnected, uid, event⟩)
  | .reconnected =>
    (s.update uid current fun m =>
      { m with state := .active, lastHeartbeat := event.timestamp, membershipVersion := event.membershipVersion },
      some ⟨.reconnected, uid, event⟩)

/-- `apply_event`. -/
def applyEvent (s : Snapshot) (event : MembershipEvent) : Snapshot × Option MembershipDelta :=
  if event.seqNo ≤ s.asOfSeqNo then (s, none)
  else
    let current := s.members.get? event.userId
    if !isTransitionValid event.eventType (current.map (·.state)) then (s, none)
    else
      let (s', delta) := s.dispatch event current
      ({ s' with version := event.membershipVersion, asOfSeqNo := event.seqNo }, delta)

/-! ## The state machine -/

/-- The state of a user, if the snapshot has a record of them. -/
def stateOf (s : Snapshot) (u : String) : Option MemberState := (s.members.get? u).map (·.state)

end Snapshot

/-- Where a valid event takes its user. -/
def target : EventType → Option MemberState → Option MemberState
  | .joinAccepted, _ => some .joining
  | .historyBackfillStarted, _ => some .backfilling
  | .historyBackfillComplete, _ => some .active
  | .leaveRequested, _ => some .leaving
  | .leaveConfirmed, _ => some .left
  | .disconnectSuspected, _ => some .suspected
  | .disconnectTimeout, _ => some .disconnected
  | .reconnected, _ => some .active
  | .joinRequested, c | .joinRejected, c | .heartbeat, c => c

/-- What an event does to the state of its user. -/
def transition (t : EventType) (c : Option MemberState) : Option MemberState :=
  if isTransitionValid t c then target t c else c

/-- The delta of a valid event. -/
def deltaType : EventType → Option DeltaType
  | .joinAccepted => some .joined
  | .historyBackfillComplete => some .active
  | .leaveConfirmed => some .left
  | .disconnectSuspected => some .suspected
  | .disconnectTimeout => some .disconnected
  | .reconnected => some .reconnected
  | .joinRequested | .joinRejected | .historyBackfillStarted | .leaveRequested | .heartbeat => none

namespace Snapshot

/-- An event is newer than what has been applied and allowed for its user. -/
def Accepts (s : Snapshot) (e : MembershipEvent) : Prop :=
  s.asOfSeqNo < e.seqNo ∧ isTransitionValid e.eventType (s.stateOf e.userId) = true

instance (s : Snapshot) (e : MembershipEvent) : Decidable (s.Accepts e) :=
  inferInstanceAs (Decidable (s.asOfSeqNo < e.seqNo ∧ isTransitionValid e.eventType (s.stateOf e.userId) = true))

theorem applyEvent_of_accepts {s : Snapshot} {e : MembershipEvent} (h : s.Accepts e) :
    s.applyEvent e =
      ({ (s.dispatch e (s.members.get? e.userId)).1 with version := e.membershipVersion, asOfSeqNo := e.seqNo },
        (s.dispatch e (s.members.get? e.userId)).2) := by
  have hv : isTransitionValid e.eventType ((s.members.get? e.userId).map (·.state)) = true := h.2
  simp only [applyEvent, not_le.2 h.1, hv, if_false, Bool.not_true, Bool.false_eq_true]

theorem applyEvent_of_not_accepts {s : Snapshot} {e : MembershipEvent} (h : ¬ s.Accepts e) :
    s.applyEvent e = (s, none) := by
  simp only [applyEvent]
  split
  · rfl
  · next hseq =>
    split
    · rfl
    · next hv =>
      refine absurd ⟨not_le.1 hseq, ?_⟩ h
      simpa [stateOf] using hv

theorem stateOf_update (s : Snapshot) (u v : String) (f : MemberInfo → MemberInfo) :
    (s.update u (s.members.get? u) f).stateOf v =
      if v = u then (s.members.get? u).map (fun m => (f m).state) else s.stateOf v := by
  unfold update stateOf
  cases hm : s.members.get? u with
  | none =>
    by_cases hv : v = u
    · subst hv; simp [hm]
    · simp [hv]
  | some m =>
    simp only [Dict.get?_set]
    split <;> rfl

theorem isSome_of_valid {t : EventType} {c : Option MemberState} (h : isTransitionValid t c = true) :
    c.isSome = true ∨ t = .joinAccepted ∨ t = .joinRequested ∨ t = .joinRejected := by
  cases c with
  | some _ => exact .inl rfl
  | none =>
    revert h
    cases t <;> decide

/-- The effect of a valid event on the states. -/
theorem stateOf_dispatch {s : Snapshot} {e : MembershipEvent}
    (hv : isTransitionValid e.eventType (s.stateOf e.userId) = true) (u : String) :
    (s.dispatch e (s.members.get? e.userId)).1.stateOf u =
      if u = e.userId then target e.eventType (s.stateOf u) else s.stateOf u := by
  by_cases hu : u = e.userId
  · subst hu
    have hsome := isSome_of_valid hv
    unfold stateOf at hsome
    unfold dispatch
    cases ht : e.eventType <;> simp only [ht, reduceCtorEq, or_false, Option.isSome_map] at hsome
    case joinAccepted => simp [stateOf, target]
    all_goals simp only [stateOf_update, target, if_true]
    case heartbeat => rfl
    all_goals
      obtain ⟨m, hm⟩ := Option.isSome_iff_exists.1 hsome
      simp [hm]
  · unfold dispatch
    cases ht : e.eventType
    case joinAccepted => simp [stateOf, Dict.get?_set, hu]
    all_goals simp [stateOf_update, hu]

/-- **The snapshot is a state machine per user.** -/
theorem stateOf_applyEvent (s : Snapshot) (e : MembershipEvent) (u : String) :
    (s.applyEvent e).1.stateOf u =
      if s.asOfSeqNo < e.seqNo ∧ u = e.userId then transition e.eventType (s.stateOf u) else s.stateOf u := by
  by_cases h : s.Accepts e
  · rw [applyEvent_of_accepts h]
    refine (stateOf_dispatch h.2 u).trans ?_
    by_cases hu : u = e.userId
    · subst hu
      simp only [h.1, true_and, if_true, transition, h.2]
    · simp only [hu, and_false, if_false]
  · rw [applyEvent_of_not_accepts h]
    split
    · next hc =>
      obtain ⟨hseq, rfl⟩ := hc
      have hv : ¬ isTransitionValid e.eventType (s.stateOf e.userId) = true := fun hv => h ⟨hseq, hv⟩
      simp only [transition, hv]
      rfl
    · rfl

/-- Which events have a delta. -/
theorem delta_applyEvent (s : Snapshot) (e : MembershipEvent) :
    (s.applyEvent e).2 = if s.Accepts e then (deltaType e.eventType).map (⟨·, e.userId, e⟩) else none := by
  by_cases h : s.Accepts e
  · rw [applyEvent_of_accepts h, if_pos h]
    unfold dispatch
    cases e.eventType <;> rfl
  · rw [applyEvent_of_not_accepts h, if_neg h]

theorem asOfSeqNo_applyEvent_le {s : Snapshot} {e : MembershipEvent} {n : Int} (hs : s.asOfSeqNo ≤ n)
    (he : e.seqNo ≤ n) : (s.applyEvent e).1.asOfSeqNo ≤ n := by
  by_cases h : s.Accepts e
  · rw [applyEvent_of_accepts h]; exact he
  · rw [applyEvent_of_not_accepts h]; exact hs

end Snapshot

end PeerChat.Membership
