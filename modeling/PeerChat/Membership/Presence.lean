/-
Heartbeat-driven presence and the join guard
(`peer_discovery/membership/presence.py`, `duplicate_guard.py`).

The manager reports changes through a callback; here each step returns
what it would report, and the coordinator's program makes the call.
-/
import PeerChat.Membership.Models

namespace PeerChat.Membership

open Lib

/-- `PresenceState`. -/
inductive PresenceState
  | alive
  | suspected
  deriving DecidableEq, Repr

/-- `PresenceEntry`. -/
structure PresenceEntry where
  userId : String
  lastHeartbeat : Time
  state : PresenceState := .alive
  suspectedAt : Option Time := none
  deriving DecidableEq, Repr

/-- The changes `PresenceManager` reports. -/
inductive ChangeType
  | suspected
  | timeout
  | reconnected
  deriving DecidableEq, Repr

/-- `PresenceManager`. -/
structure PresenceManager where
  heartbeatIntervalS : Time
  suspectAfterMissed : Int
  deadAfterSuspectS : Time
  members : Dict String PresenceEntry
  deriving DecidableEq, Repr

namespace PresenceManager

/-- The manager a coordinator constructs, with the length of a second. -/
def new (second : Time) : PresenceManager := ⟨5 * second, 3, 15 * second, Dict.empty⟩

/-- `register_member`. -/
def registerMember (p : PresenceManager) (now : Time) (userId : String) : PresenceManager :=
  { p with members := p.members.set userId { userId, lastHeartbeat := now } }

/-- `unregister_member`. -/
def unregisterMember (p : PresenceManager) (userId : String) : PresenceManager :=
  { p with members := p.members.erase userId }

/-- `record_heartbeat`, and whether it reports `reconnected`. -/
def recordHeartbeat (p : PresenceManager) (now : Time) (userId : String) : PresenceManager × Bool :=
  match p.members.get? userId with
  | none => (p, false)
  | some entry =>
    let entry := { entry with lastHeartbeat := now }
    if entry.state = .suspected then
      ({ p with members := p.members.set userId { entry with state := .alive, suspectedAt := none } }, true)
    else ({ p with members := p.members.set userId entry }, false)

/-- A suspected entry that has been silent for too long. -/
def dead (p : PresenceManager) (now : Time) (entry : PresenceEntry) : Bool :=
  match entry.suspectedAt with
  | some at_ => decide (now - at_ > p.deadAfterSuspectS)
  | none => false

/-- The body of the loop of `check_liveness`, and what it reports. -/
def checkEntry (p : PresenceManager) (now : Time) (userId : String) : PresenceManager × Option ChangeType :=
  match p.members.get? userId with
  | none => (p, none)
  | some entry =>
    match entry.state with
    | .alive =>
      if now - entry.lastHeartbeat > p.heartbeatIntervalS * p.suspectAfterMissed then
        ({ p with members := p.members.set userId { entry with state := .suspected, suspectedAt := some now } },
          some .suspected)
      else (p, none)
    | .suspected => (p, if p.dead now entry then some .timeout else none)

/-- The manager holds an entry for a user. -/
def Tracks (p : PresenceManager) (u : String) : Prop := (p.members.get? u).isSome = true

instance (p : PresenceManager) (u : String) : Decidable (p.Tracks u) :=
  inferInstanceAs (Decidable ((p.members.get? u).isSome = true))

theorem tracks_registerMember (p : PresenceManager) (now : Time) (u v : String) :
    (p.registerMember now u).Tracks v ↔ v = u ∨ p.Tracks v := by
  simp only [Tracks, registerMember, Dict.get?_set]
  split <;> simp_all

theorem tracks_unregisterMember (p : PresenceManager) (u v : String) :
    (p.unregisterMember u).Tracks v ↔ v ≠ u ∧ p.Tracks v := by
  simp only [Tracks, unregisterMember, Dict.get?_erase]
  split <;> simp_all

theorem tracks_recordHeartbeat (p : PresenceManager) (now : Time) (u v : String) :
    (p.recordHeartbeat now u).1.Tracks v ↔ p.Tracks v := by
  unfold recordHeartbeat
  cases h : p.members.get? u with
  | none => exact Iff.rfl
  | some entry =>
    simp only
    split
    all_goals
      simp only [Tracks, Dict.get?_set]
      split <;> simp_all

theorem tracks_checkEntry (p : PresenceManager) (now : Time) (u v : String) :
    (p.checkEntry now u).1.Tracks v ↔ p.Tracks v := by
  unfold checkEntry
  cases h : p.members.get? u with
  | none => exact Iff.rfl
  | some entry =>
    cases hs : entry.state with
    | suspected => simp only [hs]
    | alive =>
      simp only [hs]
      split
      · simp only [Tracks, Dict.get?_set]
        split <;> simp_all
      · exact Iff.rfl

/-- A check touches only the entry it is about. -/
theorem get?_checkEntry (p : PresenceManager) (now : Time) {u v : String} (h : v ≠ u) :
    (p.checkEntry now u).1.members.get? v = p.members.get? v := by
  unfold checkEntry
  cases p.members.get? u with
  | none => rfl
  | some entry =>
    cases hs : entry.state with
    | suspected => simp only [hs]
    | alive =>
      simp only [hs]
      split
      · exact Dict.get?_set_of_ne _ _ h
      · rfl

@[simp] theorem checkEntry_deadAfterSuspectS (p : PresenceManager) (now : Time) (u : String) :
    (p.checkEntry now u).1.deadAfterSuspectS = p.deadAfterSuspectS := by
  unfold checkEntry
  repeat' split
  all_goals rfl

/-- An entry that is due to be timed out. -/
def Due (p : PresenceManager) (now : Time) (u : String) : Prop :=
  ∃ entry, p.members.get? u = some entry ∧ entry.state = .suspected ∧ p.dead now entry = true

theorem due_iff_checkEntry (p : PresenceManager) (now : Time) (u : String) :
    (p.checkEntry now u).2 = some .timeout ↔ p.Due now u := by
  unfold checkEntry Due
  cases hg : p.members.get? u with
  | none => simp
  | some entry =>
    cases hs : entry.state with
    | alive =>
      simp only [hs]
      split <;> simp [hs]
    | suspected => simp [hs]

theorem checkEntry_of_due {p : PresenceManager} {now : Time} {u : String} (h : p.Due now u) :
    p.checkEntry now u = (p, some .timeout) := by
  obtain ⟨entry, hg, hs, hd⟩ := h
  simp [checkEntry, hg, hs, hd]

theorem Due.congr {p p' : PresenceManager} {now : Time} {u : String} (h : p.Due now u)
    (hg : p'.members.get? u = p.members.get? u) (hd : p'.deadAfterSuspectS = p.deadAfterSuspectS) :
    p'.Due now u := by
  obtain ⟨entry, h1, h2, h3⟩ := h
  refine ⟨entry, hg ▸ h1, h2, ?_⟩
  simpa only [dead, hd] using h3

end PresenceManager

/-- `DuplicateGuard`: its keys, oldest first. -/
structure DuplicateGuard where
  recent : List (String × String)
  windowSize : Nat
  deriving DecidableEq, Repr

namespace DuplicateGuard

/-- The guard a coordinator constructs. -/
def new : DuplicateGuard := ⟨[], 100⟩

/-- `is_duplicate`. -/
def isDuplicate (g : DuplicateGuard) (userId eventType : String) : DuplicateGuard × Bool :=
  let key := (userId, eventType)
  if key ∈ g.recent then (g, true)
  else
    let recent := g.recent ++ [key]
    ({ g with recent := if recent.length > g.windowSize then recent.tail else recent }, false)

end DuplicateGuard

end PeerChat.Membership
