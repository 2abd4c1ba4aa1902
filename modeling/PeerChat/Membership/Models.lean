/-
The data of the membership service (`peer_discovery/membership/models.py`).
-/
import PeerChat.Lib.Dict
import PeerChat.Distribution.VectorClock

namespace PeerChat.Membership

/-- `MemberState`. -/
inductive MemberState
  | joining
  | backfilling
  | active
  | suspected
  | disconnected
  | leaving
  | left
  deriving DecidableEq, Repr

/-- `EventType`. -/
inductive EventType
  | joinRequested
  | joinAccepted
  | joinRejected
  | leaveRequested
  | leaveConfirmed
  | heartbeat
  | disconnectSuspected
  | disconnectTimeout
  | reconnected
  | historyBackfillStarted
  | historyBackfillComplete
  deriving DecidableEq, Repr

/-- `EventType.value`. -/
def EventType.value : EventType → String
  | .joinRequested => "JOIN_REQUESTED"
  | .joinAccepted => "JOIN_ACCEPTED"
  | .joinRejected => "JOIN_REJECTED"
  | .leaveRequested => "LEAVE_REQUESTED"
  | .leaveConfirmed => "LEAVE_CONFIRMED"
  | .heartbeat => "HEARTBEAT"
  | .disconnectSuspected => "DISCONNECT_SUSPECTED"
  | .disconnectTimeout => "DISCONNECT_TIMEOUT"
  | .reconnected => "RECONNECTED"
  | .historyBackfillStarted => "HISTORY_BACKFILL_STARTED"
  | .historyBackfillComplete => "HISTORY_BACKFILL_COMPLETE"

/-- `bytes`. -/
abbrev Bytes := List UInt8

/-- `MembershipEvent`. -/
structure MembershipEvent where
  seqNo : Int
  roomId : String
  userId : String
  eventType : EventType
  timestamp : Time
  membershipVersion : Int
  source : String
  term : Int
  traceId : Option String := none
  displayName : String := ""
  originator : Option String := none
  publicKey : Option Bytes := none
  deriving DecidableEq, Repr

/-- `MemberInfo`. -/
structure MemberInfo where
  userId : String
  displayName : String
  state : MemberState
  joinedAt : Time
  lastHeartbeat : Time
  membershipVersion : Int
  publicKey : Option Bytes := none
  deriving DecidableEq, Repr

/-- `from_dict(to_dict(e))`: an empty key reads back as no key. -/
def MembershipEvent.reread (e : MembershipEvent) : MembershipEvent :=
  { e with publicKey := e.publicKey.filter (!·.isEmpty) }

/-- `from_dict(to_dict(m))`. -/
def MemberInfo.reread (m : MemberInfo) : MemberInfo :=
  { m with publicKey := m.publicKey.filter (!·.isEmpty) }

/-- The values of `MembershipDelta.type`. -/
inductive DeltaType
  | joined
  | active
  | left
  | suspected
  | disconnected
  | reconnected
  | rejected
  deriving DecidableEq, Repr

/-- `MembershipDelta`. -/
structure MembershipDelta where
  type : DeltaType
  userId : String
  event : MembershipEvent
  deriving DecidableEq, Repr

/-- `JoinResult`. -/
structure JoinResult where
  accepted : Bool
  seqNo : Int
  membershipVersion : Int
  activeMembers : List MemberInfo
  reason : Option String
  deriving DecidableEq, Repr

end PeerChat.Membership
