/-
The event log and its checkpoints (`peer_discovery/membership/event_log.py`,
`durability.py`). A checkpoint file is kept as what it decodes to; the
names of the files and the other rooms of the directory are left out.
-/
import PeerChat.Membership.Snapshot
import Mathlib.Data.List.Sort

namespace PeerChat.Membership

open Lib

/-- `MembershipEventLog`. -/
structure EventLog where
  roomId : String
  log : List MembershipEvent
  nextSeqNo : Int
  currentTerm : Int
  deriving DecidableEq, Repr

/-- The arguments of `append`. -/
structure NewEvent where
  eventType : EventType
  userId : String
  source : String
  term : Int
  displayName : String := ""
  traceId : Option String := none
  publicKey : Option Bytes := none
  deriving DecidableEq, Repr

namespace EventLog

/-- A log that has just been constructed. -/
def new (roomId : String) : EventLog := ⟨roomId, [], 1, 1⟩

/-- The event `append` builds, in the term it leaves. -/
def stamp (l : EventLog) (now : Time) (a : NewEvent) : MembershipEvent where
  seqNo := l.nextSeqNo
  roomId := l.roomId
  userId := a.userId
  eventType := a.eventType
  timestamp := now
  membershipVersion := l.nextSeqNo
  source := a.source
  term := max a.term l.currentTerm
  traceId := a.traceId
  displayName := a.displayName
  publicKey := a.publicKey

/-- The log with one event more, in a term it does not leave behind. -/
def push (l : EventLog) (event : MembershipEvent) (term : Int) : EventLog :=
  { l with log := l.log ++ [event], nextSeqNo := l.nextSeqNo + 1, currentTerm := max term l.currentTerm }

/-- `append` at time `now`; `none` for a `StaleTermError`. -/
def append (l : EventLog) (now : Time) (a : NewEvent) : Option (MembershipEvent × EventLog) :=
  if a.term < l.currentTerm then none
  else
    let event := l.stamp now a
    some (event, l.push event a.term)

/-- The event `append_remote` builds: numbered here, in the term it leaves. -/
def localize (l : EventLog) (e : MembershipEvent) : MembershipEvent where
  seqNo := l.nextSeqNo
  roomId := l.roomId
  userId := e.userId
  eventType := e.eventType
  timestamp := e.timestamp
  membershipVersion := l.nextSeqNo
  source := "remote"
  term := max e.term l.currentTerm
  traceId := e.traceId
  displayName := e.displayName
  originator := e.originator
  publicKey := e.publicKey

/-- `append_remote`. -/
def appendRemote (l : EventLog) (e : MembershipEvent) : MembershipEvent × EventLog :=
  let event := l.localize e
  (event, l.push event e.term)

/-- `get_latest_seq_no`. -/
def getLatestSeqNo (l : EventLog) : Int := l.nextSeqNo - 1

/-- `get_events_since`. -/
def getEventsSince (l : EventLog) (seqNo : Int) : List MembershipEvent := l.log.filter (·.seqNo > seqNo)

end EventLog

/-- The payload of a checkpoint, as far as it is read back. -/
structure Checkpoint where
  snapshot : Snapshot
  logTail : List MembershipEvent
  currentTerm : Int
  nextSeqNo : Int
  deriving DecidableEq, Repr

/-- `DurabilityManager` and the checkpoints of its room, by the number in
the name of the file; `none` is a file that does not decode. -/
structure Durability where
  snapshotInterval : Int
  files : Dict Int (Option Checkpoint)
  deriving DecidableEq, Repr

/-- `_KEEP_LAST`. -/
def keepLast : Nat := 2

/-- `MembershipSnapshot.deserialize` of a serialized snapshot. -/
def Snapshot.reread (s : Snapshot) : Snapshot :=
  { s with members := s.members.mapValues MemberInfo.reread }

namespace Durability

/-- `_list_checkpoints`: newest first. -/
def listCheckpoints (d : Durability) : List (Int × Option Checkpoint) :=
  d.files.items.mergeSort fun a b => decide (b.1 ≤ a.1)

/-- `_prune`. -/
def prune (d : Durability) : Durability :=
  { d with files := (d.listCheckpoints.drop keepLast).foldl (fun f p => f.erase p.1) d.files }

/-- `_write_checkpoint`. -/
def writeCheckpoint (d : Durability) (log : EventLog) (snapshot : Snapshot) : Durability :=
  let payload : Checkpoint :=
    { snapshot
      logTail := log.getEventsSince snapshot.asOfSeqNo
      currentTerm := log.currentTerm
      nextSeqNo := log.getLatestSeqNo + 1 }
  prune { d with files := d.files.set log.getLatestSeqNo (some payload) }

/-- `maybe_checkpoint`. -/
def maybeCheckpoint (d : Durability) (log : EventLog) (snapshot : Snapshot) : Durability :=
  let latest := log.getLatestSeqNo
  if 0 < latest ∧ latest % d.snapshotInterval = 0 then d.writeCheckpoint log snapshot else d

/-- `_reconstruct`: the log holds the tail, which is replayed. -/
def reconstruct (roomId : String) (c : Checkpoint) : EventLog × Snapshot :=
  let tail := (c.logTail.map MembershipEvent.reread).mergeSort fun a b => decide (a.seqNo ≤ b.seqNo)
  let replay (s : Snapshot) (e : MembershipEvent) := if s.asOfSeqNo < e.seqNo then (s.applyEvent e).1 else s
  (⟨roomId, tail, c.nextSeqNo, c.currentTerm⟩, tail.foldl replay c.snapshot.reread)

/-- `recover`: the newest checkpoint that decodes. -/
def recover (d : Durability) (roomId : String) : Option (EventLog × Snapshot) :=
  d.listCheckpoints.findSome? fun p => p.2.map (reconstruct roomId)

end Durability

end PeerChat.Membership
