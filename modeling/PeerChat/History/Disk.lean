/-
What a node's message store keeps on disk (`message_history/storage/local_message_store.py`):
the active log, the snapshot files and the index files, the steps that
change them, and how messages are read back.

A snapshot `x` is two files, `x.jsonl.gz` and `x.meta.json`; the store
writes the id and the data file's name into the meta file, so that both
files are kept here under `x`. A digest stands for the content it is taken
of. An offset into the log is the number of lines before it.
-/
import PeerChat.Lib.Decimal
import PeerChat.Lib.Journal
import PeerChat.Distribution.VectorClock
import Mathlib.Data.Finset.Basic
import Mathlib.Data.List.Sort

namespace PeerChat

open Lib

/-- `sender_seq`: the number a message has in its own sender's count. -/
def Message.senderSeq (m : Message) : Int := m.vectorClock.count m.sender

namespace History

/-- A line of the log or of a snapshot. `Message.from_json` raises on an
invalid one; blank ones are skipped. -/
inductive LogLine
  | message (m : Message)
  | invalid (text : String)
  | blank
  deriving DecidableEq, Repr

def LogLine.message? : LogLine → Option Message
  | message m => some m
  | invalid _ | blank => none

def LogLine.isInvalid : LogLine → Bool
  | invalid _ => true
  | message _ | blank => false

/-- A `.jsonl.gz` file: the lines it unpacks to, or bytes that are no
archive. -/
inductive DataFile
  | gzip (lines : List LogLine)
  | other (bytes : String)
  deriving DecidableEq, Repr

/-- `_read_snapshot_file_unlocked`. -/
def DataFile.messages : DataFile → List Message
  | gzip lines => lines.filterMap LogLine.message?
  | other _ => []

/-- What the store reads of a `.meta.json` file. -/
structure Meta where
  messageCount : Int
  checksum : DataFile
  deriving DecidableEq, Repr

/-- `recovery_state.json`. -/
structure RecoveryState where
  forceFullRecoveryCursor : Bool
  needsSnapshotRebuild : Bool
  deriving DecidableEq, Repr

/-- The directories of a store. A meta file that is no JSON object is
`none`, and so is an index file that is missing or cannot be read. -/
structure Disk where
  activeLog : List LogLine
  data : Dict String DataFile
  metas : Dict String (Option Meta)
  /-- The `.tmp` files among the snapshots. -/
  tmps : List String
  messageIdIndex : Option (Finset String)
  senderSeqIndex : Option (Dict String (Dict Int Int))
  latestVcIndex : Option VectorClock
  recoveryState : Option RecoveryState

/-- What a store does, in order: the steps that change the disk, each of
them atomic, and the moments at which a call of `save` returns `True`. -/
inductive Step
  | append (line : LogLine)
  | writeLog (lines : List LogLine)
  | writeTmp (name : String)
  | replaceData (x : String) (file : DataFile)
  | replaceMeta (x : String) (m : Meta)
  | unlinkData (x : String)
  | unlinkMeta (x : String)
  | unlinkTmp (name : String)
  | writeIndexTmp
  | replaceMessageIds (ids : Finset String)
  | replaceSenderSeq (seqs : Dict String (Dict Int Int))
  | replaceLatestVc (vc : VectorClock)
  | replaceRecoveryState (r : RecoveryState)
  | saved (m : Message)

namespace Disk

/-- The disk of a store that was never opened. -/
def empty : Disk := ⟨[], Dict.empty, Dict.empty, [], none, none, none, none⟩

def apply (d : Disk) : Step → Disk
  | .append line => { d with activeLog := d.activeLog ++ [line] }
  | .writeLog lines => { d with activeLog := lines }
  | .writeTmp name => { d with tmps := d.tmps.erase name ++ [name] }
  | .replaceData x file => { d with data := d.data.set x file, tmps := d.tmps.erase (x ++ ".jsonl.gz.tmp") }
  | .replaceMeta x m => { d with metas := d.metas.set x (some m), tmps := d.tmps.erase (x ++ ".meta.json.tmp") }
  | .unlinkData x => { d with data := d.data.erase x }
  | .unlinkMeta x => { d with metas := d.metas.erase x }
  | .unlinkTmp name => { d with tmps := d.tmps.erase name }
  | .writeIndexTmp => d
  | .replaceMessageIds ids => { d with messageIdIndex := some ids }
  | .replaceSenderSeq seqs => { d with senderSeqIndex := some seqs }
  | .replaceLatestVc vc => { d with latestVcIndex := some vc }
  | .replaceRecoveryState r => { d with recoveryState := some r }
  | .saved _ => d

/-! ## Reading -/

/-- `list_snapshots`, each meta file with its snapshot's id. -/
def listSnapshots (d : Disk) : List (String × Meta) :=
  (d.metas.items.insertionSort fun p q => p.1 ++ ".meta.json" ≤ q.1 ++ ".meta.json").filterMap
    fun p => p.2.map fun m => (p.1, m)

/-- `read_snapshot_messages`. -/
def readSnapshotMessages (d : Disk) (x : String) : List Message :=
  match d.metas.get? x with
  | some (some m) =>
    match d.data.get? x with
    | some file => if file = m.checksum then file.messages else []
    | none => []
  | some none | none => []

/-- `_read_active_messages_with_offsets_unlocked`. -/
def readActiveMessagesWithOffsets (d : Disk) : List (Message × Int) :=
  d.activeLog.zipIdx.filterMap fun p => p.1.message?.map fun m => (m, (p.2 : Int))

/-- `_read_active_messages_unlocked`. -/
def readActiveMessages (d : Disk) : List Message := d.readActiveMessagesWithOffsets.map Prod.fst

/-- `_iter_readable_messages_with_offsets_unlocked`; a message of a snapshot
has offset `-1`. -/
def iterReadableMessages (d : Disk) : List (Message × Int) :=
  (d.listSnapshots.flatMap fun s => (d.readSnapshotMessages s.1).map fun m => (m, -1)) ++
    d.readActiveMessagesWithOffsets

/-- The messages of a list whose id has not been seen. -/
def dropSeen (seen : Finset String) : List Message → List Message
  | [] => []
  | m :: ms => if m.id ∈ seen then dropSeen seen ms else m :: dropSeen (insert m.id seen) ms

/-- `_read_all_messages_unlocked`. -/
def readAllMessages (d : Disk) : List Message :=
  (dropSeen ∅ (d.iterReadableMessages.map Prod.fst)).insertionSort fun m m' => m.timestamp ≤ m'.timestamp

/-- The number in an id `snapshot-…`, for `int()`. -/
def snapshotNumber (x : String) : Option Int :=
  if "snapshot-".toList.isPrefixOf x.toList then parseInt (String.ofList (x.toList.drop 9)) else none

/-- The id of the `n`th snapshot. -/
def snapshotId (n : Nat) : String := "snapshot-" ++ zeroPad 4 n

/-- `_next_snapshot_id_unlocked`. -/
def nextSnapshotId (d : Disk) : String :=
  snapshotId ((d.metas.keys.filterMap snapshotNumber).foldl max 0 + 1).toNat

/-- `_has_unreadable_snapshot_unlocked`. -/
def hasUnreadableSnapshot (d : Disk) : Bool :=
  d.listSnapshots.any fun s => 0 < s.2.messageCount ∧ (d.readSnapshotMessages s.1).length < s.2.messageCount

/-- `list(range(a, b + 1))`. -/
def interval (a b : Int) : List Int := (List.range (b + 1 - a).toNat).map fun i : Nat => a + (i : Int)

/-- `_has_snapshot_sequence_gaps_unlocked`. -/
def hasSnapshotSequenceGaps (d : Disk) : Bool :=
  let numbers := (d.listSnapshots.filterMap fun s => snapshotNumber s.1).insertionSort (· ≤ ·)
  match numbers.head?, numbers.getLast? with
  | some first, some last => numbers ≠ interval first last
  | _, _ => false

end Disk

/-- One sender in `_has_sender_sequence_gaps`: its positive numbers are not
`1, …, n`. -/
def hasGap (keys : List Int) : Bool :=
  let seqs := (keys.filter (0 < ·)).insertionSort (· ≤ ·)
  match seqs.getLast? with
  | none => false
  | some last => seqs ≠ Disk.interval 1 last

/-- `_has_sender_sequence_gaps`. -/
def hasSenderSequenceGaps (senderSeq : Dict String (Dict Int Int)) : Bool :=
  senderSeq.values.any fun seqMap => hasGap seqMap.keys

end History

end PeerChat
