/-
The message store of a node (`LocalMessageStore` of
`message_history/storage/local_message_store.py`) and the reception of
history chunks (`HistoryChunkStreamer._handle_history_chunk`).

A store changes the disk through `perform` only, which also records the
step. The calls of a store hold its lock, so each runs alone.
-/
import PeerChat.History.Disk

namespace PeerChat.History

open Lib

/-- The indexes a store keeps in memory. -/
structure Indexes where
  messageIds : Finset String
  senderSeq : Dict String (Dict Int Int)
  latestVc : VectorClock

namespace Indexes

def empty : Indexes := ⟨∅, Dict.empty, Dict.empty⟩

/-- Enter a message found at an offset of the log, or in a snapshot (`-1`). -/
def add (ix : Indexes) (m : Message) (offset : Int) : Indexes where
  messageIds := insert m.id ix.messageIds
  senderSeq := ix.senderSeq.set m.sender ((ix.senderSeq.getD m.sender Dict.empty).set m.senderSeq offset)
  latestVc := if m.senderSeq > ix.latestVc.count m.sender then ix.latestVc.set m.sender m.senderSeq else ix.latestVc

/-- The loop of `_repair_indexes_from_readable_storage`: the indexes, and
whether an id came twice. -/
def collect : List (Message × Int) → Indexes × Bool → Indexes × Bool
  | [], acc => acc
  | (m, offset) :: found, (ix, twice) =>
    if m.id ∈ ix.messageIds then collect found (ix, true) else collect found (ix.add m offset, twice)

/-- Two maps with the same items, in any order. -/
def sameItems {κ α : Type} [DecidableEq κ] (same : α → α → Bool) (d d' : Dict κ α) : Bool :=
  d.items.length = d'.items.length ∧ d.items.all fun p => (d'.get? p.1).any (same p.2)

/-- `==` on each of the three indexes. -/
def same (ix ix' : Indexes) : Bool :=
  ix.messageIds = ix'.messageIds ∧ sameItems (sameItems (· == ·)) ix.senderSeq ix'.senderSeq ∧
    sameItems (· == ·) ix.latestVc ix'.latestVc

end Indexes

/-- `LocalMessageStore`, with the steps it has taken. -/
structure LocalMessageStore where
  snapshotThreshold : Option Int
  disk : Disk
  indexes : Indexes
  forceFullRecoveryCursor : Bool
  needsSnapshotRebuild : Bool
  steps : List Step

/-- The runs `ms[start:start + size]` for `start` in `range(0, stop, size)`. -/
def slices (stop size : Nat) (ms : List Message) : List (List Message) :=
  (List.range ((stop + size - 1) / size)).map fun i => (ms.drop (i * size)).take size

/-- A history chunk; `type` and `is_snapshot` are the same in each. -/
structure HistoryChunk where
  transferId : String
  chunkId : Nat
  isLast : Bool
  messages : List Message

namespace LocalMessageStore

def perform (s : LocalMessageStore) (f : Step) : LocalMessageStore :=
  { s with disk := s.disk.apply f, steps := s.steps ++ [f] }

/-- `_flush_indexes`. -/
def flushIndexes (s : LocalMessageStore) : LocalMessageStore :=
  let s := (s.perform .writeIndexTmp).perform (.replaceMessageIds s.indexes.messageIds)
  let s := (s.perform .writeIndexTmp).perform (.replaceSenderSeq s.indexes.senderSeq)
  let s := (s.perform .writeIndexTmp).perform (.replaceLatestVc s.indexes.latestVc)
  (s.perform .writeIndexTmp).perform (.replaceRecoveryState ⟨s.forceFullRecoveryCursor, s.needsSnapshotRebuild⟩)

/-- `_write_snapshot_files_unlocked`. -/
def writeSnapshotFiles (s : LocalMessageStore) (x : String) (messages : List Message) : LocalMessageStore :=
  let file := DataFile.gzip (messages.map .message)
  let s := (s.perform (.writeTmp (x ++ ".jsonl.gz.tmp"))).perform (.replaceData x file)
  (s.perform (.writeTmp (x ++ ".meta.json.tmp"))).perform (.replaceMeta x ⟨messages.length, file⟩)

/-- `_rebuild_indexes_unlocked`. -/
def rebuildIndexes (s : LocalMessageStore) : LocalMessageStore :=
  { s with indexes := s.disk.readAllMessages.foldl (fun ix m => ix.add m (-1)) .empty }

/-- `create_snapshot`. -/
def createSnapshot (s : LocalMessageStore) (snapshotId : Option String) (compact : Bool) : LocalMessageStore :=
  let messages := s.disk.readActiveMessages
  if messages.isEmpty then s
  else
    let x := match snapshotId with
      | some x => if x = "" then s.disk.nextSnapshotId else x
      | none => s.disk.nextSnapshotId
    let s := s.writeSnapshotFiles x messages
    if compact then (s.perform (.writeLog [])).rebuildIndexes.flushIndexes else s

/-- `_maybe_create_snapshot_unlocked`. -/
def maybeCreateSnapshot (s : LocalMessageStore) : LocalMessageStore :=
  match s.snapshotThreshold with
  | none => s
  | some t =>
    if t ≤ 0 then s
    else if t ≤ s.disk.readActiveMessages.length then s.createSnapshot none true
    else s

/-- `_delete_snapshot_files_unlocked`. -/
def deleteSnapshotFiles (s : LocalMessageStore) : LocalMessageStore :=
  let s := s.disk.data.keys.foldl (fun s x => s.perform (.unlinkData x)) s
  let s := s.disk.metas.keys.foldl (fun s x => s.perform (.unlinkMeta x)) s
  s.disk.tmps.foldl (fun s name => s.perform (.unlinkTmp name)) s

/-- The loop that writes the snapshots `snapshot-0001`, `snapshot-0002`, … -/
def writeSnapshots : Nat → List (List Message) → LocalMessageStore → LocalMessageStore
  | _, [], s => s
  | index, chunk :: chunks, s =>
    writeSnapshots (index + 1) chunks (s.writeSnapshotFiles (Disk.snapshotId index) chunk)

/-- The size of the rebuilt snapshots, and how many messages they take. -/
def rebuildPlan (threshold : Option Int) (count : Nat) : Nat × Nat :=
  match threshold with
  | none => (count, count)
  | some t => if t > 0 then (t.toNat, count / t.toNat * t.toNat) else (count, count)

/-- `_rebuild_snapshots_from_readable_messages_unlocked`. -/
def rebuildSnapshots (s : LocalMessageStore) : LocalMessageStore :=
  let messages := s.disk.readAllMessages
  if messages.isEmpty then s
  else
    let (chunkSize, snapshotMessageCount) := rebuildPlan s.snapshotThreshold messages.length
    let s := s.deleteSnapshotFiles
    let s := writeSnapshots 1 (slices snapshotMessageCount chunkSize messages) s
    let s := s.perform (.writeLog ((messages.drop snapshotMessageCount).map .message))
    { s with needsSnapshotRebuild := false, forceFullRecoveryCursor := false }.rebuildIndexes.flushIndexes

/-- `_maybe_rebuild_snapshots_after_recovery_unlocked`. -/
def maybeRebuildSnapshots (s : LocalMessageStore) : LocalMessageStore :=
  if hasSenderSequenceGaps s.indexes.senderSeq then s else s.rebuildSnapshots

/-- `save`. -/
def save (s : LocalMessageStore) (m : Message) : LocalMessageStore × Bool :=
  if m.id ∈ s.indexes.messageIds then (s, false)
  else
    let offset : Int := s.disk.activeLog.length
    let s := s.perform (.append (.message m))
    let s := { s with indexes := s.indexes.add m offset }.flushIndexes
    let s := if s.needsSnapshotRebuild then s.maybeRebuildSnapshots else s.maybeCreateSnapshot
    (s.perform (.saved m), true)

/-- The loop of `save_many`; `none` is an item that is no `Message`. -/
def saveAll : List (Option Message) → LocalMessageStore → LocalMessageStore
  | [], s => s
  | none :: items, s => saveAll items s
  | some m :: items, s => saveAll items (s.save m).1

/-- `save_many`. -/
def saveMany (s : LocalMessageStore) (items : List (Option Message)) : LocalMessageStore :=
  let s := saveAll items s
  if s.needsSnapshotRebuild then s.maybeRebuildSnapshots else s

/-- `_load_indexes`. -/
def loadIndexes (d : Disk) : Indexes :=
  ⟨d.messageIdIndex.getD ∅, d.senderSeqIndex.getD Dict.empty, d.latestVcIndex.getD Dict.empty⟩

/-- `_repair_indexes_from_readable_storage`. -/
def repairIndexes (s : LocalMessageStore) : LocalMessageStore :=
  let (repaired, twice) := Indexes.collect s.disk.iterReadableMessages (.empty, false)
  let changed := twice || !repaired.same s.indexes
  let damaged := s.disk.hasUnreadableSnapshot || s.disk.hasSnapshotSequenceGaps ||
    s.disk.activeLog.any LogLine.isInvalid || hasSenderSequenceGaps repaired.senderSeq
  let lost := !decide (s.indexes.messageIds ⊆ repaired.messageIds)
  if changed then
    let force := damaged || lost
    { s with
      forceFullRecoveryCursor := force || s.forceFullRecoveryCursor
      needsSnapshotRebuild := force || s.needsSnapshotRebuild
      indexes := repaired }.flushIndexes
  else if damaged then
    { s with forceFullRecoveryCursor := true, needsSnapshotRebuild := true }.flushIndexes
  else s

/-- `__init__`. -/
def init (threshold : Option Int) (d : Disk) : LocalMessageStore :=
  let r := d.recoveryState.getD ⟨false, false⟩
  repairIndexes ⟨threshold, d, loadIndexes d, r.forceFullRecoveryCursor, r.needsSnapshotRebuild, []⟩

/-- `get_latest_vector_clock`. -/
def getLatestVectorClock (s : LocalMessageStore) : LocalMessageStore × VectorClock :=
  let s := s.repairIndexes
  if s.forceFullRecoveryCursor then
    if hasSenderSequenceGaps s.indexes.senderSeq then (s, Dict.empty)
    else
      let s := { s with forceFullRecoveryCursor := false }.flushIndexes
      (s, s.indexes.latestVc)
  else (s, s.indexes.latestVc)

/-- `get_missing_since`. -/
def getMissingSince (s : LocalMessageStore) (haveVectorClock : VectorClock) : List Message :=
  (Disk.dropSeen ∅ s.disk.readAllMessages).filter fun m => m.senderSeq > haveVectorClock.count m.sender

/-- `get_recent`. -/
def getRecent (s : LocalMessageStore) (limit : Int) : List Message :=
  let messages := s.disk.readAllMessages
  -- `messages[-limit:]`, which counts from the front when `limit` is not positive
  if 0 < limit then messages.drop (messages.length - limit.toNat) else messages.drop (-limit).toNat

/-- `build_history_chunks`; `none` is the `ValueError`. -/
def buildHistoryChunks (s : LocalMessageStore) (haveVectorClock : VectorClock) (transferId : String)
    (chunkSize : Int) : Option (List HistoryChunk) :=
  if chunkSize ≤ 0 then none
  else
    let missing := s.getMissingSince haveVectorClock
    some ((slices missing.length chunkSize.toNat missing).zipIdx.map fun p =>
      ⟨transferId, p.2 + 1, p.2 * chunkSize.toNat + chunkSize.toNat ≥ missing.length, p.1⟩)

/-- `_handle_history_chunk`, on the messages it decodes. -/
def handleHistoryChunk (s : LocalMessageStore) (c : HistoryChunk) : LocalMessageStore :=
  s.saveMany (c.messages.map some)

end LocalMessageStore

end PeerChat.History
