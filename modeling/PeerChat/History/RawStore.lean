/-
The message store on messages whose fields are any JSON values (`save`,
`save_many` and what they call, `message_history/storage/local_message_store.py`
and `models.py`).

Whatever reads the log may meet a line that `Message.from_json` makes no
message of. The errors that the readers catch make the line count for nothing;
the others end the call, and so does a message whose id or sender is no key.
Each function returns what it leaves of the store, with its value or with the
error that ended it.
-/
import PeerChat.History.ChunkEntries

namespace PeerChat.History

open Lib JsonText

/-- A `Message`, its fields any JSON values. -/
structure RawMessage where
  id : Doc
  content : Doc
  sender : Doc
  timestamp : Doc
  signature : Doc
  ttl : Doc
  vectorClock : Doc

/-- A line, as `Message.from_json` takes it: it makes a message of it, raises
what the readers catch, or raises something else. -/
inductive RawLine
  | entry (e : Entry)
  | invalid (text : String)
  | fatal (error : PyError)
  | blank
  deriving DecidableEq

namespace RawMessage

/-- The members that `to_json` writes. -/
def members (m : RawMessage) : List (CodePoints × Doc) :=
  [(codePoints "id", m.id), (codePoints "content", m.content), (codePoints "sender", m.sender),
    (codePoints "timestamp", m.timestamp), (codePoints "signature", m.signature), (codePoints "ttl", m.ttl),
    (codePoints "vector_clock", m.vectorClock)]

/-- `to_json`. -/
def toJson (m : RawMessage) : List Char := (Doc.obj m.members).text []

/-- `from_json` of the line of a message. -/
def fromJson (D : Decoding) (m : RawMessage) : Except PyError Entry :=
  match D.limit m.toJson with
  | some x => .error x.error
  | none => D.fromDict (.obj m.members)

/-- The line of a message. -/
def line (D : Decoding) (m : RawMessage) : RawLine :=
  match m.fromJson D with
  | .ok e => .entry e
  | .error e => if e.isCaught then .invalid (String.ofList m.toJson) else .fatal e

/-- `sender_seq`. -/
def senderSeq (D : Decoding) (m : RawMessage) : Except PyError Int :=
  match m.vectorClock with
  | .obj l =>
    match m.sender with
    | .str s => D.int ((get? l s).getD (ofInt 0))
    | .null | .bool _ | .num _ => D.int (ofInt 0)
    | .arr _ | .obj _ => .error .typeError
  | .null | .bool _ | .num _ | .str _ | .arr _ => .error .attributeError

end RawMessage

/-- `_read_active_messages_with_offsets_unlocked` and
`_read_snapshot_file_unlocked`, on the lines of a file. -/
def readLines : List RawLine → Except PyError (List Entry)
  | [] => .ok []
  | .entry e :: lines => do
    let es ← readLines lines
    .ok (e :: es)
  | .invalid _ :: lines | .blank :: lines => readLines lines
  | .fatal e :: _ => .error e

/-- A `.jsonl.gz` file; `none` is one that is no archive. -/
abbrev RawFile := Option (List RawLine)

/-- A `.meta.json` file. -/
structure RawMeta where
  coversUntilVectorClock : VectorClock
  messageCount : Nat
  checksum : RawFile
  deriving DecidableEq

/-- Enter a message under its id, its sender and its number. -/
def Indexes.enter (ix : Indexes) (id sender : String) (seq offset : Int) : Indexes where
  messageIds := insert id ix.messageIds
  senderSeq := ix.senderSeq.set sender ((ix.senderSeq.getD sender Dict.empty).set seq offset)
  latestVc := if seq > ix.latestVc.count sender then ix.latestVc.set sender seq else ix.latestVc

/-- A `LocalMessageStore` and its files. -/
structure RawStore where
  snapshotThreshold : Option Int
  activeLog : List RawLine
  data : Dict String RawFile
  metas : Dict String (Option RawMeta)
  messageIdIndex : Option (Finset String)
  senderSeqIndex : Option (Dict String (Dict Int Int))
  latestVcIndex : Option VectorClock
  recoveryState : Option RecoveryState
  indexes : Indexes
  forceFullRecoveryCursor : Bool
  needsSnapshotRebuild : Bool

/-- `_read_all_messages_unlocked`, for the messages of one file: those whose id
has not been seen. -/
def dropSeenEntries (seen : Finset String) : List Entry → Except PyError (Finset String × List Entry)
  | [] => .ok (seen, [])
  | e :: es =>
    if !e.idHashes then .error .typeError
    else if e.message.id ∈ seen then dropSeenEntries seen es
    else do
      let (seen, rest) ← dropSeenEntries (insert e.message.id seen) es
      .ok (seen, e :: rest)

/-- `_read_all_messages_unlocked`, before the messages are sorted. -/
def readFiles (seen : Finset String) : List (List RawLine) → Except PyError (List Entry)
  | [] => .ok []
  | file :: files => do
    let es ← readLines file
    let (seen, es) ← dropSeenEntries seen es
    let rest ← readFiles seen files
    .ok (es ++ rest)

/-- `_vector_clock_for_messages`. -/
def vectorClockFor : List Entry → VectorClock → Except PyError VectorClock
  | [], vc => .ok vc
  | e :: es, vc =>
    if !e.senderHashes then .error .typeError
    else
      let m := e.message
      vectorClockFor es (if m.senderSeq > vc.count m.sender then vc.set m.sender m.senderSeq else vc)

/-- The runs `es[start:start + size]` for `start` in `range(0, stop, size)`. -/
def entrySlices (stop size : Nat) (es : List Entry) : List (List Entry) :=
  (List.range ((stop + size - 1) / size)).map fun i => (es.drop (i * size)).take size

namespace RawStore

/-- `_flush_indexes`. -/
def flushIndexes (s : RawStore) : RawStore :=
  { s with
    messageIdIndex := some s.indexes.messageIds
    senderSeqIndex := some s.indexes.senderSeq
    latestVcIndex := some s.indexes.latestVc
    recoveryState := some ⟨s.forceFullRecoveryCursor, s.needsSnapshotRebuild⟩ }

/-! ## Reading -/

/-- `_read_active_messages_unlocked`. -/
def readActiveMessages (s : RawStore) : Except PyError (List Entry) := readLines s.activeLog

/-- The ids of `list_snapshots`. -/
def listSnapshots (s : RawStore) : List String :=
  (s.metas.items.insertionSort fun p q => p.1 ++ ".meta.json" ≤ q.1 ++ ".meta.json").filterMap
    fun p => p.2.map fun _ => p.1

/-- The lines that `read_snapshot_messages` reads. -/
def snapshotLines (s : RawStore) (x : String) : List RawLine :=
  match s.metas.get? x with
  | some (some m) =>
    match s.data.get? x with
    | some file => if file = m.checksum then file.getD [] else []
    | none => []
  | some none | none => []

/-- The files of `_iter_readable_messages_with_offsets_unlocked`. -/
def files (s : RawStore) : List (List RawLine) := s.listSnapshots.map s.snapshotLines ++ [s.activeLog]

/-- `_read_all_messages_unlocked`. -/
def readAllMessages (s : RawStore) : Except PyError (List Entry) := do
  let es ← readFiles ∅ s.files
  .ok (es.insertionSort fun e e' => e.message.timestamp ≤ e'.message.timestamp)

/-- `_next_snapshot_id_unlocked`. -/
def nextSnapshotId (s : RawStore) : String :=
  Disk.snapshotId ((s.metas.keys.filterMap Disk.snapshotNumber).foldl max 0 + 1).toNat

/-! ## Snapshots -/

/-- The loop of `_rebuild_indexes_unlocked`. -/
def enterAll : List Entry → RawStore → Except PyError Unit × RawStore
  | [], s => (.ok (), s)
  | e :: es, s =>
    let m := e.message
    if !e.senderHashes then
      (.error .typeError, { s with indexes := { s.indexes with messageIds := insert m.id s.indexes.messageIds } })
    else enterAll es { s with indexes := s.indexes.enter m.id m.sender m.senderSeq (-1) }

/-- `_rebuild_indexes_unlocked`. -/
def rebuildIndexes (s : RawStore) : Except PyError Unit × RawStore :=
  let s := { s with indexes := .empty }
  match s.readAllMessages with
  | .error e => (.error e, s)
  | .ok es => enterAll es s

/-- `_write_snapshot_files_unlocked`. -/
def writeSnapshotFiles (s : RawStore) (x : String) (es : List Entry) : Except PyError Unit × RawStore :=
  let file : RawFile := some (es.map .entry)
  let s := { s with data := s.data.set x file }
  match vectorClockFor es Dict.empty with
  | .error e => (.error e, s)
  | .ok vc => (.ok (), { s with metas := s.metas.set x (some ⟨vc, es.length, file⟩) })

/-- `_rebuild_indexes_unlocked` and `_flush_indexes`. -/
def reindex (s : RawStore) : Except PyError Unit × RawStore :=
  match s.rebuildIndexes with
  | (.error e, s) => (.error e, s)
  | (.ok _, s) => (.ok (), s.flushIndexes)

/-- `create_snapshot(compact=True)`. -/
def createSnapshot (s : RawStore) : Except PyError Unit × RawStore :=
  match s.readActiveMessages with
  | .error e => (.error e, s)
  | .ok es =>
    if es.isEmpty then (.ok (), s)
    else
      match s.writeSnapshotFiles s.nextSnapshotId es with
      | (.error e, s) => (.error e, s)
      | (.ok _, s) => { s with activeLog := [] }.reindex

/-- `_maybe_create_snapshot_unlocked`. -/
def maybeCreateSnapshot (s : RawStore) : Except PyError Unit × RawStore :=
  match s.snapshotThreshold with
  | none => (.ok (), s)
  | some t =>
    if t ≤ 0 then (.ok (), s)
    else
      match s.readActiveMessages with
      | .error e => (.error e, s)
      | .ok es => if t ≤ es.length then s.createSnapshot else (.ok (), s)

/-- The loop that writes the snapshots `snapshot-0001`, `snapshot-0002`, … -/
def writeSnapshots : Nat → List (List Entry) → RawStore → Except PyError Unit × RawStore
  | _, [], s => (.ok (), s)
  | index, chunk :: chunks, s =>
    match s.writeSnapshotFiles (Disk.snapshotId index) chunk with
    | (.error e, s) => (.error e, s)
    | (.ok _, s) => writeSnapshots (index + 1) chunks s

/-- `_rebuild_snapshots_from_readable_messages_unlocked`. -/
def rebuildSnapshots (s : RawStore) : Except PyError Unit × RawStore :=
  match s.readAllMessages with
  | .error e => (.error e, s)
  | .ok es =>
    if es.isEmpty then (.ok (), s)
    else
      let (chunkSize, snapshotMessageCount) := LocalMessageStore.rebuildPlan s.snapshotThreshold es.length
      let s := { s with data := Dict.empty, metas := Dict.empty }
      match writeSnapshots 1 (entrySlices snapshotMessageCount chunkSize es) s with
      | (.error e, s) => (.error e, s)
      | (.ok _, s) =>
        { s with
          activeLog := (es.drop snapshotMessageCount).map .entry
          needsSnapshotRebuild := false
          forceFullRecoveryCursor := false }.reindex

/-- `_maybe_rebuild_snapshots_after_recovery_unlocked`. -/
def maybeRebuildSnapshots (s : RawStore) : Except PyError Unit × RawStore :=
  if hasSenderSequenceGaps s.indexes.senderSeq then (.ok (), s) else s.rebuildSnapshots

/-! ## Saving -/

/-- `_append_to_log`. -/
def appendToLog (D : Decoding) (s : RawStore) (m : RawMessage) : RawStore :=
  { s with activeLog := s.activeLog ++ [m.line D] }

/-- What `save` does behind `sender_seq`, up to the snapshots. -/
def enterMessage (D : Decoding) (s : RawStore) (m : RawMessage) (seq : Int) : RawStore :=
  { s.appendToLog D m with
    indexes := s.indexes.enter (D.textOf m.id) (D.textOf m.sender) seq s.activeLog.length }.flushIndexes

/-- What `save` does at last: the snapshots, when they are due. -/
def tidy (s : RawStore) : Except PyError Unit × RawStore :=
  if s.needsSnapshotRebuild then s.maybeRebuildSnapshots else s.maybeCreateSnapshot

/-- `save`. -/
def save (D : Decoding) (s : RawStore) (m : RawMessage) : Except PyError Bool × RawStore :=
  if !isHashable m.id then (.error .typeError, s)
  else if D.textOf m.id ∈ s.indexes.messageIds then (.ok false, s)
  else
    match m.senderSeq D with
    | .error e => (.error e, s.appendToLog D m)
    | .ok seq =>
      match (s.enterMessage D m seq).tidy with
      | (.error e, s) => (.error e, s)
      | (.ok _, s) => (.ok true, s)

/-- `except (AttributeError, TypeError, ValueError)`. -/
def countsAsInvalid : PyError → Bool
  | .attributeError | .typeError | .valueError => true
  | .keyError | .overflowError | .recursionError => false

/-- The loop of `save_many`; `none` is an item that is no `Message`. -/
def saveItems (D : Decoding) : List (Option RawMessage) → RawStore → Counts → Except PyError Counts × RawStore
  | [], s, c => (.ok c, s)
  | none :: items, s, c => saveItems D items s { c with invalid := c.invalid + 1 }
  | some m :: items, s, c =>
    match s.save D m with
    | (.ok true, s) => saveItems D items s { c with saved := c.saved + 1 }
    | (.ok false, s) => saveItems D items s { c with duplicates := c.duplicates + 1 }
    | (.error e, s) =>
      if countsAsInvalid e then saveItems D items s { c with invalid := c.invalid + 1 } else (.error e, s)

/-- `save_many`. -/
def saveMany (D : Decoding) (s : RawStore) (items : List (Option RawMessage)) : Except PyError Counts × RawStore :=
  match saveItems D items s ⟨0, 0, 0⟩ with
  | (.error e, s) => (.error e, s)
  | (.ok c, s) =>
    if s.needsSnapshotRebuild then
      match s.maybeRebuildSnapshots with
      | (.error e, s) => (.error e, s)
      | (.ok _, s) => (.ok c, s)
    else (.ok c, s)

end RawStore

end PeerChat.History
