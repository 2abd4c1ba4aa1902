/-
What a save that raises leaves behind (`save` and `save_many` of
`message_history/storage/local_message_store.py`).

The line of a message is in the log before the numbers of the indexes are
computed, and the snapshots are made after the indexes are written, so that
a save that raises behind `_append_to_log` has left its line or has moved
it. `failed_save_leaves_store_iff`: a save leaves the store intact when it raises
exactly when it cannot raise there (`Meets`). What `save_many` counts as invalid
then leaves no trace, and a batch can be retried.
-/
import PeerChat.History.RawStore
import PeerChat.History.Rebuild

namespace PeerChat.History

open Lib JsonText

/-- No sender of these messages is a list or an object. -/
def SendersHash (es : List Entry) : Prop := ∀ e ∈ es, e.senderHashes = true

namespace RawStore

/-- The store when its log has been moved into the next snapshot. -/
def compacted (s : RawStore) (es : List Entry) : RawStore :=
  { (s.writeSnapshotFiles s.nextSnapshotId es).2 with activeLog := [] }

/-- The snapshots that are due can be made: what has to be read can be read, and
what is counted has senders that are keys. -/
def Undisturbed (s : RawStore) : Prop :=
  if s.needsSnapshotRebuild then
    hasSenderSequenceGaps s.indexes.senderSeq = true ∨ ∃ es, s.readAllMessages = .ok es ∧ SendersHash es
  else
    ∀ t, s.snapshotThreshold = some t → 0 < t → ∃ es, s.readActiveMessages = .ok es ∧
      (t ≤ es.length → SendersHash es ∧ ∃ all, (s.compacted es).readAllMessages = .ok all ∧ SendersHash all)

/-- When `save` leaves the store intact if it raises: nothing is appended, since
the id is no key or is known; or the message has a number, and the snapshots
that are due with its line in the log can be made. -/
def Meets (D : Decoding) (s : RawStore) (m : RawMessage) : Prop :=
  isHashable m.id = false ∨ D.textOf m.id ∈ s.indexes.messageIds ∨
    ∃ seq, m.senderSeq D = .ok seq ∧ (s.enterMessage D m seq).Undisturbed

/-- Every item of a batch meets it in its turn. -/
def AllMeet (D : Decoding) : List (Option RawMessage) → RawStore → Prop
  | [], _ => True
  | none :: items, s => AllMeet D items s
  | some m :: items, s => Meets D s m ∧ AllMeet D items (s.save D m).2

/-- The store after the items of a batch. -/
def afterItems (D : Decoding) (s : RawStore) (items : List (Option RawMessage)) : RawStore :=
  items.foldl (fun s item => match item with | some m => (s.save D m).2 | none => s) s

/-- A batch that is given to `save_many` again and again. -/
def retry (D : Decoding) (s : RawStore) (items : List (Option RawMessage)) : Nat → RawStore
  | 0 => s
  | n + 1 => retry D (s.saveMany D items).2 items n

end RawStore

/-! ## Reading lines -/

variable {es es' : List Entry} {e : Entry} {lines : List RawLine} {files : List (List RawLine)}
  {seen seen' : Finset String}

/-- The messages of a file are the messages among its lines. -/
theorem mem_of_readLines (h : readLines lines = .ok es) : e ∈ es ↔ .entry e ∈ lines := by
  induction lines generalizing es with
  | nil =>
    cases h
    simp
  | cons line lines ih =>
    cases line with
    | entry e' =>
      obtain ⟨es', hes', heq⟩ := bind_eq_ok.1 h
      cases heq
      simp [ih hes']
    | invalid _ | blank => simpa using ih h
    | fatal _ => cases h

theorem readLines_entries (es : List Entry) : readLines (es.map .entry) = .ok es := by
  induction es with
  | nil => rfl
  | cons e es ih => exact bind_eq_ok.2 ⟨es, ih, rfl⟩

/-- What is kept of a file: of the messages with one id one is kept, unless the
id was seen before. -/
structure Kept (seen : Finset String) (S : Entry → Prop) (es : List Entry) : Prop where
  source : ∀ e ∈ es, S e ∧ e.idHashes = true ∧ e.message.id ∉ seen
  nodup : (es.map fun e => e.message.id).Nodup
  found : ∀ e, S e → e.message.id ∈ seen ∨ ∃ e' ∈ es, e'.message.id = e.message.id

theorem kept_dropSeenEntries (h : dropSeenEntries seen es = .ok (seen', es')) :
    Kept seen (· ∈ es) es' ∧ ∀ i, i ∈ seen' ↔ i ∈ seen ∨ ∃ e ∈ es', e.message.id = i := by
  induction es generalizing seen seen' es' with
  | nil =>
    cases h
    exact ⟨⟨nofun, .nil, nofun⟩, by simp⟩
  | cons e es ih =>
    rw [dropSeenEntries] at h
    cases hhash : e.idHashes with
    | false => simp [hhash] at h
    | true =>
      simp only [hhash, Bool.not_true, Bool.false_eq_true, if_false] at h
      split at h
      · next hseen =>
        obtain ⟨hkept, hids⟩ := ih h
        refine ⟨⟨fun x hx => ?_, hkept.nodup, fun x hx => ?_⟩, hids⟩
        · obtain ⟨hmem, hrest⟩ := hkept.source x hx
          exact ⟨List.mem_cons_of_mem _ hmem, hrest⟩
        · rcases List.mem_cons.1 hx with rfl | hx
          · exact .inl hseen
          · exact hkept.found x hx
      · next hseen =>
        obtain ⟨⟨seen₁, es₁⟩, hdrop, heq⟩ := bind_eq_ok.1 h
        cases heq
        obtain ⟨hkept, hids⟩ := ih hdrop
        refine ⟨⟨fun x hx => ?_, ?_, fun x hx => ?_⟩, fun i => ?_⟩
        · rcases List.mem_cons.1 hx with rfl | hx
          · exact ⟨List.mem_cons_self, hhash, hseen⟩
          · obtain ⟨hmem, hh, hnew⟩ := hkept.source x hx
            exact ⟨List.mem_cons_of_mem _ hmem, hh, fun hold => hnew (Finset.mem_insert_of_mem hold)⟩
        · rw [List.map_cons, List.nodup_cons]
          refine ⟨fun hmem => ?_, hkept.nodup⟩
          obtain ⟨x, hx, hid⟩ := List.mem_map.1 hmem
          exact (hkept.source x hx).2.2 (hid ▸ Finset.mem_insert_self _ _)
        · rcases List.mem_cons.1 hx with rfl | hx
          · exact .inr ⟨x, List.mem_cons_self, rfl⟩
          · rcases hkept.found x hx with hmem | ⟨y, hy, hid⟩
            · rcases Finset.mem_insert.1 hmem with hid | hold
              · exact .inr ⟨e, List.mem_cons_self, hid.symm⟩
              · exact .inl hold
            · exact .inr ⟨y, List.mem_cons_of_mem _ hy, hid⟩
        · rw [hids, Finset.mem_insert]
          simp only [List.mem_cons, exists_eq_or_imp, @eq_comm _ i]
          exact or_assoc.trans or_left_comm

theorem dropSeenEntries_of_idHashes (seen : Finset String) (h : ∀ e ∈ es, e.idHashes = true) :
    ∃ r, dropSeenEntries seen es = .ok r := by
  induction es generalizing seen with
  | nil => exact ⟨_, rfl⟩
  | cons e es ih =>
    have hes := fun x hx => h x (List.mem_cons_of_mem e hx)
    simp only [dropSeenEntries, h e List.mem_cons_self, Bool.not_true, Bool.false_eq_true, if_false]
    split
    · exact ih seen hes
    · obtain ⟨⟨seen', es'⟩, hr⟩ := ih (insert e.message.id seen) hes
      exact ⟨(seen', e :: es'), bind_eq_ok.2 ⟨_, hr, rfl⟩⟩

/-- Of the messages with one id in some files one is read. -/
theorem kept_readFiles (h : readFiles seen files = .ok es) :
    Kept seen (fun e => ∃ file ∈ files, .entry e ∈ file) es := by
  induction files generalizing seen es with
  | nil =>
    cases h
    exact ⟨nofun, .nil, by simp⟩
  | cons file files ih =>
    obtain ⟨read, hread, h⟩ := bind_eq_ok.1 h
    obtain ⟨⟨seen', new⟩, hdrop, h⟩ := bind_eq_ok.1 h
    obtain ⟨rest, hrest, heq⟩ := bind_eq_ok.1 h
    cases heq
    obtain ⟨hnew, hids⟩ := kept_dropSeenEntries hdrop
    have hkept := ih hrest
    refine ⟨fun e he => ?_, ?_, fun e he => ?_⟩
    · rcases List.mem_append.1 he with he | he
      · obtain ⟨hmem, hh, hnot⟩ := hnew.source e he
        exact ⟨⟨file, List.mem_cons_self, (mem_of_readLines hread).1 hmem⟩, hh, hnot⟩
      · obtain ⟨⟨f, hf, hmem⟩, hh, hnot⟩ := hkept.source e he
        exact ⟨⟨f, List.mem_cons_of_mem _ hf, hmem⟩, hh, fun hold => hnot ((hids _).2 (.inl hold))⟩
    · rw [List.map_append, List.nodup_append]
      refine ⟨hnew.nodup, hkept.nodup, fun i hi j hj hij => ?_⟩
      obtain ⟨x, hx, rfl⟩ := List.mem_map.1 hi
      obtain ⟨y, hy, rfl⟩ := List.mem_map.1 hj
      exact (hkept.source y hy).2.2 ((hids _).2 (.inr ⟨x, hx, hij⟩))
    · obtain ⟨f, hf, hmem⟩ := he
      have hcase : e.message.id ∈ seen' ∨ ∃ e' ∈ rest, e'.message.id = e.message.id := by
        rcases List.mem_cons.1 hf with rfl | hf
        · rcases hnew.found e ((mem_of_readLines hread).2 hmem) with hold | hex
          · exact .inl ((hids _).2 (.inl hold))
          · exact .inl ((hids _).2 (.inr hex))
        · exact hkept.found e ⟨f, hf, hmem⟩
      rcases hcase with hold | ⟨y, hy, hid⟩
      · rcases (hids _).1 hold with hold | ⟨y, hy, hid⟩
        · exact .inl hold
        · exact .inr ⟨y, List.mem_append_left _ hy, hid⟩
      · exact .inr ⟨y, List.mem_append_right _ hy, hid⟩

/-- Files of messages whose ids are keys are read. -/
theorem readFiles_of_entries (seen : Finset String)
    (h : ∀ file ∈ files, ∃ es : List Entry, file = es.map .entry ∧ ∀ e ∈ es, e.idHashes = true) :
    ∃ es, readFiles seen files = .ok es := by
  induction files generalizing seen with
  | nil => exact ⟨[], rfl⟩
  | cons file files ih =>
    obtain ⟨es, rfl, hes⟩ := h file List.mem_cons_self
    obtain ⟨⟨seen', new⟩, hdrop⟩ := dropSeenEntries_of_idHashes seen hes
    obtain ⟨rest, hrest⟩ := ih seen' fun f hf => h f (List.mem_cons_of_mem _ hf)
    refine ⟨new ++ rest, bind_eq_ok.2 ⟨es, readLines_entries es, ?_⟩⟩
    exact bind_eq_ok.2 ⟨_, hdrop, bind_eq_ok.2 ⟨rest, hrest, rfl⟩⟩

/-! ## Numbers -/

variable {vc vc' : VectorClock} {s s' s₁ : RawStore} {line : RawLine} {x : String} {err : PyError}

theorem vectorClockFor_of_sendersHash (vc : VectorClock) (h : SendersHash es) :
    ∃ vc', vectorClockFor es vc = .ok vc' := by
  induction es generalizing vc with
  | nil => exact ⟨vc, rfl⟩
  | cons e es ih =>
    simp only [vectorClockFor, h e List.mem_cons_self, Bool.not_true, Bool.false_eq_true, if_false]
    exact ih _ fun x hx => h x (List.mem_cons_of_mem _ hx)

theorem sendersHash_of_vectorClockFor (h : vectorClockFor es vc = .ok vc') : SendersHash es := by
  induction es generalizing vc with
  | nil => nofun
  | cons e es ih =>
    cases hhash : e.senderHashes with
    | false => simp [vectorClockFor, hhash] at h
    | true =>
      simp only [vectorClockFor, hhash, Bool.not_true, Bool.false_eq_true, if_false] at h
      exact List.forall_mem_cons.2 ⟨hhash, ih h⟩

namespace RawStore

/-- The loop of `_rebuild_indexes_unlocked` changes the indexes, and ends when no
sender is a list or an object. -/
theorem enterAll_cases (es : List Entry) (s : RawStore) : ∃ ix, (enterAll es s).2 = { s with indexes := ix } ∧
    ((enterAll es s).1 = .ok () ∧ SendersHash es ∧
        (∀ i, i ∈ ix.messageIds ↔ i ∈ s.indexes.messageIds ∨ ∃ e ∈ es, e.message.id = i) ∨
      (∃ err, (enterAll es s).1 = .error err) ∧ ¬ SendersHash es) := by
  induction es generalizing s with
  | nil => exact ⟨s.indexes, rfl, .inl ⟨rfl, nofun, by simp⟩⟩
  | cons e es ih =>
    cases hhash : e.senderHashes with
    | false =>
      simp only [enterAll, hhash, Bool.not_false, if_true]
      refine ⟨_, rfl, .inr ⟨⟨_, rfl⟩, fun hall => ?_⟩⟩
      rw [hall e List.mem_cons_self] at hhash
      cases hhash
    | true =>
      simp only [enterAll, hhash, Bool.not_true, Bool.false_eq_true, if_false]
      obtain ⟨ix, hix, ⟨hok, hsenders, hids⟩ | ⟨herr, hsenders⟩⟩ :=
        ih { s with indexes := s.indexes.enter e.message.id e.message.sender e.message.senderSeq (-1) }
      · refine ⟨ix, hix, .inl ⟨hok, List.forall_mem_cons.2 ⟨hhash, hsenders⟩, fun i => ?_⟩⟩
        rw [hids]
        simp only [Indexes.enter, Finset.mem_insert, List.mem_cons, exists_eq_or_imp, @eq_comm _ i]
        exact or_assoc.trans or_left_comm
      · exact ⟨ix, hix, .inr ⟨herr, fun hall => hsenders fun x hx => hall x (List.mem_cons_of_mem _ hx)⟩⟩

/-! ## What a store holds -/

/-- A line of a snapshot that can be read. -/
def InSnapshot (s : RawStore) (line : RawLine) : Prop :=
  ∃ x m, s.metas.get? x = some (some m) ∧ s.data.get? x = some m.checksum ∧ line ∈ m.checksum.getD []

/-- A line that is read with all messages. -/
def Holds (s : RawStore) (line : RawLine) : Prop := s.InSnapshot line ∨ line ∈ s.activeLog

theorem mem_listSnapshots : x ∈ s.listSnapshots ↔ ∃ m, s.metas.get? x = some (some m) := by
  simp only [listSnapshots, List.mem_filterMap, List.mem_insertionSort, Prod.exists, Option.map_eq_some_iff,
    ← Dict.mem_items_iff]
  constructor
  · rintro ⟨_, _, hmem, m, rfl, rfl⟩
    exact ⟨m, hmem⟩
  · rintro ⟨m, hmem⟩
    exact ⟨x, some m, hmem, m, rfl, rfl⟩

theorem mem_snapshotLines : line ∈ s.snapshotLines x ↔
    ∃ m, s.metas.get? x = some (some m) ∧ s.data.get? x = some m.checksum ∧ line ∈ m.checksum.getD [] := by
  unfold snapshotLines
  split
  · next m hm =>
    simp only [hm, Option.some.injEq, exists_eq_left']
    split
    · next file hfile =>
      split
      · next heq => simp [hfile, heq]
      · next hne => simp [hfile, hne]
    · next hnone => simp [hnone]
  · next hnone => simp [hnone]
  · next hnone => simp [hnone]

theorem holds_iff : s.Holds line ↔ ∃ file ∈ s.files, line ∈ file := by
  simp only [files, List.mem_append, List.mem_map, List.mem_singleton, or_and_right, exists_or, exists_eq_left, Holds]
  refine or_congr_left ⟨?_, ?_⟩
  · rintro ⟨x, m, hm, hdata, hline⟩
    exact ⟨_, ⟨x, mem_listSnapshots.2 ⟨m, hm⟩, rfl⟩, mem_snapshotLines.2 ⟨m, hm, hdata, hline⟩⟩
  · rintro ⟨_, ⟨x, -, rfl⟩, hline⟩
    obtain ⟨m, hm, hdata, hline⟩ := mem_snapshotLines.1 hline
    exact ⟨x, m, hm, hdata, hline⟩

/-- Of the messages with one id one is read. -/
theorem kept_readAllMessages (h : s.readAllMessages = .ok es) : Kept ∅ (fun e => s.Holds (.entry e)) es := by
  obtain ⟨read, hread, heq⟩ := bind_eq_ok.1 h
  cases heq
  have hkept := kept_readFiles hread
  have hperm := read.perm_insertionSort fun e e' => e.message.timestamp ≤ e'.message.timestamp
  refine ⟨fun e he => ?_, (hperm.map _).nodup_iff.2 hkept.nodup, fun e he => ?_⟩
  · obtain ⟨hfile, hrest⟩ := hkept.source e (hperm.subset he)
    exact ⟨holds_iff.2 hfile, hrest⟩
  · refine (hkept.found e (holds_iff.1 he)).imp_right ?_
    rintro ⟨y, hy, hid⟩
    exact ⟨y, hperm.symm.subset hy, hid⟩

/-- Where all lines are messages whose ids are keys, all can be read. -/
theorem readAllMessages_of_entries (h : ∀ line, s.Holds line → ∃ e, line = .entry e ∧ e.idHashes = true) :
    ∃ es, s.readAllMessages = .ok es := by
  have hfiles : ∀ file ∈ s.files, ∃ es : List Entry, file = es.map .entry ∧ ∀ e ∈ es, e.idHashes = true := by
    intro file hfile
    have hlines : ∀ line ∈ file, ∃ e, line = .entry e ∧ e.idHashes = true :=
      fun line hline => h line (holds_iff.2 ⟨file, hfile, hline⟩)
    clear hfile
    induction file with
    | nil => exact ⟨[], rfl, nofun⟩
    | cons line file ih =>
      obtain ⟨e, rfl, he⟩ := hlines line List.mem_cons_self
      obtain ⟨es, rfl, hes⟩ := ih fun l hl => hlines l (List.mem_cons_of_mem _ hl)
      exact ⟨e :: es, rfl, List.forall_mem_cons.2 ⟨he, hes⟩⟩
  obtain ⟨es, hes⟩ := readFiles_of_entries ∅ hfiles
  exact ⟨_, bind_eq_ok.2 ⟨es, hes, rfl⟩⟩

theorem files_eq (hm : s'.metas = s.metas) (hd : s'.data = s.data) (hl : s'.activeLog = s.activeLog) :
    s'.files = s.files := by
  have hlines : s'.snapshotLines = s.snapshotLines := by
    funext x
    simp only [snapshotLines, hm, hd]
  simp only [files, listSnapshots, hm, hl, hlines]

theorem readAllMessages_congr (hm : s'.metas = s.metas) (hd : s'.data = s.data) (hl : s'.activeLog = s.activeLog) :
    s'.readAllMessages = s.readAllMessages := by
  rw [readAllMessages, files_eq hm hd hl, readAllMessages]

/-! ## The indexes, made again -/

/-- `_rebuild_indexes_unlocked` and what follows leave the messages alone. They end
when all can be read and no sender is a list or an object. -/
theorem reindex_cases (s : RawStore) :
    (s.reindex.2.activeLog = s.activeLog ∧ s.reindex.2.metas = s.metas ∧ s.reindex.2.data = s.data ∧
      s.reindex.2.needsSnapshotRebuild = s.needsSnapshotRebuild) ∧
    ((∃ es, s.reindex.1 = .ok () ∧ s.readAllMessages = .ok es ∧ SendersHash es ∧
        ∀ i, i ∈ s.reindex.2.indexes.messageIds ↔ ∃ e ∈ es, e.message.id = i) ∨
      (∃ err, s.reindex.1 = .error err) ∧ ¬ ∃ es, s.readAllMessages = .ok es ∧ SendersHash es) := by
  have hread : { s with indexes := Indexes.empty }.readAllMessages = s.readAllMessages :=
    readAllMessages_congr rfl rfl rfl
  cases h : s.readAllMessages with
  | error e =>
    have hre : s.reindex = (.error e, { s with indexes := .empty }) := by
      simp only [reindex, rebuildIndexes, hread, h]
    rw [hre]
    exact ⟨⟨rfl, rfl, rfl, rfl⟩, .inr ⟨⟨e, rfl⟩, nofun⟩⟩
  | ok es =>
    obtain ⟨ix, hix, ⟨hok, hsenders, hids⟩ | ⟨⟨err, herr⟩, hsenders⟩⟩ := enterAll_cases es { s with indexes := .empty }
    · have heq : enterAll es { s with indexes := .empty } = (.ok (), { s with indexes := ix }) := Prod.ext hok hix
      have hre : s.reindex = (.ok (), { s with indexes := ix }.flushIndexes) := by
        simp only [reindex, rebuildIndexes, hread, h, heq]
      rw [hre]
      refine ⟨⟨rfl, rfl, rfl, rfl⟩, .inl ⟨es, rfl, rfl, hsenders, fun i => ?_⟩⟩
      exact (hids i).trans (or_iff_right (Finset.notMem_empty i))
    · have heq : enterAll es { s with indexes := .empty } = (.error err, { s with indexes := ix }) := Prod.ext herr hix
      have hre : s.reindex = (.error err, { s with indexes := ix }) := by
        simp only [reindex, rebuildIndexes, hread, h, heq]
      rw [hre]
      refine ⟨⟨rfl, rfl, rfl, rfl⟩, .inr ⟨⟨err, rfl⟩, ?_⟩⟩
      rintro ⟨es', hes', hall⟩
      cases hes'
      exact hsenders hall

/-! ## Snapshots -/

theorem get?_nextSnapshotId (s : RawStore) : s.metas.get? s.nextSnapshotId = none := by
  rw [Dict.get?_eq_none_iff]
  exact Disk.snapshotId_notMem s.metas.keys

/-- A snapshot under a new name: it is written when no sender is a list or an
object. -/
theorem writeSnapshotFiles_cases (hx : s.metas.get? x = none) (es : List Entry) :
    ((s.writeSnapshotFiles x es).2.activeLog = s.activeLog ∧
      (s.writeSnapshotFiles x es).2.needsSnapshotRebuild = s.needsSnapshotRebuild) ∧
    ((s.writeSnapshotFiles x es).1 = .ok () ∧ SendersHash es ∧
        (∃ m, (s.writeSnapshotFiles x es).2.metas = s.metas.set x (some m)) ∧
        (∀ line, (s.writeSnapshotFiles x es).2.InSnapshot line ↔ s.InSnapshot line ∨ line ∈ es.map .entry) ∨
      (∃ err, (s.writeSnapshotFiles x es).1 = .error err) ∧ ¬ SendersHash es) := by
  cases hvc : vectorClockFor es Dict.empty with
  | error err =>
    have heq : s.writeSnapshotFiles x es = (.error err, { s with data := s.data.set x (some (es.map .entry)) }) := by
      simp only [writeSnapshotFiles, hvc]
    rw [heq]
    refine ⟨⟨rfl, rfl⟩, .inr ⟨⟨err, rfl⟩, fun hall => ?_⟩⟩
    obtain ⟨vc, hok⟩ := vectorClockFor_of_sendersHash Dict.empty hall
    rw [hok] at hvc
    cases hvc
  | ok vc =>
    have heq : s.writeSnapshotFiles x es = (.ok (),
        { s with
          data := s.data.set x (some (es.map .entry))
          metas := s.metas.set x (some ⟨vc, es.length, some (es.map .entry)⟩) }) := by
      simp only [writeSnapshotFiles, hvc]
    rw [heq]
    refine ⟨⟨rfl, rfl⟩, .inl ⟨rfl, sendersHash_of_vectorClockFor hvc, ⟨_, rfl⟩, fun line => ?_⟩⟩
    constructor
    · rintro ⟨y, m, hm, hdata, hline⟩
      by_cases hy : y = x
      · subst hy
        rw [Dict.get?_set_self] at hm
        cases hm
        exact .inr hline
      · rw [Dict.get?_set_of_ne _ _ hy] at hm hdata
        exact .inl ⟨y, m, hm, hdata, hline⟩
    · rintro (⟨y, m, hm, hdata, hline⟩ | hline)
      · have hy : y ≠ x := by
          rintro rfl
          rw [hx] at hm
          cases hm
        exact ⟨y, m, (Dict.get?_set_of_ne _ _ hy).trans hm, (Dict.get?_set_of_ne _ _ hy).trans hdata, hline⟩
      · exact ⟨x, _, Dict.get?_set_self _ _ _, Dict.get?_set_self _ _ _, hline⟩

theorem writeSnapshots_cases : ∀ (chunks : List (List Entry)) (index : Nat) (s : RawStore),
    (∀ n, index ≤ n → s.metas.get? (Disk.snapshotId n) = none) →
    ((writeSnapshots index chunks s).2.activeLog = s.activeLog ∧
      (writeSnapshots index chunks s).2.needsSnapshotRebuild = s.needsSnapshotRebuild) ∧
    ((writeSnapshots index chunks s).1 = .ok () ∧ (∀ chunk ∈ chunks, SendersHash chunk) ∧
        (∀ line, (writeSnapshots index chunks s).2.InSnapshot line ↔
          s.InSnapshot line ∨ line ∈ chunks.flatten.map .entry) ∨
      (∃ err, (writeSnapshots index chunks s).1 = .error err) ∧ ¬ ∀ chunk ∈ chunks, SendersHash chunk)
  | [], _, s, _ => ⟨⟨rfl, rfl⟩, .inl ⟨rfl, nofun, by simp [writeSnapshots]⟩⟩
  | chunk :: chunks, index, s, hfree => by
    obtain ⟨⟨hlog, hneeds⟩, hcase⟩ := writeSnapshotFiles_cases (hfree index (Nat.le_refl _)) chunk
    rw [writeSnapshots]
    rcases hw : s.writeSnapshotFiles (Disk.snapshotId index) chunk with ⟨r, s₁⟩
    rw [hw] at hlog hneeds hcase
    obtain ⟨hok, hsenders, ⟨m, hmetas⟩, hin⟩ | ⟨⟨err, herr⟩, hsenders⟩ := hcase
    · cases hok
      have hfree₁ : ∀ n, index + 1 ≤ n → s₁.metas.get? (Disk.snapshotId n) = none := by
        intro n hn
        have hne : Disk.snapshotId n ≠ Disk.snapshotId index := by
          intro h
          have := Disk.snapshotId_injective h
          omega
        rw [hmetas, Dict.get?_set_of_ne _ _ hne]
        exact hfree n (by omega)
      obtain ⟨⟨hlog₁, hneeds₁⟩, hcase⟩ := writeSnapshots_cases chunks (index + 1) s₁ hfree₁
      refine ⟨⟨hlog₁.trans hlog, hneeds₁.trans hneeds⟩, ?_⟩
      rcases hcase with ⟨hok, hall, hin₁⟩ | ⟨herr, hall⟩
      · refine .inl ⟨hok, List.forall_mem_cons.2 ⟨hsenders, hall⟩, fun line => ?_⟩
        rw [hin₁, hin, List.flatten_cons, List.map_append, List.mem_append, or_assoc]
      · exact .inr ⟨herr, fun h => hall (List.forall_mem_cons.1 h).2⟩
    · cases herr
      exact ⟨⟨hlog, hneeds⟩, .inr ⟨⟨err, rfl⟩, fun h => hsenders (List.forall_mem_cons.1 h).1⟩⟩

/-! ## What is due -/

/-- A message with this id is stored, and is known. -/
def Stored (s : RawStore) (i : String) : Prop :=
  i ∈ s.indexes.messageIds ∧ ∃ e, s.Holds (.entry e) ∧ e.message.id = i

/-- The ids that are known are those of messages that are stored. -/
def Known (s : RawStore) : Prop := ∀ i ∈ s.indexes.messageIds, s.Stored i

/-- A line more in the log would be noticed: the log is the same, or has been
moved. -/
def LeavesTrace (s s' : RawStore) : Prop :=
  s'.activeLog = s.activeLog ∨ s'.metas ≠ s.metas ∨ s'.needsSnapshotRebuild ≠ s.needsSnapshotRebuild

/-- What is stored is stored afterwards, and the ids are right if they were. -/
structure Keeps (s s' : RawStore) : Prop where
  stored : ∀ i, s.Stored i → s'.Stored i
  known : s.Known → s'.Known

theorem Keeps.refl (s : RawStore) : Keeps s s := ⟨fun _ h => h, fun h => h⟩

theorem Keeps.trans {s'' : RawStore} (h : Keeps s s') (h' : Keeps s' s'') : Keeps s s'' :=
  ⟨fun i hi => h'.stored i (h.stored i hi), fun hk => h'.known (h.known hk)⟩

/-- An operation ends, and keeps what is stored; or raises, and leaves a trace. -/
def EndsWhen (P : Prop) (s : RawStore) (r : Except PyError Unit × RawStore) : Prop :=
  r.1 = .ok () ∧ P ∧ s.Keeps r.2 ∨ (∃ err, r.1 = .error err) ∧ ¬ P ∧ s.LeavesTrace r.2

theorem EndsWhen.congr {P Q : Prop} {r : Except PyError Unit × RawStore} (h : EndsWhen P s r) (hpq : P ↔ Q) :
    EndsWhen Q s r := by
  rwa [EndsWhen, ← hpq]

/-- When the indexes are made again they know what is stored. -/
theorem Keeps.reindex {t : RawStore} (hread : t.readAllMessages = .ok es)
    (hframe : s'.activeLog = t.activeLog ∧ s'.metas = t.metas ∧ s'.data = t.data)
    (hids : ∀ i, i ∈ s'.indexes.messageIds ↔ ∃ e ∈ es, e.message.id = i)
    (hsource : ∀ e, s.Holds (.entry e) → ∃ e', t.Holds (.entry e') ∧ e'.message.id = e.message.id) : Keeps s s' := by
  have hholds : ∀ {e}, t.Holds (.entry e) → s'.Holds (.entry e) := by
    intro e he
    rw [holds_iff, files_eq hframe.2.1 hframe.2.2 hframe.1, ← holds_iff]
    exact he
  have hkept := kept_readAllMessages hread
  refine ⟨?_, fun _ i hi => ⟨hi, ?_⟩⟩
  · rintro i ⟨-, e, he, rfl⟩
    obtain ⟨e', he', hid⟩ := hsource e he
    exact ⟨(hids _).2 (hid ▸ (hkept.found e' he').resolve_left (Finset.notMem_empty _)), e', hholds he', hid⟩
  · obtain ⟨e, he, hid⟩ := (hids i).1 hi
    exact ⟨e, hholds (hkept.source e he).1, hid⟩

/-- `create_snapshot`, on a log that can be read and is not empty. -/
theorem createSnapshot_ends (hread : s.readActiveMessages = .ok es) (hne : es ≠ []) :
    EndsWhen (SendersHash es ∧ ∃ all, (s.compacted es).readAllMessages = .ok all ∧ SendersHash all) s
      s.createSnapshot := by
  obtain ⟨⟨hlog, -⟩, hcase⟩ := writeSnapshotFiles_cases s.get?_nextSnapshotId es
  have hempty : es.isEmpty = false := by
    cases es with
    | nil => exact absurd rfl hne
    | cons e es => rfl
  rcases hw : s.writeSnapshotFiles s.nextSnapshotId es with ⟨r, s₁⟩
  rw [hw] at hlog hcase
  have hcompacted : s.compacted es = { s₁ with activeLog := [] } := by rw [compacted, hw]
  obtain ⟨hok, hsenders, ⟨m, hmetas⟩, hin⟩ | ⟨⟨err, herr⟩, hsenders⟩ := hcase
  · cases hok
    have hcreate : s.createSnapshot = (s.compacted es).reindex := by
      simp only [createSnapshot, hread, hempty, hw, hcompacted, Bool.false_eq_true, if_false]
    have hentry : ∀ e, s.Holds (.entry e) → (s.compacted es).Holds (.entry e) := by
      intro e he
      rw [hcompacted]
      refine .inl ((hin _).2 ?_)
      refine he.imp_right fun hmem => ?_
      exact List.mem_map_of_mem ((mem_of_readLines hread).2 hmem)
    obtain ⟨⟨hlog', hmetas', hdata', -⟩, hre⟩ := reindex_cases (s.compacted es)
    rw [hcreate]
    rcases hre with ⟨all, hok, hall, hsendersAll, hids⟩ | ⟨herr, hnot⟩
    · refine .inl ⟨hok, ⟨hsenders, all, hall, hsendersAll⟩, ?_⟩
      exact .reindex hall ⟨hlog', hmetas', hdata'⟩ hids fun e he => ⟨e, hentry e he, rfl⟩
    · refine .inr ⟨herr, fun h => hnot h.2, .inr (.inl fun h => ?_)⟩
      have hnew : s.metas.get? s.nextSnapshotId = some (some m) := by
        have hset : s₁.metas.get? s.nextSnapshotId = some (some m) := by rw [hmetas, Dict.get?_set_self]
        rw [← h, hmetas', hcompacted]
        exact hset
      rw [get?_nextSnapshotId] at hnew
      cases hnew
  · cases herr
    have hcreate : s.createSnapshot = (.error err, s₁) := by
      simp only [createSnapshot, hread, hempty, hw, Bool.false_eq_true, if_false]
    rw [hcreate]
    exact .inr ⟨⟨err, rfl⟩, fun h => hsenders h.1, .inl hlog⟩

theorem maybeCreateSnapshot_ends (hneeds : s.needsSnapshotRebuild = false) :
    EndsWhen s.Undisturbed s s.maybeCreateSnapshot := by
  have hund : s.Undisturbed ↔ ∀ t, s.snapshotThreshold = some t → 0 < t → ∃ es, s.readActiveMessages = .ok es ∧
      (t ≤ es.length → SendersHash es ∧ ∃ all, (s.compacted es).readAllMessages = .ok all ∧ SendersHash all) := by
    rw [Undisturbed, hneeds]
    rfl
  refine EndsWhen.congr (P := ∀ t, s.snapshotThreshold = some t → 0 < t → ∃ es, s.readActiveMessages = .ok es ∧
    (t ≤ es.length → SendersHash es ∧ ∃ all, (s.compacted es).readAllMessages = .ok all ∧ SendersHash all)) ?_ hund.symm
  cases ht : s.snapshotThreshold with
  | none =>
    simp only [maybeCreateSnapshot, ht]
    exact .inl ⟨rfl, nofun, .refl s⟩
  | some t =>
    by_cases hpos : t ≤ 0
    · simp only [maybeCreateSnapshot, ht, if_pos hpos]
      refine .inl ⟨rfl, fun t' ht' hpos' => ?_, .refl s⟩
      cases ht'
      omega
    · cases hread : s.readActiveMessages with
      | error err =>
        simp only [maybeCreateSnapshot, ht, if_neg hpos, hread]
        refine .inr ⟨⟨err, rfl⟩, fun h => ?_, .inl rfl⟩
        obtain ⟨es, hes, -⟩ := h t rfl (by omega)
        cases hes
      | ok es =>
        by_cases hle : t ≤ es.length
        · simp only [maybeCreateSnapshot, ht, if_neg hpos, hread, if_pos hle]
          have hne : es ≠ [] := by
            rintro rfl
            rw [List.length_nil] at hle
            exact hpos hle
          refine (createSnapshot_ends hread hne).congr ⟨fun h t' ht' _ => ⟨es, rfl, fun _ => h⟩, fun h => ?_⟩
          obtain ⟨es', hes', hall⟩ := h t rfl (by omega)
          cases hes'
          exact hall hle
        · simp only [maybeCreateSnapshot, ht, if_neg hpos, hread, if_neg hle]
          refine .inl ⟨rfl, fun t' ht' _ => ?_, .refl s⟩
          cases ht'
          exact ⟨es, rfl, fun h => absurd h hle⟩

/-- Indexes that are made over the messages that have been read end when no
sender of them is a list or an object. -/
theorem reindex_ends {t : RawStore} (hread : s.readAllMessages = .ok es)
    (hholds : ∀ line, t.Holds line ↔ line ∈ es.map .entry)
    (hneeds : t.needsSnapshotRebuild ≠ s.needsSnapshotRebuild) : EndsWhen (SendersHash es) s t.reindex := by
  have hkept := kept_readAllMessages hread
  have hentry : ∀ e, t.Holds (.entry e) ↔ e ∈ es := by
    intro e
    rw [hholds, List.mem_map]
    exact ⟨fun ⟨e', he', heq⟩ => by cases heq; exact he', fun he => ⟨e, he, rfl⟩⟩
  obtain ⟨⟨hlog', hmetas', hdata', hneeds'⟩, ⟨es', hok, hes', hsenders, hids⟩ | ⟨herr, hnot⟩⟩ := reindex_cases t
  · have hkept' := kept_readAllMessages hes'
    refine .inl ⟨hok, fun e he => ?_, .reindex hes' ⟨hlog', hmetas', hdata'⟩ hids fun e he => ?_⟩
    · obtain ⟨e', he', hid⟩ := (hkept'.found e ((hentry e).2 he)).resolve_left (Finset.notMem_empty _)
      have hmem : e' ∈ es := (hentry e').1 (hkept'.source e' he').1
      cases List.inj_on_of_nodup_map hkept.nodup hmem he hid
      exact hsenders _ he'
    · obtain ⟨e', he', hid⟩ := (hkept.found e he).resolve_left (Finset.notMem_empty _)
      exact ⟨e', (hentry e').2 he', hid⟩
  · refine .inr ⟨herr, fun hall => hnot ?_, .inr (.inr (by rwa [hneeds']))⟩
    obtain ⟨es', hes'⟩ := readAllMessages_of_entries (s := t) fun line hline => by
      obtain ⟨e, he, rfl⟩ := List.mem_map.1 ((hholds line).1 hline)
      exact ⟨e, rfl, (hkept.source e he).2.1⟩
    exact ⟨es', hes', fun e he => hall e ((hentry e).1 ((kept_readAllMessages hes').source e he).1)⟩

/-- The snapshots and the log that a rebuild writes hold what has been read. -/
theorem holds_rebuilt {chunks : List (List Entry)} {k : Nat} (hflat : chunks.flatten = es.take k)
    (hin : ∀ line, s₁.InSnapshot line ↔ { s with data := Dict.empty, metas := Dict.empty }.InSnapshot line ∨
      line ∈ chunks.flatten.map .entry) (line : RawLine) :
    { s₁ with
      activeLog := (es.drop k).map .entry
      needsSnapshotRebuild := false
      forceFullRecoveryCursor := false }.Holds line ↔ line ∈ es.map .entry := by
  have hnone : ¬ { s with data := Dict.empty, metas := Dict.empty }.InSnapshot line := by
    rintro ⟨x, m, hm, -⟩
    cases hm
  have hsnap : s₁.InSnapshot line ↔ line ∈ (es.take k).map .entry := by
    rw [← hflat]
    exact (hin line).trans (or_iff_right hnone)
  have hsplit : es.map RawLine.entry = (es.take k).map .entry ++ (es.drop k).map .entry := by
    rw [← List.map_append, List.take_append_drop]
  rw [hsplit, List.mem_append, ← hsnap]
  rfl

/-- `_rebuild_snapshots_from_readable_messages_unlocked`, where a rebuild is due. -/
theorem rebuildSnapshots_ends (hneeds : s.needsSnapshotRebuild = true) :
    EndsWhen (∃ es, s.readAllMessages = .ok es ∧ SendersHash es) s s.rebuildSnapshots := by
  cases hread : s.readAllMessages with
  | error err =>
    simp only [rebuildSnapshots, hread]
    exact .inr ⟨⟨err, rfl⟩, nofun, .inl rfl⟩
  | ok es =>
    have hP : (∃ es', Except.ok es = (Except.ok es' : Except PyError _) ∧ SendersHash es') ↔ SendersHash es := by simp
    refine EndsWhen.congr (P := SendersHash es) ?_ hP.symm
    by_cases hne : es = []
    · subst hne
      simp only [rebuildSnapshots, hread, List.isEmpty_nil, if_true]
      exact .inl ⟨rfl, nofun, .refl s⟩
    · have hempty : es.isEmpty = false := by simpa using hne
      let plan := LocalMessageStore.rebuildPlan s.snapshotThreshold es.length
      let chunks := entrySlices plan.2 plan.1 es
      let s₀ : RawStore := { s with data := Dict.empty, metas := Dict.empty }
      have hflat : chunks.flatten = es.take plan.2 :=
        (LocalMessageStore.flatten_runs plan.2 plan.1 es).trans
          (congrArg es.take (LocalMessageStore.roundUp_rebuildPlan s.snapshotThreshold (List.length_pos_iff.2 hne)))
      obtain ⟨⟨hlog, -⟩, hcase⟩ := writeSnapshots_cases chunks 1 s₀ fun _ _ => rfl
      rcases hw : writeSnapshots 1 chunks s₀ with ⟨r, s₁⟩
      rw [hw] at hlog hcase
      have hw' : writeSnapshots 1 (entrySlices (LocalMessageStore.rebuildPlan s.snapshotThreshold es.length).2
        (LocalMessageStore.rebuildPlan s.snapshotThreshold es.length).1 es)
        { s with data := Dict.empty, metas := Dict.empty } = (r, s₁) := hw
      obtain ⟨hok, -, hin⟩ | ⟨⟨err, herr⟩, hchunks⟩ := hcase
      · cases hok
        have hrebuild : s.rebuildSnapshots = { s₁ with
            activeLog := (es.drop plan.2).map .entry
            needsSnapshotRebuild := false
            forceFullRecoveryCursor := false }.reindex := by
          simp only [rebuildSnapshots, hread, hempty, hw', Bool.false_eq_true, if_false]
          rfl
        rw [hrebuild]
        refine reindex_ends hread (holds_rebuilt hflat hin) ?_
        rw [hneeds]
        exact Bool.false_ne_true
      · cases herr
        have hrebuild : s.rebuildSnapshots = (.error err, s₁) := by
          simp only [rebuildSnapshots, hread, hempty, hw', Bool.false_eq_true, if_false]
        rw [hrebuild]
        refine .inr ⟨⟨err, rfl⟩, fun hall => hchunks fun chunk hchunk e he => hall e ?_, .inl hlog⟩
        exact List.mem_of_mem_take (hflat ▸ List.mem_flatten_of_mem hchunk he)

/-- What `save` does at last ends when it is not disturbed. -/
theorem tidy_ends (s : RawStore) : EndsWhen s.Undisturbed s s.tidy := by
  cases hneeds : s.needsSnapshotRebuild with
  | false =>
    simp only [tidy, hneeds, Bool.false_eq_true, if_false]
    exact maybeCreateSnapshot_ends hneeds
  | true =>
    have hund : s.Undisturbed ↔ hasSenderSequenceGaps s.indexes.senderSeq = true ∨
        ∃ es, s.readAllMessages = .ok es ∧ SendersHash es := by
      rw [Undisturbed, hneeds]
      rfl
    refine EndsWhen.congr ?_ hund.symm
    simp only [tidy, hneeds, if_true, maybeRebuildSnapshots]
    split
    · next hgap => exact .inl ⟨rfl, .inl hgap, .refl s⟩
    · next hgap => exact (rebuildSnapshots_ends hneeds).congr (or_iff_right hgap).symm

/-! ## Saving -/

variable {D : Decoding} {m : RawMessage} {seq : Int} {items : List (Option RawMessage)}

theorem LeavesTrace.ne (h : (s.enterMessage D m seq).LeavesTrace s') : s' ≠ s := by
  rintro rfl
  rcases h with h | h | h
  · have hlen := congrArg List.length h
    simp [enterMessage, appendToLog, flushIndexes] at hlen
  · exact h rfl
  · exact h rfl

theorem appendToLog_ne : s.appendToLog D m ≠ s := by
  intro h
  have hlog := congrArg activeLog h
  simp [appendToLog] at hlog

/-- A save that comes to the snapshots ends as they do. -/
theorem save_of_tidy {r : Except PyError Unit} (hid : isHashable m.id = true)
    (hnew : D.textOf m.id ∉ s.indexes.messageIds) (hseq : m.senderSeq D = .ok seq)
    (htidy : (s.enterMessage D m seq).tidy = (r, s')) : s.save D m = (r.map fun _ => true, s') := by
  cases r with
  | error e =>
    simp only [save, hid, hnew, hseq, htidy, Bool.not_true, Bool.false_eq_true, if_false, Except.map]
  | ok u =>
    simp only [save, hid, hnew, hseq, htidy, Bool.not_true, Bool.false_eq_true, if_false, Except.map]

/-- **A save that raises leaves the store intact exactly when the condition holds.** -/
theorem save_intact_iff (D : Decoding) (s : RawStore) (m : RawMessage) :
    (∀ e s', s.save D m = (.error e, s') → s' = s) ↔ Meets D s m := by
  cases hid : isHashable m.id with
  | false =>
    refine iff_of_true (fun e s' h => ?_) (.inl hid)
    simp only [save, hid, Bool.not_false, if_true, Prod.mk.injEq] at h
    exact h.2.symm
  | true =>
    by_cases hknown : D.textOf m.id ∈ s.indexes.messageIds
    · refine iff_of_true (fun e s' h => ?_) (.inr (.inl hknown))
      simp [save, hid, hknown] at h
    · have hmeets : Meets D s m ↔ ∃ seq, m.senderSeq D = .ok seq ∧ (s.enterMessage D m seq).Undisturbed := by
        rw [Meets, hid, or_iff_right (by decide), or_iff_right hknown]
      rw [hmeets]
      cases hseq : m.senderSeq D with
      | error err =>
        refine iff_of_false (fun h => ?_) (by simp)
        refine appendToLog_ne (h err (s.appendToLog D m) ?_)
        simp only [save, hid, hknown, hseq, Bool.not_true, Bool.false_eq_true, if_false]
      | ok seq =>
        simp only [Except.ok.injEq, exists_eq_left']
        rcases htidy : (s.enterMessage D m seq).tidy with ⟨r, s'⟩
        have hends := tidy_ends (s.enterMessage D m seq)
        rw [htidy] at hends
        rw [save_of_tidy hid hknown hseq htidy]
        rcases hends with ⟨hok, hund, -⟩ | ⟨⟨err, herr⟩, hund, htrace⟩
        · cases hok
          refine iff_of_true (fun e s'' h => ?_) hund
          simp only [Except.map, Prod.mk.injEq, reduceCtorEq, false_and] at h
        · cases herr
          exact iff_of_false (fun h => htrace.ne (h err s' rfl)) hund

/-- The same for a sequence of saves. -/
theorem allMeet_iff (D : Decoding) : ∀ (items : List (Option RawMessage)) (s : RawStore),
    (∀ before m after, items = before ++ some m :: after → ∀ e s',
      (s.afterItems D before).save D m = (.error e, s') → s' = s.afterItems D before) ↔ AllMeet D items s
  | [], s => by simp [AllMeet]
  | none :: items, s => by
    rw [AllMeet, ← allMeet_iff D items s]
    constructor
    · rintro h before m after rfl
      exact h (none :: before) m after rfl
    · intro h before m after heq
      cases before with
      | nil => cases heq
      | cons item before =>
        cases heq
        exact h before m after rfl
  | some m :: items, s => by
    rw [AllMeet, ← save_intact_iff, ← allMeet_iff D items (s.save D m).2]
    constructor
    · intro h
      refine ⟨h [] m items rfl, ?_⟩
      rintro before m' after rfl
      exact h (some m :: before) m' after rfl
    · rintro ⟨hm, h⟩ before m' after heq
      cases before with
      | nil =>
        cases heq
        exact hm
      | cons item before =>
        cases heq
        exact h before m' after rfl

/-! ## Batches that are retried -/

/-- The line of a message is read back as that message. -/
def ReadBack (D : Decoding) (m : RawMessage) : Prop := ∃ e, m.line D = .entry e ∧ e.message.id = D.textOf m.id

theorem keeps_enterMessage (s : RawStore) (seq : Int) (hread : ReadBack D m) :
    s.Keeps (s.enterMessage D m seq) ∧ (s.enterMessage D m seq).Stored (D.textOf m.id) := by
  have hholds : ∀ {line}, s.Holds line → (s.enterMessage D m seq).Holds line :=
    fun h => h.imp_right fun hmem => List.mem_append_left _ hmem
  have hids : ∀ {i}, i ∈ (s.enterMessage D m seq).indexes.messageIds ↔ i = D.textOf m.id ∨ i ∈ s.indexes.messageIds :=
    Finset.mem_insert
  have hstored : ∀ i, s.Stored i → (s.enterMessage D m seq).Stored i :=
    fun i ⟨hi, e, he, hid⟩ => ⟨hids.2 (.inr hi), e, hholds he, hid⟩
  have hnew : (s.enterMessage D m seq).Stored (D.textOf m.id) := by
    obtain ⟨e, he, hid⟩ := hread
    exact ⟨hids.2 (.inl rfl), e, .inr (List.mem_append_right _ (List.mem_singleton.2 he.symm)), hid⟩
  refine ⟨⟨hstored, fun hknown i hi => ?_⟩, hnew⟩
  rcases hids.1 hi with rfl | hi
  · exact hnew
  · exact hstored i (hknown i hi)

/-- A message is stored when it has been saved, unless its id is no key. -/
theorem keeps_save (hmeets : Meets D s m) (hread : ReadBack D m) (hknown : s.Known) :
    s.Keeps (s.save D m).2 ∧ (isHashable m.id = true → (s.save D m).2.Stored (D.textOf m.id)) := by
  cases hid : isHashable m.id with
  | false =>
    simp only [save, hid, Bool.not_false, if_true]
    exact ⟨.refl s, nofun⟩
  | true =>
    by_cases hmem : D.textOf m.id ∈ s.indexes.messageIds
    · simp only [save, hid, hmem, Bool.not_true, Bool.false_eq_true, if_false, if_true]
      exact ⟨.refl s, fun _ => hknown _ hmem⟩
    · rw [Meets, hid, or_iff_right (by decide), or_iff_right hmem] at hmeets
      obtain ⟨seq, hseq, hund⟩ := hmeets
      obtain ⟨hkeeps, hstored⟩ := keeps_enterMessage s seq hread
      rcases htidy : (s.enterMessage D m seq).tidy with ⟨r, s'⟩
      have hends := tidy_ends (s.enterMessage D m seq)
      rw [htidy] at hends
      rw [save_of_tidy hid hmem hseq htidy]
      rcases hends with ⟨-, -, hkept⟩ | ⟨-, hnot, -⟩
      · exact ⟨hkeeps.trans hkept, fun _ => hkept.stored _ hstored⟩
      · exact absurd hund hnot

/-- After a batch its messages are stored. -/
theorem keeps_saveItems : ∀ {items : List (Option RawMessage)} {s s' : RawStore} {c c' : Counts},
    saveItems D items s c = (.ok c', s') → AllMeet D items s → (∀ m, some m ∈ items → ReadBack D m) → s.Known →
    s.Keeps s' ∧ ∀ m, some m ∈ items → isHashable m.id = true → s'.Stored (D.textOf m.id)
  | [], s, s', _, _, h, _, _, _ => by
    cases h
    exact ⟨.refl _, nofun⟩
  | none :: items, s, s', c, c', h, hall, hread, hknown => by
    have hrest : saveItems D items s { c with invalid := c.invalid + 1 } = (.ok c', s') := h
    obtain ⟨hkeeps, hstored⟩ :=
      keeps_saveItems hrest hall (fun m hm => hread m (List.mem_cons_of_mem _ hm)) hknown
    exact ⟨hkeeps, fun m hm => hstored m ((List.mem_cons.1 hm).resolve_left nofun)⟩
  | some m :: items, s, s', c, c', h, hall, hread, hknown => by
    obtain ⟨hkeeps, hstored⟩ := keeps_save hall.1 (hread m List.mem_cons_self) hknown
    have hrest : ∃ c₁, saveItems D items (s.save D m).2 c₁ = (.ok c', s') := by
      rw [saveItems] at h
      split at h
      · next heq => rw [heq]; exact ⟨_, h⟩
      · next heq => rw [heq]; exact ⟨_, h⟩
      · next heq =>
        split at h
        · rw [heq]
          exact ⟨_, h⟩
        · cases h
    obtain ⟨c₁, hrest⟩ := hrest
    obtain ⟨hkeeps', hstored'⟩ := keeps_saveItems hrest hall.2
      (fun m' hm' => hread m' (List.mem_cons_of_mem _ hm')) (hkeeps.known hknown)
    refine ⟨hkeeps.trans hkeeps', fun m' hm' hid => ?_⟩
    rcases List.mem_cons.1 hm' with heq | hm'
    · cases heq
      exact hkeeps'.stored _ (hstored hid)
    · exact hstored' m' hm' hid

/-- A batch of which all is known, or is no key, changes nothing. -/
theorem saveItems_of_known : ∀ {items : List (Option RawMessage)} {c : Counts},
    (∀ m, some m ∈ items → isHashable m.id = true → D.textOf m.id ∈ s.indexes.messageIds) →
    ∃ c', saveItems D items s c = (.ok c', s)
  | [], c, _ => ⟨c, rfl⟩
  | none :: items, c, h => by
    have hrest := fun m hm => h m (List.mem_cons_of_mem _ hm)
    exact saveItems_of_known (c := { c with invalid := c.invalid + 1 }) hrest
  | some m :: items, c, h => by
    have hrest := fun m' hm' => h m' (List.mem_cons_of_mem _ hm')
    cases hid : isHashable m.id with
    | false =>
      have hsave : s.save D m = (.error .typeError, s) := by simp [save, hid]
      simp only [saveItems, hsave, countsAsInvalid, if_true]
      exact saveItems_of_known hrest
    | true =>
      have hsave : s.save D m = (.ok false, s) := by simp [save, hid, h m List.mem_cons_self hid]
      simp only [saveItems, hsave]
      exact saveItems_of_known hrest

theorem needsSnapshotRebuild_reindex {r : Except PyError Unit} (h : s.reindex = (r, s')) :
    s'.needsSnapshotRebuild = s.needsSnapshotRebuild := by
  have hframe := (reindex_cases s).1.2.2.2
  rw [h] at hframe
  exact hframe

/-- A rebuild that is still due afterwards has done nothing. -/
theorem maybeRebuildSnapshots_of_due (hneeds : s.needsSnapshotRebuild = true)
    (h : s.maybeRebuildSnapshots = (.ok (), s')) : s.Keeps s' ∧ (s'.needsSnapshotRebuild = true → s' = s) := by
  unfold maybeRebuildSnapshots at h
  split at h
  · cases h
    exact ⟨.refl s, fun _ => rfl⟩
  · refine ⟨?_, fun hdue => ?_⟩
    · rcases rebuildSnapshots_ends hneeds with ⟨-, -, hkeeps⟩ | ⟨⟨err, herr⟩, -⟩
      · rw [h] at hkeeps
        exact hkeeps
      · rw [h] at herr
        cases herr
    · unfold rebuildSnapshots at h
      split at h
      · cases h
      · split at h
        · cases h
          rfl
        · simp only at h
          split at h
          · cases h
          · have hframe := needsSnapshotRebuild_reindex h
            exact absurd (hframe.symm.trans hdue) Bool.false_ne_true

/-- A batch leaves nothing to do for the same batch. -/
theorem saveMany_again {c : Counts} (h : s.saveMany D items = (.ok c, s₁)) (hall : AllMeet D items s)
    (hread : ∀ m, some m ∈ items → ReadBack D m) (hknown : s.Known) : (s₁.saveMany D items).2 = s₁ := by
  unfold saveMany at h
  split at h
  · cases h
  · next c' s₂ hitems =>
    obtain ⟨hkeeps, hstored⟩ := keeps_saveItems hitems hall hread hknown
    have hend : s₂.Keeps s₁ ∧ (s₁.needsSnapshotRebuild = true → ∃ r, s₁.maybeRebuildSnapshots = (.ok r, s₁)) := by
      split at h
      · next hneeds =>
        split at h
        · cases h
        · next s₃ hre =>
          cases h
          obtain ⟨hkeeps', hsame⟩ := maybeRebuildSnapshots_of_due hneeds hre
          refine ⟨hkeeps', fun hdue => ?_⟩
          cases hsame hdue
          exact ⟨_, hre⟩
      · next hneeds =>
        cases h
        exact ⟨.refl _, fun hdue => absurd hdue hneeds⟩
    obtain ⟨c'', hagain⟩ := saveItems_of_known (s := s₁) (D := D) (c := ⟨0, 0, 0⟩)
      fun m hm hid => (hend.1.stored _ (hstored m hm hid)).1
    rw [saveMany, hagain]
    simp only
    split
    · next hneeds =>
      obtain ⟨r, hre⟩ := hend.2 hneeds
      rw [hre]
    · rfl

theorem retry_eq (h : (s.saveMany D items).2 = s) : ∀ n, s.retry D items n = s
  | 0 => rfl
  | n + 1 => by
    rw [retry, h]
    exact retry_eq h n

end RawStore

/-- **A failed save leaves the store intact exactly when it cannot fail behind the
append**, one by one and in any sequence of saves. A batch whose messages are
read back can then be given to `save_many` again any number of times. -/
theorem failed_save_leaves_store_iff (D : Decoding) (s : RawStore) (m : RawMessage)
    (items : List (Option RawMessage)) :
    ((∀ e s', s.save D m = (.error e, s') → s' = s) ↔ RawStore.Meets D s m) ∧
    ((∀ before m after, items = before ++ some m :: after → ∀ e s',
      (s.afterItems D before).save D m = (.error e, s') → s' = s.afterItems D before) ↔ RawStore.AllMeet D items s) ∧
    (RawStore.AllMeet D items s → (∀ m, some m ∈ items → RawStore.ReadBack D m) → s.Known → ∀ c s₁,
      s.saveMany D items = (.ok c, s₁) → ∀ n, s₁.retry D items n = s₁) :=
  ⟨RawStore.save_intact_iff D s m, RawStore.allMeet_iff D items s, fun hall hread hknown _ _ h =>
    RawStore.retry_eq (RawStore.saveMany_again h hall hread hknown)⟩

/-- A store without messages, that makes no snapshots. -/
def RawStore.empty : RawStore :=
  ⟨none, [], Dict.empty, Dict.empty, none, none, none, none, .empty, false, false⟩

/-- A message whose count of its own sender is a word. -/
def wordCount : RawMessage where
  id := .str (codePoints "m")
  content := .str []
  sender := .str (codePoints "a:1")
  timestamp := ofInt 0
  signature := .str []
  ttl := ofInt 0
  vectorClock := .obj [(codePoints "a:1", .str (codePoints "x"))]

/-- A count that is no number is found behind the append: the save raises, the
line is in the log, and each retry of the batch adds another one. -/
theorem failed_save_grows_log :
    (RawStore.empty.save Decoding.plain wordCount).1 = .error .valueError ∧
    (RawStore.empty.save Decoding.plain wordCount).2.activeLog = [wordCount.line .plain] ∧
    (RawStore.empty.retry Decoding.plain [some wordCount] 3).activeLog.length = 3 := by
  have hseq : wordCount.senderSeq Decoding.plain = .error .valueError := by decide +kernel
  have hid : isHashable wordCount.id = true := rfl
  have hsave : ∀ s : RawStore, s.indexes.messageIds = ∅ →
      s.save Decoding.plain wordCount = (.error .valueError, s.appendToLog Decoding.plain wordCount) := by
    intro s hids
    simp only [RawStore.save, hids, hseq, hid, Bool.not_true, Bool.false_eq_true, if_false, Finset.notMem_empty]
  have hmany : ∀ s : RawStore, s.indexes.messageIds = ∅ → s.needsSnapshotRebuild = false →
      (s.saveMany Decoding.plain [some wordCount]).2 = s.appendToLog Decoding.plain wordCount := by
    intro s hids hneeds
    have hneeds' : (s.appendToLog Decoding.plain wordCount).needsSnapshotRebuild = false := hneeds
    simp only [RawStore.saveMany, RawStore.saveItems, hsave s hids, RawStore.countsAsInvalid, if_true, hneeds',
      Bool.false_eq_true, if_false]
  refine ⟨?_, ?_, ?_⟩
  · rw [hsave _ rfl]
  · rw [hsave _ rfl]
    rfl
  · simp only [RawStore.retry]
    rw [hmany _ rfl rfl, hmany _ rfl rfl, hmany _ rfl rfl]
    rfl

end PeerChat.History
