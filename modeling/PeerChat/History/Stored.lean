/-
What a disk stores. `Disk.stored` lists every readable copy of a message,
and the steps of a store are described by what they do to it.
`mem_readAllMessages_iff`: where an id names one message, everything stored
is read, each message once.
-/
import PeerChat.History.LocalMessageStore

namespace PeerChat.History

open Lib

namespace Disk

/-- Every readable copy of a message. -/
def stored (d : Disk) : List Message := d.iterReadableMessages.map Prod.fst

/-- An id names one message. -/
def UniqueIds (d : Disk) : Prop := ∀ m ∈ d.stored, ∀ m' ∈ d.stored, m.id = m'.id → m = m'

theorem mem_readActiveMessages {d : Disk} {m : Message} : m ∈ d.readActiveMessages ↔ .message m ∈ d.activeLog := by
  simp only [readActiveMessages, readActiveMessagesWithOffsets, List.mem_map, List.mem_filterMap, Prod.exists,
    Option.map_eq_some_iff]
  constructor
  · intro hex
    obtain ⟨m', o, ⟨l, i, hl, m'', hm, he⟩, rfl⟩ := hex
    cases he
    cases l with
    | message m₀ =>
      cases hm
      exact (List.mem_zipIdx' hl).2 ▸ List.getElem_mem _
    | invalid _ | blank => cases hm
  · intro h
    obtain ⟨i, hi, he⟩ := List.getElem_of_mem h
    exact ⟨m, i, ⟨.message m, i, List.mk_mem_zipIdx_iff_getElem?.2 (by rw [List.getElem?_eq_getElem hi, he]), m, rfl,
      rfl⟩, rfl⟩

theorem mem_listSnapshots {d : Disk} {x : String} {m : Meta} :
    (x, m) ∈ d.listSnapshots ↔ d.metas.get? x = some (some m) := by
  rw [← Dict.mem_items_iff]
  simp only [listSnapshots, List.mem_filterMap, List.mem_insertionSort, Prod.exists, Option.map_eq_some_iff,
    Prod.mk.injEq]
  constructor
  · intro hex
    obtain ⟨_, _, h, _, rfl, rfl, rfl⟩ := hex
    exact h
  · exact fun h => ⟨x, some m, h, m, rfl, rfl, rfl⟩

/-- A snapshot is read when its data file has the digest its meta file names. -/
theorem mem_readSnapshotMessages {d : Disk} {x : String} {m : Message} :
    m ∈ d.readSnapshotMessages x ↔
      ∃ mt, d.metas.get? x = some (some mt) ∧ d.data.get? x = some mt.checksum ∧ m ∈ mt.checksum.messages := by
  unfold readSnapshotMessages
  split
  · next mt hmt =>
    simp only [hmt, Option.some.injEq, exists_eq_left']
    split
    · next file hfile =>
      split
      · next he => simp [hfile, he]
      · next hne => simp [hfile, hne]
    · next hnone => simp [hnone]
  · next hnone => simp [hnone]
  · next hnone => simp [hnone]

theorem mem_stored {d : Disk} {m : Message} :
    m ∈ d.stored ↔ (∃ x, m ∈ d.readSnapshotMessages x) ∨ .message m ∈ d.activeLog := by
  rw [← mem_readActiveMessages]
  simp only [stored, iterReadableMessages, List.map_append, List.mem_append, readActiveMessages]
  refine or_congr ⟨fun h => ?_, fun ⟨x, hx⟩ => ?_⟩ Iff.rfl
  · simp only [List.mem_map, List.mem_flatMap, Prod.exists] at h
    obtain ⟨_, _, ⟨x, _, -, _, hm, he⟩, rfl⟩ := h
    cases he
    exact ⟨x, hm⟩
  · obtain ⟨mt, hmt, -⟩ := mem_readSnapshotMessages.1 hx
    simp only [List.mem_map, List.mem_flatMap, Prod.exists]
    exact ⟨m, -1, ⟨x, mt, mem_listSnapshots.2 hmt, m, hx, rfl⟩, rfl⟩

/-! ## The steps -/

theorem mem_stored_append {d : Disk} {m m' : Message} :
    m' ∈ (d.apply (.append (.message m))).stored ↔ m' ∈ d.stored ∨ m' = m := by
  simp only [mem_stored, apply, readSnapshotMessages, List.mem_append, List.mem_singleton, LogLine.message.injEq,
    or_assoc]

theorem mem_stored_writeLog {d : Disk} {lines : List LogLine} {m : Message} :
    m ∈ (d.apply (.writeLog lines)).stored ↔ (∃ x, m ∈ d.readSnapshotMessages x) ∨ .message m ∈ lines :=
  mem_stored

theorem readSnapshotMessages_replaceData {d : Disk} {x : String} (file : DataFile) (hx : d.metas.get? x = none)
    (y : String) : (d.apply (.replaceData x file)).readSnapshotMessages y = d.readSnapshotMessages y := by
  by_cases hy : y = x
  · subst hy
    simp only [readSnapshotMessages, apply, hx]
  · simp only [readSnapshotMessages, apply, Dict.get?_set_of_ne _ _ hy]

/-- A data file without its meta file counts for nothing. -/
theorem mem_stored_replaceData {d : Disk} {x : String} (file : DataFile) (hx : d.metas.get? x = none) {m : Message} :
    m ∈ (d.apply (.replaceData x file)).stored ↔ m ∈ d.stored := by
  simp only [mem_stored, readSnapshotMessages_replaceData file hx]
  rfl

theorem readSnapshotMessages_replaceMeta {d : Disk} {x : String} {file : DataFile} (hx : d.metas.get? x = none)
    (hd : d.data.get? x = some file) (n : Int) (y : String) :
    (d.apply (.replaceMeta x ⟨n, file⟩)).readSnapshotMessages y =
      if y = x then file.messages else d.readSnapshotMessages y := by
  by_cases hy : y = x
  · subst hy
    simp only [readSnapshotMessages, apply, Dict.get?_set, if_true, hd]
  · simp only [readSnapshotMessages, apply, Dict.get?_set_of_ne _ _ hy, hy, if_false]

/-- One more snapshot is readable, under a name that held nothing. -/
theorem exists_mem_ite {read : String → List Message} {x : String} (hx : read x = []) {ms : List Message}
    {m : Message} :
    (∃ y, m ∈ if y = x then ms else read y) ↔ (∃ y, m ∈ read y) ∨ m ∈ ms := by
  constructor
  · intro hex
    obtain ⟨y, hy⟩ := hex
    split at hy
    · exact .inr hy
    · exact .inl ⟨y, hy⟩
  · intro hor
    rcases hor with ⟨y, hy⟩ | hm
    · have hne : y ≠ x := by
        intro he
        rw [he, hx] at hy
        cases hy
      exact ⟨y, by rw [if_neg hne]; exact hy⟩
    · exact ⟨x, by rw [if_pos rfl]; exact hm⟩

/-- A meta file makes its data file count. -/
theorem mem_stored_replaceMeta {d : Disk} {x : String} {file : DataFile} (hx : d.metas.get? x = none)
    (hd : d.data.get? x = some file) (n : Int) {m : Message} :
    m ∈ (d.apply (.replaceMeta x ⟨n, file⟩)).stored ↔ m ∈ d.stored ∨ m ∈ file.messages := by
  have hold : d.readSnapshotMessages x = [] := by simp only [readSnapshotMessages, hx]
  simp only [mem_stored, readSnapshotMessages_replaceMeta hx hd n, exists_mem_ite hold]
  exact or_right_comm

/-! ## Reading everything -/

theorem mem_of_mem_dropSeen {m : Message} : ∀ {ms : List Message} {seen : Finset String}, m ∈ dropSeen seen ms →
    m ∈ ms ∧ m.id ∉ seen
  | m' :: ms, seen, h => by
    unfold dropSeen at h
    split at h
    · have := mem_of_mem_dropSeen h
      exact ⟨List.mem_cons_of_mem _ this.1, this.2⟩
    · next hn =>
      rcases List.mem_cons.1 h with rfl | h
      · exact ⟨by simp, hn⟩
      · have := mem_of_mem_dropSeen h
        simp only [Finset.mem_insert, not_or] at this
        exact ⟨List.mem_cons_of_mem _ this.1, this.2.2⟩

theorem exists_mem_dropSeen {m : Message} : ∀ {ms : List Message} {seen : Finset String}, m ∈ ms → m.id ∉ seen →
    ∃ m' ∈ dropSeen seen ms, m'.id = m.id
  | m₀ :: ms, seen, h, hn => by
    unfold dropSeen
    rcases List.mem_cons.1 h with rfl | h
    · rw [if_neg hn]
      exact ⟨m, by simp, rfl⟩
    · split
      · exact exists_mem_dropSeen h hn
      · by_cases he : m.id = m₀.id
        · exact ⟨m₀, by simp, he.symm⟩
        · have hn' : m.id ∉ insert m₀.id seen := by simp [he, hn]
          obtain ⟨m', hm', hid⟩ := exists_mem_dropSeen h hn'
          exact ⟨m', List.mem_cons_of_mem _ hm', hid⟩

theorem nodup_dropSeen : ∀ (ms : List Message) (seen : Finset String), ((dropSeen seen ms).map Message.id).Nodup
  | [], _ => List.nodup_nil
  | m :: ms, seen => by
    unfold dropSeen
    split
    · exact nodup_dropSeen ms seen
    · rw [List.map_cons, List.nodup_cons]
      refine ⟨fun h => ?_, nodup_dropSeen ms _⟩
      obtain ⟨m', hm', hid⟩ := List.mem_map.1 h
      have := (mem_of_mem_dropSeen hm').2
      simp [hid] at this

/-- A list of messages with distinct ids is left as it is. -/
theorem dropSeen_of_nodup : ∀ {ms : List Message} {seen : Finset String}, (ms.map Message.id).Nodup →
    (∀ m ∈ ms, m.id ∉ seen) → dropSeen seen ms = ms
  | [], _, _, _ => rfl
  | m :: ms, seen, hn, hs => by
    rw [List.map_cons, List.nodup_cons] at hn
    rw [dropSeen, if_neg (hs m (by simp)), dropSeen_of_nodup hn.2]
    intro m' hm'
    simp only [Finset.mem_insert, not_or]
    refine ⟨fun he => hn.1 (List.mem_map.2 ⟨m', hm', he⟩), hs m' (List.mem_cons_of_mem _ hm')⟩

theorem mem_readAllMessages {d : Disk} {m : Message} : m ∈ d.readAllMessages ↔ m ∈ dropSeen ∅ d.stored :=
  List.mem_insertionSort _

theorem mem_stored_of_mem_readAllMessages {d : Disk} {m : Message} (h : m ∈ d.readAllMessages) : m ∈ d.stored :=
  (mem_of_mem_dropSeen (mem_readAllMessages.1 h)).1

/-- Each id is read once. -/
theorem nodup_readAllMessages (d : Disk) : (d.readAllMessages.map Message.id).Nodup :=
  (((List.perm_insertionSort _ _).map Message.id).nodup_iff).2 (nodup_dropSeen _ _)

theorem mem_readAllMessages_iff {d : Disk} (h : d.UniqueIds) {m : Message} :
    m ∈ d.readAllMessages ↔ m ∈ d.stored := by
  refine ⟨mem_stored_of_mem_readAllMessages, fun hm => ?_⟩
  obtain ⟨m', hm', hid⟩ := exists_mem_dropSeen hm (Finset.notMem_empty m.id)
  rw [h m hm m' (mem_of_mem_dropSeen hm').1 hid.symm]
  exact mem_readAllMessages.2 hm'

/-! ## Snapshot ids -/

theorem snapshotNumber_snapshotId (n : Nat) : snapshotNumber (snapshotId n) = some (n : Int) := by
  have hl : (snapshotId n).toList = "snapshot-".toList ++ (zeroPad 4 n).toList := String.toList_append
  have hp : "snapshot-".toList.isPrefixOf (snapshotId n).toList = true := by
    rw [hl, List.isPrefixOf_iff_prefix]
    exact List.prefix_append _ _
  have hd : (snapshotId n).toList.drop 9 = (zeroPad 4 n).toList := by
    rw [hl, List.drop_left' (by decide)]
  rw [snapshotNumber, if_pos hp, hd, String.ofList_toList, parseInt_zeroPad]

theorem snapshotId_injective {n n' : Nat} (h : snapshotId n = snapshotId n') : n = n' := by
  have := congrArg snapshotNumber h
  rw [snapshotNumber_snapshotId, snapshotNumber_snapshotId] at this
  exact Int.ofNat_inj.1 (Option.some.inj this)

theorem le_foldl_max {a b : Int} : ∀ {l : List Int}, b ≤ a ∨ (∃ x ∈ l, b ≤ x) → b ≤ l.foldl max a
  | [], h => by simpa using h
  | x :: l, h => by
    rw [List.foldl_cons]
    refine le_foldl_max ?_
    rcases h with h | ⟨y, hy, hb⟩
    · exact .inl (le_max_of_le_left h)
    · rcases List.mem_cons.1 hy with rfl | hy
      · exact .inl (le_max_of_le_right hb)
      · exact .inr ⟨y, hy, hb⟩

/-- One more than the largest number among some ids is in no id. -/
theorem snapshotId_notMem (ids : List String) :
    snapshotId ((ids.filterMap snapshotNumber).foldl max 0 + 1).toNat ∉ ids := by
  intro hmem
  have hpos : (0 : Int) ≤ (ids.filterMap snapshotNumber).foldl max 0 := le_foldl_max (.inl le_rfl)
  have hle : ((((ids.filterMap snapshotNumber).foldl max 0 + 1).toNat : Nat) : Int) ≤
      (ids.filterMap snapshotNumber).foldl max 0 :=
    le_foldl_max (.inr ⟨_, List.mem_filterMap.2 ⟨_, hmem, snapshotNumber_snapshotId _⟩, le_rfl⟩)
  omega

/-- **The next snapshot id is a new one.** -/
theorem get?_nextSnapshotId (d : Disk) : d.metas.get? d.nextSnapshotId = none := by
  rw [Dict.get?_eq_none_iff]
  exact snapshotId_notMem d.metas.keys

end Disk

/-! ## Damage -/

/-- What can have happened to the files of a store: meta files lost or
overwritten by something that is no JSON object, data files lost or altered
so that their digest is another one, lines of the log lost or overwritten
by something that is no message. -/
structure Damaged (d d' : Disk) : Prop where
  metas : ∀ x, d'.metas.get? x = d.metas.get? x ∨ d'.metas.get? x = none ∨ d'.metas.get? x = some none
  data : ∀ x, d'.data.get? x = d.data.get? x ∨ d'.data.get? x = none ∨
    ∃ file, d'.data.get? x = some file ∧ ∀ m, d'.metas.get? x = some (some m) → file ≠ m.checksum
  log : ∀ m, .message m ∈ d'.activeLog → .message m ∈ d.activeLog

theorem Damaged.eraseData (d : Disk) (x : String) : Damaged d { d with data := d.data.erase x } := by
  refine ⟨fun _ => .inl rfl, fun y => ?_, fun _ h => h⟩
  simp only [Dict.get?_erase]
  split
  · exact .inr (.inl rfl)
  · exact .inl rfl

/-- Damage makes nothing readable. -/
theorem Damaged.stored {d d' : Disk} (h : Damaged d d') {m : Message} (hm : m ∈ d'.stored) : m ∈ d.stored := by
  rw [Disk.mem_stored] at hm ⊢
  refine hm.imp (fun ⟨x, hx⟩ => ⟨x, ?_⟩) (h.log m)
  obtain ⟨mt, hmeta, hdata, hin⟩ := Disk.mem_readSnapshotMessages.1 hx
  refine Disk.mem_readSnapshotMessages.2 ⟨mt, ?_, ?_, hin⟩
  · rcases h.metas x with he | he | he
    · rw [← he, hmeta]
    · rw [he] at hmeta
      cases hmeta
    · rw [he] at hmeta
      cases hmeta
  · rcases h.data x with he | he | ⟨file, he, hne⟩
    · rw [← he, hdata]
    · rw [he] at hdata
      cases hdata
    · rw [he] at hdata
      cases hdata
      exact absurd rfl (hne mt hmeta)

end PeerChat.History
