/-
The indexes of a store, in memory and on disk, over its whole life.

`save` enters a message into the indexes, `create_snapshot` and the rebuild
of the snapshots compute them anew, and the repair compares them with what
is read. `indexes_agree`: after any calls they are those of the messages
that can be read, and the files hold the same.
-/
import PeerChat.History.Crash

namespace PeerChat.History

open Lib LocalMessageStore

namespace Indexes

/-- A sender has a largest number only if it has a positive one. -/
def Positive (ix : Indexes) : Prop := ∀ u k, ix.latestVc.get? u = some k → 0 < k

variable {ix ix' : Indexes}

theorem Positive.empty : Positive .empty := by
  intro u k h
  simp [Indexes.empty] at h

theorem Positive.count_nonneg (h : ix.Positive) (u : String) : 0 ≤ ix.latestVc.count u := by
  rw [VectorClock.count, Dict.getD]
  cases hu : ix.latestVc.get? u with
  | none => exact le_rfl
  | some k => exact le_of_lt (h u k hu)

theorem Positive.add (h : ix.Positive) (m : Message) (offset : Int) : (ix.add m offset).Positive := by
  intro u k hk
  simp only [Indexes.add] at hk
  split at hk
  · next hgt =>
    rw [Dict.get?_set] at hk
    split at hk
    · cases hk
      exact lt_of_le_of_lt (h.count_nonneg m.sender) hgt
    · exact h u k hk
  · exact h u k hk

theorem Positive.foldl_add (offset : Int) : ∀ (ms : List Message) {ix : Indexes}, ix.Positive →
    (ms.foldl (fun ix m => ix.add m offset) ix).Positive
  | [], _, h => h
  | m :: ms, _, h => Positive.foldl_add offset ms (h.add m offset)

theorem Positive.collect : ∀ (found : List (Message × Int)) {ix : Indexes} (twice : Bool), ix.Positive →
    (Indexes.collect found (ix, twice)).1.Positive
  | [], _, _, h => h
  | (m, offset) :: found, ix, twice, h => by
    rw [Indexes.collect]
    split
    · exact Positive.collect found true h
    · exact Positive.collect found twice (h.add m offset)

theorem Positive.same (h : ix.Positive) (hs : ix.same ix' = true) : ix'.Positive := by
  simp only [Indexes.same, Bool.decide_and, Bool.and_eq_true, decide_eq_true_eq] at hs
  intro u k hk
  obtain ⟨a, ha⟩ := (Dict.mem_keys_iff _).1 ((keys_of_sameItems hs.2.2 u).2 ((Dict.mem_keys_iff _).2 ⟨k, hk⟩))
  obtain ⟨b, hb, hab⟩ := get?_of_sameItems hs.2.2 ha
  rw [hk] at hb
  cases hb
  rw [← eq_of_beq hab]
  exact h u a ha

/-- A sender's entry is its largest number. -/
theorem Describes.get?_latestVc {ms : List Message} (hd : ix.Describes ms) (hp : ix.Positive) {u : String} {k : Int} :
    ix.latestVc.get? u = some k ↔
      0 < k ∧ (∃ m ∈ ms, m.sender = u ∧ m.senderSeq = k) ∧ ∀ m ∈ ms, m.sender = u → m.senderSeq ≤ k := by
  constructor
  · intro hk
    have hcount : ix.latestVc.count u = k := by rw [VectorClock.count, Dict.getD, hk]; rfl
    have hpos := hp u k hk
    obtain ⟨m, hm, hs, hseq⟩ := hd.latest u (hcount ▸ hpos)
    refine ⟨hpos, ⟨m, hm, hs, hseq.trans hcount⟩, fun m' hm' hs' => ?_⟩
    rw [← hcount, ← hs']
    exact hd.le_latest m' hm'
  · rintro ⟨hpos, ⟨m, hm, hs, hseq⟩, hmax⟩
    have hle : k ≤ ix.latestVc.count u := by
      rw [← hseq, ← hs]
      exact hd.le_latest m hm
    obtain ⟨m', hm', hs', hseq'⟩ := hd.latest u (lt_of_lt_of_le hpos hle)
    have hge := hmax m' hm' hs'
    rw [VectorClock.count, Dict.getD] at hle hseq'
    cases hu : ix.latestVc.get? u with
    | none =>
      rw [hu] at hle
      exact absurd hle (not_le.2 hpos)
    | some k' =>
      rw [hu, Option.getD_some] at hle hseq'
      exact congrArg some (le_antisymm (hseq' ▸ hge) hle)

end Indexes

namespace LocalMessageStore

/-- A sound store whose index files hold its indexes. -/
structure Filed (s : LocalMessageStore) : Prop where
  sound : Sound s
  positive : s.indexes.Positive
  files : loadIndexes s.disk = s.indexes

variable {s : LocalMessageStore}

theorem Filed.flushed (h : Sound s.flushIndexes) (hp : s.indexes.Positive) : Filed s.flushIndexes := ⟨h, hp, rfl⟩

theorem Filed.flushIndexes (h : Sound s) (hp : s.indexes.Positive) : Filed s.flushIndexes :=
  .flushed h.flushIndexes hp

theorem positive_rebuildIndexes (s : LocalMessageStore) : s.rebuildIndexes.indexes.Positive :=
  Indexes.Positive.foldl_add (-1) _ .empty

theorem Filed.createSnapshot (h : Filed s) (compact : Bool) : Filed (s.createSnapshot none compact) := by
  have hsound := (Adds.createSnapshot h.sound compact).sound
  simp only [LocalMessageStore.createSnapshot, writeSnapshotFiles_eq] at hsound ⊢
  split
  · exact h
  · next hne =>
    rw [if_neg hne] at hsound
    split
    · next hc =>
      rw [if_pos hc] at hsound
      exact .flushed hsound (positive_rebuildIndexes _)
    · next hc =>
      rw [if_neg hc] at hsound
      exact ⟨hsound, h.positive, h.files⟩

theorem Filed.maybeCreateSnapshot (h : Filed s) : Filed s.maybeCreateSnapshot := by
  unfold LocalMessageStore.maybeCreateSnapshot
  split
  · exact h
  · split
    · exact h
    · split
      · exact h.createSnapshot true
      · exact h

theorem Filed.maybeRebuildSnapshots (h : Filed s) : Filed s.maybeRebuildSnapshots := by
  unfold LocalMessageStore.maybeRebuildSnapshots
  split
  · exact h
  · by_cases hne : s.disk.readAllMessages = []
    · rw [rebuildSnapshots_of_empty hne]
      exact h
    · have hsound := (Adds.rebuildSnapshots h.sound).sound
      rw [rebuildSnapshots_eq hne] at hsound ⊢
      exact .flushed hsound (positive_rebuildIndexes _)

theorem Filed.save (h : Filed s) (m : Message) : Filed (s.save m).1 := by
  by_cases hm : m.id ∈ s.indexes.messageIds
  · rw [save_known hm]
    exact h
  · have hin : Filed (s.entered m).flushIndexes :=
      .flushIndexes (Adds.entered h.sound hm).sound (h.positive.add m _)
    have hsave : (s.save m).1 =
        (if (s.entered m).flushIndexes.needsSnapshotRebuild then (s.entered m).flushIndexes.maybeRebuildSnapshots
          else (s.entered m).flushIndexes.maybeCreateSnapshot).perform (.saved m) := by
      rw [LocalMessageStore.save, if_neg hm]
      rfl
    have hmaybe : Filed (if (s.entered m).flushIndexes.needsSnapshotRebuild then
        (s.entered m).flushIndexes.maybeRebuildSnapshots else (s.entered m).flushIndexes.maybeCreateSnapshot) := by
      split
      · exact hin.maybeRebuildSnapshots
      · exact hin.maybeCreateSnapshot
    rw [hsave]
    exact ⟨⟨hmaybe.sound.describes, hmaybe.sound.unique⟩, hmaybe.positive, hmaybe.files⟩

theorem Filed.saveAll : ∀ (items : List (Option Message)) {s : LocalMessageStore}, Filed s → Filed (saveAll items s)
  | [], _, h => h
  | none :: items, _, h => Filed.saveAll items h
  | some m :: items, _, h => Filed.saveAll items (h.save m)

theorem Filed.saveMany (h : Filed s) (items : List (Option Message)) : Filed (s.saveMany items) := by
  have hall := h.saveAll items
  simp only [LocalMessageStore.saveMany]
  split
  · exact hall.maybeRebuildSnapshots
  · exact hall

/-- A repair needs no more than that the indexes were loaded from the files. -/
theorem Filed.repairIndexes (hu : s.disk.UniqueIds) (hf : loadIndexes s.disk = s.indexes) : Filed s.repairIndexes := by
  have hsound := (Adds.repairIndexes hu).sound
  have hfound := Indexes.Positive.collect s.disk.iterReadableMessages false .empty
  unfold LocalMessageStore.repairIndexes at hsound ⊢
  rcases hc : Indexes.collect s.disk.iterReadableMessages (.empty, false) with ⟨repaired, twice⟩
  rw [hc] at hfound
  simp only [hc] at hsound ⊢
  split
  · next hchanged =>
    rw [if_pos hchanged] at hsound
    exact ⟨hsound, hfound, rfl⟩
  · next hsame =>
    rw [if_neg hsame] at hsound
    simp only [Bool.or_eq_true, Bool.not_eq_true', not_or, Bool.not_eq_false] at hsame
    have hpos : s.indexes.Positive := hfound.same hsame.2
    split
    · next hd =>
      rw [if_pos hd] at hsound
      exact ⟨hsound, hpos, rfl⟩
    · next hd =>
      rw [if_neg hd] at hsound
      exact ⟨hsound, hpos, hf⟩

theorem Filed.getLatestVectorClock (h : Filed s) : Filed s.getLatestVectorClock.1 := by
  have hrep := Filed.repairIndexes h.sound.unique h.files
  simp only [LocalMessageStore.getLatestVectorClock]
  split
  · split
    · exact hrep
    · exact .flushIndexes ⟨hrep.sound.describes, hrep.sound.unique⟩ hrep.positive
  · exact hrep

theorem Filed.init (threshold : Option Int) {d : Disk} (hu : d.UniqueIds) : Filed (init threshold d) :=
  Filed.repairIndexes (s := ⟨threshold, d, loadIndexes d, _, _, []⟩) hu rfl

end LocalMessageStore

/-! ## The life of a store -/

/-- What is done with a store. -/
inductive Use
  | call (op : Op)
  | getLatestVectorClock
  | reopen (threshold : Option Int)

/-- The store afterwards; a reopened one is constructed on what is on disk. -/
def LocalMessageStore.use (s : LocalMessageStore) : Use → LocalMessageStore
  | .call op => s.call op
  | .getLatestVectorClock => s.getLatestVectorClock.1
  | .reopen threshold => init threshold s.disk

/-- The indexes of a store are those of what can be read, and so are its
files. -/
structure Agree (s : LocalMessageStore) : Prop where
  messageIds : ∀ i, i ∈ s.indexes.messageIds ↔ ∃ m ∈ s.disk.stored, m.id = i
  once : (s.disk.readAllMessages.map (·.id)).Nodup
  read : ∀ m, m ∈ s.disk.readAllMessages ↔ m ∈ s.disk.stored
  latestVc : ∀ u k, s.indexes.latestVc.get? u = some k ↔
    0 < k ∧ (∃ m ∈ s.disk.stored, m.sender = u ∧ m.senderSeq = k) ∧
      ∀ m ∈ s.disk.stored, m.sender = u → m.senderSeq ≤ k
  senderSeq : ∀ u k, k ∈ (s.indexes.senderSeq.getD u Dict.empty).keys ↔
    ∃ m ∈ s.disk.stored, m.sender = u ∧ m.senderSeq = k
  files : loadIndexes s.disk = s.indexes

namespace LocalMessageStore

variable {s : LocalMessageStore}

theorem Filed.agree (h : Filed s) : Agree s where
  messageIds := h.sound.describes.ids
  once := s.disk.nodup_readAllMessages
  read _ := Disk.mem_readAllMessages_iff h.sound.unique
  latestVc _ _ := h.sound.describes.get?_latestVc h.positive
  senderSeq := h.sound.describes.seqs
  files := h.files

theorem Filed.use (h : Filed s) (x : Use) : Filed (s.use x) := by
  have hclear : Filed { s with steps := [] } := ⟨⟨h.sound.describes, h.sound.unique⟩, h.positive, h.files⟩
  cases x with
  | call op =>
    cases op with
    | save m => exact hclear.save m
    | saveMany items => exact hclear.saveMany items
    | createSnapshot compact => exact hclear.createSnapshot compact
  | getLatestVectorClock => exact h.getLatestVectorClock
  | reopen threshold => exact .init threshold h.sound.unique

theorem Filed.uses : ∀ (xs : List Use) {s : LocalMessageStore}, Filed s → Filed (xs.foldl LocalMessageStore.use s)
  | [], _, h => h
  | x :: xs, _, h => Filed.uses xs (h.use x)

end LocalMessageStore

/-- **The indexes agree with the messages**, whatever was done with a store
that was opened on an empty directory. -/
theorem indexes_agree (threshold : Option Int) (xs : List Use) :
    Agree (xs.foldl LocalMessageStore.use (init threshold .empty)) := by
  have hempty : Disk.empty.UniqueIds := by
    intro m hm
    simp [Disk.empty, Disk.stored, Disk.iterReadableMessages, Disk.listSnapshots,
      Disk.readActiveMessagesWithOffsets, Dict.empty] at hm
  exact (Filed.uses xs (.init threshold hempty)).agree

end PeerChat.History
