/-
The operations of a store: `save`, `save_many`, the repair of the indexes
when it is opened, and the recovery cursor. Each keeps a store sound and
what it stores (`Adds`). `cursor_of_gaps`, `cursor_of_gapless`: what the
cursor is; `le_cursor_iff`: the numbers it has.
-/
import PeerChat.History.Rebuild

namespace PeerChat.History

open Lib

namespace LocalMessageStore

variable {s : LocalMessageStore} {m : Message}

/-! ## Saving -/

theorem save_known (hm : m.id ∈ s.indexes.messageIds) : s.save m = (s, false) := by
  rw [save, if_pos hm]

/-- The store when a new message is in the log and in the indexes. -/
def entered (s : LocalMessageStore) (m : Message) : LocalMessageStore :=
  { s.perform (.append (.message m)) with indexes := s.indexes.add m s.disk.activeLog.length }

theorem save_unknown (hm : m.id ∉ s.indexes.messageIds) : (s.save m).1 =
    (if (s.entered m).flushIndexes.needsSnapshotRebuild then (s.entered m).flushIndexes.maybeRebuildSnapshots
      else (s.entered m).flushIndexes.maybeCreateSnapshot).perform (.saved m) := by
  rw [save, if_neg hm]
  rfl

theorem Adds.entered (h : Sound s) (hm : m.id ∉ s.indexes.messageIds) : Adds s [m] (s.entered m) := by
  have hstored (m' : Message) : m' ∈ (s.entered m).disk.stored ↔ m' ∈ s.disk.stored ∨ m' ∈ [m] := by
    rw [List.mem_singleton]
    exact Disk.mem_stored_append
  have hnew : ∀ m' ∈ s.disk.stored, m'.id ≠ m.id := fun m' hm' he => hm ((h.describes.ids m.id).2 ⟨m', hm', he⟩)
  refine ⟨⟨?_, fun m₁ h₁ m₂ h₂ hid => ?_⟩, hstored, .perform nofun (fun m' hm' => ?_) fun m' hm' => ?_⟩
  · exact (h.describes.add m _).congr fun m' => by rw [List.mem_append, hstored]
  · rcases (hstored m₁).1 h₁ with h₁ | h₁
    · rcases (hstored m₂).1 h₂ with h₂ | h₂
      · exact h.unique m₁ h₁ m₂ h₂ hid
      · cases List.mem_singleton.1 h₂
        exact absurd hid (hnew m₁ h₁)
    · cases List.mem_singleton.1 h₁
      rcases (hstored m₂).1 h₂ with h₂ | h₂
      · exact absurd hid.symm (hnew m₂ h₂)
      · exact (List.mem_singleton.1 h₂).symm
  · exact (hstored m').2 (.inl (hm'.resolve_right (by simp)))
  · exact (hstored m').2 (.inr (by simpa [Step.contents, LogLine.message?] using hm'))

/-- `save` of a message with a new id. -/
theorem Adds.save (h : Sound s) (hm : m.id ∉ s.indexes.messageIds) : Adds s [m] (s.save m).1 := by
  have hin : Adds s [m] (s.entered m).flushIndexes := (Adds.entered h hm).flushIndexes
  have hmaybe : Adds s [m] (if (s.entered m).flushIndexes.needsSnapshotRebuild then
      (s.entered m).flushIndexes.maybeRebuildSnapshots else (s.entered m).flushIndexes.maybeCreateSnapshot) := by
    split
    · exact hin.trans (.maybeRebuildSnapshots hin.sound)
    · exact hin.trans (.maybeCreateSnapshot hin.sound)
  rw [save_unknown hm]
  refine ⟨⟨hmaybe.sound.describes, hmaybe.sound.unique⟩, hmaybe.stored, hmaybe.ran.trans (.perform nofun ?_ nofun)⟩
  rintro m' (hm' | hm')
  · exact hm'
  · cases hm'
    exact (hmaybe.stored m).2 (.inr (by simp))

/-- The loop of `save_many` adds some of the messages, and all of their
ids are there afterwards. -/
theorem Adds.saveAll : ∀ (items : List (Option Message)) {s : LocalMessageStore}, Sound s →
    ∃ ms, (∀ m ∈ ms, some m ∈ items) ∧ Adds s ms (saveAll items s) ∧
      ∀ m, some m ∈ items → ∃ m' ∈ (saveAll items s).disk.stored, m'.id = m.id
  | [], s, h => ⟨[], by simp, .refl h, by simp⟩
  | none :: items, s, h => by
    obtain ⟨ms, hms, hadds, hids⟩ := Adds.saveAll items h
    exact ⟨ms, fun m hm => List.mem_cons_of_mem _ (hms m hm), hadds, fun m hm => hids m (by simpa using hm)⟩
  | some m :: items, s, h => by
    obtain ⟨ms₁, hms₁, hadds₁, m₁, hm₁, hid₁⟩ : ∃ ms₁, (∀ m' ∈ ms₁, m' = m) ∧ Adds s ms₁ (s.save m).1 ∧
        ∃ m' ∈ (s.save m).1.disk.stored, m'.id = m.id := by
      by_cases hm : m.id ∈ s.indexes.messageIds
      · rw [save_known hm]
        exact ⟨[], by simp, .refl h, (h.describes.ids m.id).1 hm⟩
      · exact ⟨[m], by simp, .save h hm, m, ((Adds.save h hm).stored m).2 (.inr (by simp)), rfl⟩
    obtain ⟨ms₂, hms₂, hadds₂, hids₂⟩ := Adds.saveAll items hadds₁.sound
    refine ⟨ms₁ ++ ms₂, fun m' hm' => ?_, hadds₁.trans hadds₂, fun m' hm' => ?_⟩
    · rcases List.mem_append.1 hm' with hm' | hm'
      · rw [hms₁ m' hm']
        simp
      · exact List.mem_cons_of_mem _ (hms₂ m' hm')
    · rcases List.mem_cons.1 hm' with he | hm'
      · cases he
        exact ⟨m₁, (hadds₂.stored m₁).2 (.inl hm₁), hid₁⟩
      · exact hids₂ m' hm'

/-- The end of `save_many`: a rebuild that is due. -/
theorem Adds.settle (h : Sound s) : Adds s [] (if s.needsSnapshotRebuild then s.maybeRebuildSnapshots else s) := by
  split
  · exact .maybeRebuildSnapshots h
  · exact .refl h

theorem Adds.saveMany (h : Sound s) (items : List (Option Message)) :
    ∃ ms, (∀ m ∈ ms, some m ∈ items) ∧ Adds s ms (s.saveMany items) ∧
      ∀ m, some m ∈ items → ∃ m' ∈ (s.saveMany items).disk.stored, m'.id = m.id := by
  obtain ⟨ms, hms, hadds, hids⟩ := Adds.saveAll items h
  have hlast : Adds (LocalMessageStore.saveAll items s) [] (s.saveMany items) := .settle hadds.sound
  have hall := hadds.trans hlast
  rw [List.append_nil] at hall
  refine ⟨ms, hms, hall, fun m hm => ?_⟩
  obtain ⟨m', hm', hid⟩ := hids m hm
  exact ⟨m', (hlast.stored m').2 (.inl hm'), hid⟩

/-! ## Repairing -/

/-- The indexes a repair finds are those of the messages that are read. -/
theorem describes_collect (d : Disk) :
    (Indexes.collect d.iterReadableMessages (.empty, false)).1.Describes (Disk.dropSeen ∅ d.stored) :=
  Indexes.Describes.empty.collect d.iterReadableMessages false

theorem describes_repairIndexes (s : LocalMessageStore) :
    s.repairIndexes.indexes.Describes (Disk.dropSeen ∅ s.disk.stored) := by
  have hfound := describes_collect s.disk
  unfold repairIndexes
  rcases hc : Indexes.collect s.disk.iterReadableMessages (.empty, false) with ⟨repaired, twice⟩
  rw [hc] at hfound
  simp only
  split
  · exact hfound
  · next hsame =>
    simp only [Bool.or_eq_true, Bool.not_eq_true', not_or, Bool.not_eq_false] at hsame
    split
    · exact hfound.same hsame.2
    · exact hfound.same hsame.2

theorem repairIndexes_ran (s : LocalMessageStore) :
    Ran s s.repairIndexes ∧ s.repairIndexes.disk.stored = s.disk.stored := by
  unfold repairIndexes
  rcases Indexes.collect s.disk.iterReadableMessages (.empty, false) with ⟨repaired, twice⟩
  simp only
  split
  · exact ⟨.flushIndexes _, rfl⟩
  · split
    · exact ⟨.flushIndexes _, rfl⟩
    · exact ⟨.refl s, rfl⟩

/-- A gap makes the repair ask for everything. -/
theorem force_of_gaps (h : ¬ Indexes.Gapless (Disk.dropSeen ∅ s.disk.stored)) :
    s.repairIndexes.forceFullRecoveryCursor = true := by
  have hgaps := (Indexes.hasSenderSequenceGaps_iff (describes_collect s.disk)).2 h
  unfold repairIndexes
  rcases hc : Indexes.collect s.disk.iterReadableMessages (.empty, false) with ⟨repaired, twice⟩
  rw [hc] at hgaps
  simp only [hgaps, Bool.or_true, Bool.true_or, if_true]
  split <;> rfl

theorem Adds.repairIndexes (h : s.disk.UniqueIds) : Adds s [] s.repairIndexes := by
  obtain ⟨hran, hstored⟩ := repairIndexes_ran s
  refine ⟨⟨?_, ?_⟩, fun m => by rw [hstored]; simp, hran⟩
  · rw [hstored]
    refine (describes_repairIndexes s).congr fun m => ?_
    rw [← Disk.mem_readAllMessages, Disk.mem_readAllMessages_iff h]
  · exact h.congr fun m => by rw [hstored]

/-- **A store that is opened is sound.** -/
theorem Sound.init (threshold : Option Int) {d : Disk} (h : d.UniqueIds) : Sound (init threshold d) :=
  (Adds.repairIndexes (s := ⟨threshold, d, loadIndexes d, _, _, []⟩) h).sound

theorem Adds.getLatestVectorClock (h : s.disk.UniqueIds) : Adds s [] s.getLatestVectorClock.1 := by
  have hrep := Adds.repairIndexes h
  simp only [LocalMessageStore.getLatestVectorClock]
  split
  · split
    · exact hrep
    · have hoff : Adds s [] { s.repairIndexes with forceFullRecoveryCursor := false } :=
        ⟨⟨hrep.sound.describes, hrep.sound.unique⟩, hrep.stored, hrep.ran⟩
      exact hoff.flushIndexes
  · exact hrep

/-- With a gap, the cursor asks for everything. -/
theorem cursor_of_gaps (h : ¬ Indexes.Gapless (Disk.dropSeen ∅ s.disk.stored)) :
    s.getLatestVectorClock.2 = Dict.empty := by
  have hgaps := (Indexes.hasSenderSequenceGaps_iff (describes_repairIndexes s)).2 h
  simp only [LocalMessageStore.getLatestVectorClock, force_of_gaps h, hgaps, if_true]

/-- Without one, it is the largest number of each sender. -/
theorem cursor_of_gapless (h : Indexes.Gapless (Disk.dropSeen ∅ s.disk.stored)) :
    s.getLatestVectorClock.2 = s.repairIndexes.indexes.latestVc := by
  have hgaps : ¬ hasSenderSequenceGaps s.repairIndexes.indexes.senderSeq = true :=
    fun hg => (Indexes.hasSenderSequenceGaps_iff (describes_repairIndexes s)).1 hg h
  simp only [LocalMessageStore.getLatestVectorClock, hgaps]
  split <;> rfl

/-- So it has a number exactly when there is no gap and that number, or a
larger one, is read of the sender. -/
theorem le_cursor_iff (s : LocalMessageStore) (u : String) {k : Int} (hpos : 0 < k) :
    k ≤ s.getLatestVectorClock.2.count u ↔
      Indexes.Gapless s.disk.readAllMessages ∧ ∃ m ∈ s.disk.readAllMessages, m.sender = u ∧ k ≤ m.senderSeq := by
  have hread : Indexes.Gapless (Disk.dropSeen ∅ s.disk.stored) ↔ Indexes.Gapless s.disk.readAllMessages := by
    simp only [Indexes.Gapless, Disk.mem_readAllMessages]
  have hdesc := describes_repairIndexes s
  by_cases hg : Indexes.Gapless s.disk.readAllMessages
  · rw [cursor_of_gapless (hread.2 hg)]
    constructor
    · intro hle
      obtain ⟨m, hm, hs, hk⟩ := hdesc.latest u (by omega)
      exact ⟨hg, m, Disk.mem_readAllMessages.2 hm, hs, by omega⟩
    · intro hr
      obtain ⟨-, m, hm, rfl, hk⟩ := hr
      exact hk.trans (hdesc.le_latest m (Disk.mem_readAllMessages.1 hm))
  · rw [cursor_of_gaps fun h => hg (hread.1 h), VectorClock.count_empty]
    exact ⟨fun hle => absurd hle (not_le.2 hpos), fun hr => absurd hr.1 hg⟩

end LocalMessageStore

end PeerChat.History
