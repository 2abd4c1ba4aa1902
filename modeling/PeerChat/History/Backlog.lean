/-
How many messages the active log holds (`save`,
`_maybe_create_snapshot_unlocked` and
`_maybe_rebuild_snapshots_after_recovery_unlocked` of
`message_history/storage/local_message_store.py`).

A save compacts the log when it is full, unless a rebuild is due; and the
rebuild waits until no sender's numbers have a gap. `log_bounded_iff`: over
whole runs the log stays below the threshold exactly when no message is
saved into a log that is full while a rebuild waits for a gap.
-/
import PeerChat.History.Partition

namespace PeerChat.History

open Lib

/-- What is done with a store of one threshold. -/
inductive Visit
  | save (m : Message)
  | saveMany (items : List (Option Message))
  | getLatestVectorClock
  | reopen

namespace LocalMessageStore

/-- How many messages the active log has, `_active_log_message_count_unlocked`. -/
def activeCount (s : LocalMessageStore) : Nat := s.disk.readActiveMessages.length

def visit (s : LocalMessageStore) : Visit → LocalMessageStore
  | .save m => (s.save m).1
  | .saveMany items => s.saveMany items
  | .getLatestVectorClock => s.getLatestVectorClock.1
  | .reopen => init s.snapshotThreshold s.disk

/-- The calls of `save` in the loop of `save_many`, with the store before
each. -/
def savingsOf : LocalMessageStore → List (Option Message) → List (LocalMessageStore × Message)
  | _, [] => []
  | s, none :: items => savingsOf s items
  | s, some m :: items => (s, m) :: savingsOf (s.save m).1 items

/-- The calls of `save` in a run. -/
def savings : LocalMessageStore → List Visit → List (LocalMessageStore × Message)
  | _, [] => []
  | s, .save m :: xs => (s, m) :: savings (s.visit (.save m)) xs
  | s, .saveMany items :: xs => savingsOf s items ++ savings (s.visit (.saveMany items)) xs
  | s, .getLatestVectorClock :: xs => savings (s.visit .getLatestVectorClock) xs
  | s, .reopen :: xs => savings (s.visit .reopen) xs

/-- A new message comes into a log that has no more room than for it, while
a rebuild is due that waits for a gap. -/
structure Stalls (t : Int) (s : LocalMessageStore) (m : Message) : Prop where
  new : m.id ∉ s.indexes.messageIds
  due : s.needsSnapshotRebuild = true
  gap : ¬ Indexes.Gapless (s.disk.stored ++ [m])
  full : t ≤ s.activeCount + 1

/-- A store with a threshold, whose log is below it. -/
structure Within (t : Int) (s : LocalMessageStore) : Prop where
  positive : 0 < t
  sound : Sound s
  threshold : s.snapshotThreshold = some t
  log : (s.activeCount : Int) < t

variable {s s' : LocalMessageStore} {m : Message} {t : Int}

theorem Within.congr (h : Within t s) (hsound : Sound s') (ht : s'.snapshotThreshold = s.snapshotThreshold)
    (hlog : s'.disk.activeLog = s.disk.activeLog) : Within t s' := by
  refine ⟨h.positive, hsound, ht.trans h.threshold, ?_⟩
  have hlen := h.log
  rw [activeCount, Disk.readActiveMessages_eq] at hlen ⊢
  rw [hlog]
  exact hlen

/-! ## What the parts of a save do to the log -/

theorem activeCount_entered (s : LocalMessageStore) (m : Message) :
    (s.entered m).flushIndexes.activeCount = s.activeCount + 1 := by
  have hlog : (s.entered m).flushIndexes.disk.activeLog = s.disk.activeLog ++ [.message m] := rfl
  rw [activeCount, activeCount, Disk.readActiveMessages_eq, Disk.readActiveMessages_eq, hlog, List.filterMap_append,
    List.length_append]
  rfl

theorem snapshotThreshold_flushIndexes (s : LocalMessageStore) :
    s.flushIndexes.snapshotThreshold = s.snapshotThreshold := rfl

/-- The index files do not matter. -/
theorem Within.flushed (hpos : 0 < t) (hsound : Sound s.flushIndexes) (ht : s.snapshotThreshold = some t)
    (hlog : (s.activeCount : Int) < t) : Within t s.flushIndexes := ⟨hpos, hsound, ht, hlog⟩

/-- A full log is compacted. -/
theorem Within.maybeCreateSnapshot (hpos : 0 < t) (hsound : Sound s) (ht : s.snapshotThreshold = some t) :
    Within t s.maybeCreateSnapshot := by
  have hadds := Adds.maybeCreateSnapshot hsound
  have hnot : ¬ t ≤ 0 := not_le.2 hpos
  revert hadds
  simp only [LocalMessageStore.maybeCreateSnapshot, ht, hnot, if_false]
  split
  · next hfull =>
    intro hadds
    have hne : s.disk.readActiveMessages ≠ [] := by
      rw [← List.length_pos_iff]
      omega
    rw [createSnapshot_eq none true hne, if_pos rfl] at hadds ⊢
    exact .flushed hpos hadds.sound ht hpos
  · next hroom => exact fun hadds => ⟨hpos, hadds.sound, ht, not_le.1 hroom⟩

/-- A rebuild cuts the log below the threshold. -/
theorem Within.rebuildSnapshots (hpos : 0 < t) (hsound : Sound s) (ht : s.snapshotThreshold = some t)
    (hne : s.disk.readAllMessages ≠ []) : Within t s.rebuildSnapshots := by
  have htidy := tidy_rebuildSnapshots s hne
  have hkept : s.rebuildSnapshots.snapshotThreshold = s.snapshotThreshold := by
    rw [rebuildSnapshots_eq hne, snapshotThreshold_flushIndexes]
    rfl
  exact ⟨hpos, (Adds.rebuildSnapshots hsound).sound, hkept.trans ht, htidy.log.1 t ht hpos⟩

theorem Within.maybeRebuildSnapshots (h : Within t s) : Within t s.maybeRebuildSnapshots := by
  unfold LocalMessageStore.maybeRebuildSnapshots
  split
  · exact h
  · by_cases hne : s.disk.readAllMessages = []
    · rw [rebuildSnapshots_of_empty hne]
      exact h
    · exact .rebuildSnapshots h.positive h.sound h.threshold hne

/-- **When a save leaves room in the log.** -/
theorem Within.save (h : Within t s) (hno : ¬ Stalls t s m) : Within t (s.save m).1 := by
  by_cases hm : m.id ∈ s.indexes.messageIds
  · rw [save_known hm]
    exact h
  have hadds := Adds.entered h.sound hm
  have hin : Sound (s.entered m).flushIndexes := hadds.flushIndexes.sound
  have ht : (s.entered m).flushIndexes.snapshotThreshold = some t := h.threshold
  have hall : Within t (if (s.entered m).flushIndexes.needsSnapshotRebuild then
      (s.entered m).flushIndexes.maybeRebuildSnapshots else (s.entered m).flushIndexes.maybeCreateSnapshot) := by
    split
    · next hdue =>
      by_cases hroom : t ≤ s.activeCount + 1
      · -- the log is full, so there is no gap to wait for
        have hnogap : ¬ hasSenderSequenceGaps (s.entered m).flushIndexes.indexes.senderSeq = true := by
          rw [Indexes.hasSenderSequenceGaps_iff hin.describes]
          refine fun hgap => hno ⟨hm, hdue, fun hg => hgap ?_, hroom⟩
          intro m' hm' k hk hle
          obtain ⟨m'', hm'', hs, hseq⟩ := hg m' (List.mem_append.2 ((hadds.stored m').1 hm')) k hk hle
          exact ⟨m'', (hadds.stored m'').2 (List.mem_append.1 hm''), hs, hseq⟩
        have hne : (s.entered m).flushIndexes.disk.readAllMessages ≠ [] := by
          have hmem := (Disk.mem_readAllMessages_iff hin.unique).2
            ((hadds.stored m).2 (.inr (List.mem_singleton_self m)))
          exact List.ne_nil_of_mem hmem
        rw [LocalMessageStore.maybeRebuildSnapshots, if_neg hnogap]
        exact .rebuildSnapshots h.positive hin ht hne
      · refine Within.maybeRebuildSnapshots ⟨h.positive, hin, ht, ?_⟩
        rw [activeCount_entered]
        push_cast
        omega
    · exact .maybeCreateSnapshot h.positive hin ht
  rw [save_unknown hm]
  exact ⟨h.positive, ⟨hall.sound.describes, hall.sound.unique⟩, hall.threshold, hall.log⟩

/-- A save that stalls leaves the log over the threshold. -/
theorem Stalls.log (h : Stalls t s m) (hsound : Sound s) : t ≤ (s.save m).1.activeCount := by
  have hadds := Adds.entered hsound h.new
  have hin : Sound (s.entered m).flushIndexes := hadds.flushIndexes.sound
  have hdue : (s.entered m).flushIndexes.needsSnapshotRebuild = true := h.due
  have hgap : hasSenderSequenceGaps (s.entered m).flushIndexes.indexes.senderSeq = true := by
    rw [Indexes.hasSenderSequenceGaps_iff hin.describes]
    refine fun hg => h.gap fun m' hm' k hk hle => ?_
    obtain ⟨m'', hm'', hs, hseq⟩ := hg m' ((hadds.stored m').2 (List.mem_append.1 hm')) k hk hle
    exact ⟨m'', List.mem_append.2 ((hadds.stored m'').1 hm''), hs, hseq⟩
  have hsame : (s.save m).1 = (s.entered m).flushIndexes.perform (.saved m) := by
    rw [save_unknown h.new, if_pos hdue, LocalMessageStore.maybeRebuildSnapshots, if_pos hgap]
  have hcount : (s.save m).1.activeCount = s.activeCount + 1 := by
    rw [hsame]
    exact activeCount_entered s m
  rw [hcount]
  push_cast
  exact h.full

/-! ## Whole runs -/

theorem repairIndexes_kept (s : LocalMessageStore) :
    s.repairIndexes.snapshotThreshold = s.snapshotThreshold ∧ s.repairIndexes.disk.activeLog = s.disk.activeLog := by
  unfold LocalMessageStore.repairIndexes
  rcases Indexes.collect s.disk.iterReadableMessages (.empty, false) with ⟨repaired, twice⟩
  simp only
  split
  · exact ⟨rfl, rfl⟩
  · split
    · exact ⟨rfl, rfl⟩
    · exact ⟨rfl, rfl⟩

theorem Within.repairIndexes (h : Within t s) : Within t s.repairIndexes :=
  h.congr (Adds.repairIndexes h.sound.unique).sound (repairIndexes_kept s).1 (repairIndexes_kept s).2

theorem Within.reopen (h : Within t s) : Within t (init s.snapshotThreshold s.disk) :=
  h.congr (.init s.snapshotThreshold h.sound.unique) (repairIndexes_kept _).1 (repairIndexes_kept _).2

theorem Within.getLatestVectorClock (h : Within t s) : Within t s.getLatestVectorClock.1 := by
  have hrep := h.repairIndexes
  unfold LocalMessageStore.getLatestVectorClock
  generalize s.repairIndexes = r at hrep ⊢
  simp only
  split
  · split
    · exact hrep
    · have hoff : Sound { r with forceFullRecoveryCursor := false } := ⟨hrep.sound.describes, hrep.sound.unique⟩
      exact hrep.congr hoff.flushIndexes rfl rfl
  · exact hrep

theorem Sound.save (h : Sound s) (m : Message) : Sound (s.save m).1 := by
  by_cases hm : m.id ∈ s.indexes.messageIds
  · rw [save_known hm]
    exact h
  · exact (Adds.save h hm).sound

theorem Sound.visit (h : Sound s) (x : Visit) : Sound (s.visit x) := by
  cases x with
  | save m => exact h.save m
  | saveMany items =>
    obtain ⟨_, -, hadds, -⟩ := Adds.saveMany h items
    exact hadds.sound
  | getLatestVectorClock => exact (Adds.getLatestVectorClock h.unique).sound
  | reopen => exact .init s.snapshotThreshold h.unique

theorem Sound.savingsOf : ∀ (items : List (Option Message)) {s : LocalMessageStore}, Sound s →
    ∀ p ∈ savingsOf s items, Sound p.1
  | [], _, _, _, hp => absurd hp List.not_mem_nil
  | none :: items, _, h, p, hp => Sound.savingsOf items h p hp
  | some m :: items, _, h, p, hp => by
    rcases List.mem_cons.1 hp with rfl | hp
    · exact h
    · exact Sound.savingsOf items (h.save m) p hp

/-- Every message of a run is saved into a sound store. -/
theorem Sound.savings : ∀ (xs : List Visit) {s : LocalMessageStore}, Sound s → ∀ p ∈ savings s xs, Sound p.1
  | [], _, _, _, hp => absurd hp List.not_mem_nil
  | .save m :: xs, _, h, p, hp => by
    rcases List.mem_cons.1 hp with rfl | hp
    · exact h
    · exact Sound.savings xs (h.visit (.save m)) p hp
  | .saveMany items :: xs, _, h, p, hp => by
    rcases List.mem_append.1 hp with hp | hp
    · exact h.savingsOf items p hp
    · exact Sound.savings xs (h.visit (.saveMany items)) p hp
  | .getLatestVectorClock :: xs, _, h, p, hp => Sound.savings xs (h.visit .getLatestVectorClock) p hp
  | .reopen :: xs, _, h, p, hp => Sound.savings xs (h.visit .reopen) p hp

/-- The loop of `save_many`. -/
theorem Within.saveAll : ∀ (items : List (Option Message)) {s : LocalMessageStore}, Within t s →
    (∀ p ∈ savingsOf s items, ¬ Stalls t p.1 p.2) →
    Within t (saveAll items s) ∧ ∀ p ∈ savingsOf s items, Within t (p.1.save p.2).1
  | [], _, h, _ => ⟨h, fun _ hp => absurd hp List.not_mem_nil⟩
  | none :: items, _, h, hno => Within.saveAll items h hno
  | some m :: items, s, h, hno => by
    have hstep : Within t (s.save m).1 := h.save (hno (s, m) List.mem_cons_self)
    obtain ⟨hlast, hall⟩ := Within.saveAll items hstep fun p hp => hno p (List.mem_cons_of_mem _ hp)
    refine ⟨hlast, fun p hp => ?_⟩
    rcases List.mem_cons.1 hp with rfl | hp
    · exact hstep
    · exact hall p hp

theorem Within.saveMany {items : List (Option Message)} (h : Within t (LocalMessageStore.saveAll items s)) :
    Within t (s.saveMany items) := by
  unfold LocalMessageStore.saveMany
  simp only
  split
  · exact h.maybeRebuildSnapshots
  · exact h

/-- A run without stalls stays within the threshold. -/
theorem Within.savings : ∀ (xs : List Visit) {s : LocalMessageStore}, Within t s →
    (∀ p ∈ savings s xs, ¬ Stalls t p.1 p.2) → ∀ p ∈ savings s xs, Within t (p.1.save p.2).1
  | [], _, _, _, _, hp => absurd hp List.not_mem_nil
  | .save m :: xs, s, h, hno, p, hp => by
    have hstep : Within t (s.save m).1 := h.save (hno (s, m) List.mem_cons_self)
    rcases List.mem_cons.1 hp with rfl | hp
    · exact hstep
    · exact Within.savings xs hstep (fun p hp => hno p (List.mem_cons_of_mem _ hp)) p hp
  | .saveMany items :: xs, _, h, hno, p, hp => by
    obtain ⟨hlast, hall⟩ := h.saveAll items fun p hp => hno p (List.mem_append_left _ hp)
    rcases List.mem_append.1 hp with hp | hp
    · exact hall p hp
    · exact Within.savings xs hlast.saveMany (fun p hp => hno p (List.mem_append_right _ hp)) p hp
  | .getLatestVectorClock :: xs, _, h, hno, p, hp => Within.savings xs h.getLatestVectorClock hno p hp
  | .reopen :: xs, _, h, hno, p, hp => Within.savings xs h.reopen hno p hp

/-- **When the log stays bounded**, over whole runs. -/
theorem log_bounded_iff (h : Within t s) (xs : List Visit) :
    (∀ p ∈ savings s xs, ((p.1.save p.2).1.activeCount : Int) < t) ↔ ∀ p ∈ savings s xs, ¬ Stalls t p.1 p.2 := by
  constructor
  · intro hlog p hp hstall
    exact absurd (hlog p hp) (not_lt.2 (hstall.log (h.sound.savings xs p hp)))
  · intro hno p hp
    exact (h.savings xs hno p hp).log

theorem Within.new (hpos : 0 < t) : Within t (init (some t) Disk.empty) := by
  have hunique : Disk.empty.UniqueIds := nofun
  refine ⟨hpos, .init (some t) hunique, (repairIndexes_kept _).1, ?_⟩
  rw [activeCount, Disk.readActiveMessages_eq, LocalMessageStore.init, (repairIndexes_kept _).2]
  exact hpos

/-- A sender whose first message never came, a read, and two more messages. -/
def waiting : List Visit :=
  [.save (chat "a:1" 2 "m2"), .getLatestVectorClock, .saveMany [some (chat "a:1" 3 "m3"), some (chat "a:1" 4 "m4")]]

theorem log_bounded_iff_waiting :
    (∀ p ∈ savings (init (some 2) Disk.empty) waiting, ((p.1.save p.2).1.activeCount : Int) < 2) ↔
      ∀ p ∈ savings (init (some 2) Disk.empty) waiting, ¬ Stalls 2 p.1 p.2 :=
  log_bounded_iff (.new (by decide)) waiting

/-- The log grows with each of them. -/
theorem not_bounded_waiting :
    ((savings (init (some 2) Disk.empty) waiting).map fun p => (p.1.save p.2).1.activeCount) = [1, 2, 3] ∧
      ¬ ∀ p ∈ savings (init (some 2) Disk.empty) waiting, ((p.1.save p.2).1.activeCount : Int) < 2 := by
  have hcounts : ((savings (init (some 2) Disk.empty) waiting).map fun p => (p.1.save p.2).1.activeCount) =
      [1, 2, 3] := by decide +kernel
  refine ⟨hcounts, fun hall => ?_⟩
  have hlong : 3 ∈ (savings (init (some 2) Disk.empty) waiting).map fun p => (p.1.save p.2).1.activeCount := by
    rw [hcounts]
    decide
  obtain ⟨p, hp, he⟩ := List.mem_map.1 hlong
  have := hall p hp
  rw [he] at this
  exact absurd this (by decide)

end LocalMessageStore

end PeerChat.History
