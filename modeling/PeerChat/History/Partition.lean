/-
What a rebuild leaves on the disk
(`_rebuild_snapshots_from_readable_messages_unlocked` of
`message_history/storage/local_message_store.py`).

`tidy_rebuildSnapshots`: whatever was on the disk, the readable messages are
there once each, in snapshots `1, …, k` that are full and a log that is not,
and no check finds damage.
-/
import PeerChat.History.Reading
import PeerChat.History.Recovery

namespace PeerChat.History

open Lib

namespace Disk

/-- Every message on the disk, as often as it is there. -/
def copies (d : Disk) : List Message := d.data.values.flatMap DataFile.messages ++ d.readActiveMessages

/-- `snapshot-0001`, …, for `k` snapshots. -/
def firstIds (k : Nat) : List String := (List.range k).map fun i => snapshotId (i + 1)

end Disk

/-- How many messages a snapshot takes, of `count`. -/
def snapshotSize (threshold : Option Int) (count : Nat) : Nat :=
  match threshold with
  | some t => if 0 < t then t.toNat else count
  | none => count

/-- The messages `before`, partitioned among snapshots and log. -/
structure Tidy (threshold : Option Int) (before : List Message) (d : Disk) : Prop where
  readable : d.readAllMessages.Perm before
  once : d.copies.Perm before ∧ (d.copies.map Message.id).Nodup
  numbered : ∃ k, d.metas.keys = Disk.firstIds k ∧ d.data.keys = Disk.firstIds k ∧
    ((∀ t, threshold = some t → t ≤ 0) → k = 1)
  full : ∀ x ∈ d.metas.keys, (d.readSnapshotMessages x).length = snapshotSize threshold before.length
  log : (∀ t, threshold = some t → 0 < t → (d.readActiveMessages.length : Int) < t) ∧
    ((∀ t, threshold = some t → t ≤ 0) → d.readActiveMessages = [])
  undamaged : d.hasUnreadableSnapshot = false ∧ d.hasSnapshotSequenceGaps = false ∧
    d.activeLog.any LogLine.isInvalid = false

namespace LocalMessageStore

/-! ## Full runs -/

theorem slices_eq {size : Nat} (hs : 0 < size) (q : Nat) (ms : List Message) :
    slices (q * size) size ms = (List.range q).map fun i => (ms.drop (i * size)).take size := by
  rw [slices, roundUp_mul hs]

theorem length_of_mem_slices {size q : Nat} {ms chunk : List Message} (hs : 0 < size) (hq : q * size ≤ ms.length)
    (h : chunk ∈ slices (q * size) size ms) : chunk.length = size := by
  rw [slices_eq hs, List.mem_map] at h
  obtain ⟨i, hi, rfl⟩ := h
  have hle : (i + 1) * size ≤ q * size := Nat.mul_le_mul_right size (List.mem_range.1 hi)
  rw [Nat.add_mul, Nat.one_mul] at hle
  rw [List.length_take, List.length_drop]
  omega

/-- The plan takes a number of full runs. -/
theorem rebuildPlan_eq (threshold : Option Int) {count : Nat} (hc : 0 < count) :
    ∃ q, (rebuildPlan threshold count).1 = snapshotSize threshold count ∧
      (rebuildPlan threshold count).2 = q * snapshotSize threshold count ∧ 0 < snapshotSize threshold count ∧
      q * snapshotSize threshold count ≤ count ∧
      (∀ t, threshold = some t → 0 < t → count - q * snapshotSize threshold count < t) ∧
      ((∀ t, threshold = some t → t ≤ 0) → q = 1 ∧ snapshotSize threshold count = count) := by
  cases threshold with
  | none => exact ⟨1, rfl, (Nat.one_mul _).symm, hc, (Nat.one_mul _).le, nofun, fun _ => ⟨rfl, rfl⟩⟩
  | some t =>
    by_cases ht : 0 < t
    · have hsize : snapshotSize (some t) count = t.toNat := if_pos ht
      have hpos : 0 < t.toNat := by omega
      rw [hsize]
      refine ⟨count / t.toNat, ?_, ?_, hpos, Nat.div_mul_le_self _ _, fun t' ht' _ => ?_, fun h => ?_⟩
      · simp only [rebuildPlan, gt_iff_lt, ht, if_true]
      · simp only [rebuildPlan, gt_iff_lt, ht, if_true]
      · have hmod := Nat.mod_lt count hpos
        have hdiv := Nat.div_add_mod' count t.toNat
        obtain rfl := Option.some.inj ht'
        omega
      · have := h t rfl
        omega
    · have hsize : snapshotSize (some t) count = count := if_neg ht
      rw [hsize]
      refine ⟨1, ?_, ?_, hc, (Nat.one_mul _).le, fun t' ht' hpos => ?_, fun _ => ⟨rfl, rfl⟩⟩
      · simp only [rebuildPlan, gt_iff_lt, ht, if_false]
      · simp only [rebuildPlan, gt_iff_lt, ht, if_false, Nat.one_mul]
      · exact absurd (Option.some.inj ht' ▸ hpos) ht

/-! ## The files -/

/-- The chunks with the ids of their snapshots, from `index` on. -/
def numberedFrom : Nat → List (List Message) → List (String × List Message)
  | _, [] => []
  | index, chunk :: chunks => (Disk.snapshotId index, chunk) :: numberedFrom (index + 1) chunks

/-- The data file of a chunk. -/
def dataOf (p : String × List Message) : String × DataFile := (p.1, .gzip (p.2.map .message))

/-- The meta file of a chunk. -/
def metaOf (p : String × List Message) : String × Option Meta :=
  (p.1, some ⟨p.2.length, .gzip (p.2.map .message)⟩)

theorem map_fst_numberedFrom : ∀ (chunks : List (List Message)) (index : Nat),
    (numberedFrom index chunks).map Prod.fst = (List.range chunks.length).map fun i => Disk.snapshotId (index + i)
  | [], _ => rfl
  | chunk :: chunks, index => by
    rw [numberedFrom, List.map_cons, map_fst_numberedFrom, List.length_cons, List.range_succ_eq_map, List.map_cons,
      List.map_map]
    refine congrArg₂ _ rfl (List.map_congr_left fun i _ => ?_)
    simp only [Function.comp_apply]
    congr 1
    omega

theorem map_snd_numberedFrom : ∀ (chunks : List (List Message)) (index : Nat),
    (numberedFrom index chunks).map Prod.snd = chunks
  | [], _ => rfl
  | chunk :: chunks, index => by rw [numberedFrom, List.map_cons, map_snd_numberedFrom]

/-- The ids from `index` on are free. -/
structure Unwritten (index : Nat) (d : Disk) : Prop where
  data : ∀ n, index ≤ n → Disk.snapshotId n ∉ d.data.keys
  metas : ∀ n, index ≤ n → Disk.snapshotId n ∉ d.metas.keys

theorem notMem_keys_set {α : Type} {d : Dict String α} {index : Nat} {a : α}
    (h : ∀ n, index ≤ n → Disk.snapshotId n ∉ d.keys) (n : Nat) (hn : index + 1 ≤ n) :
    Disk.snapshotId n ∉ (d.set (Disk.snapshotId index) a).keys := by
  rw [Dict.keys_set, if_neg (h index le_rfl)]
  intro hmem
  rcases List.mem_append.1 hmem with hmem | hmem
  · exact h n (by omega) hmem
  · have := Disk.snapshotId_injective (List.mem_singleton.1 hmem)
    omega

/-- Writing the snapshots adds their files. -/
theorem items_rebuildSteps : ∀ {index : Nat} (chunks : List (List Message)) {d : Disk}, Unwritten index d →
    (storage.run d (rebuildSteps index chunks)).data.items =
        d.data.items ++ (numberedFrom index chunks).map dataOf ∧
      (storage.run d (rebuildSteps index chunks)).metas.items =
        d.metas.items ++ (numberedFrom index chunks).map metaOf
  | _, [], d, _ => by simp [rebuildSteps, Device.run, numberedFrom]
  | index, chunk :: chunks, d, h => by
    have hdata : (storage.run d (snapshotSteps (Disk.snapshotId index) chunk)).data =
        d.data.set (Disk.snapshotId index) (.gzip (chunk.map .message)) := rfl
    have hmetas : (storage.run d (snapshotSteps (Disk.snapshotId index) chunk)).metas =
        d.metas.set (Disk.snapshotId index) (some ⟨chunk.length, .gzip (chunk.map .message)⟩) := rfl
    have hnext : Unwritten (index + 1) (storage.run d (snapshotSteps (Disk.snapshotId index) chunk)) :=
      ⟨hdata ▸ notMem_keys_set h.data, hmetas ▸ notMem_keys_set h.metas⟩
    obtain ⟨ihd, ihm⟩ := items_rebuildSteps chunks hnext
    rw [rebuildSteps, Device.run_append, ihd, ihm, hdata, hmetas, Dict.items_set_of_notMem (h.data index le_rfl),
      Dict.items_set_of_notMem (h.metas index le_rfl), numberedFrom]
    simp only [List.append_assoc, List.cons_append, List.nil_append, List.map_cons, dataOf, metaOf, and_self]

theorem items_eq_nil_of_get? {α : Type} {d : Dict String α} (h : ∀ x, d.get? x = none) : d.items = [] := by
  refine List.eq_nil_iff_forall_not_mem.2 fun p hp => ?_
  have hget := (Dict.mem_items_iff d).1 hp
  rw [h p.1] at hget
  cases hget

/-- The files of a disk are these chunks and the rest. -/
structure Holds (chunks : List (List Message)) (rest : List Message) (d : Disk) : Prop where
  data : d.data.items = (numberedFrom 1 chunks).map dataOf
  metas : d.metas.items = (numberedFrom 1 chunks).map metaOf
  log : d.activeLog = rest.map .message

theorem holds_rebuild (d : Disk) (chunks : List (List Message)) (rest : List Message) :
    Holds chunks rest (storage.run d (rebuild d chunks rest)) := by
  have hdata := items_eq_nil_of_get? (data_deleted d)
  have hmetas := items_eq_nil_of_get? (deleted d).1
  have hfree : Unwritten 1 (storage.run d (deletionSteps d)) := by
    constructor
    · intro n _
      rw [Dict.keys, hdata]
      exact List.not_mem_nil
    · intro n _
      rw [Dict.keys, hmetas]
      exact List.not_mem_nil
  obtain ⟨hd, hm⟩ := items_rebuildSteps chunks hfree
  rw [rebuild, Device.run_append, Device.run_append]
  exact ⟨hd.trans (by rw [hdata, List.nil_append]), hm.trans (by rw [hmetas, List.nil_append]), rfl⟩

namespace Holds

variable {chunks : List (List Message)} {rest : List Message} {d : Disk}

theorem keys (h : Holds chunks rest d) :
    d.metas.keys = Disk.firstIds chunks.length ∧ d.data.keys = Disk.firstIds chunks.length := by
  have hids : (numberedFrom 1 chunks).map Prod.fst = Disk.firstIds chunks.length := by
    rw [map_fst_numberedFrom]
    exact List.map_congr_left fun i _ => by rw [Nat.add_comm]
  rw [Dict.keys, Dict.keys, h.metas, h.data, List.map_map, List.map_map]
  exact ⟨hids, hids⟩

theorem readActiveMessages (h : Holds chunks rest d) : d.readActiveMessages = rest := by
  rw [Disk.readActiveMessages_eq, h.log, messages_map_message]

/-- A snapshot reads as its chunk. -/
theorem readSnapshotMessages (h : Holds chunks rest d) {p : String × List Message} (hp : p ∈ numberedFrom 1 chunks) :
    d.readSnapshotMessages p.1 = p.2 := by
  have hmeta : d.metas.get? p.1 = some (metaOf p).2 :=
    d.metas.mem_items_iff.1 (h.metas ▸ List.mem_map_of_mem hp)
  have hdata : d.data.get? p.1 = some (dataOf p).2 := d.data.mem_items_iff.1 (h.data ▸ List.mem_map_of_mem hp)
  simp only [Disk.readSnapshotMessages, hmeta, hdata, metaOf, dataOf, if_true, messages_gzip]

theorem listSnapshots_perm (h : Holds chunks rest d) :
    d.listSnapshots.Perm ((numberedFrom 1 chunks).map fun p => (p.1, ⟨p.2.length, .gzip (p.2.map .message)⟩)) := by
  refine d.perm_listSnapshots.trans (List.Perm.of_eq ?_)
  rw [h.metas, List.filterMap_map, ← List.filterMap_eq_map]
  rfl

theorem copies_eq (h : Holds chunks rest d) : d.copies = chunks.flatten ++ rest := by
  rw [Disk.copies, h.readActiveMessages, Dict.values, h.data, List.map_map, List.flatMap_map]
  congr 1
  have hread : ∀ p : String × List Message, DataFile.messages ((Prod.snd ∘ dataOf) p) = p.2 :=
    fun p => messages_gzip p.2
  rw [List.flatMap_congr fun p _ => hread p, List.flatMap_def, map_snd_numberedFrom]

theorem stored_perm (h : Holds chunks rest d) : d.stored.Perm (chunks.flatten ++ rest) := by
  rw [Disk.stored_eq, h.readActiveMessages]
  refine List.Perm.append_right rest ((h.listSnapshots_perm.flatMap_right _).trans (List.Perm.of_eq ?_))
  rw [List.flatMap_map, List.flatMap_congr fun p hp => h.readSnapshotMessages hp, List.flatMap_def,
    map_snd_numberedFrom]

theorem not_hasUnreadableSnapshot (h : Holds chunks rest d) : d.hasUnreadableSnapshot = false := by
  refine List.any_eq_false.2 fun s hs => ?_
  obtain ⟨p, hp, rfl⟩ := List.mem_map.1 (h.listSnapshots_perm.subset hs)
  rw [h.readSnapshotMessages hp]
  simp

/-- The numbers of the snapshots are `1, …, k`. -/
theorem not_hasSnapshotSequenceGaps (h : Holds chunks rest d) : d.hasSnapshotSequenceGaps = false := by
  have hnumbers : (d.listSnapshots.filterMap fun s => Disk.snapshotNumber s.1).Perm
      (Disk.interval 1 chunks.length) := by
    refine (h.listSnapshots_perm.filterMap _).trans (List.Perm.of_eq ?_)
    have hmap : ((numberedFrom 1 chunks).map fun p : String × List Message =>
        (p.1, (⟨p.2.length, .gzip (p.2.map .message)⟩ : Meta))).filterMap (fun s => Disk.snapshotNumber s.1) =
        ((numberedFrom 1 chunks).map Prod.fst).filterMap Disk.snapshotNumber := by
      rw [List.filterMap_map, List.filterMap_map]
      rfl
    rw [hmap, map_fst_numberedFrom, List.filterMap_map]
    have hnum : ∀ i : Nat, (Disk.snapshotNumber ∘ fun i => Disk.snapshotId (1 + i)) i = some (1 + (i : Int)) := by
      intro i
      rw [Function.comp_apply, Disk.snapshotNumber_snapshotId]
      push_cast
      rfl
    rw [List.filterMap_congr fun i _ => hnum i, List.filterMap_eq_map']
    simp [Disk.interval]
  have hsorted : (d.listSnapshots.filterMap fun s => Disk.snapshotNumber s.1).insertionSort (· ≤ ·) =
      Disk.interval 1 chunks.length := by
    refine ((List.perm_insertionSort _ _).trans hnumbers).eq_of_pairwise (fun _ _ _ _ h h' => le_antisymm h h')
      (List.pairwise_insertionSort _ _) ((Indexes.sorted_interval 1 chunks.length).imp Int.le_of_lt)
  simp only [Disk.hasSnapshotSequenceGaps, hsorted]
  split
  · next first last hfirst hlast =>
    simp only [Disk.interval, List.head?_map, List.head?_range, List.getLast?_map, List.getLast?_range,
      Option.map_eq_some_iff, Option.ite_none_left_eq_some] at hfirst hlast
    obtain ⟨i, ⟨hpos, hi⟩, rfl⟩ := hfirst
    obtain ⟨j, ⟨-, hj⟩, rfl⟩ := hlast
    have hfirst : (1 : Int) + (i : Int) = 1 := by
      have := Option.some.inj hi
      omega
    have hlast : (1 : Int) + (j : Int) = chunks.length := by
      have := Option.some.inj hj
      omega
    rw [hfirst, hlast, decide_eq_false_iff_not, not_not]
  · rfl

theorem not_hasInvalid (h : Holds chunks rest d) : d.activeLog.any LogLine.isInvalid = false := by
  rw [h.log, List.any_map]
  exact List.any_eq_false.2 fun m _ => Bool.false_ne_true

end Holds

theorem Holds.congr {chunks : List (List Message)} {rest : List Message} {d d' : Disk} (h : Holds chunks rest d)
    (hd : d'.data = d.data) (hm : d'.metas = d.metas) (hl : d'.activeLog = d.activeLog) : Holds chunks rest d' :=
  ⟨hd ▸ h.data, hm ▸ h.metas, hl ▸ h.log⟩

/-- Index files are none of those. -/
theorem Holds.flushIndexes {chunks : List (List Message)} {rest : List Message} {s : LocalMessageStore}
    (h : Holds chunks rest s.disk) : Holds chunks rest s.flushIndexes.disk := h.congr rfl rfl rfl

theorem holds_rebuilt (s : LocalMessageStore) :
    Holds s.rebuildChunks.1 s.rebuildChunks.2 s.rebuilt.rebuildIndexes.disk :=
  holds_rebuild s.disk s.rebuildChunks.1 s.rebuildChunks.2

/-- **A rebuild partitions the history**, whatever was on the disk. -/
theorem tidy_rebuildSnapshots (s : LocalMessageStore) (hne : s.disk.readAllMessages ≠ []) :
    Tidy s.snapshotThreshold s.disk.readAllMessages s.rebuildSnapshots.disk := by
  generalize hd : s.rebuildSnapshots.disk = d
  obtain ⟨q, hsize, htotal, hpos, hle, hlog, hwhole⟩ :=
    rebuildPlan_eq s.snapshotThreshold (List.length_pos_iff.2 hne)
  have hchunks : s.rebuildChunks.1 = slices (q * snapshotSize s.snapshotThreshold s.disk.readAllMessages.length)
      (snapshotSize s.snapshotThreshold s.disk.readAllMessages.length) s.disk.readAllMessages := by
    rw [rebuildChunks, hsize, htotal]
  have hrest : s.rebuildChunks.2 =
      s.disk.readAllMessages.drop (q * snapshotSize s.snapshotThreshold s.disk.readAllMessages.length) := by
    rw [rebuildChunks, htotal]
  have hholds : Holds s.rebuildChunks.1 s.rebuildChunks.2 d := by
    rw [← hd, rebuildSnapshots_eq hne]
    exact (holds_rebuilt s).flushIndexes
  have hall : s.rebuildChunks.1.flatten ++ s.rebuildChunks.2 = s.disk.readAllMessages := by
    rw [rebuildChunks, flatten_rebuildPlan s.snapshotThreshold hne, List.take_append_drop]
  have hnodup : (s.disk.readAllMessages.map Message.id).Nodup := s.disk.nodup_readAllMessages
  have hstored : d.stored.Perm s.disk.readAllMessages := hall ▸ hholds.stored_perm
  have hlen : s.rebuildChunks.1.length = q := by
    rw [hchunks, slices_eq hpos, List.length_map, List.length_range]
  obtain ⟨hmetas, hdata⟩ := hholds.keys
  refine ⟨?_, ?_, ⟨q, hlen ▸ hmetas, hlen ▸ hdata, fun hw => (hwhole hw).1⟩, fun x hx => ?_, ⟨fun t ht hpos' => ?_,
    fun hw => ?_⟩, hholds.not_hasUnreadableSnapshot, hholds.not_hasSnapshotSequenceGaps, hholds.not_hasInvalid⟩
  · have hids : (d.stored.map Message.id).Nodup := (hstored.map Message.id).nodup_iff.2 hnodup
    refine (List.perm_insertionSort _ _).trans ?_
    exact (List.Perm.of_eq (Disk.dropSeen_of_nodup hids fun _ _ => Finset.notMem_empty _)).trans hstored
  · rw [hholds.copies_eq, hall]
    exact ⟨.refl _, hnodup⟩
  · rw [Dict.keys, hholds.metas, List.map_map] at hx
    obtain ⟨p, hp, rfl⟩ := List.mem_map.1 hx
    have hread := hholds.readSnapshotMessages hp
    have hmem : p.2 ∈ s.rebuildChunks.1 := by
      rw [← map_snd_numberedFrom s.rebuildChunks.1 1]
      exact List.mem_map_of_mem hp
    rw [hchunks] at hmem
    exact (congrArg List.length hread).trans (length_of_mem_slices hpos hle hmem)
  · have := hlog t ht hpos'
    rw [hholds.readActiveMessages, hrest, List.length_drop]
    omega
  · rw [hholds.readActiveMessages, hrest, (hwhole hw).1, Nat.one_mul, (hwhole hw).2, List.drop_length]

/-- A disk with a snapshot under another name, one that does not decode,
and a log with a copy, a new message and an invalid line. -/
def jumbled : Disk :=
  { Disk.empty with
    activeLog := [.message (chat "a:1" 1 "x"), .invalid "?", .message (chat "a:1" 2 "y"), .message (chat "a:1" 3 "z")]
    data := Dict.empty.set "old" (.gzip [.message (chat "a:1" 1 "x")])
    metas := (Dict.empty.set "old" (some ⟨1, .gzip [.message (chat "a:1" 1 "x")]⟩)).set "snapshot-0007" none }

theorem tidy_rebuildSnapshots_jumbled :
    Tidy (some 2) (init (some 2) jumbled).disk.readAllMessages (init (some 2) jumbled).rebuildSnapshots.disk ∧
      (init (some 2) jumbled).rebuildSnapshots.disk.metas.keys = ["snapshot-0001"] :=
  ⟨tidy_rebuildSnapshots (init (some 2) jumbled) (by decide +kernel), by decide +kernel⟩

end LocalMessageStore

end PeerChat.History
