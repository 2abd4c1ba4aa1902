/-
In which order messages of one timestamp are read back (`get_recent` and
`get_missing_since` of `message_history/storage/local_message_store.py`).

The sort keeps the order of reading, and snapshots are read by the names of
their meta files. A name has four digits, so that the order of the names is
that of the numbers up to `snapshot-9999`. `keepsSaveOrder_iff`: the messages
come back in the order of the saves exactly when there are no more snapshots
than that.
-/
import PeerChat.History.Backlog
import PeerChat.History.ReplayOrder
import Mathlib.Data.List.Flatten
import Mathlib.Data.String.Basic

namespace PeerChat.History

open Lib

namespace LocalMessageStore

/-- What comes back are the messages in the order in which they were saved:
those with a positive number, and the slice `[-limit:]`. -/
structure KeepsSaveOrder (s : LocalMessageStore) (ms : List Message) : Prop where
  missing : s.getMissingSince Dict.empty = ms.filter fun m => 1 ≤ m.senderSeq
  recent : ∀ limit : Int, s.getRecent limit =
    if 0 < limit then ms.drop (ms.length - limit.toNat) else ms.drop (-limit).toNat

/-! ## One save -/

theorem numberedFrom_concat (chunks : List (List Message)) (chunk : List Message) (index : Nat) :
    numberedFrom index (chunks ++ [chunk]) =
      numberedFrom index chunks ++ [(Disk.snapshotId (index + chunks.length), chunk)] := by
  induction chunks generalizing index with
  | nil => rfl
  | cons c chunks ih =>
    have hindex : index + 1 + chunks.length = index + (c :: chunks).length := by
      rw [List.length_cons]
      omega
    rw [List.cons_append, numberedFrom, ih, numberedFrom, List.cons_append, hindex]

/-- The greatest of the numbers `1, …, k`. -/
theorem foldl_max_range (k : Nat) : ((List.range k).map fun i : Nat => (i : Int) + 1).foldl max 0 = k := by
  induction k with
  | zero => rfl
  | succ k ih =>
    rw [List.range_succ, List.map_append, List.foldl_append, ih]
    simp only [List.map_cons, List.map_nil, List.foldl_cons, List.foldl_nil]
    omega

variable {s : LocalMessageStore} {m : Message} {t : Int} {chunks : List (List Message)} {rest : List Message} {d : Disk}

namespace Holds

theorem nextSnapshotId_eq (h : Holds chunks rest d) : d.nextSnapshotId = Disk.snapshotId (chunks.length + 1) := by
  have hnumber : ∀ i : Nat, (Disk.snapshotNumber ∘ fun i => Disk.snapshotId (i + 1)) i = some ((i : Int) + 1) := by
    intro i
    rw [Function.comp_apply, Disk.snapshotNumber_snapshotId]
    push_cast
    rfl
  rw [Disk.nextSnapshotId, h.keys.1, Disk.firstIds, List.filterMap_map, List.filterMap_congr fun i _ => hnumber i,
    List.filterMap_eq_map', foldl_max_range]
  congr 1

/-- A message goes to the end of the log. -/
theorem entered (h : Holds chunks rest s.disk) (m : Message) :
    Holds chunks (rest ++ [m]) (s.entered m).flushIndexes.disk := by
  refine ⟨h.data, h.metas, ?_⟩
  have hlog : (s.entered m).flushIndexes.disk.activeLog = s.disk.activeLog ++ [.message m] := rfl
  rw [hlog, h.log, List.map_append]
  rfl

/-- The return of a save is on no file. -/
theorem saved (h : Holds chunks rest s.disk) (m : Message) : Holds chunks rest (s.perform (.saved m)).disk :=
  h.congr rfl rfl rfl

/-- The log becomes the last snapshot. -/
theorem createSnapshot (h : Holds chunks rest s.disk) (hne : rest ≠ []) :
    Holds (chunks ++ [rest]) [] (s.createSnapshot none true).disk := by
  have hread := h.readActiveMessages
  have hnot : s.disk.readActiveMessages ≠ [] := by rwa [hread]
  rw [createSnapshot_eq none true hnot, if_pos rfl]
  have hid : Disk.snapshotId (1 + chunks.length) = s.disk.nextSnapshotId := by rw [h.nextSnapshotId_eq, Nat.add_comm]
  have hfree := s.disk.get?_nextSnapshotId
  have hdata : s.disk.nextSnapshotId ∉ s.disk.data.keys := by
    rw [h.keys.2, ← h.keys.1]
    exact (s.disk.metas.get?_eq_none_iff).1 hfree
  refine ⟨?_, ?_, rfl⟩
  · have hset : (((s.snapshotted none).perform (.writeLog [])).rebuildIndexes.flushIndexes).disk.data =
        s.disk.data.set s.disk.nextSnapshotId (.gzip (s.disk.readActiveMessages.map .message)) := rfl
    rw [hset, Dict.items_set_of_notMem hdata, h.data, hread, numberedFrom_concat, List.map_append, hid]
    rfl
  · have hset : (((s.snapshotted none).perform (.writeLog [])).rebuildIndexes.flushIndexes).disk.metas =
        s.disk.metas.set s.disk.nextSnapshotId
          (some ⟨s.disk.readActiveMessages.length, .gzip (s.disk.readActiveMessages.map .message)⟩) := rfl
    rw [hset, Dict.items_set_of_notMem ((s.disk.metas.get?_eq_none_iff).1 hfree), h.metas, hread,
      numberedFrom_concat, List.map_append, hid]
    rfl

end Holds

/-- The messages saved so far lie in full snapshots and a log that is not. -/
structure Piled (t : Int) (ms : List Message) (s : LocalMessageStore) : Prop where
  sound : Sound s
  threshold : s.snapshotThreshold = some t
  current : s.needsSnapshotRebuild = false
  piled : ∃ chunks rest, Holds chunks rest s.disk ∧ chunks.flatten ++ rest = ms ∧
    (∀ c ∈ chunks, (c.length : Int) = t) ∧ (rest.length : Int) < t

variable {ms : List Message}

/-- **A save adds to the pile.** -/
theorem Piled.save (h : Piled t ms s) (hid : ∀ x ∈ ms, x.id ≠ m.id) : Piled t (ms ++ [m]) (s.save m).1 := by
  obtain ⟨chunks, rest, hholds, rfl, hfull, hrest⟩ := h.piled
  have hpos : 0 < t := lt_of_le_of_lt (Int.natCast_nonneg _) hrest
  have hnew : m.id ∉ s.indexes.messageIds := by
    intro hmem
    obtain ⟨x, hx, he⟩ := (h.sound.describes.ids m.id).1 hmem
    exact hid x (hholds.stored_perm.subset hx) he
  have hadds := (Adds.save h.sound hnew).sound
  have hentered := hholds.entered m
  have hkept : (s.entered m).flushIndexes.needsSnapshotRebuild = false := h.current
  have hthreshold : (s.entered m).flushIndexes.snapshotThreshold = some t := h.threshold
  rw [save_unknown hnew, if_neg (by rw [hkept]; exact Bool.false_ne_true)] at hadds ⊢
  generalize (s.entered m).flushIndexes = s₁ at hentered hkept hthreshold hadds ⊢
  have hcount : s₁.disk.readActiveMessages.length = rest.length + 1 := by
    rw [hentered.readActiveMessages, List.length_append, List.length_singleton]
  revert hadds
  rw [LocalMessageStore.maybeCreateSnapshot, hthreshold]
  simp only [not_le.2 hpos, if_false]
  split
  · next hdue =>
    intro hadds
    have hsnapshot := hentered.createSnapshot (by simp)
    have hlog : s₁.disk.readActiveMessages ≠ [] := by
      rw [hentered.readActiveMessages]
      simp
    have hsettings : (s₁.createSnapshot none true).snapshotThreshold = some t ∧
        (s₁.createSnapshot none true).needsSnapshotRebuild = false := by
      rw [createSnapshot_eq none true hlog, if_pos rfl]
      exact ⟨(snapshotThreshold_flushIndexes _).trans hthreshold, (needsSnapshotRebuild_flushIndexes _).trans hkept⟩
    refine ⟨hadds, hsettings.1, hsettings.2, chunks ++ [rest ++ [m]], [], hsnapshot.saved m, ?_, ?_, hpos⟩
    · simp
    · intro c hc
      rcases List.mem_append.1 hc with hc | hc
      · exact hfull c hc
      · rw [List.mem_singleton.1 hc, List.length_append, List.length_singleton]
        omega
  · next hroom =>
    intro hadds
    refine ⟨hadds, hthreshold, hkept, chunks, rest ++ [m], hentered.saved m, ?_, hfull, ?_⟩
    · rw [List.append_assoc]
    · rw [List.length_append, List.length_singleton]
      omega

theorem Piled.init (hpos : 1 ≤ t) : Piled t [] (init (some t) Disk.empty) := by
  refine ⟨Sound.init (some t) nofun, rfl, rfl, [], [], ⟨rfl, rfl, rfl⟩, rfl, fun c hc => absurd hc List.not_mem_nil, ?_⟩
  exact Int.lt_of_lt_of_le Int.zero_lt_one hpos

/-- The pile after any number of saves. -/
theorem piled_built (hpos : 1 ≤ t) (hids : (ms.map Message.id).Nodup) : Piled t ms (built (some t) (ms.map .save)) := by
  induction ms using List.reverseRecOn with
  | nil => exact Piled.init hpos
  | append_singleton ms m ih =>
    rw [List.map_append, List.nodup_append] at hids
    have hnew : ∀ x ∈ ms, x.id ≠ m.id := fun x hx => hids.2.2 x.id (List.mem_map_of_mem hx) m.id (by simp)
    have hrun : built (some t) ((ms ++ [m]).map .save) = ((built (some t) (ms.map .save)).save m).1 := by
      rw [built, List.map_append, List.foldl_append]
      rfl
    rw [hrun]
    exact (ih hids.1).save hnew

/-! ## Up to four digits -/

theorem metaName_lt {i j : Nat} (hij : i < j) (hj : j ≤ 9999) :
    Disk.metaName (Disk.snapshotId i) < Disk.metaName (Disk.snapshotId j) :=
  zeroPad_lt hij (Nat.lt_of_le_of_lt hj (by decide)) "snapshot-" ".meta.json"

theorem pairwise_numberedFrom (hfew : chunks.length ≤ 9999) :
    (numberedFrom 1 chunks).Pairwise fun p q => Disk.metaName p.1 ≤ Disk.metaName q.1 := by
  have hkeys : ((numberedFrom 1 chunks).map Prod.fst).Pairwise fun x y => Disk.metaName x ≤ Disk.metaName y := by
    rw [map_fst_numberedFrom, List.pairwise_map]
    refine List.pairwise_lt_range.imp_of_mem fun {i j} _ hj hij => ?_
    have hlast := List.mem_range.1 hj
    exact le_of_lt (metaName_lt (by omega) (by omega))
  have hpairs := List.pairwise_map.1 hkeys
  exact hpairs

/-- The snapshots are listed in the order of their numbers. -/
theorem Holds.listSnapshots_eq (h : Holds chunks rest d) (hfew : chunks.length ≤ 9999) :
    d.listSnapshots = (numberedFrom 1 chunks).map fun p => (p.1, ⟨p.2.length, .gzip (p.2.map .message)⟩) := by
  have hperm := h.listSnapshots_perm
  refine hperm.eq_of_pairwise (fun x y hx hy hxy hyx => ?_) d.pairwise_listSnapshots ?_
  · -- a name is listed once
    have hkey : x.1 = y.1 := Disk.metaName_injective (String.le_antisymm hxy hyx)
    have hmeta := Disk.mem_listSnapshots.1 hx
    rw [hkey, Disk.mem_listSnapshots.1 (hperm.mem_iff.2 hy)] at hmeta
    exact Prod.ext hkey (Option.some.inj (Option.some.inj hmeta)).symm
  · exact List.pairwise_map.2 (pairwise_numberedFrom hfew)

/-- **Up to `snapshot-9999` the messages are read as they were saved.** -/
theorem Holds.stored_eq (h : Holds chunks rest d) (hfew : chunks.length ≤ 9999) :
    d.stored = chunks.flatten ++ rest := by
  rw [Disk.stored_eq, h.readActiveMessages, Disk.messagesOf, h.listSnapshots_eq hfew, List.flatMap_map,
    List.flatMap_congr fun p hp => h.readSnapshotMessages hp, List.flatMap_def, map_snd_numberedFrom]

/-! ## Beyond -/

theorem mem_numberedFrom : ∀ {chunks : List (List Message)} (index : Nat) {i : Nat} (hi : i < chunks.length),
    (Disk.snapshotId (index + i), chunks[i]) ∈ numberedFrom index chunks
  | c :: chunks, index, 0, _ => List.mem_cons_self
  | c :: chunks, index, i + 1, hi => by
    have hindex : index + 1 + i = index + (i + 1) := by omega
    have hmem := mem_numberedFrom (index + 1) (Nat.lt_of_succ_lt_succ hi)
    rw [hindex] at hmem
    exact List.mem_cons_of_mem _ hmem

/-- Messages of two snapshots, in the order of the saves. -/
theorem pair_flatten {i : Nat} (hi : i + 1 < chunks.length) {x y : Message} (hx : x ∈ chunks[i])
    (hy : y ∈ chunks[i + 1]) : List.Sublist [x, y] (chunks.flatten ++ rest) := by
  have hdrop : chunks.drop i = chunks[i] :: chunks[i + 1] :: chunks.drop (i + 2) := by
    rw [List.drop_eq_getElem_cons (by omega), List.drop_eq_getElem_cons hi]
  have hchunks : List.Sublist [chunks[i], chunks[i + 1]] chunks := by
    refine List.Sublist.trans ?_ (List.drop_sublist i chunks)
    rw [hdrop]
    exact ((List.nil_sublist _).cons_cons _).cons_cons _
  have hpair : List.Sublist [x, y] [chunks[i], chunks[i + 1]].flatten := by
    simp only [List.flatten_cons, List.flatten_nil, List.append_nil]
    exact (List.singleton_sublist.2 hx).append (List.singleton_sublist.2 hy)
  exact (hpair.trans hchunks.flatten).trans (List.sublist_append_left _ _)

/-- **Behind `snapshot-9999` they are not.** -/
theorem Holds.stored_ne (h : Holds chunks rest d) (hmany : 10000 ≤ chunks.length) (hne : ∀ c ∈ chunks, c ≠ [])
    (hids : ((chunks.flatten ++ rest).map Message.id).Nodup) : d.stored ≠ chunks.flatten ++ rest := by
  obtain ⟨x, hx⟩ := List.exists_mem_of_ne_nil _ (hne _ (List.getElem_mem (show 9998 < chunks.length by omega)))
  obtain ⟨y, hy⟩ := List.exists_mem_of_ne_nil _ (hne _ (List.getElem_mem (show 9999 < chunks.length by omega)))
  have hahead : d.SortsAhead y x := by
    refine ⟨Disk.snapshotId 10000, Disk.snapshotId 9999, ?_, ?_, by decide⟩
    · rw [h.readSnapshotMessages (mem_numberedFrom 1 (show 9999 < chunks.length by omega))]
      exact hy
    · rw [h.readSnapshotMessages (mem_numberedFrom 1 (show 9998 < chunks.length by omega))]
      exact hx
  intro hstored
  have hread := hahead.pair_stored
  rw [hstored] at hread
  exact not_pair_sublist_swap (hids.of_map _) (pair_flatten (by omega) hx hy) hread

/-! ## Reading -/

/-- Messages of one timestamp are read as they are stored. -/
theorem readAllMessages_of_equal (hids : (d.stored.map Message.id).Nodup)
    (htime : ∀ x ∈ d.stored, ∀ y ∈ d.stored, x.timestamp = y.timestamp) : d.readAllMessages = d.stored := by
  have hdrop : d.readAllMessages = d.stored.insertionSort fun x y => x.timestamp ≤ y.timestamp :=
    congrArg (List.insertionSort _) (Disk.dropSeen_of_nodup hids fun m _ => Finset.notMem_empty m.id)
  rw [hdrop]
  refine List.Pairwise.insertionSort_eq (List.pairwise_of_forall_mem_list ?_)
  exact fun x hx y hy => le_of_eq (htime x hx y hy)

/-- What comes back is cut out of what is read. -/
theorem keepsSaveOrder_iff_read : s.KeepsSaveOrder ms ↔ s.disk.readAllMessages = ms := by
  constructor
  · intro h
    have hall := h.recent 0
    simpa [getRecent] using hall
  · rintro rfl
    refine ⟨?_, fun limit => rfl⟩
    have hdrop : Disk.dropSeen ∅ s.disk.readAllMessages = s.disk.readAllMessages :=
      Disk.dropSeen_of_nodup s.disk.nodup_readAllMessages fun m _ => Finset.notMem_empty m.id
    rw [getMissingSince, hdrop]
    exact List.filter_congr fun m _ => rfl

theorem length_flatten_eq (hfull : ∀ c ∈ chunks, (c.length : Int) = t) :
    (chunks.flatten.length : Int) = chunks.length * t := by
  induction chunks with
  | nil => simp
  | cons c chunks ih =>
    have ih := ih fun c' hc' => hfull c' (List.mem_cons_of_mem _ hc')
    have hc := hfull c List.mem_cons_self
    rw [List.flatten_cons, List.length_append, List.length_cons]
    push_cast
    rw [ih, hc, Int.add_mul, Int.one_mul, Int.add_comm]

/-- The pile is read in the order of the saves when it has no more snapshots
than there are names of four digits. -/
theorem Piled.readAllMessages_iff (h : Piled t ms s) (hpos : 1 ≤ t) (hids : (ms.map Message.id).Nodup)
    (htime : ∀ x ∈ ms, ∀ y ∈ ms, x.timestamp = y.timestamp) :
    s.disk.readAllMessages = ms ↔ (ms.length : Int) < 10000 * t := by
  obtain ⟨chunks, rest, hholds, rfl, hfull, hrest⟩ := h.piled
  have hperm := hholds.stored_perm
  have hread : s.disk.readAllMessages = s.disk.stored := by
    refine readAllMessages_of_equal ((hperm.map Message.id).nodup_iff.2 hids) fun x hx y hy => ?_
    exact htime x (hperm.subset hx) y (hperm.subset hy)
  have hcount : (chunks.length ≤ 9999) ↔ ((chunks.flatten ++ rest).length : Int) < 10000 * t := by
    rw [List.length_append]
    push_cast
    rw [length_flatten_eq hfull]
    constructor
    · intro hfew
      have hmul : (chunks.length : Int) * t ≤ 9999 * t := by
        exact Int.mul_le_mul_of_nonneg_right (by omega) (by omega)
      omega
    · intro hlt
      by_contra hmany
      have hmul : 10000 * t ≤ (chunks.length : Int) * t := by
        exact Int.mul_le_mul_of_nonneg_right (by omega) (by omega)
      omega
  rw [hread, ← hcount]
  constructor
  · intro hstored
    by_contra hmany
    refine hholds.stored_ne (by omega) (fun c hc hnil => ?_) hids hstored
    have hlen := hfull c hc
    rw [hnil, List.length_nil] at hlen
    omega
  · exact hholds.stored_eq

/-- **Messages of one timestamp come back in the order of the saves exactly
when there are fewer than 10000 snapshots.** -/
theorem keepsSaveOrder_iff (hpos : 1 ≤ t) (hids : (ms.map Message.id).Nodup)
    (htime : ∀ x ∈ ms, ∀ y ∈ ms, x.timestamp = y.timestamp) :
    (built (some t) (ms.map .save)).KeepsSaveOrder ms ↔ (ms.length : Int) < 10000 * t :=
  keepsSaveOrder_iff_read.trans ((piled_built hpos hids).readAllMessages_iff hpos hids htime)

/-- The message number `seq` of a room in which everything is said at once. -/
def atOnce (seq : Nat) : Message :=
  ⟨"hi", "a:1", toString (seq : Int), 7, "", 10, (Dict.empty : VectorClock).set "a:1" seq⟩

theorem keepsSaveOrder_three :
    (built (some 2) ([atOnce 1, atOnce 2, atOnce 3].map .save)).KeepsSaveOrder [atOnce 1, atOnce 2, atOnce 3] := by
  refine (keepsSaveOrder_iff (by decide) (by decide) (fun x hx y hy => ?_)).2 (by decide)
  simp only [List.mem_cons, List.not_mem_nil, or_false] at hx hy
  rcases hx with rfl | rfl | rfl <;> rcases hy with rfl | rfl | rfl <;> rfl

/-- Ten thousand messages, said at once. -/
def tenThousand : List Message := (List.range' 1 10000).map atOnce

theorem nodup_tenThousand : (tenThousand.map Message.id).Nodup := by
  rw [tenThousand, List.map_map]
  refine List.Nodup.map (fun i j hij => ?_) List.nodup_range'
  have hnumber : parseInt (toString (i : Int)) = parseInt (toString (j : Int)) := congrArg parseInt hij
  rw [parseInt_toString, parseInt_toString] at hnumber
  exact Int.ofNat.inj (Option.some.inj hnumber)

/-- With a snapshot of every message the message number 10000 comes back
before the message number 1001. -/
theorem ten_thousand_at_once : ¬ (built (some 1) (tenThousand.map .save)).KeepsSaveOrder tenThousand := by
  have htime : ∀ x ∈ tenThousand, ∀ y ∈ tenThousand, x.timestamp = y.timestamp := by
    intro x hx y hy
    obtain ⟨i, -, rfl⟩ := List.mem_map.1 hx
    obtain ⟨j, -, rfl⟩ := List.mem_map.1 hy
    rfl
  have hpile := piled_built (Int.le_refl 1) nodup_tenThousand
  rw [keepsSaveOrder_iff_read, hpile.readAllMessages_iff (Int.le_refl 1) nodup_tenThousand htime, tenThousand,
    List.length_map, List.length_range']
  omega

end LocalMessageStore

end PeerChat.History
