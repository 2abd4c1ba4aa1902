/-
In which order a disk is read. Of several messages with one id the first
one counts (`mem_readAllMessages_iff_firstOf`), and the snapshots are read
in the order of the names of their meta files: `stored_compacted`, a
snapshot of the log goes in front of those whose names sort behind its own.
-/
import PeerChat.History.Rebuild

namespace PeerChat.History

open Lib

/-- The message that counts for an id. -/
def firstOf (i : String) (ms : List Message) : Option Message := ms.find? fun m => m.id = i

theorem firstOf_append (i : String) (ms ms' : List Message) :
    firstOf i (ms ++ ms') = (firstOf i ms).or (firstOf i ms') := List.find?_append

theorem firstOf_eq_none {i : String} {ms : List Message} : firstOf i ms = none ↔ ∀ m ∈ ms, m.id ≠ i := by
  simp [firstOf, List.find?_eq_none]

namespace Disk

theorem mem_dropSeen {m : Message} : ∀ {ms : List Message} {seen : Finset String},
    m ∈ dropSeen seen ms ↔ m.id ∉ seen ∧ firstOf m.id ms = some m
  | [], seen => by simp [dropSeen, firstOf]
  | m' :: ms, seen => by
    by_cases hid : m'.id = m.id
    · have hfirst : firstOf m.id (m' :: ms) = some m' := by simp [firstOf, hid]
      rw [dropSeen, hfirst]
      split
      · next hs =>
        rw [mem_dropSeen]
        simp [hid ▸ hs]
      · next hs =>
        rw [List.mem_cons, mem_dropSeen, Finset.mem_insert, Option.some.injEq]
        simp only [hid, true_or, not_true_eq_false, false_and, or_false]
        exact ⟨fun he => ⟨hid ▸ hs, he.symm⟩, fun h => h.2.symm⟩
    · have hfirst : firstOf m.id (m' :: ms) = firstOf m.id ms := by simp [firstOf, hid]
      have hne : m ≠ m' := fun he => hid (he ▸ rfl)
      rw [dropSeen, hfirst]
      split
      · exact mem_dropSeen
      · rw [List.mem_cons, mem_dropSeen, Finset.mem_insert]
        simp [hne, Ne.symm hid]

/-- **The first message with an id is the one that is read.** -/
theorem mem_readAllMessages_iff_firstOf {d : Disk} {m : Message} :
    m ∈ d.readAllMessages ↔ firstOf m.id d.stored = some m := by
  rw [mem_readAllMessages, mem_dropSeen]
  simp

theorem readActiveMessages_eq (d : Disk) : d.readActiveMessages = d.activeLog.filterMap LogLine.message? := by
  have hzip : ∀ (l : List LogLine) (k : Nat), ((l.zipIdx k).filterMap fun p => p.1.message?.map fun m =>
      (m, (p.2 : Int))).map Prod.fst = l.filterMap LogLine.message? := by
    intro l
    induction l with
    | nil => exact fun _ => rfl
    | cons line l ih =>
      intro k
      cases hm : line.message? with
      | none => simp [hm, ih]
      | some m => simp [hm, ih]
  exact hzip d.activeLog 0

/-! ## The order of the snapshots -/

/-- The name of a meta file. -/
def metaName (x : String) : String := x ++ ".meta.json"

/-- The snapshots that are read before one named `x`. -/
def snapshotsBefore (d : Disk) (x : String) : List (String × Meta) :=
  d.listSnapshots.filter fun s => metaName s.1 ≤ metaName x

/-- The snapshots that are read after one named `x`. -/
def snapshotsAfter (d : Disk) (x : String) : List (String × Meta) :=
  d.listSnapshots.filter fun s => ¬ metaName s.1 ≤ metaName x

/-- The messages of snapshots. -/
def messagesOf (d : Disk) (snapshots : List (String × Meta)) : List Message :=
  snapshots.flatMap fun s => d.readSnapshotMessages s.1

theorem metaName_injective {x y : String} (h : metaName x = metaName y) : x = y := by
  have := congrArg String.toList h
  rw [metaName, metaName, String.toList_append, String.toList_append, List.append_cancel_right_eq] at this
  exact String.toList_injective this

theorem pairwise_listSnapshots (d : Disk) : d.listSnapshots.Pairwise fun s t => metaName s.1 ≤ metaName t.1 := by
  let r := fun p q : String × Option Meta => metaName p.1 ≤ metaName q.1
  have htotal : Std.Total r := ⟨fun p q => String.le_total (metaName p.1) (metaName q.1)⟩
  have htrans : IsTrans _ r := ⟨fun _ _ _ h h' => String.le_trans h h'⟩
  have hsorted : (d.metas.items.insertionSort r).Pairwise r := List.pairwise_insertionSort r _
  refine List.pairwise_filterMap.2 (hsorted.imp fun {p q} hle s hs t ht => ?_)
  obtain ⟨_, -, rfl⟩ := Option.map_eq_some_iff.1 hs
  obtain ⟨_, -, rfl⟩ := Option.map_eq_some_iff.1 ht
  exact hle

theorem perm_listSnapshots (d : Disk) :
    d.listSnapshots.Perm (d.metas.items.filterMap fun p => p.2.map fun m => (p.1, m)) :=
  (List.perm_insertionSort _ _).filterMap _

/-- A sorted list, cut at a name. -/
theorem filter_append_filter {α : Type} {f : α → String} {x : String} : ∀ {l : List α},
    l.Pairwise (fun a b => f a ≤ f b) → l.filter (fun a => f a ≤ x) ++ l.filter (fun a => ¬ f a ≤ x) = l
  | [], _ => rfl
  | a :: l, h => by
    obtain ⟨ha, hl⟩ := List.pairwise_cons.1 h
    have ih := filter_append_filter (x := x) hl
    by_cases hx : f a ≤ x
    · rw [List.filter_cons_of_pos (by simpa only [decide_eq_true_eq] using hx),
        List.filter_cons_of_neg (by simpa only [decide_eq_true_eq, not_not] using hx), List.cons_append, ih]
    · have hbefore : l.filter (fun b => f b ≤ x) = [] :=
        List.filter_eq_nil_iff.2 fun b hb => by
          simpa only [decide_eq_true_eq] using fun hle => hx (String.le_trans (ha b hb) hle)
      rw [hbefore, List.nil_append] at ih
      rw [List.filter_cons_of_neg (by simpa only [decide_eq_true_eq] using hx), hbefore, List.nil_append,
        List.filter_cons_of_pos (by simpa only [decide_eq_true_eq] using hx), ih]

theorem listSnapshots_eq (d : Disk) (x : String) : d.snapshotsBefore x ++ d.snapshotsAfter x = d.listSnapshots :=
  filter_append_filter d.pairwise_listSnapshots

theorem stored_eq (d : Disk) : d.stored = d.messagesOf d.listSnapshots ++ d.readActiveMessages := by
  simp only [stored, iterReadableMessages, List.map_append, messagesOf, readActiveMessages]
  congr 1
  simp [List.map_flatMap, Function.comp_def]

/-- A new meta file is listed where its name sorts. -/
theorem listSnapshots_set {d : Disk} {x : String} (hx : d.metas.get? x = none) (mt : Meta) :
    { d with metas := d.metas.set x (some mt) }.listSnapshots =
      d.snapshotsBefore x ++ (x, mt) :: d.snapshotsAfter x := by
  have hbefore : ∀ s ∈ d.snapshotsBefore x, metaName s.1 ≤ metaName x :=
    fun s hs => of_decide_eq_true (List.mem_filter.1 hs).2
  have hafter : ∀ s ∈ d.snapshotsAfter x, metaName x ≤ metaName s.1 := by
    intro s hs
    have hnot : ¬ metaName s.1 ≤ metaName x := of_decide_eq_true (List.mem_filter.1 hs).2
    exact (String.le_total (metaName s.1) (metaName x)).resolve_left hnot
  have hperm : { d with metas := d.metas.set x (some mt) }.listSnapshots.Perm
      (d.snapshotsBefore x ++ (x, mt) :: d.snapshotsAfter x) := by
    have hitems := Dict.items_set_of_notMem (d.metas.get?_eq_none_iff.1 hx) (some mt)
    have hsort := perm_listSnapshots { d with metas := d.metas.set x (some mt) }
    rw [hitems, List.filterMap_append] at hsort
    refine (hsort.trans (d.perm_listSnapshots.symm.append_right _)).trans ?_
    rw [← d.listSnapshots_eq x, List.append_assoc]
    exact (List.perm_append_singleton _ _).append_left _
  refine hperm.eq_of_pairwise (fun s t hs ht hst hts => ?_) (pairwise_listSnapshots _) ?_
  · -- a name is listed once
    have hkey : s.1 = t.1 := metaName_injective (String.le_antisymm hst hts)
    have hs' := mem_listSnapshots.1 hs
    rw [hkey, mem_listSnapshots.1 (hperm.mem_iff.2 ht)] at hs'
    exact Prod.ext hkey (Option.some.inj (Option.some.inj hs')).symm
  · refine List.pairwise_append.2 ⟨d.pairwise_listSnapshots.filter _, List.pairwise_cons.2 ⟨hafter,
      d.pairwise_listSnapshots.filter _⟩, fun s hs t ht => ?_⟩
    rcases List.mem_cons.1 ht with rfl | ht
    · exact hbefore s hs
    · exact String.le_trans (hbefore s hs) (hafter t ht)

/-- **A snapshot of the log goes in front of those whose names sort behind
its own.** -/
theorem stored_compacted {d : Disk} {x : String} (hx : d.metas.get? x = none) (ms : List Message) :
    ((storage.run d (LocalMessageStore.snapshotSteps x ms)).apply (.writeLog [])).stored =
      d.messagesOf (d.snapshotsBefore x) ++ (ms ++ d.messagesOf (d.snapshotsAfter x)) := by
  have hlist : ((storage.run d (LocalMessageStore.snapshotSteps x ms)).apply (.writeLog [])).listSnapshots =
      d.snapshotsBefore x ++ (x, ⟨ms.length, .gzip (ms.map .message)⟩) :: d.snapshotsAfter x := listSnapshots_set hx _
  have hread (y : String) : ((storage.run d (LocalMessageStore.snapshotSteps x ms)).apply (.writeLog
      [])).readSnapshotMessages y = if y = x then ms else d.readSnapshotMessages y :=
    LocalMessageStore.readSnapshotMessages_snapshotSteps d x ms y
  have hold {l : List (String × Meta)} (hl : l ⊆ d.listSnapshots) :
      (l.flatMap fun s => if s.1 = x then ms else d.readSnapshotMessages s.1) = d.messagesOf l := by
    refine List.flatMap_congr fun s hs => if_neg fun he => ?_
    have hmeta := mem_listSnapshots.1 (hl hs)
    rw [he, hx] at hmeta
    cases hmeta
  rw [stored_eq, messagesOf, hlist]
  simp only [hread, List.flatMap_append, List.flatMap_cons, if_true]
  have hnil : ((storage.run d (LocalMessageStore.snapshotSteps x ms)).apply (.writeLog [])).readActiveMessages = [] :=
    rfl
  have hbefore : d.snapshotsBefore x ⊆ d.listSnapshots := List.filter_subset_self _
  have hafter : d.snapshotsAfter x ⊆ d.listSnapshots := List.filter_subset_self _
  rw [hold hbefore, hold hafter, hnil, List.append_nil]

end Disk

end PeerChat.History
