/-
The indexes of a store. `Describes`: the ids, the sequence numbers of each
sender and the largest ones are those of a list of messages. Entering a
message keeps it, and so does replacing the indexes by equal ones.
`hasSenderSequenceGaps_iff`: the gap check, read off the messages.
-/
import PeerChat.History.Stored

namespace PeerChat.History

open Lib

namespace Indexes

/-- The indexes of these messages. -/
structure Describes (ix : Indexes) (ms : List Message) : Prop where
  ids : ∀ i, i ∈ ix.messageIds ↔ ∃ m ∈ ms, m.id = i
  seqs : ∀ u k, k ∈ (ix.senderSeq.getD u Dict.empty).keys ↔ ∃ m ∈ ms, m.sender = u ∧ m.senderSeq = k
  le_latest : ∀ m ∈ ms, m.senderSeq ≤ ix.latestVc.count m.sender
  latest : ∀ u, 0 < ix.latestVc.count u → ∃ m ∈ ms, m.sender = u ∧ m.senderSeq = ix.latestVc.count u
  latest_nonneg : ∀ u, 0 ≤ ix.latestVc.count u

theorem Describes.empty : Describes .empty [] where
  ids i := by simp [Indexes.empty]
  seqs u k := by
    show k ∈ ([] : List Int) ↔ _
    simp
  le_latest m hm := by cases hm
  latest u hu := by simp [Indexes.empty, VectorClock.count] at hu
  latest_nonneg u := by simp [Indexes.empty, VectorClock.count]

theorem Describes.congr {ix : Indexes} {ms ms' : List Message} (h : ix.Describes ms) (hm : ∀ m, m ∈ ms ↔ m ∈ ms') :
    ix.Describes ms' where
  ids i := by simpa only [hm] using h.ids i
  seqs u k := by simpa only [hm] using h.seqs u k
  le_latest m hmem := h.le_latest m ((hm m).2 hmem)
  latest u hu := by simpa only [hm] using h.latest u hu
  latest_nonneg := h.latest_nonneg

/-- The largest numbers when a message is entered. -/
theorem count_latestVc_add (ix : Indexes) (m : Message) (offset : Int) (u : String) :
    (ix.add m offset).latestVc.count u =
      if u = m.sender then max (ix.latestVc.count u) m.senderSeq else ix.latestVc.count u := by
  simp only [Indexes.add]
  by_cases hu : u = m.sender
  · subst hu
    rw [if_pos rfl]
    split
    · next hgt =>
      rw [VectorClock.count, Dict.getD_set, if_pos rfl]
      exact (max_eq_right (le_of_lt hgt)).symm
    · next hle => exact (max_eq_left (not_lt.1 hle)).symm
  · rw [if_neg hu]
    split
    · rw [VectorClock.count, Dict.getD_set, if_neg hu, VectorClock.count]
    · rfl

/-- Entering a message. -/
theorem Describes.add {ix : Indexes} {ms : List Message} (h : ix.Describes ms) (m : Message) (offset : Int) :
    (ix.add m offset).Describes (ms ++ [m]) where
  ids i := by
    simp only [Indexes.add, Finset.mem_insert, h.ids, List.mem_append, List.mem_singleton]
    constructor
    · intro hor
      rcases hor with rfl | ⟨m', hm', rfl⟩
      · exact ⟨m, .inr rfl, rfl⟩
      · exact ⟨m', .inl hm', rfl⟩
    · intro hex
      obtain ⟨m', hm' | rfl, rfl⟩ := hex
      · exact .inr ⟨m', hm', rfl⟩
      · exact .inl rfl
  seqs u k := by
    have hexists : (∃ m' ∈ ms ++ [m], m'.sender = u ∧ m'.senderSeq = k) ↔
        (∃ m' ∈ ms, m'.sender = u ∧ m'.senderSeq = k) ∨ m.sender = u ∧ m.senderSeq = k := by
      simp only [List.mem_append, List.mem_singleton, or_and_right, exists_or, exists_eq_left]
    rw [hexists, ← h.seqs]
    simp only [Indexes.add, Dict.getD, Dict.get?_set]
    by_cases hu : u = m.sender
    · subst hu
      simp only [if_true, Option.getD_some, Dict.keys_set, true_and]
      split
      · next hk =>
        refine ⟨.inl, ?_⟩
        intro hor
        rcases hor with hk' | rfl
        · exact hk'
        · exact hk
      · simp only [List.mem_append, List.mem_singleton]
        exact or_congr Iff.rfl eq_comm
    · simp only [hu, if_false, Ne.symm hu, false_and, or_false]
  le_latest m' hm' := by
    rw [count_latestVc_add]
    rcases List.mem_append.1 hm' with hm' | hm'
    · have hle := h.le_latest m' hm'
      split <;> omega
    · cases List.mem_singleton.1 hm'
      rw [if_pos rfl]
      omega
  latest u hu := by
    rw [count_latestVc_add] at hu ⊢
    have hold (hpos : 0 < ix.latestVc.count u) :
        ∃ m' ∈ ms ++ [m], m'.sender = u ∧ m'.senderSeq = ix.latestVc.count u := by
      obtain ⟨m', hm', hs, hk⟩ := h.latest u hpos
      exact ⟨m', List.mem_append_left _ hm', hs, hk⟩
    by_cases he : u = m.sender
    · rw [if_pos he] at hu ⊢
      rcases le_total m.senderSeq (ix.latestVc.count u) with hle | hle
      · rw [max_eq_left hle] at hu ⊢
        exact hold hu
      · exact ⟨m, by simp, he.symm, (max_eq_right hle).symm⟩
    · rw [if_neg he] at hu ⊢
      exact hold hu
  latest_nonneg u := by
    have := h.latest_nonneg u
    rw [count_latestVc_add]
    split <;> omega

theorem Describes.foldl_add (offset : Int) : ∀ (ms : List Message) {ix : Indexes} {ms₀ : List Message},
    ix.Describes ms₀ → (ms.foldl (fun ix m => ix.add m offset) ix).Describes (ms₀ ++ ms)
  | [], _, _, h => by simpa using h
  | m :: ms, _, ms₀, h => by
    have hadd := Describes.foldl_add offset ms (h.add m offset)
    rw [List.append_assoc] at hadd
    exact hadd

/-- The loop of the repair enters the first message of each id. -/
theorem Describes.collect : ∀ (found : List (Message × Int)) {ix : Indexes} {ms : List Message} (twice : Bool),
    ix.Describes ms → (collect found (ix, twice)).1.Describes (ms ++ Disk.dropSeen ix.messageIds (found.map Prod.fst))
  | [], _, _, _, h => by simpa [Indexes.collect, Disk.dropSeen] using h
  | (m, offset) :: found, ix, ms, twice, h => by
    rw [Indexes.collect, List.map_cons, Disk.dropSeen]
    split
    · exact Describes.collect found true h
    · have hadd := Describes.collect found twice (h.add m offset)
      rw [List.append_assoc] at hadd
      exact hadd

/-! ## Equal indexes -/

section

variable {κ α : Type} [DecidableEq κ] {f : α → α → Bool} {d d' : Dict κ α}

theorem get?_of_sameItems (h : sameItems f d d' = true) {k : κ} {a : α} (ha : d.get? k = some a) :
    ∃ b, d'.get? k = some b ∧ f a b = true := by
  simp only [sameItems, decide_eq_true_eq, List.all_eq_true, Bool.decide_and, Bool.and_eq_true] at h
  exact (Option.any_eq_true _ _).1 (h.2 (k, a) (d.mem_items_iff.2 ha))

theorem keys_of_sameItems (h : sameItems f d d' = true) (k : κ) : k ∈ d.keys ↔ k ∈ d'.keys := by
  have hsub : d.keys ⊆ d'.keys := by
    intro k hk
    obtain ⟨a, ha⟩ := d.mem_keys_iff.1 hk
    obtain ⟨b, hb, -⟩ := get?_of_sameItems h ha
    exact d'.mem_keys_iff.2 ⟨b, hb⟩
  have hlen : d'.keys.length ≤ d.keys.length := by
    simp only [sameItems, Bool.decide_and, Bool.and_eq_true, decide_eq_true_eq] at h
    simp only [Dict.keys, List.length_map, h.1, le_refl]
  exact ((d.nodup.subperm hsub).perm_of_length_le hlen).mem_iff

theorem count_of_sameItems {vc vc' : VectorClock} (h : sameItems (· == ·) vc vc' = true) (u : String) :
    vc.count u = vc'.count u := by
  simp only [VectorClock.count, Dict.getD]
  cases hu : Dict.get? vc u with
  | some a =>
    obtain ⟨b, hb, hab⟩ := get?_of_sameItems h hu
    rw [hb, eq_of_beq hab]
  | none =>
    rw [Dict.get?_eq_none_iff, keys_of_sameItems h, ← Dict.get?_eq_none_iff] at hu
    rw [hu]

end

theorem Describes.same {ix ix' : Indexes} {ms : List Message} (h : ix.Describes ms) (hs : ix.same ix' = true) :
    ix'.Describes ms := by
  simp only [Indexes.same, Bool.decide_and, Bool.and_eq_true, decide_eq_true_eq] at hs
  obtain ⟨hids, hseq, hvc⟩ := hs
  have hkeys (u : String) (k : Int) :
      k ∈ (ix.senderSeq.getD u Dict.empty).keys ↔ k ∈ (ix'.senderSeq.getD u Dict.empty).keys := by
    simp only [Dict.getD]
    cases hu : ix.senderSeq.get? u with
    | some a =>
      obtain ⟨b, hb, hab⟩ := get?_of_sameItems hseq hu
      rw [hb]
      exact keys_of_sameItems hab k
    | none =>
      rw [Dict.get?_eq_none_iff, keys_of_sameItems hseq, ← Dict.get?_eq_none_iff] at hu
      rw [hu]
  have hcount := count_of_sameItems hvc
  exact ⟨fun i => hids ▸ h.ids i, fun u k => (hkeys u k).symm.trans (h.seqs u k),
    fun m hm => hcount m.sender ▸ h.le_latest m hm, fun u hu => by rw [← hcount] at hu ⊢; exact h.latest u hu,
    fun u => hcount u ▸ h.latest_nonneg u⟩

/-! ## Gaps -/

/-- Below each message, all of its sender's are there. -/
def Gapless (ms : List Message) : Prop :=
  ∀ m ∈ ms, ∀ k, 1 ≤ k → k ≤ m.senderSeq → ∃ m' ∈ ms, m'.sender = m.sender ∧ m'.senderSeq = k

theorem mem_interval {a b k : Int} : k ∈ Disk.interval a b ↔ a ≤ k ∧ k ≤ b := by
  simp only [Disk.interval, List.mem_map, List.mem_range]
  constructor
  · intro hex
    obtain ⟨i, hi, rfl⟩ := hex
    omega
  · intro hex
    obtain ⟨ha, hb⟩ := hex
    exact ⟨(k - a).toNat, by omega, by omega⟩

theorem sorted_interval (a b : Int) : (Disk.interval a b).Pairwise (· < ·) := by
  rw [Disk.interval, List.pairwise_map]
  exact List.pairwise_lt_range.imp fun h => by omega

/-- The check for one sender. -/
theorem hasGap_iff {l : List Int} (hn : l.Nodup) : hasGap l = false ↔ ∀ x ∈ l, ∀ k, 1 ≤ k → k ≤ x → k ∈ l := by
  have hmem (k : Int) : k ∈ (l.filter (0 < ·)).insertionSort (· ≤ ·) ↔ k ∈ l ∧ 0 < k := by
    simp [List.mem_insertionSort]
  have hsorted := List.pairwise_insertionSort (· ≤ ·) (l.filter (0 < ·))
  have hnodup := ((List.perm_insertionSort (· ≤ ·) (l.filter (0 < ·))).nodup_iff).2 (hn.filter _)
  simp only [hasGap]
  split
  · next hlast =>
    rw [List.getLast?_eq_none_iff] at hlast
    refine ⟨fun _ x hx k h1 hk => ?_, fun _ => rfl⟩
    have := (hmem x).2 ⟨hx, by omega⟩
    rw [hlast] at this
    cases this
  · next last hlast =>
    have hin := (hmem last).1 (List.mem_of_getLast? hlast)
    have hle : ∀ k ∈ (l.filter (0 < ·)).insertionSort (· ≤ ·), k ≤ last := by
      intro k hk
      obtain ⟨l', hl'⟩ := List.getLast?_eq_some_iff.1 hlast
      rw [hl'] at hk hsorted
      rcases List.mem_append.1 hk with hk | hk
      · exact (List.pairwise_append.1 hsorted).2.2 k hk last (by simp)
      · exact le_of_eq (List.mem_singleton.1 hk)
    rw [decide_eq_false_iff_not, not_not]
    constructor
    · intro he x hx k h1 hk
      have hk : k ∈ Disk.interval 1 last := mem_interval.2 ⟨h1, hk.trans (hle x ((hmem x).2 ⟨hx, by omega⟩))⟩
      rw [← he, hmem] at hk
      exact hk.1
    · intro hall
      -- both sides are sorted and have the same elements
      have hperm : ((l.filter (0 < ·)).insertionSort (· ≤ ·)).Perm (Disk.interval 1 last) := by
        refine (List.perm_ext_iff_of_nodup hnodup ((sorted_interval 1 last).imp ne_of_lt)).2 fun k => ?_
        rw [mem_interval]
        constructor
        · intro hk
          exact ⟨((hmem k).1 hk).2, hle k hk⟩
        · intro hex
          obtain ⟨h1, hk⟩ := hex
          exact (hmem k).2 ⟨hall last hin.1 k h1 hk, by omega⟩
      exact hperm.eq_of_pairwise (fun _ _ _ _ h h' => le_antisymm h h') hsorted ((sorted_interval 1 last).imp le_of_lt)

/-- **The gap check, read off the messages.** -/
theorem hasSenderSequenceGaps_iff {ix : Indexes} {ms : List Message} (h : ix.Describes ms) :
    hasSenderSequenceGaps ix.senderSeq = true ↔ ¬ Gapless ms := by
  have hkeys {u : String} {seqMap : Dict Int Int} (hu : ix.senderSeq.get? u = some seqMap) (k : Int) :
      k ∈ seqMap.keys ↔ ∃ m ∈ ms, m.sender = u ∧ m.senderSeq = k := by
    have := h.seqs u k
    rwa [Dict.getD, hu] at this
  rw [← not_iff_not, not_not, Bool.not_eq_true, hasSenderSequenceGaps, List.any_eq_false]
  constructor
  · intro hall m hm k h1 hk
    have hseq := (h.seqs m.sender m.senderSeq).2 ⟨m, hm, rfl, rfl⟩
    cases hu : ix.senderSeq.get? m.sender with
    | none => simp [Dict.getD, hu, Dict.keys, Dict.empty] at hseq
    | some seqMap =>
      have hin : seqMap ∈ ix.senderSeq.values := ix.senderSeq.mem_values_iff.2 ⟨_, hu⟩
      have hgap := (hasGap_iff seqMap.nodup).1 (Bool.not_eq_true _ ▸ hall seqMap hin)
      exact (hkeys hu k).1 (hgap m.senderSeq ((hkeys hu _).2 ⟨m, hm, rfl, rfl⟩) k h1 hk)
  · intro hg seqMap hmem
    obtain ⟨u, hu⟩ := ix.senderSeq.mem_values_iff.1 hmem
    rw [Bool.not_eq_true]
    refine (hasGap_iff seqMap.nodup).2 fun x hx k h1 hk => ?_
    obtain ⟨m, hm, rfl, rfl⟩ := (hkeys hu x).1 hx
    exact (hkeys hu k).2 (hg m hm k h1 hk)

end Indexes

end PeerChat.History
