/-
The `c` largest elements of a finite set, in a linear order.

`largest_insert_largest`: a store that keeps the `c` largest of what it has and
forgets the rest still has the `c` largest of all that it was ever given.
`mem_take_iff`: they come first in a list that goes down.
-/
import Mathlib.Data.Finset.Max

namespace Lib

variable {α : Type*} [LinearOrder α] {c : ℕ} {s : Finset α} {a k : α}

/-- The elements with fewer than `c` larger ones. -/
def largest (c : ℕ) (s : Finset α) : Finset α := s.filter fun k => (s.filter (k < ·)).card < c

namespace Largest

theorem largest_subset (c : ℕ) (s : Finset α) : largest c s ⊆ s := Finset.filter_subset _ _

theorem mem_largest : k ∈ largest c s ↔ k ∈ s ∧ (s.filter (k < ·)).card < c := Finset.mem_filter

theorem larger_insert (h : ∀ x ∈ s, x < a) (hk : k ∈ s) :
    ((insert a s).filter (k < ·)).card = (s.filter (k < ·)).card + 1 := by
  have ha : a ∉ s.filter (k < ·) := fun hm => lt_irrefl a (h a (Finset.mem_of_mem_filter a hm))
  rw [Finset.filter_insert, if_pos (h k hk), Finset.card_insert_of_notMem ha]

theorem larger_self (h : ∀ x ∈ s, x < a) : (insert a s).filter (a < ·) = ∅ := by
  refine Finset.filter_eq_empty_iff.2 fun x hx => ?_
  rcases Finset.mem_insert.1 hx with rfl | hx
  · exact lt_irrefl x
  · exact (h x hx).le.not_gt

/-- An element above all others takes one of the places. -/
theorem largest_insert (h : ∀ x ∈ s, x < a) (c : ℕ) : largest (c + 1) (insert a s) = insert a (largest c s) := by
  ext k
  rw [mem_largest, Finset.mem_insert, Finset.mem_insert, mem_largest]
  constructor
  · rintro ⟨rfl | hk, hcard⟩
    · exact .inl rfl
    · rw [larger_insert h hk] at hcard
      exact .inr ⟨hk, by omega⟩
  · rintro (rfl | ⟨hk, hcard⟩)
    · rw [larger_self h]
      exact ⟨.inl rfl, by simp⟩
    · rw [larger_insert h hk]
      exact ⟨.inr hk, by omega⟩

theorem largest_zero (s : Finset α) : largest 0 s = ∅ := by simp [largest]

theorem card_largest (c : ℕ) (s : Finset α) : (largest c s).card = min c s.card := by
  induction s using Finset.induction_on_max generalizing c with
  | empty => simp [largest]
  | insert a s h ih =>
    have ha : a ∉ s := fun hm => lt_irrefl a (h a hm)
    cases c with
    | zero => simp [largest_zero]
    | succ c =>
      have hn : a ∉ largest c s := fun hm => ha (largest_subset c s hm)
      rw [largest_insert h, Finset.card_insert_of_notMem hn, Finset.card_insert_of_notMem ha, ih]
      omega

/-- What has been forgotten is not among the largest again. -/
theorem largest_insert_largest (c : ℕ) (s : Finset α) (a : α) :
    largest c (insert a (largest c s)) = largest c (insert a s) := by
  have hsub : insert a (largest c s) ⊆ insert a s := Finset.insert_subset_insert a (largest_subset c s)
  have hkept {k : α} (hk : k ∈ largest c (insert a s)) : k ∈ insert a (largest c s) := by
    obtain ⟨hk, hcard⟩ := mem_largest.1 hk
    have hle := Finset.card_le_card (Finset.filter_subset_filter (k < ·) (Finset.subset_insert a s))
    rcases Finset.mem_insert.1 hk with rfl | hk
    · exact Finset.mem_insert_self k _
    · exact Finset.mem_insert_of_mem (mem_largest.2 ⟨hk, by omega⟩)
  ext k
  constructor
  · intro hk
    obtain ⟨hk, hcard⟩ := mem_largest.1 hk
    refine mem_largest.2 ⟨hsub hk, ?_⟩
    by_contra hmany
    -- the largest of those above `k` are still there, and there are `c` of them
    have htop : largest c ((insert a s).filter (k < ·)) ⊆ (insert a (largest c s)).filter (k < ·) := by
      intro x hx
      obtain ⟨hx, hlarger⟩ := mem_largest.1 hx
      obtain ⟨hx, hkx⟩ := Finset.mem_filter.1 hx
      have hsame : ((insert a s).filter (k < ·)).filter (x < ·) = (insert a s).filter (x < ·) := by
        rw [Finset.filter_filter]
        exact Finset.filter_congr fun y _ => ⟨fun h => h.2, fun h => ⟨hkx.trans h, h⟩⟩
      rw [hsame] at hlarger
      exact Finset.mem_filter.2 ⟨hkept (mem_largest.2 ⟨hx, hlarger⟩), hkx⟩
    have hle := Finset.card_le_card htop
    rw [card_largest] at hle
    omega
  · intro hk
    have hle := Finset.card_le_card (Finset.filter_subset_filter (k < ·) hsub)
    exact mem_largest.2 ⟨hkept hk, hle.trans_lt (mem_largest.1 hk).2⟩

/-- A list that goes down begins with the largest. -/
theorem mem_take_iff {l : List α} (hl : l.Pairwise (· > ·)) (c : ℕ) (k : α) :
    k ∈ l.take c ↔ k ∈ largest c l.toFinset := by
  induction l generalizing c with
  | nil => simp [largest]
  | cons a l ih =>
    obtain ⟨ha, hl⟩ := List.pairwise_cons.1 hl
    cases c with
    | zero => simp [largest_zero]
    | succ c =>
      have hmax : ∀ x ∈ l.toFinset, x < a := fun x hx => ha x (List.mem_toFinset.1 hx)
      rw [List.take_succ_cons, List.mem_cons, List.toFinset_cons, largest_insert hmax, Finset.mem_insert, ih hl]

end Largest

end Lib
