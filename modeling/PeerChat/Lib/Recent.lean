/-
Memories of bounded size, oldest entry first. One that refreshes what it
finds (`touch`) remembers the last keys in the order of their last
occurrences; one that does not (`enter`) remembers the last keys that were
entered.

`mem_remembered_iff`: the first knows a key when fewer than `n` other keys came
after it, however often. `mem_rtake_iff`: the second knows it when fewer than
`n` entries were made after its own.
-/
import Mathlib.Data.List.Dedup
import Mathlib.Data.List.DropRight
import Mathlib.Data.Finset.Card

namespace Lib.Recent

variable {κ : Type*} {n : ℕ} {l : List κ} {k : κ}

/-- Drop the oldest entry of a memory that is too long. -/
def trim (n : ℕ) (l : List κ) : List κ := if l.length > n then l.tail else l

theorem length_rtake (n : ℕ) (l : List κ) : (l.rtake n).length = min n l.length := by
  simp only [List.rtake, List.length_drop]
  omega

theorem rtake_of_length_le (h : l.length ≤ n) : l.rtake n = l := by
  rw [List.rtake, Nat.sub_eq_zero_of_le h, List.drop_zero]

/-- What is in front of the last entries does not count. -/
theorem rtake_append_of_le {l₁ l₂ : List κ} (h : n ≤ l₂.length) : (l₁ ++ l₂).rtake n = l₂.rtake n := by
  have hlen : (l₁ ++ l₂).length - n = l₁.length + (l₂.length - n) := by
    rw [List.length_append]
    omega
  rw [List.rtake, hlen, List.drop_append, List.rtake]
  simp

theorem trim_snoc (n : ℕ) (l : List κ) (k : κ) : trim n (l.rtake n ++ [k]) = (l ++ [k]).rtake n := by
  unfold trim
  rw [List.length_append, List.length_singleton, length_rtake]
  split
  · next h =>
    have hle : n ≤ l.length := by omega
    cases n with
    | zero => simp
    | succ n =>
      have hdrop : l.length - (n + 1) + 1 = l.length - n := by omega
      have hne : l.rtake (n + 1) ≠ [] := List.ne_nil_of_length_pos (by rw [length_rtake]; omega)
      rw [List.rtake_concat_succ, List.tail_append_of_ne_nil hne, List.rtake, List.tail_drop, hdrop, List.rtake]
  · next h =>
    rw [rtake_of_length_le (by omega), rtake_of_length_le]
    rw [List.length_append, List.length_singleton]
    omega

/-- An entry is among the last `n` when fewer than `n` follow its last
occurrence. -/
theorem mem_rtake_iff : k ∈ l.rtake n ↔ ∃ l₁ l₂, l = l₁ ++ k :: l₂ ∧ k ∉ l₂ ∧ l₂.length < n := by
  constructor
  · intro h
    induction l using List.reverseRecOn generalizing n with
    | nil => simp at h
    | append_singleton l x ih =>
      cases n with
      | zero => simp at h
      | succ n =>
        by_cases hx : k = x
        · exact ⟨l, [], by rw [hx], by simp, by simp⟩
        · rw [List.rtake_concat_succ, List.mem_append, List.mem_singleton, or_iff_left hx] at h
          obtain ⟨l₁, l₂, rfl, hnot, hlen⟩ := ih h
          refine ⟨l₁, l₂ ++ [x], by simp, by simp [hnot, hx], ?_⟩
          rw [List.length_append, List.length_singleton]
          omega
  · rintro ⟨l₁, l₂, rfl, -, hlen⟩
    have hdrop : (l₁ ++ k :: l₂).length - n ≤ l₁.length := by
      rw [List.length_append, List.length_cons]
      omega
    rw [List.rtake, List.drop_append_of_le_length hdrop]
    exact List.mem_append_right _ List.mem_cons_self

variable [DecidableEq κ]

/-- A memory that refreshes what it finds. -/
def touch (n : ℕ) (l : List κ) (k : κ) : List κ := if k ∈ l then l.erase k ++ [k] else trim n (l ++ [k])

/-- A memory that leaves what it finds. -/
def enter (n : ℕ) (l : List κ) (k : κ) : List κ := if k ∈ l then l else trim n (l ++ [k])

/-- What `touch` makes of a sequence of keys. -/
def remembered (n : ℕ) (ks : List κ) : List κ := ks.foldl (touch n) []

theorem touch_rtake (hl : l.Nodup) : touch n (l.rtake n) k = (l.erase k ++ [k]).rtake n := by
  by_cases hk : k ∈ l
  · have hsplit : l = l.take (l.length - n) ++ l.rtake n := (List.take_append_drop _ _).symm
    by_cases hlast : k ∈ l.rtake n
    · -- the entry moves within the last ones
      have hfront : k ∉ l.take (l.length - n) := by
        rw [hsplit] at hl
        exact fun h => (List.disjoint_of_nodup_append hl) h hlast
      have herase : l.erase k ++ [k] = l.take (l.length - n) ++ ((l.rtake n).erase k ++ [k]) := by
        conv_lhs => rw [hsplit, List.erase_append_right _ hfront, List.append_assoc]
      have hpos : 0 < (l.rtake n).length := List.length_pos_of_mem hlast
      have hlen : ((l.rtake n).erase k ++ [k]).length = min n l.length := by
        rw [List.length_append, List.length_erase_of_mem hlast, List.length_singleton, ← length_rtake]
        omega
      rw [touch, if_pos hlast, herase]
      generalize (l.rtake n).erase k ++ [k] = moved at hlen ⊢
      by_cases hn : n ≤ l.length
      · rw [rtake_append_of_le (by omega), rtake_of_length_le (by omega)]
      · rw [Nat.sub_eq_zero_of_le (by omega), List.take_zero, List.nil_append, rtake_of_length_le (by omega)]
    · have hfront : k ∈ l.take (l.length - n) := by
        rw [hsplit] at hk
        exact (List.mem_append.1 hk).resolve_right hlast
      have hlen : (l.rtake n).length = n := by
        have hpos := List.length_pos_of_mem hfront
        rw [List.length_take] at hpos
        rw [length_rtake]
        omega
      have herase : l.erase k = (l.take (l.length - n)).erase k ++ l.rtake n := by
        conv_lhs => rw [hsplit, List.erase_append_left _ hfront]
      have hkeep : (l ++ [k]).rtake n = (l.erase k ++ [k]).rtake n := by
        have hle : n ≤ (l.rtake n ++ [k]).length := by
          rw [List.length_append]
          omega
        rw [herase]
        conv_lhs => rw [hsplit]
        rw [List.append_assoc, List.append_assoc, rtake_append_of_le hle, rtake_append_of_le hle]
      rw [touch, if_neg hlast, trim_snoc, hkeep]
  · have hlast : k ∉ l.rtake n := fun h => hk (List.mem_of_mem_drop h)
    rw [touch, if_neg hlast, trim_snoc, List.erase_of_not_mem hk]

theorem dedup_snoc (ks : List κ) (k : κ) : (ks ++ [k]).dedup = ks.dedup.erase k ++ [k] := by
  induction ks with
  | nil => simp
  | cons x ks ih =>
    rw [List.cons_append]
    by_cases hx : x ∈ ks
    · rw [List.dedup_cons_of_mem (List.mem_append_left _ hx), List.dedup_cons_of_mem hx, ih]
    · rw [List.dedup_cons_of_notMem hx]
      by_cases hk : x = k
      · subst hk
        rw [List.dedup_cons_of_mem (by simp), ih, List.erase_cons_head, List.erase_of_not_mem (by simpa using hx)]
      · rw [List.dedup_cons_of_notMem (by simp [hx, hk]), ih, List.erase_cons_tail (by simpa using hk),
          List.cons_append]

theorem enter_rtake (hk : k ∉ l.rtake n) : enter n (l.rtake n) k = (l ++ [k]).rtake n := by
  rw [enter, if_neg hk, trim_snoc]

/-- It holds the last of the keys, in the order of their last occurrences. -/
theorem remembered_eq (n : ℕ) (ks : List κ) : remembered n ks = ks.dedup.rtake n := by
  induction ks using List.reverseRecOn with
  | nil => simp [remembered]
  | append_singleton ks k ih =>
    rw [remembered, List.foldl_append, List.foldl_cons, List.foldl_nil]
    rw [remembered] at ih
    rw [ih, touch_rtake ks.nodup_dedup, dedup_snoc]

theorem length_remembered_le (n : ℕ) (ks : List κ) : (remembered n ks).length ≤ n := by
  rw [remembered_eq, length_rtake]
  omega

/-- **A key is remembered** when it came, and fewer than `n` other keys came
after it. -/
theorem mem_remembered_iff {ks : List κ} :
    k ∈ remembered n ks ↔ ∃ before after, ks = before ++ k :: after ∧ k ∉ after ∧ after.toFinset.card < n := by
  have hsplit (before : List κ) {after : List κ} (hk : k ∉ after) :
      ∃ front, (before ++ k :: after).dedup = front ++ k :: after.dedup := by
    obtain ⟨front, -, hfront⟩ := List.sublist_suffix_of_union before (k :: after).dedup
    rw [List.dedup_append, ← hfront, List.dedup_cons_of_notMem hk]
    exact ⟨front, rfl⟩
  rw [remembered_eq]
  constructor
  · intro h
    obtain ⟨before, after, hks, hk, -⟩ := mem_rtake_iff.1
      ((rtake_of_length_le le_rfl).symm ▸ List.mem_dedup.1 (List.mem_of_mem_drop h) : k ∈ ks.rtake ks.length)
    refine ⟨before, after, hks, hk, ?_⟩
    obtain ⟨front, hfront⟩ := hsplit before hk
    obtain ⟨l₁, l₂, hl, hk₂, hlen⟩ := mem_rtake_iff.1 h
    rw [hks, hfront] at hl
    -- both splits are at the last occurrence
    have hnodup : (front ++ k :: after.dedup).Nodup := hfront ▸ List.nodup_dedup _
    have hsame : after.dedup = l₂ := by
      have hd : k ∉ after.dedup := by simpa using hk
      have hfront' : k ∉ front := fun hm => (List.disjoint_of_nodup_append hnodup) hm List.mem_cons_self
      exact ((List.append_cons_inj_of_notMem hfront' hd).1 hl).2.2
    rw [List.card_toFinset, hsame]
    exact hlen
  · rintro ⟨before, after, rfl, hk, hcard⟩
    obtain ⟨front, hfront⟩ := hsplit before hk
    rw [List.card_toFinset] at hcard
    exact mem_rtake_iff.2 ⟨front, after.dedup, hfront, by simpa using hk, hcard⟩

end Lib.Recent
