/-
Finite maps that iterate in insertion order, as a scripting language's
dictionaries do: assigning a present key keeps its place, assigning a new
one puts it last. A key occurs once, by construction.
-/
import Mathlib.Data.List.Nodup
import Mathlib.Data.List.Basic
import Mathlib.Data.Set.Function

namespace Lib

/-- A finite map with its items in insertion order. -/
structure Dict (κ α : Type*) where
  items : List (κ × α)
  nodup : (items.map Prod.fst).Nodup
  deriving DecidableEq, Repr

namespace Dict

variable {κ α β : Type*}

/-- The map without items. -/
def empty : Dict κ α := ⟨[], List.nodup_nil⟩

instance : Inhabited (Dict κ α) := ⟨empty⟩

/-- The keys, in insertion order. -/
def keys (d : Dict κ α) : List κ := d.items.map Prod.fst

/-- The values, in the order of their keys. -/
def values (d : Dict κ α) : List α := d.items.map Prod.snd

variable [DecidableEq κ]

/-- The value at a key. -/
def get? (d : Dict κ α) (k : κ) : Option α := d.items.lookup k

/-- The value at a key, or a default. -/
def getD (d : Dict κ α) (k : κ) (a : α) : α := (d.get? k).getD a

/-- Assignment on the items: in place when the key is there, last otherwise. -/
def setItems (k : κ) (a : α) : List (κ × α) → List (κ × α)
  | [] => [(k, a)]
  | (k', b) :: l => if k' = k then (k', a) :: l else (k', b) :: setItems k a l

theorem keys_setItems (k : κ) (a : α) : ∀ l : List (κ × α), (setItems k a l).map Prod.fst =
    if k ∈ l.map Prod.fst then l.map Prod.fst else l.map Prod.fst ++ [k]
  | [] => by simp [setItems]
  | (k', b) :: l => by
    simp only [setItems]
    by_cases hk : k' = k
    · subst hk; simp
    · have ih := keys_setItems k a l
      simp only [hk, if_false, List.map_cons, ih, List.mem_cons, Ne.symm hk, false_or]
      split <;> simp

/-- Assignment. -/
def set (d : Dict κ α) (k : κ) (a : α) : Dict κ α where
  items := setItems k a d.items
  nodup := by
    rw [keys_setItems]
    split
    · exact d.nodup
    · next h =>
      refine List.nodup_append.2 ⟨d.nodup, List.nodup_singleton k, fun x hx y hy => ?_⟩
      rw [List.mem_singleton.1 hy]
      exact fun he => h (he ▸ hx)

/-- Removal; removing an absent key changes nothing. -/
def erase (d : Dict κ α) (k : κ) : Dict κ α where
  items := d.items.filter (·.1 ≠ k)
  nodup := d.nodup.sublist (List.filter_sublist.map _)

/-- Assign the items of `o` one after the other, each combined with what
the map holds at its key by then. -/
def updateWith (f : Option α → β → α) (d : Dict κ α) (o : Dict κ β) : Dict κ α :=
  o.items.foldl (fun d p => d.set p.1 (f (d.get? p.1) p.2)) d

/-! ## Reading -/

@[simp] theorem get?_empty (k : κ) : (empty : Dict κ α).get? k = none := rfl

@[simp] theorem getD_empty (k : κ) (a : α) : (empty : Dict κ α).getD k a = a := rfl

theorem lookup_eq_some_of_mem {k : κ} {a : α} : ∀ {l : List (κ × α)}, (l.map Prod.fst).Nodup →
    (k, a) ∈ l → l.lookup k = some a
  | (k', b) :: l, hn, h => by
    simp only [List.map_cons, List.nodup_cons, List.mem_map, not_exists, not_and] at hn
    rcases List.mem_cons.1 h with h | h
    · cases h; simp
    · have hne : k ≠ k' := fun he => hn.1 (k, a) h he
      have hb : (k == k') = false := by simpa using hne
      rw [List.lookup_cons, hb]
      exact lookup_eq_some_of_mem hn.2 h

theorem mem_of_lookup_eq_some {k : κ} {a : α} : ∀ {l : List (κ × α)}, l.lookup k = some a → (k, a) ∈ l
  | (k', b) :: l, h => by
    rw [List.lookup_cons] at h
    by_cases hk : k = k'
    · subst hk
      simp only [beq_self_eq_true, Option.some.injEq] at h
      simp [h]
    · have hb : (k == k') = false := by simpa using hk
      rw [hb] at h
      exact List.mem_cons_of_mem _ (mem_of_lookup_eq_some h)

theorem mem_items_iff (d : Dict κ α) {k : κ} {a : α} : (k, a) ∈ d.items ↔ d.get? k = some a :=
  ⟨lookup_eq_some_of_mem d.nodup, mem_of_lookup_eq_some⟩

theorem mem_keys_iff (d : Dict κ α) {k : κ} : k ∈ d.keys ↔ ∃ a, d.get? k = some a := by
  simp only [keys, List.mem_map, Prod.exists, mem_items_iff]
  constructor
  · rintro ⟨k', a, h, rfl⟩; exact ⟨a, h⟩
  · rintro ⟨a, h⟩; exact ⟨k, a, h, rfl⟩

theorem mem_values_iff (d : Dict κ α) {a : α} : a ∈ d.values ↔ ∃ k, d.get? k = some a := by
  simp only [values, List.mem_map, Prod.exists, mem_items_iff]
  constructor
  · rintro ⟨k, a', h, rfl⟩; exact ⟨k, h⟩
  · rintro ⟨k, h⟩; exact ⟨k, a, h, rfl⟩

theorem get?_eq_none_iff (d : Dict κ α) {k : κ} : d.get? k = none ↔ k ∉ d.keys := by
  rw [mem_keys_iff]
  cases h : d.get? k <;> simp

theorem lookup_setItems (k k' : κ) (a : α) : ∀ l : List (κ × α),
    (setItems k a l).lookup k' = if k' = k then some a else l.lookup k'
  | [] => by
    by_cases h : k' = k
    · subst h; simp [setItems]
    · have hb : (k' == k) = false := by simpa using h
      simp [setItems, List.lookup_cons, hb, h]
  | (k₁, b) :: l => by
    simp only [setItems]
    by_cases hk : k₁ = k
    · subst hk
      simp only [if_true, List.lookup_cons]
      by_cases h : k' = k₁
      · subst h; simp
      · have hb : (k' == k₁) = false := by simpa using h
        simp [hb, h]
    · simp only [hk, if_false, List.lookup_cons]
      by_cases h : k' = k₁
      · subst h; simp [hk]
      · have hb : (k' == k₁) = false := by simpa using h
        simp only [hb, lookup_setItems k k' a l]

theorem get?_set (d : Dict κ α) (k k' : κ) (a : α) :
    (d.set k a).get? k' = if k' = k then some a else d.get? k' :=
  lookup_setItems k k' a d.items

@[simp] theorem get?_set_self (d : Dict κ α) (k : κ) (a : α) : (d.set k a).get? k = some a := by
  simp [get?_set]

theorem get?_set_of_ne (d : Dict κ α) {k k' : κ} (a : α) (h : k' ≠ k) :
    (d.set k a).get? k' = d.get? k' := by
  simp [get?_set, h]

theorem getD_set (d : Dict κ α) (k k' : κ) (a b : α) :
    (d.set k a).getD k' b = if k' = k then a else d.getD k' b := by
  unfold getD
  rw [get?_set]
  split <;> rfl

theorem get?_erase (d : Dict κ α) (k k' : κ) :
    (d.erase k).get? k' = if k' = k then none else d.get? k' := by
  have key : ∀ l : List (κ × α), (l.filter (·.1 ≠ k)).lookup k' = if k' = k then none else l.lookup k' := by
    intro l
    induction l with
    | nil => simp
    | cons p l ih =>
      obtain ⟨k₁, b⟩ := p
      by_cases hk : k₁ = k
      · subst hk
        rw [List.filter_cons_of_neg (by simp), ih, List.lookup_cons]
        by_cases h : k' = k₁
        · simp [h]
        · have hb : (k' == k₁) = false := by simpa using h
          simp [hb]
      · rw [List.filter_cons_of_pos (by simpa using hk), List.lookup_cons, List.lookup_cons, ih]
        by_cases h : k' = k₁
        · subst h; simp [hk]
        · have hb : (k' == k₁) = false := by simpa using h
          simp [hb]
  exact key d.items

@[simp] theorem get?_erase_self (d : Dict κ α) (k : κ) : (d.erase k).get? k = none := by
  simp [get?_erase]

theorem get?_foldl_erase {τ : Type*} (g : τ → κ) (k : κ) : ∀ (l : List τ) (d : Dict κ α),
    (l.foldl (fun d x => d.erase (g x)) d).get? k = if k ∈ l.map g then none else d.get? k
  | [], _ => by simp
  | x :: l, d => by
    rw [List.foldl_cons, get?_foldl_erase g k l, get?_erase]
    by_cases hx : k = g x
    · simp [hx]
    · simp [hx]

/-- Erasing every key leaves nothing. -/
theorem get?_foldl_erase_keys (d : Dict κ α) (k : κ) : (d.keys.foldl erase d).get? k = none := by
  have hget : (d.keys.foldl erase d).get? k = if k ∈ d.keys.map id then none else d.get? k :=
    get?_foldl_erase id k d.keys d
  rw [List.map_id] at hget
  rw [hget]
  split
  · rfl
  · next hk => exact d.get?_eq_none_iff.2 hk

/-- Removals leave nothing new. -/
theorem get?_of_foldl_erase {τ : Type*} {g : τ → κ} {k : κ} {a : α} {l : List τ} {d : Dict κ α}
    (h : (l.foldl (fun d x => d.erase (g x)) d).get? k = some a) : d.get? k = some a := by
  rw [get?_foldl_erase] at h
  split at h
  · cases h
  · exact h

/-! ## Keys of an update -/

theorem keys_set (d : Dict κ α) (k : κ) (a : α) :
    (d.set k a).keys = if k ∈ d.keys then d.keys else d.keys ++ [k] :=
  keys_setItems k a d.items

/-- A new key comes last. -/
theorem items_set_of_notMem {d : Dict κ α} {k : κ} (h : k ∉ d.keys) (a : α) :
    (d.set k a).items = d.items ++ [(k, a)] := by
  have hset : ∀ l : List (κ × α), k ∉ l.map Prod.fst → setItems k a l = l ++ [(k, a)] := by
    intro l hl
    induction l with
    | nil => rfl
    | cons p l ih =>
      simp only [List.map_cons, List.mem_cons, not_or] at hl
      simp only [setItems, if_neg (Ne.symm hl.1), ih hl.2, List.cons_append]
  exact hset d.items h

theorem get?_foldl_set (f : Option α → β → α) (k : κ) : ∀ {l : List (κ × β)} (d : Dict κ α),
    (l.map Prod.fst).Nodup →
    (l.foldl (fun d p => d.set p.1 (f (d.get? p.1) p.2)) d).get? k =
      match l.lookup k with
      | none => d.get? k
      | some b => some (f (d.get? k) b)
  | [], _, _ => rfl
  | (k', b) :: l, d, hl => by
    simp only [List.map_cons, List.nodup_cons] at hl
    rw [List.foldl_cons, get?_foldl_set f k _ hl.2, List.lookup_cons]
    by_cases hk : k = k'
    · -- the key is done here and does not come again
      subst hk
      have hnone : l.lookup k = none := by
        cases hlk : l.lookup k with
        | none => rfl
        | some b' =>
          exact absurd (List.mem_map_of_mem (f := Prod.fst) (mem_of_lookup_eq_some hlk)) hl.1
      rw [hnone]
      simp
    · have hb : (k == k') = false := by simpa using hk
      rw [hb, d.get?_set_of_ne _ hk]

/-- What `updateWith` leaves at a key: each key of `o` is combined once. -/
theorem get?_updateWith (f : Option α → β → α) (d : Dict κ α) (o : Dict κ β) (k : κ) :
    (d.updateWith f o).get? k =
      match o.get? k with
      | none => d.get? k
      | some b => some (f (d.get? k) b) :=
  get?_foldl_set f k d o.nodup

/-! ## Values under a map -/

/-- The map with every value under `f`. -/
def mapValues (f : α → β) (d : Dict κ α) : Dict κ β where
  items := d.items.map fun p => (p.1, f p.2)
  nodup := by simpa [Function.comp_def] using d.nodup

theorem get?_mapValues (f : α → β) (d : Dict κ α) (k : κ) : (d.mapValues f).get? k = (d.get? k).map f := by
  have key : ∀ l : List (κ × α), (l.map fun p => (p.1, f p.2)).lookup k = (l.lookup k).map f := by
    intro l
    induction l with
    | nil => rfl
    | cons p l ih =>
      obtain ⟨k', a⟩ := p
      simp only [List.map_cons, List.lookup_cons, ih]
      cases k == k' <;> rfl
  exact key d.items

theorem mapValues_set (f : α → β) (d : Dict κ α) (k : κ) (a : α) :
    (d.set k a).mapValues f = (d.mapValues f).set k (f a) := by
  have key : ∀ l : List (κ × α), (setItems k a l).map (fun p => (p.1, f p.2)) =
      setItems k (f a) (l.map fun p => (p.1, f p.2)) := by
    intro l
    induction l with
    | nil => rfl
    | cons p l ih =>
      simp only [setItems, List.map_cons]
      split
      · rfl
      · rw [List.map_cons, ih]
  simp only [mapValues, set, key]

/-! ## Keys under a map -/

/-- Assigning items under `g` of their keys leaves nothing but them. -/
theorem get?_of_foldl_set_map {ι : Type*} (g : ι → κ) {k : κ} {a : α} : ∀ {l : List (ι × α)} {d : Dict κ α},
    (l.foldl (fun d p => d.set (g p.1) p.2) d).get? k = some a →
    d.get? k = some a ∨ ∃ i, (i, a) ∈ l ∧ k = g i
  | [], _, h => .inl h
  | (i, b) :: l, d, h => by
    rw [List.foldl_cons] at h
    rcases get?_of_foldl_set_map g h with h | ⟨j, hj, hk⟩
    · rw [get?_set] at h
      split at h
      · next hk =>
        cases h
        exact .inr ⟨i, by simp, hk⟩
      · exact .inl h
    · exact .inr ⟨j, by simp [hj], hk⟩

/-- Under a map that is injective on the keys, each item is found again. -/
theorem get?_foldl_set_map {ι : Type*} [DecidableEq ι] {g : ι → κ} {S : Set ι} (hg : Set.InjOn g S) {i : ι}
    (hi : i ∈ S) : ∀ {l : List (ι × α)} (d : Dict κ α), (l.map Prod.fst).Nodup → (∀ p ∈ l, p.1 ∈ S) →
    (l.foldl (fun d p => d.set (g p.1) p.2) d).get? (g i) =
      match l.lookup i with
      | none => d.get? (g i)
      | some a => some a
  | [], _, _, _ => rfl
  | (j, b) :: l, d, hl, hS => by
    simp only [List.map_cons, List.nodup_cons] at hl
    have hj : j ∈ S := hS (j, b) (by simp)
    rw [List.foldl_cons, get?_foldl_set_map hg hi _ hl.2 (fun p hp => hS p (by simp [hp])), List.lookup_cons]
    by_cases hij : i = j
    · subst hij
      have hnone : l.lookup i = none := by
        cases hlk : l.lookup i with
        | none => rfl
        | some b' => exact absurd (List.mem_map_of_mem (f := Prod.fst) (mem_of_lookup_eq_some hlk)) hl.1
      simp [hnone]
    · have hb : (i == j) = false := by simpa using hij
      rw [hb, d.get?_set_of_ne _ fun he => hij (hg hi hj he)]

/-- The map with every key under `g`. -/
def rekey {ι : Type*} (g : ι → κ) (d : Dict ι α) : Dict κ α := d.items.foldl (fun r p => r.set (g p.1) p.2) empty

theorem items_rekey {ι : Type*} {g : ι → κ} (hg : Function.Injective g) (d : Dict ι α) :
    (d.rekey g).items = d.items.map fun p => (g p.1, p.2) := by
  have key : ∀ (l : List (ι × α)) (r : Dict κ α), (l.map Prod.fst).Nodup → (∀ p ∈ l, g p.1 ∉ r.keys) →
      (l.foldl (fun r p => r.set (g p.1) p.2) r).items = r.items ++ l.map fun p => (g p.1, p.2) := by
    intro l
    induction l with
    | nil => simp
    | cons p l ih =>
      intro r hn hr
      simp only [List.map_cons, List.nodup_cons, List.mem_map, not_exists, not_and] at hn
      have hp := hr p List.mem_cons_self
      rw [List.foldl_cons, ih _ hn.2, items_set_of_notMem hp, List.append_assoc]
      · rfl
      · intro q hq
        rw [keys_set, if_neg hp, List.mem_append, List.mem_singleton, not_or]
        exact ⟨hr q (List.mem_cons_of_mem _ hq), fun he => hn.1 q hq (hg he)⟩
  have hfree : ∀ p ∈ d.items, g p.1 ∉ (empty : Dict κ α).keys := fun _ _ => List.not_mem_nil
  exact key d.items empty d.nodup hfree

theorem get?_rekey {ι : Type*} [DecidableEq ι] {g : ι → κ} (hg : Function.Injective g) (d : Dict ι α) (i : ι) :
    (d.rekey g).get? (g i) = d.get? i := by
  rw [rekey, get?_foldl_set_map hg.injOn (Set.mem_univ i) empty d.nodup fun p _ => Set.mem_univ p.1]
  show _ = d.items.lookup i
  cases d.items.lookup i <;> rfl

/-- What is there is there under its key. -/
theorem get?_rekey_eq_some {ι : Type*} [DecidableEq ι] {g : ι → κ} (hg : Function.Injective g) {d : Dict ι α} {k : κ}
    {a : α} : (d.rekey g).get? k = some a ↔ ∃ i, d.get? i = some a ∧ k = g i := by
  constructor
  · intro h
    rcases get?_of_foldl_set_map g h with h | ⟨i, hi, hk⟩
    · cases h
    · exact ⟨i, d.mem_items_iff.1 hi, hk⟩
  · rintro ⟨i, hi, rfl⟩
    rw [get?_rekey hg, hi]

theorem mem_keys_rekey {ι : Type*} [DecidableEq ι] {g : ι → κ} (hg : Function.Injective g) {d : Dict ι α} {k : κ} :
    k ∈ (d.rekey g).keys ↔ ∃ i ∈ d.keys, k = g i := by
  simp only [mem_keys_iff, get?_rekey_eq_some hg]
  constructor
  · rintro ⟨a, i, hi, hk⟩
    exact ⟨i, ⟨a, hi⟩, hk⟩
  · rintro ⟨i, ⟨a, hi⟩, hk⟩
    exact ⟨a, i, hi, hk⟩

end Dict

end Lib
