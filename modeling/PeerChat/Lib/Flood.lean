/-
Flooding with a hop limit over a finite directed graph: a node passes the
first copy it receives on to its successors, with one hop less, unless no
hop is left. Copies arrive in any order.

`Steps.length_le` bounds the number of copies, and with it every run.
`Inv` follows the path that each copy took, which never visits a node
twice; `Inv.covers`: when no copy is left and the limit allows for a path
through all nodes, everything reachable has been reached.
-/
import Mathlib.Algebra.BigOperators.Group.Finset.Basic
import Mathlib.Algebra.Order.BigOperators.Group.Finset
import Mathlib.Logic.Relation

namespace Lib

open Finset

/-- The nodes that have the message, and the copies under way, each with its
hops left. -/
structure Flood (V : Type*) where
  reached : Finset V
  inFlight : List (V × Int)

namespace Flood

variable {V : Type*}

/-- What is left under way when one copy arrives. -/
theorem mem_of_rest {f : Flood V} {l l' : List (V × Int)} {q p : V × Int} (hf : f.inFlight = l ++ q :: l')
    (hp : p ∈ l ++ l') : p ∈ f.inFlight := by
  rw [hf]
  rcases List.mem_append.1 hp with hp | hp
  · exact List.mem_append_left _ hp
  · exact List.mem_append_right _ (List.mem_cons_of_mem _ hp)

theorem rest_or_eq {f : Flood V} {l l' : List (V × Int)} {q p : V × Int} (hf : f.inFlight = l ++ q :: l')
    (hp : p ∈ f.inFlight) : p ∈ l ++ l' ∨ p = q := by
  rw [hf] at hp
  rcases List.mem_append.1 hp with hp | hp
  · exact .inl (List.mem_append_left _ hp)
  · rcases List.mem_cons.1 hp with hp | hp
    · exact .inr hp
    · exact .inl (List.mem_append_right _ hp)

/-- A path through nodes that have the message. -/
structure Trail (f : Flood V) (l : List V) : Prop where
  nodup : l.Nodup
  reached : ∀ x ∈ l, x ∈ f.reached

theorem Trail.mono {f g : Flood V} {l : List V} (h : Trail f l) (hfg : f.reached ⊆ g.reached) : Trail g l :=
  ⟨h.nodup, fun x hx => hfg (h.reached x hx)⟩

variable [DecidableEq V] (room : Finset V) (out : V → List V)

/-- The message at its origin. -/
def start (o : V) (k : Int) : Flood V := ⟨{o}, (out o).map (·, k)⟩

/-- A copy arrives at `v`, and `rest` is still under way. Only the first
copy is passed on, and one for a stranger is lost. -/
def receive (f : Flood V) (rest : List (V × Int)) (v : V) (t : Int) : Flood V :=
  if v ∈ room ∧ v ∉ f.reached then
    ⟨insert v f.reached, rest ++ if 0 < t then (out v).map (·, t - 1) else []⟩
  else ⟨f.reached, rest⟩

/-- A run, with the number of arrivals. -/
inductive Steps : Nat → Flood V → Flood V → Prop
  | refl (f : Flood V) : Steps 0 f f
  | snoc {n : Nat} {f g : Flood V} {l l' : List (V × Int)} {v : V} {t : Int} (h : Steps n f g)
    (hg : g.inFlight = l ++ (v, t) :: l') : Steps (n + 1) f (g.receive room out (l ++ l') v t)

variable {room out} in
theorem Steps.trans {n n' : Nat} {f g g' : Flood V} (h : Steps room out n f g) (h' : Steps room out n' g g') :
    Steps room out (n + n') f g' := by
  induction h' with
  | refl => exact h
  | snoc _ hg ih => exact .snoc (ih h) hg

/-! ## Every run ends -/

/-- The copies under way and those that may still be made. -/
def potential (f : Flood V) : Nat := f.inFlight.length + ∑ v ∈ room \ f.reached, (out v).length

variable {room out} {f g : Flood V} {o v : V} {t k : Int}

variable (room out) in
theorem potential_receive {l l' : List (V × Int)} (hf : f.inFlight = l ++ (v, t) :: l') :
    potential room out (f.receive room out (l ++ l') v t) + 1 ≤ potential room out f := by
  have hlen : f.inFlight.length = (l ++ l').length + 1 := by
    rw [hf]
    simp only [List.length_append, List.length_cons]
    omega
  simp only [potential, receive, hlen]
  split
  · next hv =>
    -- `v` will not make copies again
    have hsdiff : insert v (room \ insert v f.reached) = room \ f.reached := by
      ext x
      simp only [mem_insert, mem_sdiff, not_or]
      constructor
      · rintro (rfl | ⟨hx, -, hnot⟩)
        · exact hv
        · exact ⟨hx, hnot⟩
      · rintro ⟨hx, hnot⟩
        by_cases hxv : x = v
        · exact .inl hxv
        · exact .inr ⟨hx, hxv, hnot⟩
    have hsum : ∑ x ∈ room \ f.reached, (out x).length =
        (out v).length + ∑ x ∈ room \ insert v f.reached, (out x).length := by
      rw [← hsdiff, sum_insert (by simp)]
    have hnew : (if 0 < t then (out v).map (·, t - 1) else []).length ≤ (out v).length := by
      split <;> simp
    simp only [List.length_append, hsum] at hnew ⊢
    omega
  · simp only
    omega

theorem Steps.potential_le {n : Nat} (h : Steps room out n f g) :
    n + potential room out g ≤ potential room out f := by
  induction h with
  | refl f => omega
  | snoc _ hg ih =>
    have hstep := potential_receive room out hg
    omega

/-- **No more copies than the successors of all nodes together.** -/
theorem Steps.length_le {n : Nat} (ho : o ∈ room) (h : Steps room out n (start out o k) g) :
    n + g.inFlight.length ≤ ∑ v ∈ room, (out v).length := by
  have hpot := h.potential_le
  have hstart : potential room out (start out o k) = ∑ v ∈ room, (out v).length := by
    simp only [potential, start, List.length_map]
    rw [sdiff_singleton_eq_erase, add_comm, sum_erase_add _ _ ho]
  have hle : g.inFlight.length ≤ potential room out g := Nat.le_add_right _ _
  omega

/-! ## Coverage -/

theorem Trail.snoc {l : List V} (h : Trail f l) (hv : v ∉ f.reached) (hg : g.reached = insert v f.reached) :
    Trail g (l ++ [v]) := by
  refine ⟨List.nodup_append.2 ⟨h.nodup, List.nodup_singleton v, fun x hx y hy => ?_⟩, fun x hx => ?_⟩
  · rw [List.mem_singleton.1 hy]
    exact fun he => hv (he ▸ h.reached x hx)
  · rw [hg]
    rcases List.mem_append.1 hx with hx | hx
    · exact mem_insert_of_mem (h.reached x hx)
    · rw [List.mem_singleton.1 hx]
      exact mem_insert_self _ _

variable (room out o k)

/-- What a copy has lost in hops, its path has gained in nodes; and whoever
has the message has passed it on, or stands at the end of a long path. -/
structure Inv (f : Flood V) : Prop where
  origin : o ∈ f.reached
  inside : f.reached ⊆ room
  copies : ∀ p ∈ f.inFlight, ∃ l, Trail f l ∧ p.2 + l.length = k + 1
  duty : ∀ v ∈ f.reached, (∀ b ∈ out v, b ∈ room → b ∈ f.reached ∨ ∃ t, (b, t) ∈ f.inFlight) ∨
    ∃ l, Trail f l ∧ k + 2 ≤ l.length

variable {room out o k}

omit [DecidableEq V] in
theorem Inv.start (ho : o ∈ room) : Inv room out o k (start out o k) where
  origin := mem_singleton_self o
  inside := singleton_subset_iff.2 ho
  copies p hp := by
    obtain ⟨b, -, rfl⟩ := List.mem_map.1 hp
    refine ⟨[o], ⟨List.nodup_singleton o, fun x hx => ?_⟩, rfl⟩
    rw [List.mem_singleton.1 hx]
    exact mem_singleton_self o
  duty v hv := by
    rw [mem_singleton.1 hv]
    exact .inl fun b hb _ => .inr ⟨k, List.mem_map.2 ⟨b, hb, rfl⟩⟩

omit [DecidableEq V] in
/-- A copy that changes nothing but that it has arrived. -/
theorem Inv.arrive (h : Inv room out o k f) {l l' : List (V × Int)} (hf : f.inFlight = l ++ (v, t) :: l')
    (hv : ¬ (v ∈ room ∧ v ∉ f.reached)) : Inv room out o k ⟨f.reached, l ++ l'⟩ where
  origin := h.origin
  inside := h.inside
  copies p hp := by
    obtain ⟨l, hl, ht⟩ := h.copies p (mem_of_rest hf hp)
    exact ⟨l, hl.mono (subset_refl _), ht⟩
  duty x hx := by
    rcases h.duty x hx with hduty | ⟨l, hl, hlen⟩
    · refine .inl fun b hb hroom => ?_
      rcases hduty b hb hroom with hb | ⟨s, hs⟩
      · exact .inl hb
      · rcases rest_or_eq hf hs with hs | heq
        · exact .inr ⟨s, hs⟩
        · cases heq
          exact .inl (not_not.1 fun hnot => hv ⟨hroom, hnot⟩)
    · exact .inr ⟨l, hl.mono (subset_refl _), hlen⟩

/-- The first copy. -/
theorem Inv.first (h : Inv room out o k f) {l l' : List (V × Int)} (hf : f.inFlight = l ++ (v, t) :: l')
    (hv : v ∈ room) (hnot : v ∉ f.reached) :
    Inv room out o k ⟨insert v f.reached, l ++ l' ++ if 0 < t then (out v).map (·, t - 1) else []⟩ := by
  obtain ⟨path, hpath, ht⟩ := h.copies (v, t) (by rw [hf]; simp)
  have hpath' : Trail ⟨insert v f.reached, l ++ l' ++ if 0 < t then (out v).map (·, t - 1) else []⟩ (path ++ [v]) :=
    hpath.snoc hnot rfl
  have hsub : f.reached ⊆ insert v f.reached := subset_insert _ _
  refine ⟨hsub h.origin, insert_subset hv h.inside, fun p hp => ?_, fun x hx => ?_⟩
  · rcases List.mem_append.1 hp with hp | hp
    · obtain ⟨path, hpath, ht⟩ := h.copies p (mem_of_rest hf hp)
      exact ⟨path, hpath.mono hsub, ht⟩
    · split at hp
      · obtain ⟨b, -, rfl⟩ := List.mem_map.1 hp
        refine ⟨path ++ [v], hpath', ?_⟩
        simp only [List.length_append, List.length_singleton] at ht ⊢
        omega
      · cases hp
  · rcases mem_insert.1 hx with rfl | hx
    · by_cases hpos : 0 < t
      · refine .inl fun b hb _ => .inr ⟨t - 1, List.mem_append_right _ ?_⟩
        rw [if_pos hpos]
        exact List.mem_map.2 ⟨b, hb, rfl⟩
      · refine .inr ⟨path ++ [x], hpath', ?_⟩
        simp only [List.length_append, List.length_singleton] at ht ⊢
        omega
    · rcases h.duty x hx with hduty | ⟨path, hpath, hlen⟩
      · refine .inl fun b hb hroom => ?_
        rcases hduty b hb hroom with hb | ⟨s, hs⟩
        · exact .inl (hsub hb)
        · rcases rest_or_eq hf hs with hs | heq
          · exact .inr ⟨s, List.mem_append_left _ hs⟩
          · cases heq
            exact .inl (mem_insert_self _ _)
      · exact .inr ⟨path, hpath.mono hsub, hlen⟩

theorem Inv.steps {n : Nat} (h : Inv room out o k f) (hs : Steps room out n f g) : Inv room out o k g := by
  induction hs with
  | refl f => exact h
  | snoc _ hg ih =>
    unfold receive
    split
    · next hv => exact (ih h).first hg hv.1 hv.2
    · next hv => exact (ih h).arrive hg hv

/-- What the origin sends to its successors arrives, or is under way. -/
theorem Steps.origin {n : Nat} (hs : Steps room out n (.start out o k) g) :
    ∀ b ∈ out o, b ∈ room → b ∈ g.reached ∨ ∃ t, (b, t) ∈ g.inFlight := by
  generalize hf : Flood.start out o k = f at hs
  induction hs with
  | refl => exact fun b hb _ => .inr ⟨k, hf ▸ List.mem_map.2 ⟨b, hb, rfl⟩⟩
  | @snoc _ _ _ l l' v t _ hg ih =>
    intro b hb hroom
    unfold receive
    rcases ih hf b hb hroom with hin | ⟨s, hs⟩
    · split
      · exact .inl (mem_insert_of_mem hin)
      · exact .inl hin
    · rcases rest_or_eq hg hs with hs | heq
      · split
        · exact .inr ⟨s, List.mem_append_left _ hs⟩
        · exact .inr ⟨s, hs⟩
      · cases heq
        split
        · exact .inl (mem_insert_self _ _)
        · next hnot => exact .inl (not_not.1 fun hn => hnot ⟨hroom, hn⟩)

/-- **Everything is reached** along `E`, when no copy is left. -/
theorem Inv.covers (h : Inv room out o k f) (hdone : f.inFlight = []) (hk : (room.card : Int) ≤ k + 2)
    {E : V → V → Prop} (hE : ∀ a b, E a b → b ∈ room ∧ (b ∈ out a ∨ b = o ∨ b = a))
    (hv : Relation.ReflTransGen E o v) : v ∈ f.reached := by
  by_cases hall : f.reached = room
  · induction hv with
    | refl => exact h.origin
    | tail _ he _ =>
      rw [hall]
      exact (hE _ _ he).1
  · -- no path is long, so everybody has passed the message on
    have hshort : ∀ l, Trail f l → (l.length : Int) < k + 2 := by
      intro l hl
      have hsub : l.toFinset ⊆ f.reached := fun x hx => hl.reached x (List.mem_toFinset.1 hx)
      have hcard : l.length ≤ f.reached.card := by
        rw [← List.toFinset_card_of_nodup hl.nodup]
        exact card_le_card hsub
      have hlt : f.reached.card < room.card := card_lt_card (h.inside.ssubset_of_ne hall)
      omega
    induction hv with
    | refl => exact h.origin
    | tail _ he ih =>
      obtain ⟨hroom, hb | rfl | rfl⟩ := hE _ _ he
      · rcases h.duty _ ih with hduty | ⟨l, hl, hlen⟩
        · rcases hduty _ hb hroom with hb | ⟨t, ht⟩
          · exact hb
          · rw [hdone] at ht
            cases ht
        · exact absurd hlen (not_le.2 (hshort l hl))
      · exact h.origin
      · exact ih

end Flood

end Lib
