/-
Sets that only grow, replicated by pulling. A peer asks another one for what
it lacks and tells what it has; the answer comes in parts, which are taken in
any order, more than once or never.

`pulled`: who has taken every part of an answer has all that the other one
had when it answered. `agreed`: once all of a group have pulled from each
other, and nothing came from outside, they have the same.
-/
import Mathlib.Data.Set.Lattice
import Mathlib.Logic.Function.Basic

namespace Lib.Pull

variable {ι α : Type*}

/-- What each peer has, who asked whom with which claim, and the parts of
answers, each with the peer that it is for. -/
structure State (ι α : Type*) where
  has : ι → Set α
  asked : List (ι × ι × Set α)
  parts : List (ι × Set α)

inductive Step (ι α : Type*)
  /-- A peer gets something from outside. -/
  | grow (i : ι) (x : Set α)
  /-- `i` asks `j`, and claims to have `claim`. -/
  | ask (i j : ι) (claim : Set α)
  | answer (k : Nat) (parts : List (Set α))
  | take (k : Nat)

/-- The step brings in nothing from outside `u`. -/
def Step.Inside (u : Set α) : Step ι α → Prop
  | .grow _ x => x ⊆ u
  | .ask _ _ _ | .answer _ _ | .take _ => True

namespace State

variable [DecidableEq ι]

def gain (s : State ι α) (i : ι) (x : Set α) : State ι α :=
  { s with has := Function.update s.has i (s.has i ∪ x) }

def step (s : State ι α) : Step ι α → State ι α
  | .grow i x => s.gain i x
  | .ask i j claim => { s with asked := s.asked ++ [(i, j, claim)] }
  | .answer k parts =>
    match s.asked[k]? with
    | some (i, _, _) => { s with parts := s.parts ++ parts.map (i, ·) }
    | none => s
  | .take k =>
    match s.parts[k]? with
    | some (i, x) => s.gain i x
    | none => s

/-- Nobody claims to have what it has not, and an answer is what the other
one has beside the claim, or more of it. -/
def Honest (s : State ι α) : Step ι α → Prop
  | .ask i _ claim => claim ⊆ s.has i
  | .answer k parts => ∀ i j claim, s.asked[k]? = some (i, j, claim) →
      (∀ x ∈ parts, x ⊆ s.has j) ∧ ∀ a ∈ s.has j, a ∈ claim ∨ ∃ x ∈ parts, a ∈ x
  | .grow _ _ | .take _ => True

def run (s : State ι α) (es : List (Step ι α)) : State ι α := es.foldl step s

/-- Every step of the run is honest. -/
def Runs : State ι α → List (Step ι α) → Prop
  | _, [] => True
  | s, e :: es => s.Honest e ∧ (s.step e).Runs es

variable {s : State ι α} {e : Step ι α} {es es' : List (Step ι α)} {i j : ι} {x : Set α}

@[simp] theorem run_nil : s.run [] = s := rfl

@[simp] theorem run_cons : s.run (e :: es) = (s.step e).run es := rfl

theorem run_append : s.run (es ++ es') = (s.run es).run es' := List.foldl_append

theorem runs_append : s.Runs (es ++ es') ↔ s.Runs es ∧ (s.run es).Runs es' := by
  induction es generalizing s with
  | nil => simp [Runs]
  | cons e es ih => simp only [List.cons_append, Runs, ih, run_cons, and_assoc]

/-! ## What only grows -/

@[simp] theorem gain_asked : (s.gain i x).asked = s.asked := rfl

@[simp] theorem gain_parts : (s.gain i x).parts = s.parts := rfl

theorem gain_self : (s.gain i x).has i = s.has i ∪ x := Function.update_self ..

theorem gain_ne (h : j ≠ i) : (s.gain i x).has j = s.has j := Function.update_of_ne h ..

theorem has_subset_gain (i j : ι) (x : Set α) : s.has j ⊆ (s.gain i x).has j := by
  by_cases h : j = i
  · subst h
    rw [gain_self]
    exact Set.subset_union_left
  · rw [gain_ne h]

/-- What one step leaves. -/
structure Extends (s t : State ι α) : Prop where
  has : ∀ i, s.has i ⊆ t.has i
  asked : s.asked <+: t.asked
  parts : s.parts <+: t.parts

omit [DecidableEq ι] in
theorem Extends.refl (s : State ι α) : Extends s s := ⟨fun _ => subset_rfl, List.prefix_rfl, List.prefix_rfl⟩

omit [DecidableEq ι] in
theorem Extends.trans {s t u : State ι α} (h : Extends s t) (h' : Extends t u) : Extends s u :=
  ⟨fun i => (h.has i).trans (h'.has i), h.asked.trans h'.asked, h.parts.trans h'.parts⟩

theorem extends_gain (i : ι) (x : Set α) : Extends s (s.gain i x) :=
  ⟨fun j => has_subset_gain i j x, List.prefix_rfl, List.prefix_rfl⟩

theorem extends_step (s : State ι α) (e : Step ι α) : Extends s (s.step e) := by
  cases e with
  | grow i x => exact extends_gain i x
  | ask i j claim => exact ⟨fun _ => subset_rfl, List.prefix_append _ _, List.prefix_rfl⟩
  | answer k parts =>
    simp only [step]
    split
    · exact ⟨fun _ => subset_rfl, List.prefix_rfl, List.prefix_append _ _⟩
    · exact .refl s
  | take k =>
    simp only [step]
    split
    · exact extends_gain _ _
    · exact .refl s

theorem extends_run (s : State ι α) (es : List (Step ι α)) : Extends s (s.run es) := by
  induction es generalizing s with
  | nil => exact .refl s
  | cons e es ih => exact (extends_step s e).trans (ih (s.step e))

/-! ## Claims stay true -/

/-- Whoever asked has what it claimed. -/
def Claims (s : State ι α) : Prop := ∀ i j claim, (i, j, claim) ∈ s.asked → claim ⊆ s.has i

theorem Claims.step (h : s.Claims) (he : s.Honest e) : (s.step e).Claims := by
  intro i j claim hmem
  refine Set.Subset.trans ?_ ((extends_step s e).has i)
  cases e with
  | grow => exact h i j claim hmem
  | ask i' j' claim' =>
    rcases List.mem_append.1 hmem with hmem | hmem
    · exact h i j claim hmem
    · cases List.mem_singleton.1 hmem
      exact he
  | answer k parts =>
    simp only [State.step] at hmem
    split at hmem <;> exact h i j claim hmem
  | take k =>
    simp only [State.step] at hmem
    split at hmem <;> exact h i j claim hmem

theorem Claims.run (h : s.Claims) (hes : s.Runs es) : (s.run es).Claims := by
  induction es generalizing s with
  | nil => exact h
  | cons e es ih => exact ih (h.step hes.1) hes.2

/-! ## What an answer brings -/

/-- A part that was taken at some point of the run. -/
theorem subset_of_take {n : Nat} (hn : s.parts[n]? = some (i, x)) (htake : .take n ∈ es) : x ⊆ (s.run es).has i := by
  obtain ⟨es₁, es₂, rfl⟩ := List.append_of_mem htake
  have hpart : (s.run es₁).parts[n]? = some (i, x) := by
    obtain ⟨ps, hps⟩ := (extends_run s es₁).parts
    rw [← hps, List.getElem?_append_left (List.getElem?_eq_some_iff.1 hn).1]
    exact hn
  have hstep : ((s.run es₁).step (.take n)).has i = (s.run es₁).has i ∪ x := by
    simp only [step, hpart]
    exact gain_self
  rw [run_append, run_cons]
  refine Set.Subset.trans ?_ ((extends_run _ es₂).has i)
  rw [hstep]
  exact Set.subset_union_right

/-- In the run, `i` has taken every part of an answer of `j`. -/
def Pulls (s : State ι α) (es : List (Step ι α)) (i j : ι) : Prop :=
  ∃ es₁ k parts es₂ claim, es = es₁ ++ .answer k parts :: es₂ ∧ (s.run es₁).asked[k]? = some (i, j, claim) ∧
    ∀ n < parts.length, .take ((s.run es₁).parts.length + n) ∈ es₂

/-- **A pull is complete**, whatever happens beside it. -/
theorem pulled {es₁ es₂ : List (Step ι α)} {k : Nat} {parts : List (Set α)} {claim : Set α} (hs : s.Claims)
    (hruns : s.Runs (es₁ ++ .answer k parts :: es₂)) (hk : (s.run es₁).asked[k]? = some (i, j, claim))
    (htaken : ∀ n < parts.length, .take ((s.run es₁).parts.length + n) ∈ es₂) :
    (s.run es₁).has j ⊆ (s.run (es₁ ++ .answer k parts :: es₂)).has i := by
  obtain ⟨hruns₁, hanswer, -⟩ := runs_append.1 hruns
  have hclaim : claim ⊆ (s.run es₁).has i := hs.run hruns₁ i j claim (List.mem_of_getElem? hk)
  intro a ha
  rcases (hanswer i j claim hk).2 a ha with hin | ⟨x, hx, hax⟩
  · rw [run_append]
    exact (extends_run _ _).has i (hclaim hin)
  · -- the part with `a` is one of those that the answer appended
    obtain ⟨n, hn, rfl⟩ := List.getElem_of_mem hx
    have hpart : ((s.run es₁).step (.answer k parts)).parts[(s.run es₁).parts.length + n]? = some (i, parts[n]) := by
      simp only [step, hk]
      rw [List.getElem?_append_right (by omega), Nat.add_sub_cancel_left, List.getElem?_map,
        List.getElem?_eq_getElem hn]
      rfl
    rw [run_append, run_cons]
    exact subset_of_take hpart (htaken n hn) hax

theorem Pulls.subset (h : s.Pulls es i j) (hs : s.Claims) (hruns : s.Runs es) : s.has j ⊆ (s.run es).has i := by
  obtain ⟨es₁, k, parts, es₂, claim, rfl, hk, htaken⟩ := h
  exact Set.Subset.trans ((extends_run s es₁).has j) (pulled hs hruns hk htaken)

/-! ## Nothing is made up -/

/-- All there is, with the parts under way, is in `u`. -/
structure Within (u : Set α) (s : State ι α) : Prop where
  has : ∀ i, s.has i ⊆ u
  parts : ∀ p ∈ s.parts, p.2 ⊆ u

theorem Within.gain {u : Set α} (h : Within u s) (hx : x ⊆ u) : Within u (s.gain i x) := by
  refine ⟨fun j => ?_, h.parts⟩
  by_cases hj : j = i
  · subst hj
    rw [gain_self]
    exact Set.union_subset (h.has j) hx
  · rw [gain_ne hj]
    exact h.has j

theorem Within.step {u : Set α} (h : Within u s) (he : s.Honest e) (hu : e.Inside u) : Within u (s.step e) := by
  cases e with
  | grow i x => exact h.gain hu
  | ask => exact ⟨h.has, h.parts⟩
  | answer k parts =>
    simp only [State.step]
    split
    · next i j claim hk =>
      refine ⟨h.has, fun p hp => ?_⟩
      rcases List.mem_append.1 hp with hp | hp
      · exact h.parts p hp
      · obtain ⟨x, hx, rfl⟩ := List.mem_map.1 hp
        exact ((he i j claim hk).1 x hx).trans (h.has j)
    · exact h
  | take k =>
    simp only [State.step]
    split
    · next i x hk => exact h.gain (h.parts _ (List.mem_of_getElem? hk))
    · exact h

theorem Within.run {u : Set α} (h : Within u s) (hes : s.Runs es) (hu : ∀ e ∈ es, e.Inside u) :
    Within u (s.run es) := by
  induction es generalizing s with
  | nil => exact h
  | cons e es ih =>
    exact ih (h.step hes.1 (hu e List.mem_cons_self)) hes.2 fun e' he' => hu e' (List.mem_cons_of_mem _ he')

/-- **A group that has pulled from each other agrees**, on all that any of
them had before. -/
theorem agreed {group : Set ι} (hs : s.Claims) (hruns : s.Runs es) (hu : ∀ e ∈ es, e.Inside (⋃ j ∈ group, s.has j))
    (hparts : s.parts = []) (hout : ∀ i ∉ group, s.has i = ∅)
    (hpull : ∀ i ∈ group, ∀ j ∈ group, i ≠ j → s.Pulls es i j) (hi : i ∈ group) :
    (s.run es).has i = ⋃ j ∈ group, s.has j := by
  refine Set.Subset.antisymm ?_ (Set.iUnion₂_subset fun j hj => ?_)
  · have hwithin : Within (⋃ j ∈ group, s.has j) s := by
      refine ⟨fun j => ?_, by simp [hparts]⟩
      by_cases hj : j ∈ group
      · exact Set.subset_biUnion_of_mem (u := s.has) hj
      · rw [hout j hj]
        exact Set.empty_subset _
    exact (hwithin.run hruns hu).has i
  · by_cases hij : i = j
    · subst hij
      exact (extends_run s es).has i
    · exact (hpull i hi j hj hij).subset hs hruns

end State

end Lib.Pull
