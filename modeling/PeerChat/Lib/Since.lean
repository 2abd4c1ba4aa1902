/-
Histories, what has always held, and what has held since something happened.
A moment of a history is what happened before it and what happens then.
`Always P h`: `P` held at every moment. `Since P Q h`: there was a moment at
which `Q` held, and `P` has held at every moment after it.

`iff_since` is the induction over a run: whatever `Q` brings about and lasts as
long as `P` holds is what has held since.
-/
import Mathlib.Data.List.Induction

namespace Lib

variable {α : Type*} {P P' Q : List α → α → Prop} {h : List α} {x y : α}

def Always (P : List α → α → Prop) (h : List α) : Prop := ∀ g x g', h = g ++ x :: g' → P g x

theorem always_nil : Always P [] := by
  intro g x g' heq
  simp at heq

/-- What has always held holds now as well. -/
theorem always_concat : Always P (h ++ [y]) ↔ Always P h ∧ P h y := by
  constructor
  · refine fun hp => ⟨?_, hp h y [] rfl⟩
    rintro g x g' rfl
    exact hp g x (g' ++ [y]) (by rw [List.append_assoc, List.cons_append])
  · rintro ⟨hp, hy⟩ g x g' heq
    induction g' using List.reverseRecOn with
    | nil =>
      obtain ⟨rfl, hx⟩ := List.append_inj' heq rfl
      cases hx
      exact hy
    | append_singleton g' z =>
      have heq : h ++ [y] = (g ++ x :: g') ++ [z] := by rw [heq, List.append_assoc, List.cons_append]
      exact hp g x g' (List.append_inj' heq rfl).1

def Since (P Q : List α → α → Prop) (h : List α) : Prop :=
  ∃ h₁ x h₂, h = h₁ ++ x :: h₂ ∧ Q h₁ x ∧ ∀ g y g', h₂ = g ++ y :: g' → P (h₁ ++ x :: g) y

theorem not_since_nil : ¬ Since P Q [] := by
  rintro ⟨h₁, x, h₂, heq, -⟩
  simp at heq

/-- What holds since a moment holds since the next moment as well. -/
theorem since_concat : Since P Q (h ++ [y]) ↔ Q h y ∨ P h y ∧ Since P Q h := by
  constructor
  · rintro ⟨h₁, x, h₂, heq, hq, hp⟩
    induction h₂ using List.reverseRecOn with
    | nil =>
      obtain ⟨rfl, hx⟩ := List.append_inj' heq rfl
      cases hx
      exact .inl hq
    | append_singleton h₂ z =>
      have heq : h ++ [y] = (h₁ ++ x :: h₂) ++ [z] := by rw [heq, List.append_assoc, List.cons_append]
      obtain ⟨rfl, hz⟩ := List.append_inj' heq rfl
      cases hz
      refine .inr ⟨hp h₂ y [] rfl, h₁, x, h₂, rfl, hq, ?_⟩
      rintro g z g' rfl
      exact hp g z (g' ++ [y]) (by rw [List.append_assoc, List.cons_append])
  · rintro (hq | ⟨hpy, h₁, x, h₂, rfl, hq, hp⟩)
    · exact ⟨h, y, [], rfl, hq, by simp⟩
    · refine ⟨h₁, x, h₂ ++ [y], by rw [List.append_assoc, List.cons_append], hq, fun g z g' heq => ?_⟩
      induction g' using List.reverseRecOn with
      | nil =>
        obtain ⟨rfl, hz⟩ := List.append_inj' heq rfl
        cases hz
        exact hpy
      | append_singleton g' w =>
        have heq : h₂ ++ [y] = (g ++ z :: g') ++ [w] := by rw [heq, List.append_assoc, List.cons_append]
        exact hp g z g' (List.append_inj' heq rfl).1

/-- The induction over a history. -/
theorem iff_since {R : List α → Prop} (hnil : ¬ R []) (hstep : ∀ h x, R (h ++ [x]) ↔ Q h x ∨ P h x ∧ R h)
    (h : List α) : R h ↔ Since P Q h := by
  induction h using List.reverseRecOn with
  | nil => exact iff_of_false hnil not_since_nil
  | append_singleton h x ih => rw [hstep, since_concat, ih]

theorem Since.mono (hp : ∀ h x, P h x → P' h x) (hs : Since P Q h) : Since P' Q h := by
  obtain ⟨h₁, x, h₂, heq, hq, hall⟩ := hs
  exact ⟨h₁, x, h₂, heq, hq, fun g y g' hg => hp _ _ (hall g y g' hg)⟩

end Lib
