/-
Crash safety of a device that changes one atomic step at a time.

An operation is the list of its steps; a crash leaves the device after a
prefix of them. A device may have steps that open a window in which facts
are in danger, and steps that close it again. `Durable`: at every crash
point outside the windows, no fact held before is lost, and what the
operation has acknowledged by then is held.
-/
import Mathlib.Data.List.Infix

namespace Lib

/-- A device with states `σ` and steps `ι` that holds facts `φ`. -/
structure Device (σ ι φ : Type*) where
  apply : σ → ι → σ
  Holds : σ → φ → Prop
  /-- The step tells the caller that the fact is held. -/
  Acks : ι → φ → Prop
  /-- The step opens a window. -/
  Opens : ι → Prop
  /-- The step closes it. -/
  Closes : ι → Prop

namespace Device

variable {σ ι φ : Type*} (D : Device σ ι φ)

/-- The device after a list of steps. -/
def run (s : σ) (l : List ι) : σ := l.foldl D.apply s

/-- A window is open after these steps. -/
def Exposed (l : List ι) : Prop := ∃ a i b, l = a ++ i :: b ∧ D.Opens i ∧ ∀ j ∈ b, ¬ D.Closes j

/-- At every crash point outside the windows, the device holds what it held
and what was acknowledged. -/
def Durable (s : σ) (l : List ι) : Prop :=
  ∀ p, p <+: l → ¬ D.Exposed p → ∀ x, (D.Holds s x ∨ ∃ i ∈ p, D.Acks i x) → D.Holds (D.run s p) x

variable {D}

theorem run_append (s : σ) (l l' : List ι) : D.run s (l ++ l') = D.run (D.run s l) l' :=
  List.foldl_append

theorem Exposed.append_left {l : List ι} (h : D.Exposed l) (k : List ι) : D.Exposed (k ++ l) := by
  obtain ⟨a, i, b, rfl, hi, hb⟩ := h
  exact ⟨k ++ a, i, b, by simp, hi, hb⟩

theorem not_exposed_of_forall {l : List ι} (h : ∀ i ∈ l, ¬ D.Opens i) : ¬ D.Exposed l := by
  intro hex
  obtain ⟨a, i, b, rfl, hi, -⟩ := hex
  exact h i (by simp) hi

/-- Windows do not reach over a closed list. -/
theorem not_exposed_append {l l' : List ι} (h : ¬ D.Exposed l) (h' : ¬ D.Exposed l') : ¬ D.Exposed (l ++ l') := by
  intro hex
  obtain ⟨a, i, b, he, hi, hb⟩ := hex
  rcases List.append_eq_append_iff.1 he with ⟨c, rfl, rfl⟩ | ⟨c, rfl, hc⟩
  · exact h' ⟨c, i, b, rfl, hi, hb⟩
  · cases c with
    | nil => exact h' ⟨[], i, b, by simpa using hc.symm, hi, hb⟩
    | cons j c =>
      simp only [List.cons_append, List.cons.injEq] at hc
      obtain ⟨rfl, rfl⟩ := hc
      exact h ⟨a, i, c, rfl, hi, fun k hk => hb k (List.mem_append_left _ hk)⟩

/-- A list that ends with a closing step leaves no window open. -/
theorem not_exposed_concat {l : List ι} {c : ι} (hc : D.Closes c) (ho : ¬ D.Opens c) : ¬ D.Exposed (l ++ [c]) := by
  intro hex
  obtain ⟨a, i, b, he, hi, hb⟩ := hex
  rcases List.eq_nil_or_concat b with rfl | ⟨b, j, rfl⟩
  · have := (List.append_inj_right' he rfl)
    cases this
    exact ho hi
  · rw [List.concat_eq_append] at he hb
    rw [← List.cons_append, ← List.append_assoc] at he
    have := List.append_inj_right' he rfl
    cases this
    exact hb c (by simp) hc

theorem Durable.nil (s : σ) : D.Durable s [] := by
  intro p hp _ x hx
  cases List.prefix_nil.1 hp
  rcases hx with hx | ⟨i, hi, -⟩
  · exact hx
  · cases hi

/-- A step that keeps every fact and acknowledges only what is held then. -/
theorem Durable.step {s : σ} {i : ι} (h : ∀ x, D.Holds s x ∨ D.Acks i x → D.Holds (D.apply s i) x) :
    D.Durable s [i] := by
  intro p hp _ x hx
  rcases List.prefix_cons_iff.1 hp with rfl | ⟨q, rfl, hq⟩
  · rcases hx with hx | ⟨j, hj, -⟩
    · exact hx
    · cases hj
  · cases List.prefix_nil.1 hq
    refine h x (hx.imp_right ?_)
    intro hex
    obtain ⟨j, hj, ha⟩ := hex
    cases List.mem_singleton.1 hj
    exact ha

theorem Durable.append {s : σ} {l l' : List ι} (h : D.Durable s l) (hl : ¬ D.Exposed l)
    (h' : D.Durable (D.run s l) l') : D.Durable s (l ++ l') := by
  intro p hp hpe x hx
  rcases List.prefix_or_prefix_of_prefix hp (List.prefix_append l l') with hpl | ⟨q, rfl⟩
  · exact h p hpl hpe x hx
  · have hq : q <+: l' := (List.prefix_append_right_inj l).1 hp
    rw [run_append]
    refine h' q hq (fun hqe => hpe (hqe.append_left l)) x ?_
    rcases hx with hx | ⟨i, hi, ha⟩
    · exact .inl (h l List.prefix_rfl hl x (.inl hx))
    · rcases List.mem_append.1 hi with hi | hi
      · exact .inl (h l List.prefix_rfl hl x (.inr ⟨i, hi, ha⟩))
      · exact .inr ⟨i, hi, ha⟩

/-- A window from its opening to its closing step: only its ends count. -/
theorem Durable.window {s : σ} {i c : ι} {w : List ι} (hi : D.Opens i) (hw : ∀ j ∈ w, ¬ D.Closes j)
    (hacks : ∀ j ∈ i :: (w ++ [c]), ∀ x, ¬ D.Acks j x)
    (h : ∀ x, D.Holds s x → D.Holds (D.run s (i :: (w ++ [c]))) x) : D.Durable s (i :: (w ++ [c])) := by
  intro p hp hpe x hx
  have hs : D.Holds s x := by
    rcases hx with hx | ⟨j, hj, ha⟩
    · exact hx
    · exact absurd ha (hacks j (hp.subset hj) x)
  rcases List.prefix_cons_iff.1 hp with rfl | ⟨q, rfl, hq⟩
  · exact hs
  · rcases List.prefix_concat_iff.1 hq with rfl | hq
    · exact h x hs
    · exact absurd ⟨[], i, q, rfl, hi, fun j hj => hw j (hq.subset hj)⟩ hpe

end Device

end Lib
