/-
Runs by their prefixes. A run is the list of its steps.

`forall_prefix`: what holds at the start and is kept by every step of a run
holds after each of its prefixes. `forall_prefix_iff`: when every step but a
bad one keeps an invariant, and a bad one ends what the invariant gives, then
all prefixes of a run are good exactly when none of its steps is bad.
-/
import Mathlib.Data.List.Induction

namespace Lib.Run

variable {α : Type*} {xs : List α}

theorem prefix_of_snoc {ys : List α} {x : α} (h : ys ++ [x] <+: xs) : ys <+: xs := (List.prefix_append _ _).trans h

theorem forall_prefix {I : List α → Prop} (h0 : I []) (hstep : ∀ ys x, ys ++ [x] <+: xs → I ys → I (ys ++ [x])) :
    ∀ ys, ys <+: xs → I ys := by
  intro ys
  induction ys using List.reverseRecOn with
  | nil => exact fun _ => h0
  | append_singleton ys x ih => exact fun hpre => hstep ys x hpre (ih (prefix_of_snoc hpre))

theorem forall_prefix_iff {I P : List α → Prop} {Bad : List α → α → Prop} (h0 : I []) (hP : ∀ ys, I ys → P ys)
    (hgood : ∀ ys x, I ys → ¬ Bad ys x → I (ys ++ [x])) (hbad : ∀ ys x, I ys → Bad ys x → ¬ P (ys ++ [x])) :
    (∀ ys, ys <+: xs → P ys) ↔ ∀ ys x, ys ++ [x] <+: xs → ¬ Bad ys x := by
  constructor
  · intro h
    -- a run that stays good takes no bad step, so it keeps the invariant
    have hinv : ∀ ys, ys <+: xs → I ys :=
      forall_prefix h0 fun ys x hpre hI => hgood ys x hI fun hb => hbad ys x hI hb (h _ hpre)
    exact fun ys x hpre hb => hbad ys x (hinv ys (prefix_of_snoc hpre)) hb (h _ hpre)
  · intro hno
    have hinv : ∀ ys, ys <+: xs → I ys := forall_prefix h0 fun ys x hpre hI => hgood ys x hI (hno ys x hpre)
    exact fun ys hpre => hP ys (hinv ys hpre)

end Lib.Run
