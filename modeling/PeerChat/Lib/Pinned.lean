/-
A value that is pinned by its first binding: later bindings change nothing
until it is released.

`pinned_eq_some_iff`: the value is that of the first binding since the last
release.
-/
import Mathlib.Data.List.Induction

namespace Lib

/-- What happens to a value. -/
inductive Pin (V : Type*)
  | bind (v : V)
  | release
  deriving DecidableEq, Repr

variable {V : Type*} {v : V} {c : Option V} {l : List (Pin V)}

/-- One step: the first binding wins. -/
def Pin.step : Option V → Pin V → Option V
  | some v, .bind _ => some v
  | none, .bind v => some v
  | _, .release => none

/-- The value after a list of steps. -/
def pinned (c : Option V) (l : List (Pin V)) : Option V := l.foldl Pin.step c

theorem pinned_append (c : Option V) (l l' : List (Pin V)) : pinned c (l ++ l') = pinned (pinned c l) l' :=
  List.foldl_append

@[simp] theorem pinned_nil (c : Option V) : pinned c [] = c := rfl

@[simp] theorem pinned_singleton (c : Option V) (x : Pin V) : pinned c [x] = x.step c := rfl

theorem isSome_step_bind (c : Option V) (v : V) : ((Pin.bind v).step c).isSome = true := by cases c <;> rfl

theorem step_release (c : Option V) : Pin.release.step c = none := by cases c <;> rfl

/-- A value that is bound stays until it is released. -/
theorem pinned_of_notMem : ∀ {l : List (Pin V)}, .release ∉ l → pinned (some v) l = some v
  | [], _ => rfl
  | .bind _ :: l, h => pinned_of_notMem (l := l) fun hl => h (List.mem_cons_of_mem _ hl)
  | .release :: _, h => absurd List.mem_cons_self h

theorem pinned_eq_some_iff : pinned none l = some v ↔
    ∃ pre post, l = pre ++ .bind v :: post ∧ pinned none pre = none ∧ .release ∉ post := by
  constructor
  · intro h
    induction l using List.reverseRecOn generalizing v with
    | nil => cases h
    | append_singleton l x ih =>
      rw [pinned_append] at h
      cases hl : pinned none l with
      | none =>
        rw [hl] at h
        match x, h with
        | .bind w, h =>
          obtain rfl : w = v := Option.some.inj h
          exact ⟨l, [], rfl, hl, by simp⟩
        | .release, h => cases h
      | some w =>
        rw [hl] at h
        match x, h with
        | .bind w', h =>
          obtain rfl : w = v := Option.some.inj h
          obtain ⟨pre, post, rfl, hpre, hpost⟩ := ih hl
          exact ⟨pre, post ++ [.bind w'], by simp, hpre, by simpa using hpost⟩
        | .release, h => cases h
  · rintro ⟨pre, post, rfl, hpre, hpost⟩
    rw [pinned_append, hpre]
    exact pinned_of_notMem hpost

/-- There is a value exactly when some binding was not released. -/
theorem isSome_pinned_iff : (pinned none l).isSome = true ↔
    ∃ pre w post, l = pre ++ .bind w :: post ∧ .release ∉ post := by
  constructor
  · intro h
    obtain ⟨v, hv⟩ := Option.isSome_iff_exists.1 h
    obtain ⟨pre, post, hl, -, hpost⟩ := pinned_eq_some_iff.1 hv
    exact ⟨pre, v, post, hl, hpost⟩
  · rintro ⟨pre, w, post, rfl, hpost⟩
    rw [pinned_append]
    cases hp : pinned none pre with
    | none => exact Option.isSome_iff_exists.2 ⟨w, pinned_of_notMem (l := post) hpost⟩
    | some v => exact Option.isSome_iff_exists.2 ⟨v, pinned_of_notMem (l := post) hpost⟩

end Lib
