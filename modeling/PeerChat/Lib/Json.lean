/-
JSON values as a scripting language decodes them, and its numbers: integers
of any size beside 64-bit floats, compared with each other by value. A
comparison with anything but a number is a type error.
-/
import Mathlib.Order.Lattice
import Mathlib.Algebra.Order.Ring.Int

namespace Lib

/-- A decoded JSON value. -/
inductive Json
  | null
  | bool (b : Bool)
  | int (n : ℤ)
  | float (x : Float)
  | str (s : String)
  | arr (l : List Json)
  | obj (l : List (String × Json))
  deriving Repr

/-- An integer of any size or a float. -/
inductive Number
  | int (n : ℤ)
  | float (x : Float)
  deriving Repr, DecidableEq

/-- The number a value is in arithmetic and comparisons: a boolean is the
integer 0 or 1; `none` for what has no order with numbers. -/
def Json.num? : Json → Option Number
  | .bool b => some (.int (if b then 1 else 0))
  | .int n => some (.int n)
  | .float x => some (.float x)
  | .null | .str _ | .arr _ | .obj _ => none

namespace Number

/-- A finite float as `m * 2 ^ k`. -/
def dyadic (x : Float) : Option (ℤ × ℤ) :=
  let bits : ℕ := x.toBits.toNat
  let e : ℕ := bits / 2 ^ 52 % 2 ^ 11
  let f : ℕ := bits % 2 ^ 52
  let m : ℤ := if e = 0 then (f : ℤ) else f + 2 ^ 52
  if e = 2 ^ 11 - 1 then none
  else some (if bits / 2 ^ 63 = 1 then -m else m, (max e 1 : ℕ) - 1075)

/-- `n` against `x`, by value; `none` when `x` is not a number. -/
def compareFloat (n : ℤ) (x : Float) : Option Ordering :=
  match dyadic x with
  | some (m, k) => some (compare (n * 2 ^ (-k).toNat) (m * 2 ^ k.toNat))
  | none => if x > 0 then some .lt else if x < 0 then some .gt else none

/-- `a < b`. -/
def lt : Number → Number → Bool
  | int a, int b => a < b
  | int a, float y => compareFloat a y = some .lt
  | float x, int b => compareFloat b x = some .gt
  | float x, float y => x < y

/-- `a == b`. -/
def eq : Number → Number → Bool
  | int a, int b => a = b
  | int a, float y => compareFloat a y = some .eq
  | float x, int b => compareFloat b x = some .eq
  | float x, float y => x == y

/-- `a <= b`. -/
def le (a b : Number) : Bool := a.lt b || a.eq b

/-- `max(a, b)`: the second only when it is greater. -/
def max (a b : Number) : Number := if a.lt b then b else a

/-- `a + 1`. -/
def succ : Number → Number
  | int a => int (a + 1)
  | float x => float (x + 1)

@[simp] theorem eq_int (a b : ℤ) : (int a).eq (int b) = decide (a = b) := rfl

@[simp] theorem succ_int (a : ℤ) : (int a).succ = int (a + 1) := rfl

@[simp] theorem max_int (a b : ℤ) : (int a).max (int b) = int (Max.max a b) := by
  simp only [max, lt, decide_eq_true_eq, max_def]
  split <;> split <;> simp_all <;> omega

@[simp] theorem le_int (a b : ℤ) : (int a).le (int b) = decide (a ≤ b) := by
  simp only [le, lt, eq, ← Bool.decide_or, le_iff_lt_or_eq]

/-- Floats and integers compare by value. -/
example : (int 2).eq (float 2.0) = true ∧ (int 1).lt (float 1.5) = true ∧
    (float (0.0 / 0.0)).le (int 0) = false := by decide

end Number

end Lib
