/-
Programs over atomic commands, with two meanings. `run` executes a program
alone; `Step` interleaves the commands of several programs that share a
state. A command may raise, which ends its program and keeps the state.

`wp` is what a program ensures when it runs alone: a postcondition for its
value and one for the state an exception leaves. `wp_bind` and `wp_forEach`
are the rules for composition and loops.
-/
import Mathlib.Data.List.Basic

namespace Lib

/-- A program over commands `C`: it ends with a value, raises, or runs a
command and goes on with the answer. -/
inductive Prog (C : Type → Type) (ε α : Type) : Type 1
  | pure (a : α)
  | raise (e : ε)
  | op {β : Type} (c : C β) (k : β → Prog C ε α)

namespace Prog

variable {C : Type → Type} {ε α β σ : Type}

/-- Sequential composition. -/
protected def bind : Prog C ε α → (α → Prog C ε β) → Prog C ε β
  | pure a, f => f a
  | raise e, _ => raise e
  | op c k, f => op c fun b => (k b).bind f

instance : Monad (Prog C ε) where
  pure := Prog.pure
  bind := Prog.bind

/-- One command. -/
def lift (c : C α) : Prog C ε α := op c pure

/-- A program run only under a condition. -/
def when (b : Prop) [Decidable b] (p : Prog C ε Unit) : Prog C ε Unit := if b then p else Pure.pure ()

/-- A loop over a list. -/
def forEach {τ : Type} (f : τ → Prog C ε Unit) : List τ → Prog C ε Unit
  | [] => Pure.pure ()
  | x :: l => f x >>= fun _ => forEach f l

/-! ## Alone -/

variable (exec : ∀ {β : Type}, C β → σ → Except ε β × σ)

/-- A program run alone. -/
def run : Prog C ε α → σ → Except ε α × σ
  | pure a, s => (.ok a, s)
  | raise e, s => (.error e, s)
  | op c k, s =>
    match exec c s with
    | (.ok b, s') => run (k b) s'
    | (.error e, s') => (.error e, s')

/-- A program run from `s` returns a value with `Q`, or raises with `E`. -/
def wp (p : Prog C ε α) (Q : α → σ → Prop) (E : σ → Prop) (s : σ) : Prop :=
  match p.run exec s with
  | (.ok a, s') => Q a s'
  | (.error _, s') => E s'

variable {exec} {Q R : α → σ → Prop} {E F : σ → Prop} {s : σ}

@[simp] theorem wp_pure (a : α) : wp exec (Pure.pure a : Prog C ε α) Q E s ↔ Q a s := Iff.rfl

@[simp] theorem wp_raise (e : ε) : wp exec (raise e : Prog C ε α) Q E s ↔ E s := Iff.rfl

theorem wp_op (c : C β) (k : β → Prog C ε α) :
    wp exec (op c k) Q E s ↔
      match exec c s with
      | (.ok b, s') => wp exec (k b) Q E s'
      | (.error _, s') => E s' := by
  simp only [wp, run]
  rcases exec c s with ⟨_ | b, s'⟩ <;> rfl

@[simp] theorem wp_lift (c : C α) :
    wp exec (lift c : Prog C ε α) Q E s ↔
      match exec c s with
      | (.ok a, s') => Q a s'
      | (.error _, s') => E s' := wp_op c pure

@[simp] theorem wp_bind (p : Prog C ε β) (f : β → Prog C ε α) :
    wp exec (p >>= f) Q E s ↔ wp exec p (fun b s' => wp exec (f b) Q E s') E s := by
  show wp exec (p.bind f) Q E s ↔ _
  induction p generalizing s with
  | pure a => exact Iff.rfl
  | raise e => exact Iff.rfl
  | op c k ih =>
    simp only [Prog.bind, wp_op]
    rcases exec c s with ⟨_ | b, s'⟩
    · exact Iff.rfl
    · exact ih b

@[simp] theorem wp_when (b : Prop) [Decidable b] (p : Prog C ε Unit) {Q : Unit → σ → Prop} :
    wp exec (when b p) Q E s ↔ (b → wp exec p Q E s) ∧ (¬ b → Q () s) := by
  unfold when
  split <;> simp_all

theorem wp_mono {p : Prog C ε α} (hQ : ∀ a s, Q a s → R a s) (hE : ∀ s, E s → F s)
    (h : wp exec p Q E s) : wp exec p R F s := by
  simp only [wp] at h ⊢
  split at h
  · exact hQ _ _ h
  · exact hE _ h

/-- A program does not ensure what it ensures the contrary of. -/
theorem wp_absurd {p : Prog C ε α} (h : wp exec p Q (fun _ => False) s)
    (h' : wp exec p (fun a s' => ¬ Q a s') E s) : False := by
  simp only [wp] at h h'
  split at h
  · next heq =>
    rw [heq] at h'
    exact h' h
  · exact h

/-- What holds after a run, however it ended. -/
theorem wp_run {p : Prog C ε α} (h : wp exec p (fun _ => E) E s) : E (p.run exec s).2 := by
  simp only [wp] at h
  split at h <;> simp_all

/-- The state that a postcondition is about is the one the run leaves. -/
theorem wp_self {p : Prog C ε α} (h : wp exec p Q E s) :
    wp exec p (fun a s' => Q a s' ∧ s' = (p.run exec s).2) E s := by
  simp only [wp] at h ⊢
  split at h
  · next heq => exact ⟨h, by rw [heq]⟩
  · exact h

/-- Dropping the result of a program keeps what it does. -/
theorem snd_run_bind_pure (p : Prog C ε β) (a : α) (s : σ) :
    ((p >>= fun _ => Pure.pure a : Prog C ε α).run exec s).2 = (p.run exec s).2 := by
  show ((p.bind fun _ => Pure.pure a).run exec s).2 = _
  induction p generalizing s with
  | pure b => rfl
  | raise e => rfl
  | op c k ih =>
    simp only [Prog.bind, run]
    rcases exec c s with ⟨_ | b, s'⟩
    · rfl
    · exact ih b s'

/-- A loop keeps what one round keeps. -/
theorem wp_forEach {τ : Type} {f : τ → Prog C ε Unit} {I : List τ → σ → Prop} :
    ∀ {l : List τ} {s : σ}, I l s →
    (∀ x l' s, x ∈ l → I (x :: l') s → wp exec (f x) (fun _ => I l') E s) →
    wp exec (forEach f l) (fun _ => I []) E s
  | [], _, h, _ => h
  | x :: l, s, h, hf => by
    rw [forEach, wp_bind]
    refine wp_mono (fun _ s' hs' => ?_) (fun _ he => he) (hf x l s (by simp) h)
    exact wp_forEach hs' fun y l' s hy => hf y l' s (List.mem_cons_of_mem _ hy)

/-! ## Commands -/

/-- Every command that a program may run, and every exception that it raises
itself, is of a kind. -/
def All (P : ∀ {β : Type}, C β → Prop) (X : ε → Prop) : Prog C ε α → Prop
  | pure _ => True
  | raise e => X e
  | op c k => P c ∧ ∀ b, (k b).All P X

section
variable {P : ∀ {β : Type}, C β → Prop} {X : ε → Prop}

@[simp] theorem all_pure (a : α) : (Pure.pure a : Prog C ε α).All P X := trivial

@[simp] theorem all_raise (e : ε) : (raise e : Prog C ε α).All P X ↔ X e := Iff.rfl

@[simp] theorem all_lift (c : C α) : (lift c : Prog C ε α).All P X ↔ P c := by
  simp only [lift, All, implies_true, and_true]

theorem All.bind {p : Prog C ε β} {f : β → Prog C ε α} (hp : p.All P X) (hf : ∀ b, (f b).All P X) :
    (p >>= f).All P X := by
  show (p.bind f).All P X
  induction p with
  | pure b => exact hf b
  | raise e => exact hp
  | op c k ih => exact ⟨hp.1, fun b => ih b (hp.2 b)⟩

theorem All.mono {R : ∀ {β : Type}, C β → Prop} {Y : ε → Prop} (hP : ∀ {β : Type} (c : C β), P c → R c)
    (hX : ∀ e, X e → Y e) : ∀ {p : Prog C ε α}, p.All P X → p.All R Y
  | pure _, _ => trivial
  | raise e, h => hX e h
  | op c _, h => ⟨hP c h.1, fun b => All.mono hP hX (h.2 b)⟩

theorem All.when {b : Prop} [Decidable b] {p : Prog C ε Unit} (hp : b → p.All P X) : (when b p).All P X := by
  unfold Prog.when
  split
  · next hb => exact hp hb
  · trivial

theorem All.forEach {τ : Type} {f : τ → Prog C ε Unit} (hf : ∀ x, (f x).All P X) :
    ∀ l : List τ, (forEach f l).All P X
  | [] => trivial
  | x :: l => (hf x).bind fun _ => All.forEach hf l

/-- What each command keeps, the program keeps; and it raises only what it
raises itself or what a command raises. -/
theorem All.run {I : σ → Prop} {p : Prog C ε α} (hp : p.All P X)
    (hstep : ∀ {β : Type} (c : C β) (s : σ), P c → I s → I (exec c s).2 ∧ ∀ e, (exec c s).1 = .error e → X e)
    (hs : I s) : I (p.run exec s).2 ∧ ∀ e, (p.run exec s).1 = .error e → X e := by
  induction p generalizing s with
  | pure a => exact ⟨hs, fun e he => by cases he⟩
  | raise e => exact ⟨hs, fun e' he => by cases he; exact hp⟩
  | op c k ih =>
    obtain ⟨hI, hX⟩ := hstep c s hp.1 hs
    simp only [Prog.run]
    rcases hc : exec c s with ⟨e | b, s'⟩
    · rw [hc] at hI hX
      exact ⟨hI, fun e' he => by cases he; exact hX e rfl⟩
    · rw [hc] at hI
      exact ih b (hp.2 b) hI

end

/-! ## Interleaved -/

/-- The programs of several threads and the state they share. -/
abbrev Config (C : Type → Type) (ε σ : Type) := List (Prog C ε Unit) × σ

variable (exec)

/-- One command of one thread. The label is the command. -/
inductive Step : Config C ε σ → Sigma C → Config C ε σ → Prop
  | ok {ts : List (Prog C ε Unit)} {s s' : σ} {i : Nat} {β : Type} {c : C β} {k : β → Prog C ε Unit} {b : β} :
    ts[i]? = some (op c k) → exec c s = (.ok b, s') → Step (ts, s) ⟨β, c⟩ (ts.set i (k b), s')
  | error {ts : List (Prog C ε Unit)} {s s' : σ} {i : Nat} {β : Type} {c : C β} {k : β → Prog C ε Unit} {e : ε} :
    ts[i]? = some (op c k) → exec c s = (.error e, s') → Step (ts, s) ⟨β, c⟩ (ts.set i (raise e), s')

/-- A run of threads, with the commands in the order they were executed. -/
inductive Steps : Config C ε σ → List (Sigma C) → Config C ε σ → Prop
  | refl (x : Config C ε σ) : Steps x [] x
  | snoc {x y z : Config C ε σ} {tr : List (Sigma C)} {l : Sigma C} :
    Steps x tr y → Step exec y l z → Steps x (tr ++ [l]) z

/-- The next command of thread `i`, if it has one. -/
def advance (x : Config C ε σ) (i : Nat) : Config C ε σ × List (Sigma C) :=
  match x.1[i]? with
  | some (op c k) =>
    match exec c x.2 with
    | (.ok b, s') => ((x.1.set i (k b), s'), [⟨_, c⟩])
    | (.error e, s') => ((x.1.set i (raise e), s'), [⟨_, c⟩])
  | _ => (x, [])

/-- The run in which the threads take turns as a list says. -/
def schedule : List Nat → Config C ε σ → Config C ε σ × List (Sigma C)
  | [], x => (x, [])
  | i :: is, x =>
    let y := advance exec x i
    let z := schedule is y.1
    (z.1, y.2 ++ z.2)

variable {exec}

theorem Steps.advance {x y : Config C ε σ} {tr : List (Sigma C)} (h : Steps exec x tr y) (i : Nat) :
    Steps exec x (tr ++ (Prog.advance exec y i).2) (Prog.advance exec y i).1 := by
  obtain ⟨ts, s⟩ := y
  simp only [Prog.advance]
  split
  · next c k hi =>
    rcases he : exec c s with ⟨e | b, s'⟩
    · exact .snoc h (.error hi he)
    · exact .snoc h (.ok hi he)
  · simpa using h

theorem Steps.schedule {x : Config C ε σ} : ∀ (is : List Nat) {y : Config C ε σ} {tr : List (Sigma C)},
    Steps exec x tr y → Steps exec x (tr ++ (schedule exec is y).2) (schedule exec is y).1
  | [], _, _, h => by simpa [Prog.schedule] using h
  | i :: is, y, tr, h => by
    have := Steps.schedule is (h.advance i)
    simpa [Prog.schedule] using this

/-- A schedule is a run. -/
theorem steps_schedule (is : List Nat) (x : Config C ε σ) :
    Steps exec x (schedule exec is x).2 (schedule exec is x).1 := by
  simpa using Steps.schedule is (.refl x)

/-- What the threads owe, when one of them changes. -/
theorem filterMap_set_perm {τ ω : Type*} {f : τ → Option ω} {x y : τ} : ∀ {l : List τ} {i : Nat}, l[i]? = some x →
    ((f x).toList ++ (l.set i y).filterMap f).Perm ((f y).toList ++ l.filterMap f)
  | z :: l, 0, h => by
    simp only [List.getElem?_cons_zero, Option.some.injEq] at h
    subst h
    cases hz : f z <;> cases hy : f y <;> simp [hz, hy, List.Perm.swap]
  | z :: l, i + 1, h => by
    have ih := filterMap_set_perm (f := f) (y := y) (l := l) (i := i) (by simpa using h)
    cases hz : f z with
    | none => simpa [hz] using ih
    | some a =>
      simp only [List.set_cons_succ, List.filterMap_cons, hz]
      exact (List.perm_middle.trans (ih.cons a)).trans List.perm_middle.symm

/-- A program with nothing left to do. -/
def Done : Prog C ε α → Prop
  | op _ _ => False
  | pure _ | raise _ => True

instance : DecidablePred (Done : Prog C ε α → Prop)
  | op _ _ => .isFalse id
  | pure _ | raise _ => .isTrue trivial

end Prog

end Lib
