/-
A failure detector in two stages, for one who is watched: signs of life and
checks, each at a time.

A check that comes too long after the last sign suspects, and a check that
comes too long after the suspicion gives up, for good; a sign of life takes
a suspicion back. `run_eq_gone_iff` and `news_eq_nil_iff` say of which
sequences of signs and checks a watch is given up, and which raise no
suspicion.
-/
import Mathlib.Algebra.Order.Group.Defs
import Mathlib.Data.List.Induction

namespace Lib

/-- What a watch sees: life, or the time at which somebody looks. -/
inductive Sign (T : Type*)
  | heard (at_ : T)
  | checked (at_ : T)
  deriving DecidableEq, Repr

/-- The time of a sign. -/
def Sign.time {T : Type*} : Sign T → T
  | heard t | checked t => t

/-- A sign of life. -/
def Sign.IsHeard {T : Type*} : Sign T → Prop
  | heard _ => True
  | checked _ => False

/-- How a watch stands: alive since a sign of life, suspected since a check,
or given up. -/
inductive Watch (T : Type*)
  | alive (since : T)
  | suspected (since : T)
  | gone
  deriving DecidableEq, Repr

/-- What a watch reports. -/
inductive News
  | suspected
  | recovered
  | gaveUp
  deriving DecidableEq, Repr

/-- The last sign of life. -/
def lastHeard {T : Type*} (s : T) : List (Sign T) → T
  | [] => s
  | .heard t :: l => lastHeard t l
  | .checked _ :: l => lastHeard s l

namespace Watch

variable {T : Type*} [AddCommGroup T] [LinearOrder T]

/-- One sign: silence longer than `quiet` is suspected, and a suspicion
older than `dead` is final. -/
def step (quiet dead : T) : Watch T → Sign T → Watch T
  | gone, _ => gone
  | alive _, .heard t => alive t
  | suspected _, .heard t => alive t
  | alive s, .checked t => if t - s > quiet then suspected t else alive s
  | suspected s, .checked t => if t - s > dead then gone else suspected s

/-- What one sign makes the watch report. -/
def report (quiet dead : T) : Watch T → Sign T → List News
  | gone, _ => []
  | alive _, .heard _ => []
  | suspected _, .heard _ => [.recovered]
  | alive s, .checked t => if t - s > quiet then [.suspected] else []
  | suspected s, .checked t => if t - s > dead then [.gaveUp] else []

/-- A sequence of signs. -/
def run (quiet dead : T) (w : Watch T) (l : List (Sign T)) : Watch T := l.foldl (step quiet dead) w

/-- What a sequence of signs makes the watch report. -/
def news (quiet dead : T) : Watch T → List (Sign T) → List News
  | _, [] => []
  | w, x :: l => w.report quiet dead x ++ news quiet dead (w.step quiet dead x) l

/-- Silence that lasts: a check finds the last sign of life too old, and a
later one, with no sign of life in between, finds that check too old. -/
def Silenced (quiet dead s : T) (l : List (Sign T)) : Prop :=
  ∃ pre t₁ mid t₂ post, l = pre ++ .checked t₁ :: (mid ++ .checked t₂ :: post) ∧
    t₁ - lastHeard s pre > quiet ∧ (∀ x ∈ mid, ¬ x.IsHeard) ∧ t₂ - t₁ > dead

variable {quiet dead s : T} {w : Watch T} {l : List (Sign T)}

omit [AddCommGroup T] [LinearOrder T] in
theorem lastHeard_append (s : T) : ∀ l l' : List (Sign T), lastHeard s (l ++ l') = lastHeard (lastHeard s l) l'
  | [], _ => rfl
  | .heard t :: l, l' => lastHeard_append t l l'
  | .checked _ :: l, l' => lastHeard_append s l l'

theorem run_append (w : Watch T) (l l' : List (Sign T)) :
    w.run quiet dead (l ++ l') = (w.run quiet dead l).run quiet dead l' := List.foldl_append

theorem news_append : ∀ (w : Watch T) (l l' : List (Sign T)),
    w.news quiet dead (l ++ l') = w.news quiet dead l ++ (w.run quiet dead l).news quiet dead l'
  | _, [], _ => rfl
  | w, x :: l, l' => by
    rw [List.cons_append, news, news, news_append, List.append_assoc]
    rfl

@[simp] theorem run_gone : ∀ l : List (Sign T), gone.run quiet dead l = gone
  | [] => rfl
  | _ :: l => run_gone l

@[simp] theorem news_gone : ∀ l : List (Sign T), gone.news quiet dead l = []
  | [] => rfl
  | _ :: l => news_gone l

/-! ## What a watch remembers -/

/-- A watch has its times from the signs. -/
def Remembers (quiet dead s : T) (l : List (Sign T)) : Watch T → Prop
  | alive r => r = lastHeard s l
  | suspected r => ∃ pre mid, l = pre ++ .checked r :: mid ∧ r - lastHeard s pre > quiet ∧ ∀ x ∈ mid, ¬ x.IsHeard
  | gone => Silenced quiet dead s l

theorem Silenced.snoc (h : Silenced quiet dead s l) (x : Sign T) : Silenced quiet dead s (l ++ [x]) := by
  obtain ⟨pre, t₁, mid, t₂, post, rfl, hq, hm, hd⟩ := h
  exact ⟨pre, t₁, mid, t₂, post ++ [x], by simp, hq, hm, hd⟩

theorem Remembers.snoc (h : Remembers quiet dead s l w) (x : Sign T) :
    Remembers quiet dead s (l ++ [x]) (w.step quiet dead x) := by
  match w, x with
  | gone, x => exact Silenced.snoc h x
  | alive r, .heard t => simp [step, Remembers, lastHeard_append, lastHeard]
  | suspected r, .heard t => simp [step, Remembers, lastHeard_append, lastHeard]
  | alive r, .checked t =>
    have hr : r = lastHeard s l := h
    rw [step]
    split
    · next hlate => exact ⟨l, [], rfl, hr ▸ hlate, nofun⟩
    · simpa [Remembers, lastHeard_append, lastHeard] using hr
  | suspected r, .checked t =>
    obtain ⟨pre, mid, rfl, hq, hm⟩ := h
    rw [step]
    split
    · next hlate => exact ⟨pre, r, mid, t, [], by simp, hq, hm, hlate⟩
    · refine ⟨pre, mid ++ [.checked t], by simp, hq, fun x hx => ?_⟩
      rcases List.mem_append.1 hx with hx | hx
      · exact hm x hx
      · rw [List.mem_singleton.1 hx]
        exact id

theorem remembers_run (s : T) (l : List (Sign T)) :
    Remembers quiet dead s l ((alive s).run quiet dead l) := by
  induction l using List.reverseRecOn with
  | nil => rfl
  | append_singleton l x ih =>
    rw [run_append]
    exact ih.snoc x

/-! ## Giving up -/

/-- The watch is given up, or suspected at most since `t`. -/
def By (t : T) : Watch T → Prop
  | alive _ => False
  | suspected r => r ≤ t
  | gone => True

theorem By.step {t : T} (h : By t w) {x : Sign T} (hx : ¬ x.IsHeard) : By t (w.step quiet dead x) := by
  match w, x with
  | gone, _ => exact trivial
  | suspected r, .heard _ => exact absurd trivial hx
  | suspected r, .checked t' =>
    rw [Watch.step]
    split
    · exact trivial
    · exact h

theorem By.run {t : T} : ∀ {l : List (Sign T)} {w : Watch T}, By t w → (∀ x ∈ l, ¬ x.IsHeard) →
    By t (w.run quiet dead l)
  | [], _, h, _ => h
  | x :: l, w, h, hl => by
    have hrest : By t ((w.step quiet dead x).run quiet dead l) :=
      By.run (By.step h (hl x (by simp))) fun y hy => hl y (List.mem_cons_of_mem _ hy)
    exact hrest

/-- After a check that comes too late. -/
theorem by_of_late {pre : List (Sign T)} {t : T} (hs : ∀ x ∈ pre, x.time ≤ t) (hq : t - lastHeard s pre > quiet) :
    By t (((alive s).run quiet dead pre).step quiet dead (.checked t)) := by
  have h : Remembers quiet dead s pre ((alive s).run quiet dead pre) := remembers_run s pre
  match hw : (alive s).run quiet dead pre with
  | gone => exact trivial
  | alive r =>
    rw [hw] at h
    have hr : r = lastHeard s pre := h
    rw [step, if_pos (hr ▸ hq)]
    exact le_refl t
  | suspected r =>
    rw [hw] at h
    obtain ⟨a, b, rfl, -, -⟩ := h
    exact By.step (show By t (suspected r) from hs (.checked r) (by simp)) id

/-- **When a watch is given up.** -/
theorem run_eq_gone_iff [IsOrderedAddMonoid T] (hl : l.Pairwise (·.time ≤ ·.time)) :
    (alive s).run quiet dead l = gone ↔ Silenced quiet dead s l := by
  constructor
  · intro hg
    have h : Remembers quiet dead s l ((alive s).run quiet dead l) := remembers_run s l
    rwa [hg] at h
  · rintro ⟨pre, t₁, mid, t₂, post, rfl, hq, hm, hd⟩
    have hpre : ∀ x ∈ pre, x.time ≤ t₁ := fun x hx =>
      (List.pairwise_append.1 hl).2.2 x hx (.checked t₁) (by simp)
    have hby : By t₁ ((((alive s).run quiet dead pre).step quiet dead (.checked t₁)).run quiet dead mid) :=
      (by_of_late hpre hq).run hm
    rw [run_append, ← List.cons_append, run_append]
    rw [show ((alive s).run quiet dead pre).run quiet dead (.checked t₁ :: mid) =
      (((alive s).run quiet dead pre).step quiet dead (.checked t₁)).run quiet dead mid from rfl]
    match hw : (((alive s).run quiet dead pre).step quiet dead (.checked t₁)).run quiet dead mid with
    | gone => exact run_gone _
    | alive r => rw [hw] at hby; exact hby.elim
    | suspected r =>
      rw [hw] at hby
      have hlate : t₂ - r > dead := lt_of_lt_of_le hd (sub_le_sub_left hby t₂)
      show (((suspected r).step quiet dead (.checked t₂)).run quiet dead post) = gone
      rw [step, if_pos hlate, run_gone]

/-! ## Suspicion -/

/-- **When nothing is reported**: no check comes too late, and so the watch
stays alive. -/
theorem news_eq_nil_iff : ∀ {l : List (Sign T)} {s : T}, (alive s).news quiet dead l = [] ↔
    ∀ pre t post, l = pre ++ .checked t :: post → t - lastHeard s pre ≤ quiet
  | [], s => by simp [news]
  | .heard r :: l, s => by
    rw [news, report, List.nil_append, step, news_eq_nil_iff]
    constructor
    · intro h pre t post hl
      rcases List.cons_eq_append_iff.1 hl with ⟨-, hx⟩ | ⟨pre, rfl, hrest⟩
      · cases hx
      · exact h pre t post hrest
    · intro h pre t post hl
      exact h (.heard r :: pre) t post (by rw [hl]; rfl)
  | .checked r :: l, s => by
    by_cases hlate : r - s > quiet
    · rw [news, report, if_pos hlate]
      refine ⟨fun h => by simp at h, fun h => absurd (h [] r l rfl) (not_le.2 hlate)⟩
    · rw [news, report, if_neg hlate, List.nil_append, step, if_neg hlate, news_eq_nil_iff]
      constructor
      · intro h pre t post hl
        rcases List.cons_eq_append_iff.1 hl with ⟨rfl, hx⟩ | ⟨pre, rfl, hrest⟩
        · obtain ⟨hrt, -⟩ := List.cons.inj hx
          cases hrt
          exact not_lt.1 hlate
        · exact h pre t post hrest
      · intro h pre t post hl
        exact h (.checked r :: pre) t post (by rw [hl]; rfl)

/-- A watch that reports nothing is alive. -/
theorem run_of_news_eq_nil : ∀ {l : List (Sign T)} {s : T}, (alive s).news quiet dead l = [] →
    ∃ r, (alive s).run quiet dead l = alive r
  | [], s, _ => ⟨s, rfl⟩
  | .heard r :: l, s, h => run_of_news_eq_nil (l := l) (s := r) (by simpa [news, report, step] using h)
  | .checked r :: l, s, h => by
    by_cases hlate : r - s > quiet
    · simp [news, report, hlate] at h
    · obtain ⟨r', hr'⟩ := run_of_news_eq_nil (l := l) (s := s) (by simpa [news, report, step, hlate] using h)
      refine ⟨r', ?_⟩
      rw [← hr', run, List.foldl_cons, step, if_neg hlate]
      rfl

/-- A watch is given up once, if it is. -/
theorem count_gaveUp : ∀ {l : List (Sign T)} {w : Watch T}, w ≠ gone →
    (w.news quiet dead l).count .gaveUp = if w.run quiet dead l = gone then 1 else 0
  | [], w, h => by simp [news, run, h]
  | x :: l, w, h => by
    have hrun : w.run quiet dead (x :: l) = (w.step quiet dead x).run quiet dead l := rfl
    rw [news, List.count_append, hrun]
    by_cases hg : w.step quiet dead x = gone
    · -- the report that goes with it
      have hrep : w.report quiet dead x = [.gaveUp] := by
        match w, x with
        | alive _, .heard _ => cases hg
        | suspected _, .heard _ => cases hg
        | alive r, .checked t =>
          rw [step] at hg
          split at hg <;> cases hg
        | suspected r, .checked t =>
          rw [step] at hg
          split at hg
          · next hlate => rw [report, if_pos hlate]
          · cases hg
      simp [hrep, hg]
    · have hrep : (w.report quiet dead x).count .gaveUp = 0 := by
        match w, x with
        | alive _, .heard _ => rfl
        | suspected _, .heard _ => rfl
        | alive r, .checked t =>
          rw [report]
          split <;> rfl
        | suspected r, .checked t =>
          rw [report]
          split
          · next hlate => exact absurd (by rw [step, if_pos hlate]) hg
          · rfl
      rw [hrep, Nat.zero_add, count_gaveUp hg]

end Watch

end Lib
