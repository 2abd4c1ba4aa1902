/-
Causally ordered delivery, in its own terms: messages have a sender and a
stamp (one counter a process), a log counts its messages by sender, and a
log is causal when each message was ready for the count before it.

`Causal.before`: what a delivered message's stamp counts was delivered
earlier. `Genuine` is a history of broadcasts stamped from their senders'
causal logs; over it, delivery respects happens-before (`Genuine.before`)
and a buffer in which nothing is ready, with nothing missing, holds
nothing new
(`Genuine.all_delivered`).
-/
import Mathlib.Data.List.Basic
import Mathlib.Data.List.Nodup
import Mathlib.Data.List.Count
import Mathlib.Data.List.Induction
import Mathlib.Logic.Relation
import Mathlib.Tactic.Ring

namespace Lib

section Log

variable {P M : Type*} [DecidableEq P] (sender : M → P) (stamp : M → P → ℤ)

/-- How many messages of a log are from `s`. -/
def delivered (l : List M) (s : P) : ℤ := l.countP (fun m => sender m = s)

/-- The next message of its sender, with nothing counted in its stamp that
`c` does not count. -/
def Ready (c : P → ℤ) (m : M) : Prop :=
  stamp m (sender m) = c (sender m) + 1 ∧ ∀ t, t ≠ sender m → stamp m t ≤ c t

/-- Each message was ready at its turn. -/
inductive Causal : List M → Prop
  | nil : Causal []
  | snoc {l m} : Causal l → Ready sender stamp (delivered sender l) m → Causal (l ++ [m])

variable {sender stamp}

@[simp] theorem delivered_nil (s : P) : delivered sender ([] : List M) s = 0 := rfl

theorem delivered_nonneg (sender : M → P) (l : List M) (s : P) : 0 ≤ delivered sender l s :=
  Int.natCast_nonneg _

@[simp] theorem delivered_append (l₁ l₂ : List M) (s : P) :
    delivered sender (l₁ ++ l₂) s = delivered sender l₁ s + delivered sender l₂ s := by
  simp [delivered, List.countP_append]

@[simp] theorem delivered_singleton (m : M) (s : P) :
    delivered sender [m] s = if sender m = s then 1 else 0 := by
  simp only [delivered, List.countP_singleton]
  split <;> simp_all

/-- A stamp equal to the count of the log it closes is ready for it. -/
theorem Ready.of_stamp {l : List M} {m : M}
    (h : ∀ t, stamp m t = delivered sender (l ++ [m]) t) : Ready sender stamp (delivered sender l) m := by
  refine ⟨by simp [h], fun t ht => ?_⟩
  simp [h, Ne.symm ht]

theorem Causal.of_append {l₁ : List M} : ∀ (l₂ : List M), Causal sender stamp (l₁ ++ l₂) →
    Causal sender stamp l₁ := by
  intro l₂
  induction l₂ using List.reverseRecOn with
  | nil => simp
  | append_singleton l₂ m ih =>
    intro h
    generalize hl : l₁ ++ (l₂ ++ [m]) = l at h
    cases h with
    | nil => simp at hl
    | snoc hc _ =>
      rw [← List.append_assoc] at hl
      obtain ⟨rfl, -⟩ := List.append_inj' hl rfl
      exact ih hc

theorem Causal.ready {l₁ l₂ : List M} {m : M} (h : Causal sender stamp (l₁ ++ m :: l₂)) :
    Ready sender stamp (delivered sender l₁) m := by
  have h' : Causal sender stamp (l₁ ++ [m]) := by
    apply Causal.of_append l₂
    simpa using h
  generalize hl : l₁ ++ [m] = l at h'
  cases h' with
  | nil => simp at hl
  | snoc _ hr =>
    obtain ⟨rfl, hm⟩ := List.append_inj' hl rfl
    cases hm
    exact hr

theorem delivered_map {f : M → M} (hf : ∀ m, sender (f m) = sender m) (l : List M) (s : P) :
    delivered sender (l.map f) s = delivered sender l s := by
  unfold delivered
  rw [List.countP_map]
  congr 2
  funext m
  simp [hf m]

/-- A log may hold other copies of its last messages. -/
theorem Causal.append_map {f : M → M} (hs : ∀ m, sender (f m) = sender m) (hst : ∀ m, stamp (f m) = stamp m)
    {l : List M} : ∀ {k : List M}, Causal sender stamp (l ++ k) → Causal sender stamp (l ++ k.map f) := by
  intro k
  induction k using List.reverseRecOn with
  | nil => simp
  | append_singleton k m ih =>
    intro h
    rw [← List.append_assoc] at h
    have hready : Ready sender stamp (delivered sender (l ++ k)) m := Causal.ready h
    obtain ⟨hseq, hoth⟩ := hready
    rw [List.map_append, ← List.append_assoc]
    refine .snoc (ih (h.of_append _)) ⟨?_, fun t ht => ?_⟩
    · simpa [hst, hs, delivered_map hs] using hseq
    · rw [hs] at ht
      simpa [hst, delivered_map hs] using hoth t ht

/-- A stamp never counts more than the log it stands in. -/
theorem Causal.stamp_le {l : List M} (h : Causal sender stamp l) {m : M} (hm : m ∈ l) (t : P) :
    stamp m t ≤ delivered sender l t := by
  obtain ⟨l₁, l₂, rfl⟩ := List.append_of_mem hm
  obtain ⟨hs, ho⟩ := h.ready
  have hl₂ := delivered_nonneg sender l₂ t
  have hsplit : delivered sender (l₁ ++ m :: l₂) t =
      delivered sender l₁ t + (if sender m = t then 1 else 0) + delivered sender l₂ t := by
    rw [← List.singleton_append, delivered_append, delivered_append, delivered_singleton]
    ring
  rw [hsplit]
  by_cases ht : t = sender m
  · subst ht
    simp only [if_true]
    omega
  · have := ho t ht
    simp only [Ne.symm ht, if_false]
    omega

/-- **Send order without a gap**: the messages of `s` in a causal log
carry `1, 2, …` in their own entry, in this order. -/
theorem Causal.numbered {l : List M} (h : Causal sender stamp l) (s : P) :
    (l.filter (fun m => sender m = s)).map (fun m => stamp m s) =
      (List.range (l.countP (fun m => sender m = s))).map (fun k : ℕ => (k : ℤ) + 1) := by
  induction h with
  | nil => rfl
  | snoc hc hr ih =>
    rename_i l m
    rw [List.filter_append, List.map_append, List.countP_append, ih]
    by_cases hm : sender m = s
    · subst hm
      have hseq : stamp m (sender m) = delivered sender l (sender m) + 1 := hr.1
      simp [List.range_succ, hseq, delivered]
    · simp [hm]

theorem Causal.exists_of_le {l : List M} (h : Causal sender stamp l) {s : P} {k : ℤ} (h1 : 1 ≤ k)
    (hk : k ≤ delivered sender l s) : ∃ m ∈ l, sender m = s ∧ stamp m s = k := by
  have hmem : k ∈ (l.filter (fun m => sender m = s)).map (fun m => stamp m s) := by
    rw [h.numbered]
    simp only [delivered] at hk
    have hlt : (k - 1).toNat < l.countP (fun m => sender m = s) := by omega
    have hcast : (((k - 1).toNat : ℕ) : ℤ) + 1 = k := by omega
    exact List.mem_map.2 ⟨(k - 1).toNat, List.mem_range.2 hlt, hcast⟩
  obtain ⟨m, hm, rfl⟩ := List.mem_map.1 hmem
  simp only [List.mem_filter, decide_eq_true_eq] at hm
  exact ⟨m, hm.1, hm.2, rfl⟩

/-- **What a stamp counts was delivered earlier**: all of it, the message
itself apart. -/
theorem Causal.before {l₁ l₂ : List M} {m : M} (h : Causal sender stamp (l₁ ++ m :: l₂)) {s : P} {k : ℤ}
    (h1 : 1 ≤ k) (hk : k ≤ stamp m s) (hne : s = sender m → k < stamp m s) :
    ∃ x ∈ l₁, sender x = s ∧ stamp x s = k := by
  have hc : Causal sender stamp l₁ := h.of_append _
  obtain ⟨hs, ho⟩ := h.ready
  apply hc.exists_of_le h1
  by_cases ht : s = sender m
  · subst ht
    have := hne rfl
    omega
  · exact le_trans hk (ho s ht)

/-- In a causal log a message is known by its sender and number. -/
theorem Causal.number_inj {l : List M} (h : Causal sender stamp l) :
    (l.map (fun m => (sender m, stamp m (sender m)))).Nodup := by
  induction h with
  | nil => simp
  | snoc hc hr ih =>
    rename_i l m
    rw [List.map_append]
    refine List.nodup_append.2 ⟨ih, by simp, fun x hx y hy he => ?_⟩
    simp only [List.map_cons, List.map_nil, List.mem_singleton] at hy
    obtain ⟨z, hz, rfl⟩ := List.mem_map.1 hx
    subst hy
    obtain ⟨hsz, hkz⟩ := Prod.mk.inj he
    have hle := hc.stamp_le hz (sender m)
    have hseq := hr.1
    rw [hsz] at hkz
    omega

end Log

section History

variable {I P M : Type*} [DecidableEq P] (ident : M → I) (sender : M → P) (stamp : M → P → ℤ)

/-- A broadcast message with its sender's log at that moment. -/
structure Broadcast (M : Type*) where
  msg : M
  past : List M
  deriving DecidableEq

/-- Two copies of one message. -/
def Copy (x y : M) : Prop := ident x = ident y ∧ sender x = sender y ∧ stamp x = stamp y

/-- `a` was in the log of `b`'s sender when `b` was broadcast. -/
def Parent (R : List (Broadcast M)) (a b : I) : Prop :=
  ∃ r ∈ R, ident r.msg = b ∧ ∃ x ∈ r.past, ident x = a

/-- The transitive closure of `Parent`. -/
def HappensBefore (R : List (Broadcast M)) : I → I → Prop := Relation.TransGen (Parent ident R)

/-- A history of broadcasts, oldest first: each stamped with the count of
its sender's causal log, itself included, under a fresh identity, its past
made of copies of earlier broadcasts. -/
inductive Genuine : List (Broadcast M) → Prop
  | nil : Genuine []
  | snoc {R r} : Genuine R → Causal sender stamp r.past →
      (∀ t, stamp r.msg t = delivered sender (r.past ++ [r.msg]) t) →
      (∀ x ∈ r.past, ∃ q ∈ R, Copy ident sender stamp x q.msg) →
      (∀ q ∈ R, ident q.msg ≠ ident r.msg) →
      (∀ q ∈ R, sender q.msg = sender r.msg → ∃ x ∈ r.past, ident x = ident q.msg) →
      Genuine (R ++ [r])

variable {ident sender stamp}

/-- What a history says of one of its broadcasts. -/
structure Broadcast.OK (ident : M → I) (sender : M → P) (stamp : M → P → ℤ) (R : List (Broadcast M))
    (r : Broadcast M) : Prop where
  causal : Causal sender stamp r.past
  stamped : ∀ t, stamp r.msg t = delivered sender (r.past ++ [r.msg]) t
  known : ∀ x ∈ r.past, ∃ q ∈ R, Copy ident sender stamp x q.msg

theorem Genuine.ok {R : List (Broadcast M)} (h : Genuine ident sender stamp R) :
    ∀ r ∈ R, r.OK ident sender stamp R := by
  induction h with
  | nil => simp
  | snoc _ hc hs hk _ _ ih =>
    intro r hr
    rcases List.mem_append.1 hr with hr | hr
    · obtain ⟨c, s, k⟩ := ih r hr
      refine ⟨c, s, fun x hx => ?_⟩
      obtain ⟨q, hq, hxq⟩ := k x hx
      exact ⟨q, List.mem_append_left _ hq, hxq⟩
    · cases List.mem_singleton.1 hr
      refine ⟨hc, hs, fun x hx => ?_⟩
      obtain ⟨q, hq, hxq⟩ := hk x hx
      exact ⟨q, List.mem_append_left _ hq, hxq⟩

/-- Identities are fresh. -/
theorem Genuine.ident_nodup {R : List (Broadcast M)} (h : Genuine ident sender stamp R) :
    (R.map (fun r => ident r.msg)).Nodup := by
  induction h with
  | nil => simp
  | snoc _ _ _ _ hf _ ih =>
    rw [List.map_append]
    refine List.nodup_append.2 ⟨ih, by simp, fun x hx y hy he => ?_⟩
    simp only [List.map_cons, List.map_nil, List.mem_singleton] at hy
    obtain ⟨q, hq, rfl⟩ := List.mem_map.1 hx
    exact hf q hq (he.trans hy)

theorem Genuine.ident_inj {R : List (Broadcast M)} (h : Genuine ident sender stamp R) {q r : Broadcast M}
    (hq : q ∈ R) (hr : r ∈ R) (he : ident q.msg = ident r.msg) : q = r :=
  List.inj_on_of_nodup_map h.ident_nodup hq hr he

/-- A later broadcast of one sender has a larger number. -/
theorem Genuine.number_inj {R : List (Broadcast M)} (h : Genuine ident sender stamp R) :
    ∀ {q r : Broadcast M}, q ∈ R → r ∈ R → sender q.msg = sender r.msg →
      stamp q.msg (sender q.msg) = stamp r.msg (sender r.msg) → q = r := by
  induction h with
  | nil => simp
  | snoc hg hc hs hk hf hown ih =>
    rename_i R r
    -- a message of the same sender in the past of `r` has a smaller number
    have hlt : ∀ q ∈ R, sender q.msg = sender r.msg → stamp q.msg (sender q.msg) < stamp r.msg (sender r.msg) := by
      intro q hq hqs
      obtain ⟨x, hx, hxq⟩ := hown q hq hqs
      obtain ⟨q', hq', hcopy⟩ := hk x hx
      obtain rfl : q' = q := hg.ident_inj hq' hq (hcopy.1.symm.trans hxq)
      have hle := hc.stamp_le hx (sender r.msg)
      have hr := hs (sender r.msg)
      rw [hcopy.2.2] at hle
      simp only [delivered_append, delivered_singleton, if_true] at hr
      rw [hqs]
      omega
    intro q q' hq hq' hse hne
    rcases List.mem_append.1 hq with hq | hq <;> rcases List.mem_append.1 hq' with hq' | hq'
    · exact ih hq hq' hse hne
    · cases List.mem_singleton.1 hq'
      exact absurd hne (hlt q hq hse).ne
    · cases List.mem_singleton.1 hq
      exact absurd hne (hlt q' hq' hse.symm).ne'
    · rw [List.mem_singleton.1 hq, List.mem_singleton.1 hq']

/-- The broadcasts of one sender are numbered `1, 2, …` in their order. -/
theorem Genuine.numbered {R : List (Broadcast M)} (h : Genuine ident sender stamp R) (s : P) :
    (R.filter (fun r => sender r.msg = s)).map (fun r => stamp r.msg s) =
      (List.range (R.countP (fun r => sender r.msg = s))).map (fun k : ℕ => (k : ℤ) + 1) := by
  induction h with
  | nil => rfl
  | snoc hg hc hs hk hf hown ih =>
    rename_i R r
    rw [List.filter_append, List.map_append, List.countP_append, ih]
    by_cases hr : sender r.msg = s
    · -- the past of `r` counts exactly the earlier broadcasts of its sender
      have hmem : ∀ k : ℤ, (∃ q ∈ R, sender q.msg = s ∧ stamp q.msg s = k) ↔
          1 ≤ k ∧ k ≤ R.countP (fun r => sender r.msg = s) := by
        intro k
        have := congrArg (k ∈ ·) ih
        simp only [List.mem_map, List.mem_filter, decide_eq_true_eq, List.mem_range, eq_iff_iff] at this
        constructor
        · intro hex
          obtain ⟨q, hq, hqs, hqk⟩ := hex
          obtain ⟨n, hn, rfl⟩ := this.1 ⟨q, ⟨hq, hqs⟩, hqk⟩
          omega
        · intro hex
          obtain ⟨h1, h2⟩ := hex
          obtain ⟨q, ⟨hq, hqs⟩, hqk⟩ := this.2 ⟨(k - 1).toNat, by omega, by omega⟩
          exact ⟨q, hq, hqs, hqk⟩
      have hle : (R.countP (fun r => sender r.msg = s) : ℤ) ≤ delivered sender r.past s := by
        by_cases h0 : (R.countP (fun r => sender r.msg = s) : ℤ) < 1
        · have := delivered_nonneg sender r.past s
          omega
        · obtain ⟨q, hq, hqs, hqk⟩ := (hmem _).2 ⟨by omega, le_refl _⟩
          obtain ⟨x, hx, hxq⟩ := hown q hq (hqs.trans hr.symm)
          obtain ⟨q', hq', hcopy⟩ := hk x hx
          obtain rfl : q' = q := hg.ident_inj hq' hq (hcopy.1.symm.trans hxq)
          rw [← hqk, ← hcopy.2.2]
          exact hc.stamp_le hx s
      have hge : delivered sender r.past s ≤ R.countP (fun r => sender r.msg = s) := by
        by_cases h0 : delivered sender r.past s < 1
        · omega
        · obtain ⟨x, hx, hxs, hxk⟩ := hc.exists_of_le (s := s) (by omega) le_rfl
          obtain ⟨q, hq, hcopy⟩ := hk x hx
          exact ((hmem _).1 ⟨q, hq, hcopy.2.1.symm.trans hxs, by rw [← hcopy.2.2]; exact hxk⟩).2
      have hst := hs s
      rw [delivered_append, delivered_singleton, if_pos hr] at hst
      have hval : stamp r.msg s = (R.countP (fun r => sender r.msg = s) : ℤ) + 1 := by omega
      simp [hr, List.range_succ, hval]
    · simp [hr]

/-- **Send order without a gap**: the messages of one sender in a causal
log of copies are its first broadcasts, in order. -/
theorem Genuine.sender_prefix {R : List (Broadcast M)} (h : Genuine ident sender stamp R) {l : List M}
    (hc : Causal sender stamp l) (hl : ∀ x ∈ l, ∃ q ∈ R, Copy ident sender stamp x q.msg) (s : P) :
    (l.filter (fun m => sender m = s)).map ident <+:
      (R.filter (fun r => sender r.msg = s)).map (fun r => ident r.msg) := by
  have hA := hc.numbered s
  have hB := h.numbered s
  have hlenA : (l.filter (fun m => sender m = s)).length = l.countP (fun m => sender m = s) := by
    simpa using congrArg List.length hA
  have hlenB : (R.filter (fun r => sender r.msg = s)).length = R.countP (fun r => sender r.msg = s) := by
    simpa using congrArg List.length hB
  -- the message in place `i` has number `i + 1` in both lists
  have hkey : ∀ i (hi : i < (l.filter (fun m => sender m = s)).length),
      ∃ hj : i < (R.filter (fun r => sender r.msg = s)).length,
        ident (l.filter (fun m => sender m = s))[i] = ident (R.filter (fun r => sender r.msg = s))[i].msg := by
    intro i hi
    have hnum : stamp (l.filter (fun m => sender m = s))[i] s = (i : ℤ) + 1 := by
      have := congrArg (·[i]?) hA
      simpa [hi, hlenA ▸ hi] using this
    have hmem := List.getElem_mem hi
    obtain ⟨hxl, hxs⟩ := List.mem_filter.1 hmem
    obtain ⟨q, hq, hcopy⟩ := hl _ hxl
    have hqs : sender q.msg = s := hcopy.2.1.symm.trans (by simpa using hxs)
    obtain ⟨j, hj, hjq⟩ := List.getElem_of_mem (List.mem_filter.2 ⟨hq, by simpa using hqs⟩ :
      q ∈ R.filter (fun r => sender r.msg = s))
    have hnumj : stamp (R.filter (fun r => sender r.msg = s))[j].msg s = (j : ℤ) + 1 := by
      have := congrArg (·[j]?) hB
      simpa [hj, hlenB ▸ hj] using this
    rw [hjq, ← hcopy.2.2, hnum] at hnumj
    obtain rfl : i = j := by omega
    exact ⟨hj, by rw [hjq]; exact hcopy.1⟩
  refine List.prefix_iff_getElem.2 ⟨?_, fun i hi => ?_⟩
  · by_contra hlt
    simp only [List.length_map, not_le] at hlt
    obtain ⟨hj, -⟩ := hkey _ hlt
    omega
  · obtain ⟨hj, he⟩ := hkey i (by simpa using hi)
    simpa using he

/-- The stamp of a message that happens before another is counted in the
other's past. -/
theorem Genuine.stamp_le_of_before {R : List (Broadcast M)} (h : Genuine ident sender stamp R) {a b : I}
    (hab : HappensBefore ident R a b) : ∀ {q r : Broadcast M}, q ∈ R → r ∈ R → ident q.msg = a →
      ident r.msg = b → ∀ t, stamp q.msg t ≤ delivered sender r.past t := by
  -- one step: a copy of `q` in the past of `r`
  have step : ∀ {a b : I}, Parent ident R a b → ∀ {q r : Broadcast M}, q ∈ R → r ∈ R →
      ident q.msg = a → ident r.msg = b → ∀ t, stamp q.msg t ≤ delivered sender r.past t := by
    rintro a b ⟨r', hr', hb, x, hx, ha⟩ q r hq hr hqa hrb t
    obtain rfl : r' = r := h.ident_inj hr' hr (hb.trans hrb.symm)
    obtain ⟨q', hq', hcopy⟩ := (h.ok r' hr').known x hx
    obtain rfl : q' = q := h.ident_inj hq' hq (hcopy.1.symm.trans (ha.trans hqa.symm))
    rw [← hcopy.2.2]
    exact (h.ok r' hr').causal.stamp_le hx t
  induction hab with
  | single hp => exact step hp
  | tail hac hp ih =>
    rename_i c b
    intro q r hq hr hqa hrb t
    obtain ⟨r', hr', hb, x, hx, hc⟩ := hp
    obtain ⟨y, hy, hcopy⟩ := (h.ok r' hr').known x hx
    have hyc : ident y.msg = c := hcopy.1.symm.trans hc
    have h1 := ih hq hy hqa hyc t
    have h2 := step ⟨r', hr', hb, x, hx, hc⟩ hy hr hyc hrb t
    have h3 := (h.ok y hy).stamped t
    have h4 := delivered_nonneg sender [y.msg] t
    rw [delivered_append] at h3
    omega

/-- Only broadcasts happen before anything. -/
theorem Genuine.exists_of_before {R : List (Broadcast M)} (h : Genuine ident sender stamp R) {a b : I}
    (hab : HappensBefore ident R a b) : ∃ q ∈ R, ident q.msg = a := by
  induction hab using Relation.TransGen.head_induction_on with
  | single hp =>
    obtain ⟨r, hr, -, x, hx, ha⟩ := hp
    obtain ⟨q, hq, hcopy⟩ := (h.ok r hr).known x hx
    exact ⟨q, hq, hcopy.1.symm.trans ha⟩
  | head hp _ _ =>
    obtain ⟨r, hr, -, x, hx, ha⟩ := hp
    obtain ⟨q, hq, hcopy⟩ := (h.ok r hr).known x hx
    exact ⟨q, hq, hcopy.1.symm.trans ha⟩

/-- **Causal delivery**: in a causal log of copies, what happens before a
message stands before it. -/
theorem Genuine.before {R : List (Broadcast M)} (h : Genuine ident sender stamp R) {l₁ l₂ : List M} {m : M}
    (hc : Causal sender stamp (l₁ ++ m :: l₂))
    (hl : ∀ x ∈ l₁ ++ m :: l₂, ∃ q ∈ R, Copy ident sender stamp x q.msg) {a : I}
    (hab : HappensBefore ident R a (ident m)) : ∃ x ∈ l₁, ident x = a := by
  obtain ⟨q, hq, hqa⟩ := h.exists_of_before hab
  obtain ⟨r, hr, hmr⟩ := hl m (by simp)
  have hle := h.stamp_le_of_before hab hq hr hqa hmr.1.symm
  -- `q` is counted in the stamp of `m`, below `m` itself
  have hstamp : ∀ t, stamp m t = delivered sender r.past t + if sender m = t then 1 else 0 := by
    intro t
    rw [hmr.2.2, (h.ok r hr).stamped t, delivered_append, delivered_singleton, hmr.2.1]
  have h1 : 1 ≤ stamp q.msg (sender q.msg) := by
    have hs := (h.ok q hq).stamped (sender q.msg)
    have hn := delivered_nonneg sender q.past (sender q.msg)
    rw [delivered_append, delivered_singleton, if_pos rfl] at hs
    omega
  have hk : stamp q.msg (sender q.msg) ≤ stamp m (sender q.msg) := by
    have := hle (sender q.msg)
    rw [hstamp]
    split <;> omega
  have hne : sender q.msg = sender m → stamp q.msg (sender q.msg) < stamp m (sender q.msg) := by
    intro he
    have := hle (sender q.msg)
    rw [hstamp, if_pos he.symm]
    omega
  obtain ⟨x, hx, hxs, hxk⟩ := hc.before h1 hk hne
  obtain ⟨q', hq', hcopy⟩ := hl x (List.mem_append_left _ hx)
  have hqq : q' = q := by
    refine h.number_inj hq' hq (hcopy.2.1.symm.trans hxs) ?_
    rw [← hcopy.2.2, ← hcopy.2.1, hxs, hxk]
  exact ⟨x, hx, by rw [hcopy.1, hqq, hqa]⟩

/-- A broadcast whose past a causal log counts, and that is not in the log,
is the next message for it. -/
theorem Genuine.ready_of_past {R : List (Broadcast M)} (h : Genuine ident sender stamp R) {l : List M}
    (hc : Causal sender stamp l) (hl : ∀ x ∈ l, ∃ q ∈ R, Copy ident sender stamp x q.msg) {r : Broadcast M} (hr : r ∈ R)
    {c : M} (hcopy : Copy ident sender stamp c r.msg)
    (hcount : ∀ t, delivered sender r.past t ≤ delivered sender l t) (hnot : ¬ ∃ x ∈ l, ident x = ident r.msg) :
    Ready sender stamp (delivered sender l) c := by
  have hps := (h.ok r hr).stamped
  have hst : ∀ t, stamp c t = delivered sender r.past t + if sender c = t then 1 else 0 := by
    intro t
    rw [hcopy.2.2, hps t, delivered_append, delivered_singleton, hcopy.2.1]
  refine ⟨?_, fun t ht => ?_⟩
  · rw [hst, if_pos rfl]
    have hle := hcount (sender c)
    by_contra hne
    -- otherwise the log counts a message with the number of `c`
    obtain ⟨x, hx, hxs, hxk⟩ := hc.exists_of_le (s := sender c)
      (k := delivered sender r.past (sender c) + 1)
      (by have := delivered_nonneg sender r.past (sender c); omega) (by omega)
    obtain ⟨q', hq', hxq'⟩ := hl x hx
    have hqr : q' = r := by
      refine h.number_inj hq' hr ?_ ?_
      · rw [← hxq'.2.1, hxs, hcopy.2.1]
      · rw [← hxq'.2.2, ← hxq'.2.1, hxs, hxk, ← hcopy.2.1, hps, delivered_append, delivered_singleton,
          if_pos hcopy.2.1.symm]
    exact hnot ⟨x, hx, by rw [hxq'.1, hqr]⟩
  · rw [hst, if_neg (Ne.symm ht), add_zero]
    exact hcount t

/-- A causal log that holds the past of a broadcast counts at least what the
past does. -/
theorem Genuine.delivered_past_le {R : List (Broadcast M)} (h : Genuine ident sender stamp R) {l : List M}
    (hc : Causal sender stamp l) (hl : ∀ x ∈ l, ∃ q ∈ R, Copy ident sender stamp x q.msg) {past : List M}
    (hpc : Causal sender stamp past)
    (hpast : ∀ x ∈ past, ∃ q ∈ R, Copy ident sender stamp x q.msg ∧ ∃ y ∈ l, ident y = ident q.msg) (t : P) :
    delivered sender past t ≤ delivered sender l t := by
  by_cases h0 : delivered sender past t < 1
  · have := delivered_nonneg sender l t
    omega
  · obtain ⟨x, hx, -, hxk⟩ := hpc.exists_of_le (by omega) le_rfl (s := t)
    obtain ⟨q, hq, hxq, y, hy, hyq⟩ := hpast x hx
    obtain ⟨q', hq', hyq'⟩ := hl y hy
    obtain rfl : q' = q := h.ident_inj hq' hq (hyq'.1.symm.trans hyq)
    rw [← hxk, hxq.2.2, ← hyq'.2.2]
    exact hc.stamp_le hy t

/-- **No stuck message**: with every broadcast either in a causal log or
in a buffer, and nothing in the buffer ready for the log, every broadcast
is in the log. -/
theorem Genuine.all_delivered {R : List (Broadcast M)} (h : Genuine ident sender stamp R) {l b : List M}
    (hc : Causal sender stamp l) (hl : ∀ x ∈ l, ∃ q ∈ R, Copy ident sender stamp x q.msg)
    (hb : ∀ x ∈ b, ∃ q ∈ R, Copy ident sender stamp x q.msg)
    (hall : ∀ q ∈ R, (∃ x ∈ l, ident x = ident q.msg) ∨ ∃ x ∈ b, ident x = ident q.msg)
    (hready : ∀ x ∈ b, ¬ Ready sender stamp (delivered sender l) x) :
    ∀ q ∈ R, ∃ x ∈ l, ident x = ident q.msg := by
  -- by the order of the history: the past of a broadcast is settled before it
  suffices key : ∀ S T : List (Broadcast M), R = S ++ T → Genuine ident sender stamp S →
      ∀ q ∈ S, ∃ x ∈ l, ident x = ident q.msg from key R [] (by simp) h
  intro S T hST hS
  induction hS generalizing T with
  | nil => simp
  | snoc hg hpc hps hpk hpf hpo ih =>
    rename_i S r
    have ih' := ih (r :: T) (by simpa using hST)
    have hrR : r ∈ R := by simp [hST]
    intro q hq
    rcases List.mem_append.1 hq with hq | hq
    · exact ih' q hq
    cases List.mem_singleton.1 hq
    rcases hall r hrR with hx | ⟨c, hcb, hcr⟩
    · exact hx
    -- the buffered copy would be ready if it were not delivered
    by_contra hnot
    obtain ⟨r', hr', hcopy⟩ := hb c hcb
    obtain rfl : r' = r := h.ident_inj hr' hrR (hcopy.1.symm.trans hcr)
    have hcount := h.delivered_past_le hc hl hpc fun x hx => by
      obtain ⟨q, hqS, hxq⟩ := hpk x hx
      exact ⟨q, by simp [hST, hqS], hxq, ih' q hqS⟩
    exact hready c hcb (h.ready_of_past hc hl hrR hcopy hcount hnot)

end History

end Lib
