/-
The hold-back queue (`HoldBackQueue` of `distribution/vector_clock.py`).

`drain` flushes what has waited too long, then releases ready messages pass
after pass until a pass releases none. `drain_perm`: what it returns and
what it keeps are the old queue. `drain_fixpoint`: nothing it keeps is
ready for the clock it leaves. `drain_readyRun`: when nothing has waited
too long, each message was ready at its turn.
-/
import PeerChat.Distribution.VectorClock
import Mathlib.Data.List.Perm.Basic

namespace PeerChat

open Lib

/-- A held message and the time it was enqueued. -/
abbrev Entry := Time × Message

/-- `HoldBackQueue`. -/
structure HoldBackQueue where
  queue : List Entry
  timeout : Time
  deriving DecidableEq, Repr

/-- What a pass over the queue leaves: the clock, the released messages in
order and the entries kept. -/
structure Drained where
  vc : VectorClock
  released : List Message
  queue : List Entry
  deriving DecidableEq, Repr

namespace HoldBackQueue

/-- `HoldBackQueue.add`. -/
def add (h : HoldBackQueue) (now : Time) (msg : Message) : HoldBackQueue :=
  { h with queue := h.queue ++ [(now, msg)] }

/-- The loop both halves of `drain` run over the queue: an entry that `p`
selects is merged into the clock and released, any other one is kept. -/
def sweep (p : VectorClock → Entry → Bool) : List Entry → VectorClock → Drained
  | [], vc => ⟨vc, [], []⟩
  | e :: q, vc =>
    if p vc e then
      let d := sweep p q (vc.merge e.2.vectorClock)
      { d with released := e.2 :: d.released }
    else
      let d := sweep p q vc
      { d with queue := e :: d.queue }

/-- The entries the first loop of `drain` flushes. -/
def expired (now timeout : Time) (_ : VectorClock) (e : Entry) : Bool := now - e.1 > timeout

/-- The entries the second loop of `drain` releases. -/
def ready (vc : VectorClock) (e : Entry) : Bool := vc.isReady e.2

/-- `while changed` of `drain`. Each pass but the last shortens the queue,
so its length bounds the passes. -/
def drainLoop : Nat → List Entry → VectorClock → Drained
  | 0, q, vc => ⟨vc, [], q⟩
  | n + 1, q, vc =>
    let d := sweep ready q vc
    if d.released.isEmpty then d
    else
      let d' := drainLoop n d.queue d.vc
      { d' with released := d.released ++ d'.released }

/-- `HoldBackQueue.drain`. -/
def drain (h : HoldBackQueue) (now : Time) (vc : VectorClock) : Drained :=
  let f := sweep (expired now h.timeout) h.queue vc
  let d := drainLoop (f.queue.length + 1) f.queue f.vc
  { d with released := f.released ++ d.released }

/-! ## One pass -/

variable {p : VectorClock → Entry → Bool}

theorem sweep_cons_pos {e : Entry} {q : List Entry} {vc : VectorClock} (h : p vc e = true) :
    sweep p (e :: q) vc =
      { sweep p q (vc.merge e.2.vectorClock) with
        released := e.2 :: (sweep p q (vc.merge e.2.vectorClock)).released } := by
  simp only [sweep, h, if_true]

theorem sweep_cons_neg {e : Entry} {q : List Entry} {vc : VectorClock} (h : p vc e = false) :
    sweep p (e :: q) vc = { sweep p q vc with queue := e :: (sweep p q vc).queue } := by
  simp only [sweep, h, Bool.false_eq_true, if_false]

theorem sweep_perm : ∀ (q : List Entry) (vc : VectorClock),
    ((sweep p q vc).released ++ (sweep p q vc).queue.map Prod.snd).Perm (q.map Prod.snd)
  | [], _ => by simp [sweep]
  | e :: q, vc => by
    cases h : p vc e with
    | true =>
      rw [sweep_cons_pos h]
      exact (sweep_perm q _).cons _
    | false =>
      rw [sweep_cons_neg h]
      refine List.Perm.trans ?_ ((sweep_perm q vc).cons e.2)
      simp [List.perm_middle]

/-- The clock after a pass is the old one with the released stamps merged
in turn. -/
theorem sweep_vc : ∀ (q : List Entry) (vc : VectorClock),
    (sweep p q vc).vc = (sweep p q vc).released.foldl (fun c m => c.merge m.vectorClock) vc
  | [], _ => by simp [sweep]
  | e :: q, vc => by
    cases h : p vc e with
    | true =>
      rw [sweep_cons_pos h]
      exact sweep_vc q _
    | false =>
      rw [sweep_cons_neg h]
      exact sweep_vc q vc

/-- A pass that releases nothing found nothing to release. -/
theorem sweep_released_nil : ∀ {q : List Entry} {vc : VectorClock}, (sweep p q vc).released = [] →
    (sweep p q vc).vc = vc ∧ (sweep p q vc).queue = q ∧ ∀ e ∈ q, p vc e = false
  | [], _, _ => by simp [sweep]
  | e :: q, vc, hnil => by
    cases h : p vc e with
    | true =>
      rw [sweep_cons_pos h] at hnil
      exact absurd hnil (by simp)
    | false =>
      rw [sweep_cons_neg h] at hnil ⊢
      obtain ⟨h1, h2, h3⟩ := sweep_released_nil (q := q) hnil
      refine ⟨h1, by rw [h2], fun e' he' => ?_⟩
      rcases List.mem_cons.1 he' with rfl | he'
      · exact h
      · exact h3 e' he'

/-- A pass with nothing to release changes nothing. -/
theorem sweep_of_none : ∀ {q : List Entry} {vc : VectorClock}, (∀ e ∈ q, p vc e = false) →
    sweep p q vc = ⟨vc, [], q⟩
  | [], _, _ => rfl
  | e :: q, vc, h => by
    rw [sweep_cons_neg (h e (by simp)), sweep_of_none (fun e' he' => h e' (by simp [he']))]

/-- Each message of a list is ready for the clock with the ones before it
merged in. -/
def ReadyRun : VectorClock → List Message → Prop
  | _, [] => True
  | vc, m :: ms => vc.isReady m = true ∧ ReadyRun (vc.merge m.vectorClock) ms

theorem ReadyRun.append : ∀ {ms ms' : List Message} {vc : VectorClock}, ReadyRun vc ms →
    ReadyRun (ms.foldl (fun c m => c.merge m.vectorClock) vc) ms' → ReadyRun vc (ms ++ ms')
  | [], _, _, _, h' => h'
  | _ :: _, _, _, h, h' => ⟨h.1, ReadyRun.append h.2 h'⟩

theorem sweep_readyRun : ∀ (q : List Entry) (vc : VectorClock), ReadyRun vc (sweep ready q vc).released
  | [], _ => by simp [sweep, ReadyRun]
  | e :: q, vc => by
    cases h : ready vc e with
    | true =>
      rw [sweep_cons_pos h]
      exact ⟨h, sweep_readyRun q _⟩
    | false =>
      rw [sweep_cons_neg h]
      exact sweep_readyRun q vc

/-! ## The loop -/

theorem drainLoop_succ_nil {n : Nat} {q : List Entry} {vc : VectorClock}
    (h : (sweep ready q vc).released = []) : drainLoop (n + 1) q vc = ⟨vc, [], q⟩ := by
  obtain ⟨h1, h2, -⟩ := sweep_released_nil h
  simp only [drainLoop, h, List.isEmpty_nil, if_true]
  generalize sweep ready q vc = d at h h1 h2
  obtain ⟨a, b, c⟩ := d
  simp_all

theorem drainLoop_succ_cons {n : Nat} {q : List Entry} {vc : VectorClock}
    (h : (sweep ready q vc).released ≠ []) :
    drainLoop (n + 1) q vc =
      { drainLoop n (sweep ready q vc).queue (sweep ready q vc).vc with
        released := (sweep ready q vc).released ++
          (drainLoop n (sweep ready q vc).queue (sweep ready q vc).vc).released } := by
  simp only [drainLoop, List.isEmpty_iff, h, if_false]

theorem drainLoop_perm : ∀ (n : Nat) (q : List Entry) (vc : VectorClock),
    ((drainLoop n q vc).released ++ (drainLoop n q vc).queue.map Prod.snd).Perm (q.map Prod.snd)
  | 0, q, _ => by simp [drainLoop]
  | n + 1, q, vc => by
    by_cases h : (sweep ready q vc).released = []
    · rw [drainLoop_succ_nil h]; simp
    · rw [drainLoop_succ_cons h]
      simp only [List.append_assoc]
      exact ((drainLoop_perm n _ _).append_left _).trans (sweep_perm q vc)

theorem drainLoop_vc : ∀ (n : Nat) (q : List Entry) (vc : VectorClock),
    (drainLoop n q vc).vc = (drainLoop n q vc).released.foldl (fun c m => c.merge m.vectorClock) vc
  | 0, _, _ => rfl
  | n + 1, q, vc => by
    by_cases h : (sweep ready q vc).released = []
    · rw [drainLoop_succ_nil h]; rfl
    · rw [drainLoop_succ_cons h]
      simp only [List.foldl_append, ← sweep_vc q vc]
      exact drainLoop_vc n _ _

theorem drainLoop_readyRun : ∀ (n : Nat) (q : List Entry) (vc : VectorClock),
    ReadyRun vc (drainLoop n q vc).released
  | 0, _, _ => trivial
  | n + 1, q, vc => by
    by_cases h : (sweep ready q vc).released = []
    · rw [drainLoop_succ_nil h]; exact trivial
    · rw [drainLoop_succ_cons h]
      refine (sweep_readyRun q vc).append ?_
      rw [← sweep_vc]
      exact drainLoop_readyRun n _ _

/-- Every pass but the last takes an entry out, so the fuel is enough. -/
theorem drainLoop_fixpoint : ∀ (n : Nat) (q : List Entry) (vc : VectorClock), q.length < n →
    ∀ e ∈ (drainLoop n q vc).queue, (drainLoop n q vc).vc.isReady e.2 = false
  | n + 1, q, vc, hn => by
    by_cases h : (sweep ready q vc).released = []
    · rw [drainLoop_succ_nil h]
      exact (sweep_released_nil h).2.2
    · rw [drainLoop_succ_cons h]
      refine drainLoop_fixpoint n _ _ ?_
      have hlen := (sweep_perm (p := ready) q vc).length_eq
      have hpos := List.length_pos_iff.2 h
      simp only [List.length_append, List.length_map] at hlen
      omega

/-! ## The whole drain -/

theorem drain_perm (h : HoldBackQueue) (now : Time) (vc : VectorClock) :
    ((h.drain now vc).released ++ (h.drain now vc).queue.map Prod.snd).Perm (h.queue.map Prod.snd) := by
  unfold drain
  simp only [List.append_assoc]
  exact ((drainLoop_perm _ _ _).append_left _).trans (sweep_perm h.queue vc)

theorem drain_vc (h : HoldBackQueue) (now : Time) (vc : VectorClock) :
    (h.drain now vc).vc = (h.drain now vc).released.foldl (fun c m => c.merge m.vectorClock) vc := by
  unfold drain
  simp only [List.foldl_append, ← sweep_vc]
  exact drainLoop_vc _ _ _

/-- **The drain reaches its fixpoint.** -/
theorem drain_fixpoint (h : HoldBackQueue) (now : Time) (vc : VectorClock) :
    ∀ e ∈ (h.drain now vc).queue, (h.drain now vc).vc.isReady e.2 = false := by
  unfold drain
  exact drainLoop_fixpoint _ _ _ (Nat.lt_succ_self _)

/-- With nothing past the timeout, only ready messages are released. -/
theorem drain_readyRun {h : HoldBackQueue} {now : Time} (hto : ∀ e ∈ h.queue, now - e.1 ≤ h.timeout)
    (vc : VectorClock) : ReadyRun vc (h.drain now vc).released := by
  have hnone : sweep (expired now h.timeout) h.queue vc = ⟨vc, [], h.queue⟩ := by
    refine sweep_of_none fun e he => ?_
    simp only [expired, decide_eq_false_iff_not]
    exact not_lt.2 (hto e he)
  simp only [drain, hnone, List.nil_append]
  exact drainLoop_readyRun _ _ _

/-- A run of ready messages extends a causal log and its clock. -/
theorem ReadyRun.causal : ∀ {ms : List Message} {vc : VectorClock} {log : List Message}, ReadyRun vc ms →
    (∀ m ∈ ms, m.vectorClock.items.isEmpty = false) → vc.Tracks log →
    Causal Message.sender Message.stamp log →
    Causal Message.sender Message.stamp (log ++ ms) ∧
      (ms.foldl (fun c m => c.merge m.vectorClock) vc).Tracks (log ++ ms)
  | [], vc, log, _, _, ht, hc => by simpa using ⟨hc, ht⟩
  | m :: ms, vc, log, hr, hne, ht, hc => by
    have hready := (VectorClock.isReady_iff ht (hne m (by simp))).1 hr.1
    have := ReadyRun.causal hr.2 (fun x hx => hne x (by simp [hx])) (ht.merge hready) (.snoc hc hready)
    simpa using this

end HoldBackQueue

end PeerChat
