/-
Clocks as they come off the wire. `Message.from_json` takes any JSON value
as a count, so the comparisons inside `is_ready`, `merge` and `drain` can
raise a `TypeError`; what they have changed by then stays changed. The
model here is the one of `HoldBack` and `BroadcastNode` with these failures
in it, and is that model on integer clocks (`receive_toFrame`).

A frame with a count that is no number passes `is_ready` as soon as its
sender's own count is not the next one. It is then queued, and every drain
that comes to it fails: `unpoisoned_iff` says that a node stays sound
exactly as long as no such frame is queued.
-/
import PeerChat.Lib.Json
import PeerChat.Distribution.BroadcastNode
import Mathlib.Tactic.Linarith

namespace PeerChat

open Lib

/-- A `Message` as `from_json` builds it. -/
structure Frame where
  content : String
  sender : String
  id : String
  timestamp : Time
  signature : String
  ttl : Int
  vectorClock : Dict String Json

/-- Every count is a number, so none of the comparisons fails on it. -/
def Frame.Numeric (f : Frame) : Prop := ∀ p ∈ f.vectorClock.items, p.2.num?.isSome = true

/-- Every count is an integer. -/
def Frame.WellFormed (f : Frame) : Prop := ∀ p ∈ f.vectorClock.items, ∃ n, p.2 = .int n

/-- The clock of a node that merges such frames. -/
abbrev RawClock := Dict String Number

namespace RawClock

/-- The count at an address. -/
def count (vc : RawClock) (node : String) : Number := Dict.getD vc node (.int 0)

/-- The loop of `VectorClock.merge`, and whether it ran to its end: `max`
raises on a count that is no number, with the counts before it assigned. -/
def mergeItems : List (String × Json) → RawClock → RawClock × Bool
  | [], vc => (vc, true)
  | (node, count) :: other, vc =>
    match count.num? with
    | none => (vc, false)
    | some c => mergeItems other (Dict.set vc node ((vc.count node).max c))

/-- `VectorClock.merge`. -/
def merge (vc : RawClock) (other : Dict String Json) : RawClock × Bool := mergeItems other.items vc

/-- The `all` of `is_ready`, which stops at the first count that is not
reached; `none` when it comes to one that is no number before. -/
def allReached (vc : RawClock) (sender : String) : List (String × Json) → Option Bool
  | [] => some true
  | (node, count) :: l =>
    if node = sender then allReached vc sender l
    else
      match count.num? with
      | none => none
      | some c => if c.le (vc.count node) then allReached vc sender l else some false

/-- `vc.get(sender, 0) == self._clock.get(sender, 0) + 1`, which never
raises: no number equals a value that is none. -/
def isNext (vc : RawClock) (msg : Frame) : Bool :=
  match (Dict.getD msg.vectorClock msg.sender (.int 0)).num? with
  | some c => c.eq (vc.count msg.sender).succ
  | none => false

/-- `VectorClock.is_ready`; `none` when it raises. -/
def isReady (vc : RawClock) (msg : Frame) : Option Bool :=
  if msg.vectorClock.items.isEmpty then some true
  else if !vc.isNext msg then some false
  else allReached vc msg.sender msg.vectorClock.items

/-! ## When the comparisons fail -/

theorem mergeItems_ok_iff : ∀ (l : List (String × Json)) (vc : RawClock),
    (mergeItems l vc).2 = true ↔ ∀ p ∈ l, p.2.num?.isSome = true
  | [], _ => by simp [mergeItems]
  | (node, count) :: l, vc => by
    cases h : count.num? with
    | none => simp [mergeItems, h]
    | some c => simp [mergeItems, h, mergeItems_ok_iff l]

theorem merge_ok_iff {vc : RawClock} {f : Frame} : (vc.merge f.vectorClock).2 = true ↔ f.Numeric :=
  mergeItems_ok_iff _ _

theorem allReached_numeric {vc : RawClock} {sender : String} : ∀ {l : List (String × Json)},
    allReached vc sender l = some true → ∀ p ∈ l, p.1 ≠ sender → p.2.num?.isSome = true
  | [], _, _, hp, _ => by simp at hp
  | (node, count) :: l, h, p, hp, hne => by
    simp only [allReached] at h
    by_cases hn : node = sender
    · simp only [hn, if_true] at h
      cases List.mem_cons.1 hp with
      | inl he => exact absurd (by rw [he]; exact hn) hne
      | inr hm => exact allReached_numeric h p hm hne
    · simp only [hn, if_false] at h
      cases hc : count.num? with
      | none => simp [hc] at h
      | some c =>
        simp only [hc] at h
        split at h
        · cases List.mem_cons.1 hp with
          | inl he => rw [he, hc]; rfl
          | inr hm => exact allReached_numeric h p hm hne
        · cases h

theorem allReached_isSome (vc : RawClock) (sender : String) : ∀ {l : List (String × Json)},
    (∀ p ∈ l, p.2.num?.isSome = true) → (allReached vc sender l).isSome = true
  | [], _ => rfl
  | (node, count) :: l, h => by
    have ih := allReached_isSome vc sender fun p hp => h p (List.mem_cons_of_mem _ hp)
    obtain ⟨c, hc⟩ := Option.isSome_iff_exists.1 (h (node, count) (by simp))
    simp only [allReached, hc]
    split
    · exact ih
    · split
      · exact ih
      · rfl

theorem isReady_isSome {vc : RawClock} {f : Frame} (h : f.Numeric) : (vc.isReady f).isSome = true := by
  unfold isReady
  split
  · rfl
  · split
    · rfl
    · exact allReached_isSome _ _ h

/-- A frame that passes `is_ready` has been compared count by count. -/
theorem numeric_of_isReady {vc : RawClock} {f : Frame} (h : vc.isReady f = some true) : f.Numeric := by
  intro p hp
  unfold isReady at h
  split at h
  · next he => simp [List.isEmpty_iff.1 he] at hp
  · split at h
    · cases h
    · next hnext =>
      by_cases hs : p.1 = f.sender
      · -- the sender's own count was compared by `isNext`
        have hget : Dict.getD f.vectorClock f.sender (.int 0) = p.2 := by
          have : Dict.get? f.vectorClock f.sender = some p.2 := by
            rw [← Dict.mem_items_iff, ← hs]; exact hp
          simp [Dict.getD, this]
        simp only [isNext, hget] at hnext
        cases hc : p.2.num? with
        | none => simp [hc] at hnext
        | some c => rfl
      · exact allReached_numeric h p hp hs

end RawClock

/-- A held frame and the time it was enqueued. -/
abbrev RawEntry := Time × Frame

/-- What `drain` leaves: the clock, the queue and the frames it returns,
`none` when it raises. -/
structure RawDrained where
  vc : RawClock
  queue : List RawEntry
  released : Option (List Frame)

namespace RawQueue

/-- A loop over the queue: the clock it leaves and, when it ran to its end,
the frames released and the entries kept. -/
def sweep (p : RawClock → RawEntry → Option Bool) :
    List RawEntry → RawClock → RawClock × Option (List Frame × List RawEntry)
  | [], vc => (vc, some ([], []))
  | e :: q, vc =>
    match p vc e with
    | none => (vc, none)
    | some true =>
      match vc.merge e.2.vectorClock with
      | (vc', false) => (vc', none)
      | (vc', true) =>
        let r := sweep p q vc'
        (r.1, r.2.map fun d => (e.2 :: d.1, d.2))
    | some false =>
      let r := sweep p q vc
      (r.1, r.2.map fun d => (d.1, e :: d.2))

/-- The test of the first loop of `drain`. -/
def expired (now timeout : Time) (_ : RawClock) (e : RawEntry) : Option Bool :=
  some (decide (now - e.1 > timeout))

/-- The test of the second loop of `drain`. -/
def ready (vc : RawClock) (e : RawEntry) : Option Bool := vc.isReady e.2

/-- `while changed` of `drain`: the queue is assigned at the end of a pass,
so a pass that raises leaves it as it found it. -/
def drainLoop : Nat → List RawEntry → RawClock → RawDrained
  | 0, q, vc => ⟨vc, q, some []⟩
  | n + 1, q, vc =>
    match sweep ready q vc with
    | (vc', none) => ⟨vc', q, none⟩
    | (vc', some (released, remaining)) =>
      if released.isEmpty then ⟨vc', remaining, some []⟩
      else
        let d := drainLoop n remaining vc'
        { d with released := d.released.map (released ++ ·) }

/-- `HoldBackQueue.drain`. -/
def drain (timeout : Time) (q : List RawEntry) (now : Time) (vc : RawClock) : RawDrained :=
  match sweep (expired now timeout) q vc with
  | (vc', none) => ⟨vc', q, none⟩
  | (vc', some (delivered, stillWaiting)) =>
    let d := drainLoop (stillWaiting.length + 1) stillWaiting vc'
    { d with released := d.released.map (delivered ++ ·) }

/-! ## A loop over the queue -/

/-- Merging the clocks of the frames handed over, one after the other. -/
def mergeAll (vc : RawClock) (fs : List Frame) : RawClock :=
  fs.foldl (fun c f => (c.merge f.vectorClock).1) vc

theorem mergeAll_append (vc : RawClock) (fs gs : List Frame) :
    mergeAll vc (fs ++ gs) = mergeAll (mergeAll vc fs) gs := List.foldl_append

/-- What a loop that ran to its end has done: the released and the kept
are the queue, in its order, the clock has the released merged, and each
of the released could be merged. -/
structure Split (q : List RawEntry) (vc vc' : RawClock) (released : List Frame) (kept : List RawEntry) : Prop where
  perm : (released ++ kept.map Prod.snd).Perm (q.map Prod.snd)
  sublist : kept.Sublist q
  clock : vc' = mergeAll vc released
  numeric : ∀ f ∈ released, f.Numeric

theorem Split.trans {q q₁ q₂ : List RawEntry} {vc vc₁ vc₂ : RawClock} {r₁ r₂ : List Frame}
    (h₁ : Split q vc vc₁ r₁ q₁) (h₂ : Split q₁ vc₁ vc₂ r₂ q₂) : Split q vc vc₂ (r₁ ++ r₂) q₂ where
  perm := by
    rw [List.append_assoc]
    exact (h₂.perm.append_left r₁).trans h₁.perm
  sublist := h₂.sublist.trans h₁.sublist
  clock := by rw [mergeAll_append, ← h₁.clock, h₂.clock]
  numeric f hf := by
    cases List.mem_append.1 hf with
    | inl h => exact h₁.numeric f h
    | inr h => exact h₂.numeric f h

/-- A frame that could not be merged is still there. -/
theorem Split.mem_kept {q kept : List RawEntry} {vc vc' : RawClock} {released : List Frame}
    (h : Split q vc vc' released kept) {e : RawEntry} (he : e ∈ q) (hn : ¬ e.2.Numeric) :
    e.2 ∈ kept.map Prod.snd := by
  cases List.mem_append.1 (h.perm.mem_iff.2 (List.mem_map_of_mem he)) with
  | inl hr => exact absurd (h.numeric _ hr) hn
  | inr hk => exact hk

variable {p : RawClock → RawEntry → Option Bool}

theorem sweep_split : ∀ {q : List RawEntry} {vc vc' : RawClock} {released : List Frame} {kept : List RawEntry},
    sweep p q vc = (vc', some (released, kept)) → Split q vc vc' released kept
  | [], vc, vc', released, kept, h => by
    simp only [sweep, Prod.mk.injEq, Option.some.injEq] at h
    obtain ⟨rfl, rfl, rfl⟩ := h
    exact ⟨.refl _, .slnil, rfl, by simp⟩
  | e :: q, vc, vc', released, kept, h => by
    simp only [sweep] at h
    cases hp : p vc e with
    | none => simp [hp] at h
    | some b =>
      cases b with
      | false =>
        simp only [hp, Prod.mk.injEq, Option.map_eq_some_iff, Prod.exists] at h
        obtain ⟨hv, r, k, hr, rfl, rfl⟩ := h
        have ih := sweep_split (Prod.ext hv hr : sweep p q vc = (vc', some (r, k)))
        exact ⟨by simpa using List.perm_middle.trans (ih.perm.cons e.2), ih.sublist.cons_cons e, ih.clock, ih.numeric⟩
      | true =>
        rw [hp] at h
        rcases hm : vc.merge e.2.vectorClock with ⟨vc₁, ok⟩
        cases ok with
        | false => simp [hm] at h
        | true =>
          simp only [hm, Prod.mk.injEq, Option.map_eq_some_iff, Prod.exists] at h
          obtain ⟨hv, r, k, hr, rfl, rfl⟩ := h
          have ih := sweep_split (Prod.ext hv hr : sweep p q vc₁ = (vc', some (r, k)))
          refine ⟨ih.perm.cons e.2, ih.sublist.cons e, ?_, ?_⟩
          · rw [ih.clock]; simp [mergeAll, hm]
          · intro f hf
            cases List.mem_cons.1 hf with
            | inl he => rw [he]; exact RawClock.merge_ok_iff.1 (by rw [hm])
            | inr hr => exact ih.numeric f hr

/-- Over numeric frames no loop raises. -/
theorem sweep_isSome (hp : ∀ vc e, e.2.Numeric → (p vc e).isSome = true) :
    ∀ {q : List RawEntry} {vc : RawClock}, (∀ e ∈ q, e.2.Numeric) → (sweep p q vc).2.isSome = true
  | [], _, _ => rfl
  | e :: q, vc, h => by
    obtain ⟨b, hb⟩ := Option.isSome_iff_exists.1 (hp vc e (h e (by simp)))
    have hq : ∀ e' ∈ q, e'.2.Numeric := fun e' he' => h e' (List.mem_cons_of_mem _ he')
    cases b with
    | false => simpa [sweep, hb] using sweep_isSome hp hq
    | true =>
      rcases hm : vc.merge e.2.vectorClock with ⟨vc₁, ok⟩
      have hok : ok = true := by
        have hmerge : (vc.merge e.2.vectorClock).2 = true := RawClock.merge_ok_iff.2 (h e (by simp))
        rw [hm] at hmerge
        exact hmerge
      subst hok
      simpa [sweep, hb, hm] using sweep_isSome hp hq

theorem sweep_kept_nil : ∀ {q : List RawEntry} {vc vc' : RawClock} {released : List Frame} {kept : List RawEntry},
    (∀ vc, ∀ e ∈ q, p vc e = some true) → sweep p q vc = (vc', some (released, kept)) → kept = []
  | [], _, _, _, _, _, h => by
    simp only [sweep, Prod.mk.injEq, Option.some.injEq] at h
    exact h.2.2.symm
  | e :: q, vc, vc', released, kept, hp, h => by
    simp only [sweep, hp vc e (by simp)] at h
    rcases hm : vc.merge e.2.vectorClock with ⟨vc₁, ok⟩
    cases ok with
    | false => simp [hm] at h
    | true =>
      simp only [hm, Prod.mk.injEq, Option.map_eq_some_iff, Prod.exists] at h
      obtain ⟨hv, r, k, hr, -, rfl⟩ := h
      exact sweep_kept_nil (fun vc e' he' => hp vc e' (List.mem_cons_of_mem _ he'))
        (Prod.ext hv hr : sweep p q vc₁ = (vc', some (r, k)))

/-! ## The drain -/

/-- What a drain does: it raises, with every frame that could not be merged
still queued, or it has split the queue. -/
def Outcome (q : List RawEntry) (vc : RawClock) (d : RawDrained) : Prop :=
  match d.released with
  | some released => Split q vc d.vc released d.queue
  | none => ∀ e ∈ q, ¬ e.2.Numeric → e.2 ∈ d.queue.map Prod.snd

theorem Outcome.after {q q₁ : List RawEntry} {vc vc₁ : RawClock} {r₁ : List Frame} {d : RawDrained}
    (h₁ : Split q vc vc₁ r₁ q₁) (h : Outcome q₁ vc₁ d) :
    Outcome q vc { d with released := d.released.map (r₁ ++ ·) } := by
  obtain ⟨vc₂, q₂, released⟩ := d
  cases released with
  | some r => exact h₁.trans h
  | none =>
    intro e he hn
    obtain ⟨e', he', heq⟩ := List.mem_map.1 (h₁.mem_kept he hn)
    rw [← heq]
    exact h e' he' (heq ▸ hn)

theorem drainLoop_outcome : ∀ (n : Nat) (q : List RawEntry) (vc : RawClock), Outcome q vc (drainLoop n q vc)
  | 0, q, vc => ⟨.refl _, .refl _, rfl, by simp⟩
  | n + 1, q, vc => by
    simp only [drainLoop]
    rcases hs : sweep ready q vc with ⟨vc', _ | ⟨released, remaining⟩⟩
    · exact fun e he _ => List.mem_map_of_mem he
    · have hsplit := sweep_split hs
      simp only
      split
      · next hnil =>
        rw [List.isEmpty_iff.1 hnil] at hsplit
        exact hsplit
      · exact Outcome.after hsplit (drainLoop_outcome n remaining vc')

theorem drain_outcome (timeout : Time) (q : List RawEntry) (now : Time) (vc : RawClock) :
    Outcome q vc (drain timeout q now vc) := by
  simp only [drain]
  rcases hs : sweep (expired now timeout) q vc with ⟨vc', _ | ⟨delivered, stillWaiting⟩⟩
  · exact fun e he _ => List.mem_map_of_mem he
  · exact Outcome.after (sweep_split hs) (drainLoop_outcome _ _ _)

theorem Outcome.stays {q : List RawEntry} {vc : RawClock} {d : RawDrained} (h : Outcome q vc d)
    {e : RawEntry} (he : e ∈ q) (hn : ¬ e.2.Numeric) : e.2 ∈ d.queue.map Prod.snd := by
  unfold Outcome at h
  cases hr : d.released with
  | some r =>
    rw [hr] at h
    exact h.mem_kept he hn
  | none =>
    rw [hr] at h
    exact h e he hn

theorem drainLoop_isSome : ∀ {n : Nat} {q : List RawEntry} {vc : RawClock}, (∀ e ∈ q, e.2.Numeric) →
    (drainLoop n q vc).released.isSome = true
  | 0, _, _, _ => rfl
  | n + 1, q, vc, h => by
    have hsome : (sweep ready q vc).2.isSome = true := sweep_isSome (fun vc e => RawClock.isReady_isSome) h
    simp only [drainLoop]
    rcases hs : sweep ready q vc with ⟨vc', _ | ⟨released, remaining⟩⟩
    · simp [hs] at hsome
    · have hrem : ∀ e ∈ remaining, e.2.Numeric := fun e he => h e ((sweep_split hs).sublist.subset he)
      simp only
      split
      · rfl
      · simpa using drainLoop_isSome hrem

/-- **Over numeric frames the drain never raises.** -/
theorem drain_isSome {q : List RawEntry} (h : ∀ e ∈ q, e.2.Numeric) (timeout now : Time) (vc : RawClock) :
    (drain timeout q now vc).released.isSome = true := by
  have hsome : (sweep (expired now timeout) q vc).2.isSome = true := sweep_isSome (fun _ _ _ => rfl) h
  simp only [drain]
  rcases hs : sweep (expired now timeout) q vc with ⟨vc', _ | ⟨delivered, stillWaiting⟩⟩
  · simp [hs] at hsome
  · have hrem : ∀ e ∈ stillWaiting, e.2.Numeric := fun e he => h e ((sweep_split hs).sublist.subset he)
    simpa using drainLoop_isSome hrem

/-- A time at which every entry of a queue has waited too long. -/
theorem exists_expired (timeout : Time) : ∀ q : List RawEntry, ∃ now : Time, ∀ e ∈ q, now - e.1 > timeout
  | [] => ⟨0, by simp⟩
  | e :: q => by
    obtain ⟨now, h⟩ := exists_expired timeout q
    refine ⟨max now (e.1 + timeout + 1), fun e' he' => ?_⟩
    have h1 := le_max_left now (e.1 + timeout + 1)
    have h2 := le_max_right now (e.1 + timeout + 1)
    cases List.mem_cons.1 he' with
    | inl heq => rw [heq]; linarith
    | inr hm => linarith [h e' hm]

/-- **A frame that cannot be merged fails the drain** once the timeout
flushes it, at the latest. -/
theorem exists_drain_none {q : List RawEntry} {e : RawEntry} (he : e ∈ q) (hn : ¬ e.2.Numeric)
    (timeout : Time) (vc : RawClock) : ∃ now, (drain timeout q now vc).released = none := by
  obtain ⟨now, hnow⟩ := exists_expired timeout q
  refine ⟨now, ?_⟩
  simp only [drain]
  rcases hs : sweep (expired now timeout) q vc with ⟨vc', _ | ⟨delivered, stillWaiting⟩⟩
  · rfl
  · have hnil : stillWaiting = [] := by
      refine sweep_kept_nil (fun vc e' he' => ?_) hs
      simp only [expired, hnow e' he', decide_true]
    have hmem := (sweep_split hs).mem_kept he hn
    simp [hnil] at hmem

end RawQueue

/-! ## The node -/

/-- The state of a `BroadcastNode` that `_receive` reads and writes. -/
structure RawNode where
  seen : Finset String
  vc : RawClock
  queue : List RawEntry
  timeout : Time
  /-- `_holdback_drain_task` still runs: an exception ends it. -/
  draining : Bool

/-- What reaches the queue: a frame, with the readings of the clock in `add`
and in `drain`, or a round of the periodic drain. -/
inductive RawCall
  | receive (addedAt now : Time) (f : Frame)
  | drain (now : Time)

namespace RawNode

/-- A node that has just been constructed. -/
def new (timeout : Time) : RawNode := ⟨∅, Dict.empty, [], timeout, true⟩

/-- The node after a drain, also one that raised. -/
def drained (n : RawNode) (d : RawDrained) : RawNode := { n with vc := d.vc, queue := d.queue }

/-- `_receive`: the node and the frames passed to `on_message`, none when
an exception ends the task. -/
def receive (n : RawNode) (addedAt now : Time) (f : Frame) : RawNode × List Frame :=
  if f.id ∈ n.seen then (n, [])
  else
    let n₁ := { n with seen := insert f.id n.seen }
    match n.vc.isReady f with
    | none => (n₁, [])
    | some true =>
      match n.vc.merge f.vectorClock with
      | (vc, false) => ({ n₁ with vc }, [])
      | (vc, true) =>
        let d := RawQueue.drain n.timeout n.queue now vc
        (n₁.drained d, (d.released.map (f :: ·)).getD [])
    | some false =>
      let d := RawQueue.drain n.timeout (n.queue ++ [(addedAt, f)]) now n.vc
      (n₁.drained d, d.released.getD [])

/-- One round of `_holdback_drain_task`. -/
def holdbackDrain (n : RawNode) (now : Time) : RawNode × List Frame :=
  if !n.draining || n.queue.isEmpty then (n, [])
  else
    let d := RawQueue.drain n.timeout n.queue now n.vc
    ({ n.drained d with draining := d.released.isSome }, d.released.getD [])

/-- One call. -/
def step (n : RawNode) : RawCall → RawNode × List Frame
  | .receive addedAt now f => n.receive addedAt now f
  | .drain now => n.holdbackDrain now

/-- The frames in the hold-back queue. -/
def held (n : RawNode) : List Frame := n.queue.map Prod.snd

/-- The frame a call takes in: one whose id is new and that `is_ready` does
not raise on. -/
def accepted (n : RawNode) : RawCall → List Frame
  | .receive _ _ f => if f.id ∈ n.seen ∨ n.vc.isReady f = none then [] else [f]
  | .drain _ => []

/-- **What a call owes the other messages.** -/
structure Sound (n : RawNode) (c : RawCall) : Prop where
  /-- A well-formed frame that is ready when it arrives is handed over. -/
  ready : ∀ addedAt now f, c = .receive addedAt now f → f.WellFormed → f.id ∉ n.seen →
    n.vc.isReady f = some true → f ∈ (n.step c).2
  /-- No frame is lost: what was held or taken in is handed over or held. -/
  kept : ((n.step c).2 ++ (n.step c).1.held).Perm (n.accepted c ++ n.held)
  /-- The clock counts what was handed over and nothing else. -/
  clock : (n.step c).1.vc = RawQueue.mergeAll n.vc (n.step c).2
  /-- The queue can be drained at any time. -/
  drains : ∀ now,
    (RawQueue.drain (n.step c).1.timeout (n.step c).1.queue now (n.step c).1.vc).released.isSome = true

/-- Every call of a run is sound. -/
def Unpoisoned (n : RawNode) : List RawCall → Prop
  | [] => True
  | c :: cs => n.Sound c ∧ Unpoisoned (n.step c).1 cs

/-- The call queues no frame with a count that is no number: the frame is a
duplicate, all its counts are numbers, or `is_ready` raises on it. -/
def Admits (n : RawNode) : RawCall → Prop
  | .receive _ _ f => f.id ∈ n.seen ∨ f.Numeric ∨ n.vc.isReady f = none
  | .drain _ => True

/-- Every call of a run meets `Admits`. -/
def Admissible (n : RawNode) : List RawCall → Prop
  | [] => True
  | c :: cs => n.Admits c ∧ Admissible (n.step c).1 cs

/-- Every held frame can be merged. -/
def NumericQueue (n : RawNode) : Prop := ∀ e ∈ n.queue, e.2.Numeric

/-- What `_receive` can do. -/
theorem receive_cases (n : RawNode) (addedAt now : Time) (f : Frame) :
    ((f.id ∈ n.seen ∨ n.vc.isReady f = none) ∧ n.accepted (.receive addedAt now f) = [] ∧
      ∃ seen, n.receive addedAt now f = ({ n with seen }, [])) ∨
    (f.id ∉ n.seen ∧ n.vc.isReady f = some true ∧ n.accepted (.receive addedAt now f) = [f] ∧
      n.receive addedAt now f =
        (({ n with seen := insert f.id n.seen }).drained
            (RawQueue.drain n.timeout n.queue now (n.vc.merge f.vectorClock).1),
          ((RawQueue.drain n.timeout n.queue now (n.vc.merge f.vectorClock).1).released.map (f :: ·)).getD [])) ∨
    (f.id ∉ n.seen ∧ n.vc.isReady f = some false ∧ n.accepted (.receive addedAt now f) = [f] ∧
      n.receive addedAt now f =
        (({ n with seen := insert f.id n.seen }).drained
            (RawQueue.drain n.timeout (n.queue ++ [(addedAt, f)]) now n.vc),
          (RawQueue.drain n.timeout (n.queue ++ [(addedAt, f)]) now n.vc).released.getD [])) := by
  by_cases hseen : f.id ∈ n.seen
  · exact .inl ⟨.inl hseen, by simp [accepted, hseen], n.seen, by simp [receive, hseen]⟩
  cases hr : n.vc.isReady f with
  | none =>
    exact .inl ⟨.inr rfl, by simp [accepted, hr], insert f.id n.seen, by simp only [receive, hseen, hr, if_false]⟩
  | some b =>
    cases b with
    | false =>
      exact .inr (.inr ⟨hseen, rfl, by simp [accepted, hr, hseen], by simp only [receive, hseen, hr, if_false]⟩)
    | true =>
      refine .inr (.inl ⟨hseen, rfl, by simp [accepted, hr, hseen], ?_⟩)
      have hok : (n.vc.merge f.vectorClock).2 = true := RawClock.merge_ok_iff.2 (RawClock.numeric_of_isReady hr)
      simp only [receive, hseen, hr, if_false]
      rcases hm : n.vc.merge f.vectorClock with ⟨vc, ok⟩
      rw [hm] at hok
      cases hok
      rfl

theorem NumericQueue.drain_split {n : RawNode} {q : List RawEntry} (h : ∀ e ∈ q, e.2.Numeric)
    (now : Time) (vc : RawClock) : ∃ released, (RawQueue.drain n.timeout q now vc).released = some released ∧
      RawQueue.Split q vc (RawQueue.drain n.timeout q now vc).vc released
        (RawQueue.drain n.timeout q now vc).queue := by
  obtain ⟨released, hr⟩ := Option.isSome_iff_exists.1 (RawQueue.drain_isSome h n.timeout now vc)
  refine ⟨released, hr, ?_⟩
  have hout := RawQueue.drain_outcome n.timeout q now vc
  rw [RawQueue.Outcome, hr] at hout
  exact hout

/-- A call that leaves numeric frames only is sound when it loses nothing and
hands a ready frame over. -/
theorem sound_of_step {n n' : RawNode} {c : RawCall} {l : List Frame} (hstep : n.step c = (n', l))
    (hready : ∀ addedAt now f, c = .receive addedAt now f → f.id ∉ n.seen → n.vc.isReady f = some true → f ∈ l)
    (hkept : (l ++ n'.held).Perm (n.accepted c ++ n.held)) (hclock : n'.vc = RawQueue.mergeAll n.vc l)
    (hq : n'.NumericQueue) : n.Sound c ∧ (n.step c).1.NumericQueue := by
  refine ⟨⟨fun addedAt now f hf _ hnew hr => ?_, ?_, ?_, fun now => ?_⟩, ?_⟩
  · rw [hstep]
    exact hready addedAt now f hf hnew hr
  · rw [hstep]
    exact hkept
  · rw [hstep]
    exact hclock
  · rw [hstep]
    exact RawQueue.drain_isSome hq _ _ _
  · rw [hstep]
    exact hq

/-- A call on a node that holds numeric frames only, and takes in no other. -/
theorem NumericQueue.step {n : RawNode} {c : RawCall} (h : n.NumericQueue) (ha : n.Admits c) :
    n.Sound c ∧ (n.step c).1.NumericQueue := by
  cases c with
  | drain now =>
    by_cases hidle : (!n.draining || n.queue.isEmpty) = true
    · have hstep : n.step (.drain now) = (n, []) := by simp only [RawNode.step, holdbackDrain, hidle, if_true]
      exact sound_of_step hstep nofun (.refl _) rfl h
    · obtain ⟨l, hl, hs⟩ := NumericQueue.drain_split (n := n) h now n.vc
      have hstep : n.step (.drain now) =
          ({ n.drained (RawQueue.drain n.timeout n.queue now n.vc) with draining := true }, l) := by
        simp [RawNode.step, holdbackDrain, hidle, hl]
      exact sound_of_step hstep nofun hs.perm hs.clock fun e he => h e (hs.sublist.subset he)
  | receive addedAt now f =>
    have hstep : n.step (.receive addedAt now f) = n.receive addedAt now f := rfl
    rcases n.receive_cases addedAt now f with ⟨hout, hacc, seen, he⟩ | ⟨hnew, hr, hacc, he⟩ | ⟨hnew, hr, hacc, he⟩
    · rw [he] at hstep
      refine sound_of_step hstep (fun _ _ g hg hgs hgr => ?_) (by rw [hacc]; exact .refl _) rfl h
      cases hg
      cases hout with
      | inl hs => exact absurd hs hgs
      | inr hn => rw [hn] at hgr; cases hgr
    · obtain ⟨l, hl, hs⟩ := NumericQueue.drain_split (n := n) h now (n.vc.merge f.vectorClock).1
      rw [he, hl] at hstep
      refine sound_of_step hstep (fun _ _ g hg _ _ => ?_) ?_ hs.clock fun e he => h e (hs.sublist.subset he)
      · cases hg
        simp
      · rw [hacc]
        exact hs.perm.cons f
    · have hf : f.Numeric := by
        rcases ha with ha | ha | ha
        · exact absurd ha hnew
        · exact ha
        · rw [hr] at ha; cases ha
      have hadd : ∀ e ∈ n.queue ++ [(addedAt, f)], e.2.Numeric := by
        intro e hm
        cases List.mem_append.1 hm with
        | inl hm => exact h e hm
        | inr hm => rw [List.mem_singleton.1 hm]; exact hf
      obtain ⟨l, hl, hs⟩ := NumericQueue.drain_split (n := n) hadd now n.vc
      rw [he, hl] at hstep
      refine sound_of_step hstep (fun _ _ g hg _ hgr => ?_) ?_ hs.clock fun e he => hadd e (hs.sublist.subset he)
      · cases hg
        rw [hr] at hgr
        cases hgr
      · rw [hacc]
        refine hs.perm.trans ?_
        simp only [List.map_append, List.map_cons, List.map_nil, held]
        exact List.perm_append_comm

/-- A frame queued against `Admits` makes some later drain fail. -/
theorem Sound.admits {n : RawNode} {c : RawCall} (h : n.Sound c) : n.Admits c := by
  cases c with
  | drain now => trivial
  | receive addedAt now f =>
    by_contra hna
    simp only [Admits, not_or] at hna
    obtain ⟨hnew, hnum, hnn⟩ := hna
    rcases n.receive_cases addedAt now f with ⟨hout, -⟩ | ⟨-, hr, -⟩ | ⟨-, -, -, he⟩
    · exact hout.elim hnew hnn
    · exact hnum (RawClock.numeric_of_isReady hr)
    · have hstay := (RawQueue.drain_outcome n.timeout (n.queue ++ [(addedAt, f)]) now n.vc).stays
        (e := (addedAt, f)) (by simp) hnum
      obtain ⟨e, hmem, heq⟩ := List.mem_map.1 hstay
      obtain ⟨t, ht⟩ := RawQueue.exists_drain_none hmem (heq ▸ hnum) n.timeout
        (RawQueue.drain n.timeout (n.queue ++ [(addedAt, f)]) now n.vc).vc
      have hd := h.drains t
      rw [show n.step (.receive addedAt now f) = n.receive addedAt now f from rfl, he] at hd
      simp only [drained, ht, Option.isSome_none, Bool.false_eq_true] at hd

theorem NumericQueue.unpoisoned_iff_admissible : ∀ {cs : List RawCall} {n : RawNode}, n.NumericQueue →
    (n.Unpoisoned cs ↔ n.Admissible cs)
  | [], _, _ => Iff.rfl
  | c :: cs, n, h => by
    constructor
    · intro hu
      have ha := hu.1.admits
      exact ⟨ha, (NumericQueue.unpoisoned_iff_admissible (h.step ha).2).1 hu.2⟩
    · intro ha
      exact ⟨(h.step ha.1).1, (NumericQueue.unpoisoned_iff_admissible (h.step ha.1).2).2 ha.2⟩

/-- A frame of `a` with a `null` count, ahead of the first message of `a`. -/
def nullFrame : Frame where
  content := "x"
  sender := "a"
  id := "m2"
  timestamp := 0
  signature := ""
  ttl := 0
  vectorClock := ⟨[("a", .int 2), ("b", .null)], by decide⟩

/-- The first message of `a`. -/
def firstFrame : Frame where
  content := "y"
  sender := "a"
  id := "m1"
  timestamp := 0
  signature := ""
  ttl := 0
  vectorClock := ⟨[("a", .int 1)], by decide⟩

end RawNode

/-! ## On integer clocks -/

/-- A message with an integer clock, as a frame. -/
def Message.toFrame (m : Message) : Frame :=
  { content := m.content, sender := m.sender, id := m.id, timestamp := m.timestamp, signature := m.signature,
    ttl := m.ttl, vectorClock := Dict.mapValues Json.int m.vectorClock }

/-- An integer clock, as a clock of numbers. -/
def VectorClock.toRaw (vc : VectorClock) : RawClock := Dict.mapValues Number.int vc

/-- An entry of the queue, as one of the raw queue. -/
def Entry.toRaw (e : Entry) : RawEntry := (e.1, e.2.toFrame)

/-- A node whose clocks are integers, as a raw node. -/
def BroadcastNode.toRaw (n : BroadcastNode) : RawNode :=
  ⟨n.seen, n.vc.toRaw, n.holdBack.queue.map Entry.toRaw, n.holdBack.timeout, true⟩

theorem Message.toFrame_wellFormed (m : Message) : m.toFrame.WellFormed := by
  intro p hp
  simp only [toFrame, Dict.mapValues, List.mem_map] at hp
  obtain ⟨q, -, rfl⟩ := hp
  exact ⟨_, rfl⟩

namespace VectorClock

theorem count_toRaw (vc : VectorClock) (s : String) : vc.toRaw.count s = .int (vc.count s) := by
  simp only [RawClock.count, toRaw, Dict.getD, Dict.get?_mapValues, count]
  cases Dict.get? vc s <;> rfl

theorem merge_toRaw (vc other : VectorClock) :
    vc.toRaw.merge (Dict.mapValues Json.int other) = ((vc.merge other).toRaw, true) := by
  have key : ∀ (l : List (String × Int)) (vc : VectorClock),
      RawClock.mergeItems (l.map fun p => (p.1, Json.int p.2)) vc.toRaw =
        (toRaw (l.foldl (fun d p => Dict.set d p.1 (max ((Dict.get? d p.1).getD 0) p.2)) vc), true) := by
    intro l
    induction l with
    | nil => intro vc; rfl
    | cons p l ih =>
      intro vc
      simp only [List.map_cons, RawClock.mergeItems, Json.num?, List.foldl_cons, ← ih]
      rw [count_toRaw, Number.max_int]
      simp only [toRaw, Dict.mapValues_set]
      rfl
  exact key other.items vc

theorem isReady_toRaw (vc : VectorClock) (m : Message) : vc.toRaw.isReady m.toFrame = some (vc.isReady m) := by
  have hall : ∀ l : List (String × Int), RawClock.allReached vc.toRaw m.sender (l.map fun p => (p.1, Json.int p.2)) =
      some (l.all fun p => p.1 = m.sender || decide (p.2 ≤ Dict.getD vc p.1 0)) := by
    intro l
    induction l with
    | nil => rfl
    | cons p l ih =>
      simp only [List.map_cons, RawClock.allReached, Json.num?, count_toRaw, Number.le_int, ih, List.all_cons]
      by_cases hs : p.1 = m.sender
      · simp [hs]
      · by_cases hc : p.2 ≤ vc.count p.1
        · have hc' : p.2 ≤ Dict.getD vc p.1 0 := hc
          simp [hs, hc, hc']
        · have hc' : ¬ p.2 ≤ Dict.getD vc p.1 0 := hc
          simp [hs, hc, hc']
  have hnext : vc.toRaw.isNext m.toFrame =
      decide (Dict.getD m.vectorClock m.sender 0 = Dict.getD vc m.sender 0 + 1) := by
    have hown : Dict.getD m.toFrame.vectorClock m.toFrame.sender (.int 0) =
        .int (Dict.getD m.vectorClock m.sender 0) := by
      simp only [Message.toFrame, Dict.getD, Dict.get?_mapValues]
      cases Dict.get? m.vectorClock m.sender <;> rfl
    simp only [RawClock.isNext, hown, Json.num?, count_toRaw, Number.succ_int, Number.eq_int]
    rfl
  simp only [RawClock.isReady, isReady, hnext]
  simp only [Message.toFrame, Dict.mapValues, hall, List.isEmpty_map]
  repeat' split
  all_goals simp_all

end VectorClock

theorem HoldBackQueue.sweep_toRaw {p : VectorClock → Entry → Bool} {p' : RawClock → RawEntry → Option Bool}
    (hp : ∀ vc e, p' (VectorClock.toRaw vc) (Entry.toRaw e) = some (p vc e)) :
    ∀ (q : List Entry) (vc : VectorClock), RawQueue.sweep p' (q.map Entry.toRaw) vc.toRaw =
      ((sweep p q vc).vc.toRaw,
        some ((sweep p q vc).released.map Message.toFrame, (sweep p q vc).queue.map Entry.toRaw))
  | [], _ => rfl
  | e :: q, vc => by
    simp only [List.map_cons, RawQueue.sweep, hp]
    cases h : p vc e with
    | true =>
      have hm : (VectorClock.toRaw vc).merge (Entry.toRaw e).2.vectorClock =
          ((vc.merge e.2.vectorClock).toRaw, true) := VectorClock.merge_toRaw vc e.2.vectorClock
      simp only [hm, sweep_toRaw hp q, sweep_cons_pos h]
      rfl
    | false =>
      simp only [sweep_toRaw hp q, sweep_cons_neg h]
      rfl

/-- What `drain` leaves, as what the raw one leaves. -/
def Drained.toRaw (d : Drained) : RawDrained :=
  ⟨d.vc.toRaw, d.queue.map Entry.toRaw, some (d.released.map Message.toFrame)⟩

theorem HoldBackQueue.drainLoop_toRaw : ∀ (n : Nat) (q : List Entry) (vc : VectorClock),
    RawQueue.drainLoop n (q.map Entry.toRaw) vc.toRaw = (drainLoop n q vc).toRaw
  | 0, _, _ => rfl
  | n + 1, q, vc => by
    have hp (vc : VectorClock) (e : Entry) : RawQueue.ready vc.toRaw e.toRaw = some (ready vc e) :=
      VectorClock.isReady_toRaw vc e.2
    simp only [RawQueue.drainLoop, drainLoop, sweep_toRaw hp]
    rw [List.isEmpty_map]
    split
    · next h => simp [Drained.toRaw, List.isEmpty_iff.1 h]
    · rw [drainLoop_toRaw n]
      simp [Drained.toRaw]

theorem HoldBackQueue.drain_toRaw (h : HoldBackQueue) (now : Time) (vc : VectorClock) :
    RawQueue.drain h.timeout (h.queue.map Entry.toRaw) now vc.toRaw = (h.drain now vc).toRaw := by
  have hp (vc : VectorClock) (e : Entry) :
      RawQueue.expired now h.timeout vc.toRaw e.toRaw = some (expired now h.timeout vc e) := rfl
  simp only [RawQueue.drain, drain, sweep_toRaw hp, List.length_map, drainLoop_toRaw]
  simp [Drained.toRaw]

/-- **The model of `BroadcastNode` is this one on integer clocks.** -/
theorem BroadcastNode.receive_toFrame (n : BroadcastNode) (addedAt now : Time) (m : Message) :
    n.toRaw.receive addedAt now m.toFrame =
      match n.deduplicate m.id with
      | none => (n.toRaw, [])
      | some n₁ => ((n₁.accept addedAt now m).1.toRaw, (n₁.accept addedAt now m).2.map Message.toFrame) := by
  have hid : m.toFrame.id = m.id := rfl
  have hready : n.toRaw.vc.isReady m.toFrame = some (n.vc.isReady m) := VectorClock.isReady_toRaw n.vc m
  simp only [RawNode.receive, hid, deduplicate, hready]
  by_cases hs : m.id ∈ n.seen
  · have hs' : m.id ∈ n.toRaw.seen := hs
    simp only [hs, hs', if_true]
  have hs' : m.id ∉ n.toRaw.seen := hs
  simp only [hs, hs', if_false, accept]
  cases hr : n.vc.isReady m with
  | true =>
    have hm : n.toRaw.vc.merge m.toFrame.vectorClock = ((n.vc.merge m.vectorClock).toRaw, true) :=
      VectorClock.merge_toRaw n.vc m.vectorClock
    simp only [hm, if_true]
    rw [show n.toRaw.timeout = n.holdBack.timeout from rfl,
      show n.toRaw.queue = n.holdBack.queue.map Entry.toRaw from rfl, HoldBackQueue.drain_toRaw]
    rfl
  | false =>
    simp only [Bool.false_eq_true, if_false]
    have hadd : n.toRaw.queue ++ [(addedAt, m.toFrame)] =
        (n.holdBack.add addedAt m).queue.map Entry.toRaw := by
      simp [HoldBackQueue.add, toRaw, Entry.toRaw]
    have := HoldBackQueue.drain_toRaw (n.holdBack.add addedAt m) now n.vc
    rw [← hadd] at this
    rw [show RawQueue.drain n.toRaw.timeout (n.toRaw.queue ++ [(addedAt, m.toFrame)]) now n.toRaw.vc = _ from this]
    rfl

end PeerChat
