/-
When a peer is ready, and what its delivery log starts from (`_probe_loop`,
`_recovery_settled`, `_begin_causal_log`, `_on_message` and `reset` of
`deploy/peer_node.py`).

The probe thread, the event loop and the control API take their turns in any
order, with any readings of the clock. `joined_iff`: the peer joins at the
first probe that finds enough peers while the recovery, which is asked for
once, has gone quiet or takes too long. `log_anchored`: the log holds what was
delivered since the peer joined or the log was reset, and the baseline is the
clock of everything before.
-/
import PeerChat.Lib.Since
import PeerChat.Harness.CausalCheck

namespace PeerChat.Deploy

open Lib Harness

/-- What `handle_message` of the history service says of a message. -/
inductive Absorbed
  /-- Chat that was stored, or a message at which something was raised. -/
  | chat
  | recoverRequest
  /-- A chunk, with the clock of the store afterwards when it can be read. -/
  | historyChunk (clock : Option VectorClock)

/-- The settings of a peer; the times have `second`. -/
structure ReadinessSettings where
  minPeers : Int
  historyEnabled : Bool
  second : Time

/-- `RECOVERY_SETTLE`. -/
def ReadinessSettings.recoverySettle (cfg : ReadinessSettings) : Time := 3 * cfg.second

/-- `RECOVERY_MAX`. -/
def ReadinessSettings.recoveryMax (cfg : ReadinessSettings) : Time := 30 * cfg.second

/-- The fields of `PeerRuntime` that readiness is about, with the number of
fan-outs that were asked for. -/
structure Readiness where
  joinedAt : Option Time
  recoveryRequestedAt : Option Time
  recoveryLastChunkAt : Option Time
  recoveryChunks : Nat
  recoveryTookS : Option Time
  requests : Nat
  deliveries : List Record
  baselineVc : VectorClock
  deliveredVc : VectorClock
  deliveriesBeforeReady : Nat

inductive ReadinessEvent
  /-- A round of `_probe_loop`: the readings of the clock in
  `_recovery_settled` and for `_joined_at`, who answered, and how many
  messages are held back. -/
  | probe (now joined : Time) (reachable : List String) (holdback : Nat)
  | onMessage (now : Time) (m : Message) (absorbed : Absorbed)
  | reset

namespace Readiness

/-- A peer that has started with a restored clock. -/
def start (restored : VectorClock) : Readiness := ⟨none, none, none, 0, none, 0, [], Dict.empty, restored, 0⟩

/-- `_recovery_last_chunk_at or _recovery_requested_at`. -/
def quietSince (requestedAt : Time) : Option Time → Time
  | some t => if t = 0 then requestedAt else t
  | none => requestedAt

section

variable (cfg : ReadinessSettings)

/-- `_recovery_settled`. -/
def recoverySettled (s : Readiness) (now : Time) (holdback : Nat) : Readiness × Bool :=
  if !cfg.historyEnabled then (s, true)
  else
    match s.recoveryRequestedAt with
    | none => ({ s with recoveryRequestedAt := some now, requests := s.requests + 1 }, false)
    | some requestedAt =>
      let last := quietSince requestedAt s.recoveryLastChunkAt
      if now - last < cfg.recoverySettle ∧ now - requestedAt < cfg.recoveryMax then (s, false)
      else if holdback ≠ 0 ∧ now - requestedAt < cfg.recoveryMax then (s, false)
      else ({ s with recoveryTookS := some (now - requestedAt) }, true)

/-- `_begin_causal_log`. -/
def beginCausalLog (s : Readiness) : Readiness :=
  { s with deliveriesBeforeReady := s.deliveries.length, deliveries := [], baselineVc := s.deliveredVc }

/-- The end of `_on_message`. -/
def deliver (s : Readiness) (now : Time) (m : Message) : Readiness :=
  let vc := shortVc m.vectorClock
  { s with
    deliveredVc := Runtime.raise s.deliveredVc vc
    deliveries := s.deliveries ++ [⟨s.deliveries.length, m.id, shortKey m.sender, vc, now, m.timestamp⟩] }

def step (s : Readiness) : ReadinessEvent → Readiness
  | .probe now joined reachable holdback =>
    if cfg.minPeers ≤ reachable.length ∧ s.joinedAt.isNone then
      match s.recoverySettled cfg now holdback with
      | (s, false) => s
      | (s, true) => { s.beginCausalLog with joinedAt := some joined }
    else s
  | .onMessage now m absorbed =>
    if !cfg.historyEnabled then s.deliver now m
    else
      match absorbed with
      | .chat => s.deliver now m
      | .recoverRequest => s
      | .historyChunk clock =>
        { s with
          recoveryChunks := s.recoveryChunks + 1
          recoveryLastChunkAt := some now
          deliveredVc := Runtime.raise s.deliveredVc (clock.elim Dict.empty shortVc) }
  | .reset => { s with deliveries := [], baselineVc := s.deliveredVc }

def run (restored : VectorClock) (es : List ReadinessEvent) : Readiness := es.foldl (step cfg) (start restored)

end

theorem run_snoc (cfg : ReadinessSettings) (restored : VectorClock) (es : List ReadinessEvent) (e : ReadinessEvent) :
    run cfg restored (es ++ [e]) = (run cfg restored es).step cfg e := by
  simp [run]

/-! ## What the events alone say -/

section

variable (cfg : ReadinessSettings)

/-- A probe that finds enough peers, and its first reading of the clock. -/
def enough : ReadinessEvent → Option Time
  | .probe now _ reachable _ => if cfg.minPeers ≤ reachable.length then some now else none
  | _ => none

/-- When a chunk came. -/
def chunkAt : ReadinessEvent → Option Time
  | .onMessage now _ (.historyChunk _) => if cfg.historyEnabled then some now else none
  | _ => none

/-- When the recovery was asked for. -/
def askedAt (es : List ReadinessEvent) : Option Time :=
  if cfg.historyEnabled then (es.filterMap (enough cfg)).head? else none

/-- The probe lets the peer join: it finds enough peers, and the recovery, if
there is one, was asked for before, and has gone on for as long as it may, or
no chunk has come for long enough and nothing is held back. -/
def Settles (es : List ReadinessEvent) : ReadinessEvent → Prop
  | .probe now _ reachable holdback => cfg.minPeers ≤ reachable.length ∧
      (cfg.historyEnabled = true → ∃ requestedAt, askedAt cfg es = some requestedAt ∧
        (cfg.recoveryMax ≤ now - requestedAt ∨ holdback = 0 ∧
          cfg.recoverySettle ≤ now - quietSince requestedAt (es.filterMap (chunkAt cfg)).getLast?))
  | _ => False

/-- The peer joins, at a reading of the clock: nothing before let it join. -/
def JoinsAt (es : List ReadinessEvent) (t : Time) : Prop :=
  ∃ es₁ now reachable holdback es₂, es = es₁ ++ .probe now t reachable holdback :: es₂ ∧
    Settles cfg es₁ (.probe now t reachable holdback) ∧ Always (fun g x => ¬ Settles cfg g x) es₁

end

variable {cfg : ReadinessSettings} {restored : VectorClock} {s : Readiness} {es : List ReadinessEvent}
  {e : ReadinessEvent}

/-- What the fields are that the recovery goes by. -/
structure Clocked (cfg : ReadinessSettings) (es : List ReadinessEvent) (s : Readiness) : Prop where
  requestedAt : s.recoveryRequestedAt = askedAt cfg es
  lastChunkAt : s.recoveryLastChunkAt = (es.filterMap (chunkAt cfg)).getLast?
  chunks : s.recoveryChunks = (es.filterMap (chunkAt cfg)).length
  requests : s.requests = if (askedAt cfg es).isSome then 1 else 0

/-- The recovery has settled, as the fields have it. -/
theorem recoverySettled_iff (hs : Clocked cfg es s) (now joined : Time) (holdback : Nat) {reachable : List String}
    (hreach : cfg.minPeers ≤ reachable.length) :
    (s.recoverySettled cfg now holdback).2 = true ↔ Settles cfg es (.probe now joined reachable holdback) := by
  unfold recoverySettled Settles
  cases henabled : cfg.historyEnabled with
  | false => simp [hreach]
  | true =>
    rw [hs.requestedAt, hs.lastChunkAt]
    cases hasked : askedAt cfg es with
    | none => simp
    | some requestedAt =>
      simp only [Bool.not_true, Bool.false_eq_true, if_false, hreach, true_and, forall_const, Option.some.injEq,
        exists_eq_left']
      split
      · next h =>
        simp only [Bool.false_eq_true, false_iff, not_or, not_and, not_le]
        exact ⟨h.2, fun _ => h.1⟩
      · next h =>
        split
        · next h' =>
          simp only [Bool.false_eq_true, false_iff, not_or, not_and, not_le]
          exact ⟨h'.2, fun hz => absurd hz h'.1⟩
        · next h' =>
          simp only [true_iff]
          by_cases hmax : now - requestedAt < cfg.recoveryMax
          · exact .inr ⟨Decidable.not_not.1 fun hz => h' ⟨hz, hmax⟩, not_lt.1 fun hlt => h ⟨hlt, hmax⟩⟩
          · exact .inl (not_lt.1 hmax)

theorem askedAt_snoc (cfg : ReadinessSettings) (es : List ReadinessEvent) (e : ReadinessEvent) :
    askedAt cfg (es ++ [e]) = (askedAt cfg es).or (if cfg.historyEnabled then enough cfg e else none) := by
  unfold askedAt
  cases cfg.historyEnabled with
  | false => rfl
  | true =>
    simp only [if_true, List.filterMap_append, List.head?_append]
    cases h : enough cfg e <;> simp [h]

/-- What `_recovery_settled` changes: the first call asks for recovery. -/
theorem recoverySettled_fields (cfg : ReadinessSettings) (s : Readiness) (now : Time) (holdback : Nat) :
    (s.recoverySettled cfg now holdback).1.recoveryRequestedAt =
        s.recoveryRequestedAt.or (if cfg.historyEnabled then some now else none) ∧
      (s.recoverySettled cfg now holdback).1.requests =
        s.requests + (if cfg.historyEnabled ∧ s.recoveryRequestedAt.isNone then 1 else 0) ∧
      (s.recoverySettled cfg now holdback).1.recoveryLastChunkAt = s.recoveryLastChunkAt ∧
      (s.recoverySettled cfg now holdback).1.recoveryChunks = s.recoveryChunks ∧
      (s.recoverySettled cfg now holdback).1.joinedAt = s.joinedAt ∧
      (s.recoverySettled cfg now holdback).1.deliveries = s.deliveries ∧
      (s.recoverySettled cfg now holdback).1.baselineVc = s.baselineVc ∧
      (s.recoverySettled cfg now holdback).1.deliveredVc = s.deliveredVc := by
  unfold recoverySettled
  cases cfg.historyEnabled with
  | false => simp
  | true =>
    cases hasked : s.recoveryRequestedAt with
    | none => simp
    | some requestedAt =>
      simp only [Bool.not_true, Bool.false_eq_true, if_false]
      split
      · simp [hasked]
      · split <;> simp [hasked]

/-- A probe, with what it finds. -/
theorem step_probe {now joined : Time} {reachable : List String} {holdback : Nat} :
    s.step cfg (.probe now joined reachable holdback) =
      if cfg.minPeers ≤ reachable.length ∧ s.joinedAt.isNone then
        if (s.recoverySettled cfg now holdback).2 then
          { (s.recoverySettled cfg now holdback).1.beginCausalLog with joinedAt := some joined }
        else (s.recoverySettled cfg now holdback).1
      else s := by
  simp only [step]
  split
  · rcases s.recoverySettled cfg now holdback with ⟨s', b⟩
    cases b <;> rfl
  · rfl

/-- A peer that has joined has asked for recovery, if it has a history. -/
def Asked (cfg : ReadinessSettings) (s : Readiness) : Prop :=
  s.joinedAt.isSome = true → cfg.historyEnabled = true → s.recoveryRequestedAt.isSome = true

/-- A probe changes of these fields only what asking for recovery does. -/
theorem probe_fields (hasked : Asked cfg s) (now joined : Time) (reachable : List String) (holdback : Nat) :
    (s.step cfg (.probe now joined reachable holdback)).recoveryRequestedAt = s.recoveryRequestedAt.or
        (if cfg.historyEnabled then enough cfg (.probe now joined reachable holdback) else none) ∧
      (s.step cfg (.probe now joined reachable holdback)).requests = s.requests +
        (if cfg.historyEnabled ∧ s.recoveryRequestedAt.isNone ∧
          (enough cfg (.probe now joined reachable holdback)).isSome then 1 else 0) ∧
      (s.step cfg (.probe now joined reachable holdback)).recoveryLastChunkAt = s.recoveryLastChunkAt ∧
      (s.step cfg (.probe now joined reachable holdback)).recoveryChunks = s.recoveryChunks := by
  obtain ⟨hreq, hcount, hlast, hchunks, hjoined, -⟩ := recoverySettled_fields cfg s now holdback
  rw [step_probe]
  by_cases hreach : cfg.minPeers ≤ reachable.length
  · by_cases hnone : s.joinedAt.isNone = true
    · rw [if_pos ⟨hreach, hnone⟩]
      simp only [enough, hreach, if_true, Option.isSome_some, and_true]
      split <;> exact ⟨hreq, hcount, hlast, hchunks⟩
    · rw [if_neg fun h => hnone h.2]
      have hsome : s.joinedAt.isSome = true := Option.isSome_iff_ne_none.2 (by simpa using hnone)
      have hask := hasked hsome
      cases henabled : cfg.historyEnabled with
      | false => simp
      | true =>
        obtain ⟨t, ht⟩ := Option.isSome_iff_exists.1 (hask henabled)
        simp [ht]
  · rw [if_neg fun h => hreach h.1]
    simp [enough, hreach]

/-- Only a probe that finds enough peers makes the peer join. -/
theorem joinedAt_probe {now joined : Time} {reachable : List String} {holdback : Nat}
    (h : (s.step cfg (.probe now joined reachable holdback)).joinedAt.isSome = true) :
    s.joinedAt.isSome = true ∨ enough cfg (.probe now joined reachable holdback) = some now := by
  rw [step_probe] at h
  split at h
  · next hreach => exact .inr (by simp only [enough, hreach.1, if_true])
  · exact .inl h

theorem chunks_snoc (cfg : ReadinessSettings) (es : List ReadinessEvent) (e : ReadinessEvent) :
    (es ++ [e]).filterMap (chunkAt cfg) = es.filterMap (chunkAt cfg) ++ (chunkAt cfg e).toList := by
  rw [List.filterMap_append]
  cases h : chunkAt cfg e <;> simp [h]

/-- An event that the recovery does not go by. -/
theorem Clocked.quiet (h : Clocked cfg es s) {s' : Readiness} (hask : enough cfg e = none)
    (hchunk : chunkAt cfg e = none) (hreq : s'.recoveryRequestedAt = s.recoveryRequestedAt)
    (hcount : s'.requests = s.requests) (hlast : s'.recoveryLastChunkAt = s.recoveryLastChunkAt)
    (hchunks : s'.recoveryChunks = s.recoveryChunks) :
    Clocked cfg (es ++ [e]) s' := by
  have hasks : askedAt cfg (es ++ [e]) = askedAt cfg es := by simp [askedAt_snoc, hask]
  have hfound : (es ++ [e]).filterMap (chunkAt cfg) = es.filterMap (chunkAt cfg) := by simp [hchunk]
  refine ⟨?_, ?_, ?_, ?_⟩
  · rw [hreq, hasks, h.requestedAt]
  · rw [hlast, hfound, h.lastChunkAt]
  · rw [hchunks, hfound, h.chunks]
  · rw [hcount, hasks, h.requests]

theorem Clocked.step (h : Clocked cfg es s) (hasked : Asked cfg s) (e : ReadinessEvent) :
    Clocked cfg (es ++ [e]) (s.step cfg e) ∧ Asked cfg (s.step cfg e) := by
  cases e with
  | probe now joined reachable holdback =>
    obtain ⟨hreq, hcount, hlast, hchunks⟩ := probe_fields hasked now joined reachable holdback
    have hfound : (es ++ [ReadinessEvent.probe now joined reachable holdback]).filterMap (chunkAt cfg) =
        es.filterMap (chunkAt cfg) := by
      rw [chunks_snoc]
      exact List.append_nil _
    refine ⟨⟨?_, ?_, ?_, ?_⟩, fun hj henabled => ?_⟩
    · rw [hreq, askedAt_snoc, h.requestedAt]
    · rw [hlast, hfound, h.lastChunkAt]
    · rw [hchunks, hfound, h.chunks]
    · rw [hcount, askedAt_snoc, h.requests, h.requestedAt]
      cases askedAt cfg es <;> cases cfg.historyEnabled <;> simp
    · rw [hreq, henabled, if_pos rfl, Option.isSome_or, Bool.or_eq_true]
      exact (joinedAt_probe hj).imp (fun hs => hasked hs henabled) fun he => by rw [he]; rfl
  | onMessage now m absorbed =>
    unfold Readiness.step
    cases henabled : cfg.historyEnabled with
    | false =>
      have hquiet : chunkAt cfg (.onMessage now m absorbed) = none := by cases absorbed <;> simp [chunkAt, henabled]
      exact ⟨h.quiet rfl hquiet rfl rfl rfl rfl, hasked⟩
    | true =>
      cases absorbed with
      | chat | recoverRequest => exact ⟨h.quiet rfl rfl rfl rfl rfl rfl, hasked⟩
      | historyChunk clock =>
        have hasks : askedAt cfg (es ++ [.onMessage now m (.historyChunk clock)]) = askedAt cfg es := by
          simp [askedAt_snoc, enough]
        have hchunk : chunkAt cfg (.onMessage now m (.historyChunk clock)) = some now := by simp [chunkAt, henabled]
        refine ⟨⟨?_, ?_, ?_, ?_⟩, hasked⟩
        · rw [hasks]; exact h.requestedAt
        · rw [chunks_snoc, hchunk, Option.toList_some, List.getLast?_concat]
          rfl
        · rw [chunks_snoc, hchunk, Option.toList_some, List.length_append, List.length_singleton, ← h.chunks]
          rfl
        · rw [hasks]; exact h.requests
  | reset => exact ⟨h.quiet rfl rfl rfl rfl rfl rfl, hasked⟩

theorem clocked_run (cfg : ReadinessSettings) (restored : VectorClock) (es : List ReadinessEvent) :
    Clocked cfg es (run cfg restored es) ∧ Asked cfg (run cfg restored es) := by
  induction es using List.reverseRecOn with
  | nil =>
    have hnone : askedAt cfg [] = none := by simp [askedAt]
    refine ⟨⟨?_, rfl, rfl, ?_⟩, nofun⟩
    · rw [hnone]; rfl
    · rw [hnone]; rfl
  | append_singleton es e ih =>
    rw [run_snoc]
    exact ih.1.step ih.2 e

/-! ## Joining -/

/-- When the peer joins: at a step that settles. -/
theorem joinedAt_step (h : Clocked cfg es s) (e : ReadinessEvent) :
    (s.joinedAt.isSome = true ∨ ¬ Settles cfg es e) ∧ (s.step cfg e).joinedAt = s.joinedAt ∨
      s.joinedAt = none ∧ Settles cfg es e ∧ ∃ now t reachable holdback, e = .probe now t reachable holdback ∧
        (s.step cfg e).joinedAt = some t := by
  cases e with
  | probe now t reachable holdback =>
    have hsame := (recoverySettled_fields cfg s now holdback).2.2.2.2.1
    rw [step_probe]
    by_cases hreach : cfg.minPeers ≤ reachable.length
    · have hsettles := recoverySettled_iff h now t holdback hreach
      cases hj : s.joinedAt with
      | some t' => simp [hj]
      | none =>
        simp only [hreach, Option.isNone_none, and_self, if_true]
        by_cases hset : (s.recoverySettled cfg now holdback).2 = true
        · rw [if_pos hset]
          exact .inr ⟨trivial, hsettles.1 hset, now, t, reachable, holdback, rfl, rfl⟩
        · rw [if_neg hset, hsame, hj]
          exact .inl ⟨.inr fun hs => hset (hsettles.2 hs), rfl⟩
    · rw [if_neg fun hr => hreach hr.1]
      exact .inl ⟨.inr fun hs => hreach hs.1, rfl⟩
  | onMessage now m absorbed =>
    left
    refine ⟨.inr id, ?_⟩
    unfold Readiness.step
    cases cfg.historyEnabled with
    | false => rfl
    | true => cases absorbed <;> rfl
  | reset => exact .inl ⟨.inr id, rfl⟩

/-- Nothing has let the peer join yet. -/
def Unsettled (cfg : ReadinessSettings) (es : List ReadinessEvent) : Prop := Always (fun g x => ¬ Settles cfg g x) es

/-- The reading at which it joined, and none while nothing has settled. -/
theorem joinedAt_run (cfg : ReadinessSettings) (restored : VectorClock) (es : List ReadinessEvent) :
    ((run cfg restored es).joinedAt = none ↔ Unsettled cfg es) ∧
      ∀ t, (run cfg restored es).joinedAt = some t ↔ JoinsAt cfg es t := by
  induction es using List.reverseRecOn with
  | nil =>
    refine ⟨iff_of_true rfl always_nil, fun t => iff_of_false nofun ?_⟩
    rintro ⟨es₁, now, reachable, holdback, es₂, heq, -⟩
    simp at heq
  | append_singleton es e ih =>
    obtain ⟨hnone, hsome⟩ := ih
    -- an earlier step at which it joined stays the first one
    have hkeep (t : Time) (h : JoinsAt cfg es t) : JoinsAt cfg (es ++ [e]) t := by
      obtain ⟨es₁, now, reachable, holdback, es₂, rfl, hrest⟩ := h
      exact ⟨es₁, now, reachable, holdback, es₂ ++ [e], by simp, hrest⟩
    have hback (t : Time) (h : JoinsAt cfg (es ++ [e]) t) : JoinsAt cfg es t ∨ Unsettled cfg es ∧ Settles cfg es e ∧
        ∃ now reachable holdback, e = .probe now t reachable holdback := by
      obtain ⟨es₁, now, reachable, holdback, es₂, heq, hset, hfirst⟩ := h
      induction es₂ using List.reverseRecOn with
      | nil =>
        obtain ⟨rfl, he⟩ := List.append_inj' heq rfl
        cases he
        exact .inr ⟨hfirst, hset, now, reachable, holdback, rfl⟩
      | append_singleton es₂ y =>
        have heq' : es ++ [e] = (es₁ ++ ReadinessEvent.probe now t reachable holdback :: es₂) ++ [y] := by
          rw [heq]
          simp
        exact .inl ⟨es₁, now, reachable, holdback, es₂, (List.append_inj' heq' rfl).1, hset, hfirst⟩
    rw [run_snoc]
    have hstep := joinedAt_step (clocked_run cfg restored es).1 e
    rcases hstep with ⟨hstay, hsame⟩ | ⟨hfresh, hset, now, t, reachable, holdback, rfl, hjoined⟩
    · rw [hsame]
      refine ⟨hnone.trans ⟨fun h => ?_, fun h => (always_concat.1 h).1⟩,
        fun t => (hsome t).trans ⟨hkeep t, fun h => ?_⟩⟩
      · refine always_concat.2 ⟨h, hstay.resolve_left ?_⟩
        rw [hnone.2 h]
        simp
      · rcases hback t h with h | ⟨huns, hset, -⟩
        · exact h
        · rcases hstay with hs | hs
          · rw [hnone.2 huns] at hs
            cases hs
          · exact absurd hset hs
    · have huns := hnone.1 hfresh
      rw [hjoined]
      refine ⟨iff_of_false nofun fun h => (always_concat.1 h).2 hset, fun t' => ⟨fun h => ?_, fun h => ?_⟩⟩
      · cases h
        exact ⟨es, now, reachable, holdback, [], rfl, hset, huns⟩
      · rcases hback t' h with h | ⟨-, -, now', reachable', holdback', he⟩
        · rw [← hsome, hfresh] at h
          cases h
        · cases he
          rfl

/-- **When a peer joins**: at the first probe that settles, as the events have
it; and it asks for recovery once, at the first probe that finds enough
peers. -/
theorem joined_iff (cfg : ReadinessSettings) (restored : VectorClock) (es : List ReadinessEvent) :
    (∀ t, (run cfg restored es).joinedAt = some t ↔ JoinsAt cfg es t) ∧
      (run cfg restored es).recoveryRequestedAt = askedAt cfg es ∧
      (run cfg restored es).requests = if (askedAt cfg es).isSome then 1 else 0 :=
  ⟨(joinedAt_run cfg restored es).2, (clocked_run cfg restored es).1.requestedAt,
    (clocked_run cfg restored es).1.requests⟩

/-! ## The log -/

section

variable (cfg : ReadinessSettings)

/-- What `_on_message` enters in the log. -/
def recorded : ReadinessEvent → Option (Time × Message)
  | .onMessage now m absorbed =>
    match cfg.historyEnabled, absorbed with
    | false, _ | true, .chat => some (now, m)
    | true, .recoverRequest | true, .historyChunk _ => none
  | .probe _ _ _ _ | .reset => none

/-- The clock that an event accounts for. -/
def accounted : ReadinessEvent → List VectorClock
  | .onMessage _ m absorbed =>
    match cfg.historyEnabled, absorbed with
    | false, _ | true, .chat => [shortVc m.vectorClock]
    | true, .recoverRequest => []
    | true, .historyChunk clock => [clock.elim Dict.empty shortVc]
  | .probe _ _ _ _ | .reset => []

/-- The restored clock, raised by all that was accounted for. -/
def clockAfter (restored : VectorClock) (es : List ReadinessEvent) : VectorClock :=
  (es.flatMap (accounted cfg)).foldl Runtime.raise restored

/-- The log is cleared: by `reset`, or because the peer joins. -/
def Anchors (es : List ReadinessEvent) (e : ReadinessEvent) : Prop := e = .reset ∨ Unsettled cfg es ∧ Settles cfg es e

end

/-- The records of these deliveries, numbered from 0. -/
def number (l : List (Time × Message)) : List Record :=
  l.zipIdx.map fun p =>
    ⟨p.2, p.1.2.id, shortKey p.1.2.sender, shortVc p.1.2.vectorClock, p.1.1, p.1.2.timestamp⟩

theorem number_snoc (l : List (Time × Message)) (p : Time × Message) : number (l ++ [p]) =
    number l ++ [⟨l.length, p.2.id, shortKey p.2.sender, shortVc p.2.vectorClock, p.1, p.2.timestamp⟩] := by
  simp [number, List.zipIdx_append]

theorem length_number (l : List (Time × Message)) : (number l).length = l.length := by simp [number]

/-- What a step does to the log and the clocks. -/
structure Logs (cfg : ReadinessSettings) (s : Readiness) (e : ReadinessEvent) (s' : Readiness) : Prop where
  deliveredVc : s'.deliveredVc = (accounted cfg e).foldl Runtime.raise s.deliveredVc
  kept : s'.baselineVc = s.baselineVc
  deliveries : s'.deliveries = s.deliveries ++ (recorded cfg e).toList.map fun p =>
    ⟨s.deliveries.length, p.2.id, shortKey p.2.sender, shortVc p.2.vectorClock, p.1, p.2.timestamp⟩

/-- A step clears the log, and takes the baseline from the clock, or enters
what it records. -/
theorem logs_step (h : Clocked cfg es s) (hjoined : s.joinedAt = none ↔ Unsettled cfg es) (e : ReadinessEvent) :
    (Anchors cfg es e ∧ (s.step cfg e).deliveries = [] ∧ (s.step cfg e).baselineVc = s.deliveredVc ∧
      (s.step cfg e).deliveredVc = s.deliveredVc ∧ accounted cfg e = []) ∨
    ¬ Anchors cfg es e ∧ Logs cfg s e (s.step cfg e) := by
  cases e with
  | reset => exact .inl ⟨.inl rfl, rfl, rfl, rfl, rfl⟩
  | onMessage now m absorbed =>
    right
    refine ⟨fun ha => ?_, ?_⟩
    · rcases ha with ha | ⟨-, ha⟩
      · cases ha
      · exact ha
    · unfold Readiness.step
      cases henabled : cfg.historyEnabled with
      | false => exact ⟨by simp [accounted, henabled, deliver], rfl, by simp [recorded, henabled, deliver]⟩
      | true =>
        cases absorbed with
        | chat => exact ⟨by simp [accounted, henabled, deliver], rfl, by simp [recorded, henabled, deliver]⟩
        | recoverRequest => exact ⟨by simp [accounted, henabled], rfl, by simp [recorded, henabled]⟩
        | historyChunk clock => exact ⟨by simp [accounted, henabled], rfl, by simp [recorded, henabled]⟩
  | probe now t reachable holdback =>
    obtain ⟨-, -, -, -, -, hdeliveries, hbaseline, hdelivered⟩ := recoverySettled_fields cfg s now holdback
    rw [step_probe]
    by_cases hreach : cfg.minPeers ≤ reachable.length
    · have hsettles := recoverySettled_iff h now t holdback hreach
      by_cases hfresh : s.joinedAt = none
      · rw [if_pos ⟨hreach, by simp [hfresh]⟩]
        by_cases hset : (s.recoverySettled cfg now holdback).2 = true
        · rw [if_pos hset]
          exact .inl ⟨.inr ⟨hjoined.1 hfresh, hsettles.1 hset⟩, rfl, hdelivered, hdelivered, rfl⟩
        · rw [if_neg hset]
          refine .inr ⟨fun ha => ?_, hdelivered, hbaseline, by simpa [recorded] using hdeliveries⟩
          rcases ha with ha | ⟨-, ha⟩
          · cases ha
          · exact hset (hsettles.2 ha)
      · rw [if_neg fun hr => hfresh (by simpa using hr.2)]
        refine .inr ⟨fun ha => ?_, rfl, rfl, by simp [recorded]⟩
        rcases ha with ha | ⟨huns, -⟩
        · cases ha
        · exact hfresh (hjoined.2 huns)
    · rw [if_neg fun hr => hreach hr.1]
      refine .inr ⟨fun ha => ?_, rfl, rfl, by simp [recorded]⟩
      rcases ha with ha | ⟨-, ha⟩
      · cases ha
      · exact hreach ha.1

/-- **The log is anchored**: the clock is raised by all that was delivered or
recovered; what the log has, numbered from 0, is what was delivered after the
last moment at which the peer joined or the log was reset; and the baseline is
the clock of that moment, and empty if there was none. -/
theorem log_anchored (cfg : ReadinessSettings) (restored : VectorClock) (es : List ReadinessEvent) :
    (run cfg restored es).deliveredVc = clockAfter cfg restored es ∧ ∃ before after, es = before ++ after ∧
      (run cfg restored es).deliveries = number (after.filterMap (recorded cfg)) ∧
      (before = [] ∧ (run cfg restored es).baselineVc = Dict.empty ∨ ∃ g x, before = g ++ [x] ∧ Anchors cfg g x ∧
        (run cfg restored es).baselineVc = clockAfter cfg restored before) ∧
      Always (fun g x => ¬ Anchors cfg (before ++ g) x) after := by
  induction es using List.reverseRecOn with
  | nil => exact ⟨rfl, [], [], rfl, rfl, .inl ⟨rfl, rfl⟩, always_nil⟩
  | append_singleton es e ih =>
    obtain ⟨hclock, before, after, hes, hdeliveries, hbaseline, hnone⟩ := ih
    have hstep := logs_step (clocked_run cfg restored es).1 (joinedAt_run cfg restored es).1 e
    have hafter : clockAfter cfg restored (es ++ [e]) =
        (accounted cfg e).foldl Runtime.raise (clockAfter cfg restored es) := by
      simp [clockAfter]
    rw [run_snoc, hafter, ← hclock]
    rcases hstep with ⟨hanchor, hempty, hbase, hkept, hacc⟩ | ⟨hno, hlogs⟩
    · rw [hkept, hempty, hbase, hacc]
      refine ⟨rfl, es ++ [e], [], by simp, rfl, .inr ⟨es, e, rfl, hanchor, ?_⟩, always_nil⟩
      rw [hafter, hacc, hclock]
      rfl
    · refine ⟨hlogs.deliveredVc, before, after ++ [e], by rw [hes, List.append_assoc], ?_, ?_, ?_⟩
      · rw [hlogs.deliveries, hdeliveries, List.filterMap_append]
        cases hrec : recorded cfg e with
        | none => simp [hrec]
        | some p => simp [hrec, number_snoc, length_number]
      · rw [hlogs.kept]
        exact hbaseline
      · exact always_concat.2 ⟨hnone, hes ▸ hno⟩

/-! ## A restart -/

/-- A peer that waits for one other peer; a second has ten units. -/
def pair : ReadinessSettings := ⟨1, true, 10⟩

/-- A message of the other peer. -/
def greeting (i : String) (n : Int) : Message := ⟨"hi", "b.x:1", i, 0, "", 10, (Dict.empty : VectorClock).set "b.x:1" n⟩

/-- It asks for recovery at 100, gets a chunk and a message, and joins when
the chunk is three seconds old. -/
def rejoining : List ReadinessEvent :=
  [.probe 90 90 [] 0, .probe 100 100 ["b.x:1"] 0,
    .onMessage 105 (greeting "c" 3) (.historyChunk (some (greeting "c" 3).vectorClock)),
    .probe 120 120 ["b.x:1"] 1, .onMessage 121 (greeting "x" 4) .chat, .probe 140 141 ["b.x:1"] 0,
    .onMessage 150 (greeting "y" 5) .chat]

/-- The log of this peer has the second message only, and starts after the
first. -/
example : (run pair Dict.empty rejoining).joinedAt = some 141 ∧
    (run pair Dict.empty rejoining).deliveries.map Record.id = ["y"] ∧
    (run pair Dict.empty rejoining).baselineVc.count "b" = 4 := by decide

end Readiness

end PeerChat.Deploy
