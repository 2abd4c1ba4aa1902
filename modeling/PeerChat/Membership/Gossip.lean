/-
Gossip of membership events between two nodes (`peer_discovery/network/gossip.py`,
`DiscoveryNode._handle_gossip` of `discovery_node.py`).

The dispatcher is a subscriber of the coordinator, so it sees the events
that have a delta, and the receiver checks each one against its own
snapshot. Two events move a member without a delta: the start of a backfill
and the request to leave. They are never gossiped, and the receiver then
refuses what comes after them. `converges_iff`: a receiver in the same
states stays in the same states exactly as long as the sender logs neither.
-/
import PeerChat.Membership.Effects

namespace PeerChat.Membership

open Lib

/-! ## Event ids -/

/-- `event.originator or event.user_id`. -/
def MembershipEvent.origin (e : MembershipEvent) : String :=
  match e.originator with
  | some o => if o = "" then e.userId else o
  | none => e.userId

/-- The id an event is deduplicated by. -/
def eventId (e : MembershipEvent) : String :=
  e.origin ++ ":" ++ toString e.seqNo ++ ":" ++ e.eventType.value ++ ":" ++ e.userId

/-! ## The two nodes -/

/-- A `DiscoveryNode`: its coordinator and the ids its `GossipDispatcher`
has seen, least recent first. -/
structure DiscoveryNode where
  coordinator : Coordinator
  seenEventIds : List String

/-- `MAX_SEEN_EVENTS`. -/
def maxSeenEvents : Nat := 10000

/-- `_mark_seen`. -/
def markSeen (seen : List String) (id : String) : List String × Bool :=
  if id ∈ seen then (seen.erase id ++ [id], true)
  else
    let seen := seen ++ [id]
    (if seen.length > maxSeenEvents then seen.tail else seen, false)

/-- The events `GossipDispatcher.dispatch` broadcasts of what it is given,
as the receiver decodes them. -/
def envelopes (out : List (MembershipEvent × MembershipDelta)) : List MembershipEvent :=
  (out.filter (·.1.source ≠ "remote")).map (·.1.reread)

/-- A local operation and the gossip it sends. -/
def DiscoveryNode.call (clock : Nat → Time) (a : DiscoveryNode) (op : Op) : DiscoveryNode × List MembershipEvent :=
  let c := a.coordinator.step clock op
  let sent := envelopes (c.dispatched.drop a.coordinator.dispatched.length)
  (⟨c, sent.foldl (fun seen e => (markSeen seen (eventId e)).1) a.seenEventIds⟩, sent)

/-- `_handle_gossip`. -/
def DiscoveryNode.handleGossip (clock : Nat → Time) (b : DiscoveryNode) (e : MembershipEvent) : DiscoveryNode :=
  match markSeen b.seenEventIds (eventId e) with
  | (seen, true) => { b with seenEventIds := seen }
  | (seen, false) => ⟨b.coordinator.step clock (.remote e), seen⟩

/-- The receiver after the gossip of an operation. -/
def DiscoveryNode.receive (clock : Nat → Time) (b : DiscoveryNode) (sent : List MembershipEvent) : DiscoveryNode :=
  sent.foldl (handleGossip clock) b

/-- The snapshots assign the same states. -/
def SameStates (c d : Coordinator) : Prop := ∀ u, c.snapshot.stateOf u = d.snapshot.stateOf u

/-- Every envelope is new to the receiver when its turn comes, so that it is
applied. -/
def DiscoveryNode.Applies (clock : Nat → Time) (b : DiscoveryNode) : List MembershipEvent → Prop
  | [] => True
  | e :: sent => eventId e ∉ b.seenEventIds ∧ (b.handleGossip clock e).Applies clock sent

/-- A sender and a receiver between two operations. -/
structure InStep (c : Coordinator) (b : DiscoveryNode) : Prop where
  sane : Sane b.coordinator
  same : SameStates c b.coordinator

/-- What a remote event that is no heartbeat does to the states. -/
theorem stateOf_remote {clock : Nat → Time} {c : Coordinator} (h : Sane c) {e : MembershipEvent}
    (hne : e.eventType ≠ .heartbeat) (v : String) :
    (c.step clock (.remote e)).snapshot.stateOf v =
      if v = e.userId then transition e.eventType (c.snapshot.stateOf v) else c.snapshot.stateOf v := by
  refine Prog.wp_run (E := fun c' : Coordinator => c'.snapshot.stateOf v =
    if v = e.userId then transition e.eventType (c.snapshot.stateOf v) else c.snapshot.stateOf v) ?_
  refine wp_remote h fun e' c' he' hl => ?_
  have hst := hl.state v
  subst he'
  simp only [Prog.wp_bind, Prog.wp_when, Prog.wp_lift, exec]
  refine ⟨fun _ => ⟨fun hb => absurd hb hne, fun _ => hst⟩, fun _ => hst⟩

theorem handleGossip_new {clock : Nat → Time} {b : DiscoveryNode} {e : MembershipEvent}
    (hid : eventId e ∉ b.seenEventIds) :
    b.handleGossip clock e = ⟨b.coordinator.step clock (.remote e), (markSeen b.seenEventIds (eventId e)).1⟩ := by
  simp only [DiscoveryNode.handleGossip, markSeen, hid, if_false]

theorem handleGossip_seen {clock : Nat → Time} {b : DiscoveryNode} {e : MembershipEvent}
    (hid : eventId e ∈ b.seenEventIds) :
    b.handleGossip clock e = { b with seenEventIds := (markSeen b.seenEventIds (eventId e)).1 } := by
  simp only [DiscoveryNode.handleGossip, markSeen, hid, if_true]

/-- A refused event changes nothing, seen before or not. -/
theorem stateOf_handleGossip_refused {clock : Nat → Time} {b : DiscoveryNode} (h : Sane b.coordinator)
    {e : MembershipEvent} (hne : e.eventType ≠ .heartbeat)
    (hr : transition e.eventType (b.coordinator.snapshot.stateOf e.userId) =
      b.coordinator.snapshot.stateOf e.userId) (v : String) :
    (b.handleGossip clock e).coordinator.snapshot.stateOf v = b.coordinator.snapshot.stateOf v := by
  by_cases hid : eventId e ∈ b.seenEventIds
  · rw [handleGossip_seen hid]
  · rw [handleGossip_new hid, stateOf_remote h hne]
    split
    · next hv => rw [hv, hr]
    · rfl

theorem receive_append (clock : Nat → Time) (b : DiscoveryNode) (s₁ s₂ : List MembershipEvent) :
    b.receive clock (s₁ ++ s₂) = (b.receive clock s₁).receive clock s₂ :=
  List.foldl_append

theorem applies_append {clock : Nat → Time} {s₁ s₂ : List MembershipEvent} : ∀ {b : DiscoveryNode},
    b.Applies clock (s₁ ++ s₂) ↔ b.Applies clock s₁ ∧ (b.receive clock s₁).Applies clock s₂ := by
  induction s₁ with
  | nil => exact fun {b} => ⟨fun h => ⟨trivial, h⟩, fun h => h.2⟩
  | cons e s₁ ih =>
    intro b
    show _ ∧ (b.handleGossip clock e).Applies clock (s₁ ++ s₂) ↔
      (_ ∧ (b.handleGossip clock e).Applies clock s₁) ∧ ((b.handleGossip clock e).receive clock s₁).Applies clock s₂
    rw [ih, and_assoc]

/-! ## In step -/

variable {clock clockB : Nat → Time} {c c' : Coordinator} {b : DiscoveryNode} {e : MembershipEvent} {t : Int}

/-- The receiver hears of a logged event. -/
theorem InStep.heard (h : InStep c b) {out : List (MembershipEvent × MembershipDelta)} (hl : Logged c c' e t out)
    (hid : eventId e.reread ∉ b.seenEventIds) (hne : e.eventType ≠ .heartbeat) :
    InStep c' (b.handleGossip clockB e.reread) := by
  rw [handleGossip_new hid]
  refine ⟨h.sane.step _, fun v => ?_⟩
  have hremote : (b.coordinator.step clockB (.remote e.reread)).snapshot.stateOf v = _ :=
    stateOf_remote h.sane (e := e.reread) hne v
  rw [hl.state, h.same v]
  exact hremote.symm

/-- The receiver does not hear of an event that changes no state. -/
theorem InStep.unheard (h : InStep c b) {out : List (MembershipEvent × MembershipDelta)} (hl : Logged c c' e t out)
    (hst : transition e.eventType (c.snapshot.stateOf e.userId) = c.snapshot.stateOf e.userId) : InStep c' b := by
  refine ⟨h.sane, fun v => ?_⟩
  rw [hl.state, ← h.same v]
  split
  · next hv => rw [hv]; exact hst
  · rfl

/-- The sender in the middle of an operation that began with `d₀`
dispatched, and the receiver `b₀` with the gossip so far. -/
structure Synced (clockB : Nat → Time) (d₀ : List (MembershipEvent × MembershipDelta)) (b₀ : DiscoveryNode)
    (c : Coordinator) : Prop where
  sane : Sane c
  inStep : ∃ out, c.dispatched = d₀ ++ out ∧
    (b₀.Applies clockB (envelopes out) → InStep c (b₀.receive clockB (envelopes out)))

variable {d₀ : List (MembershipEvent × MembershipDelta)} {b₀ : DiscoveryNode}

theorem envelopes_append (o₁ o₂ : List (MembershipEvent × MembershipDelta)) :
    envelopes (o₁ ++ o₂) = envelopes o₁ ++ envelopes o₂ := by
  simp [envelopes]

/-- An event dispatched with a delta of its own. -/
theorem Synced.dispatched (h : Synced clockB d₀ b₀ c) {d : MembershipDelta} (hl : Logged c c' e t [(e, d)])
    (hs : e.source ≠ "remote") (hne : e.eventType ≠ .heartbeat) : Synced clockB d₀ b₀ c' := by
  obtain ⟨out, hout, hin⟩ := h.inStep
  refine ⟨hl.sane, out ++ [(e, d)], by rw [hl.dispatched, hout, List.append_assoc], fun hap => ?_⟩
  have henv : envelopes [(e, d)] = [e.reread] := by simp [envelopes, hs]
  rw [envelopes_append, henv] at hap ⊢
  rw [applies_append] at hap
  rw [receive_append]
  exact (hin hap.1).heard hl hap.2.1 hne

theorem Synced.silent (h : Synced clockB d₀ b₀ c) (hl : Logged c c' e t [])
    (hst : transition e.eventType (c.snapshot.stateOf e.userId) = c.snapshot.stateOf e.userId) :
    Synced clockB d₀ b₀ c' := by
  obtain ⟨out, hout, hin⟩ := h.inStep
  exact ⟨hl.sane, out, by rw [hl.dispatched, hout, List.append_nil], fun hap => (hin hap).unheard hl hst⟩

/-- An event of a type that has a delta, accepted or not. -/
theorem Synced.recorded (h : Synced clockB d₀ b₀ c) (hl : Logged c c' e t (deltas c.snapshot e))
    (hs : e.source ≠ "remote") (hd : (deltaType e.eventType).isSome = true) : Synced clockB d₀ b₀ c' := by
  obtain ⟨dt, hdt⟩ := Option.isSome_iff_exists.1 hd
  by_cases hv : isTransitionValid e.eventType (c.snapshot.stateOf e.userId) = true
  · have hdel : deltas c.snapshot e = [(e, ⟨dt, e.userId, e⟩)] := by simp [deltas, deltaOf, hv, hdt]
    rw [hdel] at hl
    refine h.dispatched hl hs fun hb => ?_
    rw [hb] at hdt
    cases hdt
  · have hdel : deltas c.snapshot e = [] := by simp [deltas, deltaOf, hv]
    rw [hdel] at hl
    exact h.silent hl (by simp [transition, hv])

/-- Steps that keep the snapshot and what was dispatched. -/
theorem Synced.congr (h : Synced clockB d₀ b₀ c) (hs : Sane c') (hsnap : c'.snapshot = c.snapshot)
    (hd : c'.dispatched = c.dispatched) : Synced clockB d₀ b₀ c' := by
  obtain ⟨out, hout, hin⟩ := h.inStep
  refine ⟨hs, out, by rw [hd, hout], fun hap => ⟨(hin hap).sane, fun v => ?_⟩⟩
  rw [hsnap]
  exact (hin hap).same v

theorem Synced.watching (h : Synced clockB d₀ b₀ c) (p : PresenceManager) : Synced clockB d₀ b₀ (c.watching p) :=
  h.congr (h.sane.watching p) rfl rfl

theorem Synced.reading (h : Synced clockB d₀ b₀ c) (r : Nat) : Synced clockB d₀ b₀ { c with reads := r } :=
  h.congr (h.sane.reading r) rfl rfl

theorem Synced.checkpointed (h : Synced clockB d₀ b₀ c) : Synced clockB d₀ b₀ c.checkpointed :=
  h.congr h.sane.checkpointed rfl rfl

/-! ## The operations -/

theorem coordinator_ne_remote : "coordinator" ≠ "remote" := by decide

theorem presence_ne_remote : "presence" ≠ "remote" := by decide

variable {u : String}

theorem Synced.presenceChange (h : Synced clockB d₀ b₀ c) (ch : ChangeType) :
    Prog.wp (exec clock) (handlePresenceChange u ch) (fun _ => Synced clockB d₀ b₀) (Synced clockB d₀ b₀) c := by
  refine wp_handlePresenceChange h.sane (fun _ => h) (fun _ => h) fun _ e c' _ het hes _ hl => ?_
  refine ((h.recorded hl (hes ▸ presence_ne_remote) ?_).watching _).checkpointed
  rw [het]
  cases ch <;> rfl

theorem Synced.join (h : Synced clockB d₀ b₀ c) (name : String) (key : Option Bytes) (trace : Option String)
    (v : Verdict) :
    Prog.wp (exec clock) (Op.prog c.settings (.join u name key trace v)) (fun _ => Synced clockB d₀ b₀)
      (Synced clockB d₀ b₀) c := by
  have hg : Synced clockB d₀ b₀ (c.guarded u) := h.congr (h.sane.guarded u) rfl rfl
  refine wp_join h.sane hg hg (fun e c' _ het hes _ hl => ?_) (fun e c' _ het hes _ hl => ?_)
  · exact hg.dispatched hl (hes ▸ coordinator_ne_remote) (by rw [het]; decide)
  · have hr := hg.recorded hl (hes ▸ coordinator_ne_remote) (by rw [het]; rfl)
    split
    · exact ((hr.watching _).reading _).checkpointed
    · exact hr.checkpointed

theorem Synced.heartbeat (h : Synced clockB d₀ b₀ c) :
    Prog.wp (exec clock) (handleHeartbeat u) (fun _ => Synced clockB d₀ b₀) (Synced clockB d₀ b₀) c := by
  refine wp_handleHeartbeat h.sane (fun _ => h) (fun _ => h) fun _ e c' _ het hl => ?_
  have h₁ := ((h.silent hl (by rw [het]; simp [transition, target])).watching
    (c'.presence.recordHeartbeat (clock c'.reads) u).1).reading (c'.reads + 1)
  simp only
  split
  · exact Prog.wp_mono (fun _ _ hi => hi.checkpointed) (fun _ hi => hi) (h₁.presenceChange _)
  · exact h₁.checkpointed

theorem Synced.tick (h : Synced clockB d₀ b₀ c) (cfg : Settings) :
    Prog.wp (exec clock) (Membership.tick cfg) (fun _ => Synced clockB d₀ b₀) (Synced clockB d₀ b₀) c := by
  refine wp_tick (R := Synced clockB d₀ b₀) cfg ?_ fun c₁ h₁ => ?_
  · refine Prog.wp_forEach (I := fun _ => Synced clockB d₀ b₀) (h.reading _) fun v _ c₁ _ h₁ => ?_
    refine wp_checkMember h₁.sane (fun _ => h₁.watching _) (fun _ => h₁.watching _)
      fun ch _ _ e c' _ het hes _ hl => ?_
    refine (((h₁.watching _).recorded hl (hes ▸ presence_ne_remote) ?_).watching _).checkpointed
    rw [het]
    cases ch <;> rfl
  · refine Prog.wp_forEach (I := fun _ => Synced clockB d₀ b₀) (h₁.reading _) fun v _ c₂ _ h₂ => ?_
    refine wp_sweepMember h₂.sane (fun _ => h₂) (fun _ => h₂) fun _ _ e c' _ het hes _ hl => ?_
    exact ((h₂.recorded hl (hes ▸ coordinator_ne_remote) (by rw [het]; rfl)).watching _).checkpointed

/-- The operation logs no event that moves a member without a delta. -/
def GossipSafe (c : Coordinator) : Op → Prop
  | .startBackfill u => ¬ 1 < c.log.currentTerm → c.snapshot.stateOf u ≠ some .joining
  | .leave u => ¬ 1 < c.log.currentTerm → c.snapshot.stateOf u ≠ some .active
  | _ => True

/-- The operations that a node starts itself. -/
def Op.isLocal : Op → Bool
  | .remote _ | .recover => false
  | .join .. | .startBackfill _ | .completeBackfill _ | .heartbeat _ | .leave _ | .tick => true

theorem Synced.leave (h : Synced clockB d₀ b₀ c) (hs : GossipSafe c (.leave u)) :
    Prog.wp (exec clock) (handleLeave u) (fun _ => Synced clockB d₀ b₀) (Synced clockB d₀ b₀) c := by
  refine wp_handleLeave h.sane (fun _ => h) (fun _ => h) (fun _ _ e c' _ het hes _ hl => ?_)
    (fun ht st hst _ _ _ e₁ c₁ e₂ c₂ heu₁ het₁ _ het₂ hes₂ _ hl₁ hl₂ => ?_)
  · exact ((h.recorded hl (hes ▸ coordinator_ne_remote) (by rw [het]; rfl)).watching _).checkpointed
  · have hne : st ≠ .active := fun he => hs ht (by rw [hst, he])
    have h₁ := h.silent hl₁ (by
      rw [heu₁, het₁, hst]
      cases st <;> first | exact absurd rfl hne | decide)
    exact ((h₁.recorded hl₂ (hes₂ ▸ coordinator_ne_remote) (by rw [het₂]; rfl)).watching _).checkpointed

theorem Synced.step (h : Synced clockB d₀ b₀ c) {op : Op} (hop : op.isLocal = true) (hs : GossipSafe c op) :
    Synced clockB d₀ b₀ (c.step clock op) := by
  refine Prog.wp_run (E := Synced clockB d₀ b₀) ?_
  cases op with
  | join u name key trace v => exact h.join name key trace v
  | startBackfill u =>
    refine wp_moveBackfill h.sane (fun _ => h) (fun _ => h) fun ht hst => ?_
    exact absurd hst (hs ht)
  | completeBackfill u =>
    refine wp_moveBackfill h.sane (fun _ => h) (fun _ => h) fun _ _ e c' _ het hes _ hl => ?_
    exact (h.recorded hl (hes ▸ coordinator_ne_remote) (by rw [het]; rfl)).checkpointed
  | heartbeat u => exact h.heartbeat
  | leave u => exact h.leave hs
  | tick => exact h.tick _
  | remote e => cases hop
  | recover => cases hop

/-! ## Out of step -/

/-- The sender of an operation that began with `d₀` dispatched, and the
receiver `b₀` with all its gossip, in different states. -/
def Parted (clockB : Nat → Time) (d₀ : List (MembershipEvent × MembershipDelta)) (b₀ : DiscoveryNode)
    (c : Coordinator) : Prop :=
  ∃ out, c.dispatched = d₀ ++ out ∧ ¬ SameStates c (b₀.receive clockB (envelopes out)).coordinator

/-- The start of a backfill is logged and not broadcast. -/
theorem InStep.startBackfill_parts (hc : Sane c) (h : InStep c b) {u : String} (ht : ¬ 1 < c.log.currentTerm)
    (hst : c.snapshot.stateOf u = some .joining) :
    Prog.wp (exec clock) (handleStartBackfill u) (fun _ => Parted clockB c.dispatched b)
      (Parted clockB c.dispatched b) c := by
  refine wp_moveBackfill hc (fun hn => absurd hst hn) (fun h1 => absurd h1 ht) fun _ _ e c' heu het _ _ hl => ?_
  have hout : deltas c.snapshot e = [] := by
    simp only [deltas, deltaOf, het, deltaType, Option.map_none, ite_self, Option.toList_none]
  refine ⟨[], by rw [checkpointed_dispatched, hl.dispatched, hout], fun hsame => ?_⟩
  have h1 : some MemberState.backfilling = b.coordinator.snapshot.stateOf u := by
    rw [show b.coordinator = (b.receive clockB (envelopes [])).coordinator from rfl, ← hsame u,
      checkpointed_snapshot, hl.state, heu, if_pos rfl, het, hst]
    decide
  rw [← h.same u, hst] at h1
  cases h1

/-- Of a leave only the second event is broadcast, and refused. -/
theorem InStep.leave_parts (hc : Sane c) (h : InStep c b) {u : String} (ht : ¬ 1 < c.log.currentTerm)
    (hst : c.snapshot.stateOf u = some .active) :
    Prog.wp (exec clock) (handleLeave u) (fun _ => Parted clockB c.dispatched b) (Parted clockB c.dispatched b) c := by
  refine wp_handleLeave hc (fun hg => ?_) (fun h1 => absurd h1 ht) (fun _ hl => ?_)
    (fun _ st _ _ _ _ e₁ c₁ e₂ c₂ heu₁ het₁ heu₂ het₂ hes₂ _ hl₁ hl₂ => ?_)
  · rw [hst] at hg
    simp at hg
  · rw [hst] at hl
    simp at hl
  · have hleaving : c₁.snapshot.stateOf u = some .leaving := by
      rw [hl₁.state, heu₁, if_pos rfl, het₁, hst]
      decide
    have hout : deltas c₁.snapshot e₂ = [(e₂, ⟨.left, u, e₂⟩)] := by
      have hv : isTransitionValid .leaveConfirmed (some .leaving) = true := by decide
      simp [deltas, deltaOf, het₂, heu₂, hleaving, hv, deltaType]
    have henv : envelopes [(e₂, ⟨.left, u, e₂⟩)] = [e₂.reread] := by
      have hne : e₂.source ≠ "remote" := hes₂ ▸ coordinator_ne_remote
      simp [envelopes, hne]
    refine ⟨[(e₂, ⟨.left, u, e₂⟩)], ?_, fun hsame => ?_⟩
    · rw [checkpointed_dispatched, watching_dispatched, hl₂.dispatched, hl₁.dispatched, hout, List.append_nil]
    · have hnot : e₂.reread.eventType ≠ .heartbeat := by
        rw [show e₂.reread.eventType = _ from het₂]
        decide
      have hb : (b.handleGossip clockB e₂.reread).coordinator.snapshot.stateOf u = some .active := by
        rw [stateOf_handleGossip_refused h.sane hnot, ← h.same u, hst]
        rw [show e₂.reread.eventType = _ from het₂, show e₂.reread.userId = u from heu₂, ← h.same u, hst]
        decide
      have ha : c₂.snapshot.stateOf u = some .left := by
        rw [hl₂.state, heu₂, if_pos rfl, het₂, hleaving]
        decide
      have heq := hsame u
      rw [checkpointed_snapshot, watching_snapshot, ha, henv, DiscoveryNode.receive, List.foldl_cons, List.foldl_nil,
        hb] at heq
      cases heq

theorem InStep.parts (hc : Sane c) (h : InStep c b) {op : Op} (hs : ¬ GossipSafe c op) :
    Parted clockB c.dispatched b (c.step clock op) := by
  refine Prog.wp_run (E := Parted clockB c.dispatched b) ?_
  cases op with
  | startBackfill u =>
    simp only [GossipSafe, not_forall, not_not] at hs
    obtain ⟨ht, hst⟩ := hs
    exact h.startBackfill_parts hc ht hst
  | leave u =>
    simp only [GossipSafe, not_forall, not_not] at hs
    obtain ⟨ht, hst⟩ := hs
    exact h.leave_parts hc ht hst
  | join _ _ _ _ _ | completeBackfill _ | heartbeat _ | tick | remote _ | recover => exact absurd trivial hs

/-! ## Runs -/

/-- An operation at the first node, and its gossip at the second. -/
def exchange (clock clockB : Nat → Time) (ab : DiscoveryNode × DiscoveryNode) (op : Op) :
    DiscoveryNode × DiscoveryNode :=
  ((ab.1.call clock op).1, ab.2.receive clockB (ab.1.call clock op).2)

/-- After every operation the two snapshots assign the same states. -/
def Converges (clock clockB : Nat → Time) (ab : DiscoveryNode × DiscoveryNode) : List Op → Prop
  | [] => True
  | op :: ops =>
    SameStates (exchange clock clockB ab op).1.coordinator (exchange clock clockB ab op).2.coordinator ∧
      Converges clock clockB (exchange clock clockB ab op) ops

/-- The second node applies every envelope of the run. -/
def AppliesAll (clock clockB : Nat → Time) (ab : DiscoveryNode × DiscoveryNode) : List Op → Prop
  | [] => True
  | op :: ops =>
    ab.2.Applies clockB (ab.1.call clock op).2 ∧ AppliesAll clock clockB (exchange clock clockB ab op) ops

/-- No operation of the run starts the backfill of a joining member or
removes an active one. -/
def AllGossipSafe (clock : Nat → Time) (c : Coordinator) : List Op → Prop
  | [] => True
  | op :: ops => GossipSafe c op ∧ AllGossipSafe clock (c.step clock op) ops

theorem exchange_inStep {a : DiscoveryNode} (ha : Sane a.coordinator) (h : InStep a.coordinator b) {op : Op}
    (hop : op.isLocal = true) (hap : b.Applies clockB (a.call clock op).2) (hs : GossipSafe a.coordinator op) :
    InStep (exchange clock clockB (a, b) op).1.coordinator (exchange clock clockB (a, b) op).2 := by
  have hsync : Synced clockB a.coordinator.dispatched b a.coordinator := ⟨ha, [], by simp, fun _ => h⟩
  have hstep : Synced clockB a.coordinator.dispatched b (a.coordinator.step clock op) := hsync.step hop hs
  obtain ⟨out, hout, hin⟩ := hstep.inStep
  have hsent : (a.call clock op).2 = envelopes out := by simp [DiscoveryNode.call, hout]
  rw [hsent] at hap
  simpa [exchange, DiscoveryNode.call, hout] using hin hap

theorem exchange_parts {a : DiscoveryNode} (ha : Sane a.coordinator) (h : InStep a.coordinator b) {op : Op}
    (hs : ¬ GossipSafe a.coordinator op) :
    ¬ SameStates (exchange clock clockB (a, b) op).1.coordinator (exchange clock clockB (a, b) op).2.coordinator := by
  have hparts : Parted clockB a.coordinator.dispatched b (a.coordinator.step clock op) := h.parts ha hs
  obtain ⟨out, hout, hne⟩ := hparts
  simpa [exchange, DiscoveryNode.call, hout] using hne

theorem InStep.converges_iff_safe : ∀ {ops : List Op} {a b : DiscoveryNode}, Sane a.coordinator →
    InStep a.coordinator b → (∀ op ∈ ops, op.isLocal = true) → AppliesAll clock clockB (a, b) ops →
    (Converges clock clockB (a, b) ops ↔ AllGossipSafe clock a.coordinator ops)
  | [], _, _, _, _, _, _ => Iff.rfl
  | op :: ops, a, b, ha, h, hops, hap => by
    have hop := hops op (by simp)
    have hrest : ∀ op ∈ ops, op.isLocal = true := fun x hx => hops x (List.mem_cons_of_mem _ hx)
    have hnext (hs : GossipSafe a.coordinator op) :
        Converges clock clockB (exchange clock clockB (a, b) op) ops ↔
          AllGossipSafe clock (a.coordinator.step clock op) ops :=
      InStep.converges_iff_safe (ha.step op) (exchange_inStep ha h hop hap.1 hs) hrest hap.2
    constructor
    · intro hc
      have hs : GossipSafe a.coordinator op := by
        by_contra hn
        exact exchange_parts ha h hn hc.1
      exact ⟨hs, (hnext hs).1 hc.2⟩
    · intro hs
      exact ⟨(exchange_inStep ha h hop hap.1 hs.1).same, (hnext hs.1).2 hs.2⟩

/-- **Gossip convergence.** Two nodes in the same states stay in the same
states, operation after operation of the first, exactly when none of these
starts the backfill of a joining member or removes an active one. -/
theorem converges_iff (clock clockB : Nat → Time) {a b : DiscoveryNode} (ha : Reached clock a.coordinator)
    (hb : Reached clockB b.coordinator) (hsame : SameStates a.coordinator b.coordinator) (ops : List Op)
    (hops : ∀ op ∈ ops, op.isLocal = true) (hap : AppliesAll clock clockB (a, b) ops) :
    Converges clock clockB (a, b) ops ↔ AllGossipSafe clock a.coordinator ops :=
  InStep.converges_iff_safe ha.sane ⟨hb.sane, hsame⟩ hops hap

/-- Two nodes that have just started. -/
def started : DiscoveryNode × DiscoveryNode :=
  (⟨.new ⟨"room", some "a:1", 1⟩ Dict.empty, []⟩, ⟨.new ⟨"room", some "b:1", 1⟩ Dict.empty, []⟩)

/-- A clock that stands still. -/
def still (_ : Nat) : Time := 0

/-- A member that joins and fetches the history. -/
def onboarding : List Op := [.join "c:1" "C" none none .accepts, .startBackfill "c:1", .completeBackfill "c:1"]

theorem converges_iff_join :
    Converges still still started [.join "c:1" "C" none none .accepts, .heartbeat "c:1"] := by
  have hfresh : SameStates started.1.coordinator started.2.coordinator := fun _ => rfl
  refine (converges_iff still still ⟨_, [], rfl⟩ ⟨_, [], rfl⟩ hfresh _ (by decide) ?_).2 ?_
  · exact ⟨⟨by decide, trivial⟩, trivial, trivial⟩
  · exact ⟨trivial, trivial, trivial⟩

/-- The two nodes after the member is active at the first. -/
def onboarded : DiscoveryNode × DiscoveryNode := onboarding.foldl (exchange still still) started

/-- **The receiver never hears of the backfill.** -/
theorem onboarding_diverges :
    Reached still started.1.coordinator ∧ Reached still started.2.coordinator ∧
    SameStates started.1.coordinator started.2.coordinator ∧ AppliesAll still still started onboarding ∧
    onboarded.1.coordinator.snapshot.stateOf "c:1" = some .active ∧
    onboarded.2.coordinator.snapshot.stateOf "c:1" = some .joining ∧
    ¬ SameStates onboarded.1.coordinator onboarded.2.coordinator := by
  have hA : onboarded.1.coordinator.snapshot.stateOf "c:1" = some .active := by decide
  have hB : onboarded.2.coordinator.snapshot.stateOf "c:1" = some .joining := by decide
  have happlied : AppliesAll still still started onboarding :=
    ⟨⟨by decide, trivial⟩, trivial, ⟨by decide, trivial⟩, trivial⟩
  refine ⟨⟨_, [], rfl⟩, ⟨_, [], rfl⟩, fun _ => rfl, happlied, hA, hB, fun hsame => ?_⟩
  have := hsame "c:1"
  rw [hA, hB] at this
  cases this

end PeerChat.Membership
