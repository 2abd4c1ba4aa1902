/-
How often an event is applied (`DiscoveryNode._handle_join_response` and
`_handle_gossip`, `network/discovery_node.py`).

Copies of one event come by two routes. Gossip drops those whose id it has
seen; the response to a join goes around it. Either numbers the copy anew,
so that to the snapshot it is a new event, and only the state of its user
can refuse it. `applied_once_iff`: every event changes the snapshot at most
once exactly when each later copy meets one of the two.
-/
import PeerChat.Membership.Ledger

namespace PeerChat.Membership

open Lib

/-- The append an event comes from: one of this node, by its number, or one
of another. -/
inductive Origin (α : Type)
  | here (seqNo : Int)
  | elsewhere (a : α)
  deriving DecidableEq, Repr

/-- What happens to a node: an operation of its own, or a copy of an event.
A response to a join is a row of copies. -/
inductive Arrival (α : Type)
  | call (op : Op) (isLocal : op.isLocal = true)
  | replayed (origin : Origin α) (copy : MembershipEvent)
  | gossiped (origin : Origin α) (copy : MembershipEvent)

/-- A node, with the appends that have changed its snapshot, one entry for
each change. -/
structure Learner (α : Type) where
  node : DiscoveryNode
  applied : List (Origin α)

variable {α : Type} {clock : Nat → Time}

/-- The snapshot of the node. -/
def Learner.snapshot (l : Learner α) : Snapshot := l.node.coordinator.snapshot

/-- The changes, with one more if the snapshot has changed. -/
def credit (o : Origin α) (before after : Snapshot) (applied : List (Origin α)) : List (Origin α) :=
  if after = before then applied else o :: applied

/-- The changes that the events of an operation make. -/
def creditOwn (s : Snapshot) (applied : List (Origin α)) : List MembershipEvent → List (Origin α)
  | [] => applied
  | e :: es => creditOwn (s.applyEvent e).1 (credit (.here e.seqNo) s (s.applyEvent e).1 applied) es

/-- One arrival. -/
def Learner.step (clock : Nat → Time) (l : Learner α) : Arrival α → Learner α
  | .call op _ =>
    let node := (l.node.call clock op).1
    ⟨node, creditOwn l.snapshot l.applied (node.coordinator.log.log.drop l.node.coordinator.log.log.length)⟩
  | .replayed o e =>
    let node := { l.node with coordinator := l.node.coordinator.step clock (.remote e) }
    ⟨node, credit o l.snapshot node.coordinator.snapshot l.applied⟩
  | .gossiped o e =>
    let node := l.node.handleGossip clock e
    ⟨node, credit o l.snapshot node.coordinator.snapshot l.applied⟩

/-- A sequence of arrivals. -/
def Learner.run (clock : Nat → Time) (l : Learner α) (as : List (Arrival α)) : Learner α := as.foldl (step clock) l

/-- A node that has just been constructed. -/
def Learner.new (cfg : Settings) : Learner α := ⟨⟨.new cfg Dict.empty, []⟩, []⟩

/-- A copy of an event of this node comes after the event. -/
def Arrival.Labelled (l : Learner α) : Arrival α → Prop
  | .replayed (.here n) _ | .gossiped (.here n) _ => n < l.node.coordinator.log.nextSeqNo
  | .replayed (.elsewhere _) _ | .gossiped (.elsewhere _) _ | .call _ _ => True

/-- The state of its user refuses an event. -/
def Refused (l : Learner α) (e : MembershipEvent) : Prop :=
  isTransitionValid e.eventType (l.snapshot.stateOf e.userId) = false

instance (l : Learner α) (e : MembershipEvent) : Decidable (Refused l e) :=
  inferInstanceAs (Decidable (isTransitionValid e.eventType (l.snapshot.stateOf e.userId) = false))

/-- A later copy is known to gossip or refused. -/
def Arrival.Guarded (l : Learner α) : Arrival α → Prop
  | .call _ _ => True
  | .replayed o e => o ∈ l.applied → Refused l e
  | .gossiped o e => o ∈ l.applied → eventId e ∈ l.node.seenEventIds ∨ Refused l e

/-- A condition on each arrival of a run. -/
def Learner.Along (clock : Nat → Time) (P : Learner α → Arrival α → Prop) (l : Learner α) : List (Arrival α) → Prop
  | [] => True
  | a :: as => P l a ∧ (l.step clock a).Along clock P as

/-! ## One event -/

/-- An event changes the snapshot exactly when it is accepted. -/
theorem applyEvent_eq_self_iff {s : Snapshot} {e : MembershipEvent} (h : s.asOfSeqNo < e.seqNo) :
    (s.applyEvent e).1 = s ↔ isTransitionValid e.eventType (s.stateOf e.userId) = false := by
  constructor
  · intro heq
    by_contra hv
    have ha : s.Accepts e := ⟨h, Bool.not_eq_false _ ▸ hv⟩
    have hseq : (s.applyEvent e).1.asOfSeqNo = e.seqNo := by rw [Snapshot.applyEvent_of_accepts ha]
    rw [heq] at hseq
    omega
  · intro hv
    have hna : ¬ s.Accepts e := fun ha => Bool.false_ne_true (hv.symm.trans ha.2)
    rw [Snapshot.applyEvent_of_not_accepts hna]

theorem snapshot_remote_eq_iff {c : Coordinator} (h : Sane c) (e : MembershipEvent) :
    (c.step clock (.remote e)).snapshot = c.snapshot ↔
      isTransitionValid e.eventType (c.snapshot.stateOf e.userId) = false := by
  have hl : Ledger c [c.log.localize e] (c.step clock (.remote e)) := Ledger.remote h e
  rw [hl.snapshot]
  exact applyEvent_eq_self_iff (e := c.log.localize e) h.numbered.snapshot

theorem snapshot_handleGossip_eq_iff {b : DiscoveryNode} (h : Sane b.coordinator) (e : MembershipEvent) :
    (b.handleGossip clock e).coordinator.snapshot = b.coordinator.snapshot ↔
      eventId e ∈ b.seenEventIds ∨
        isTransitionValid e.eventType (b.coordinator.snapshot.stateOf e.userId) = false := by
  by_cases hid : eventId e ∈ b.seenEventIds
  · rw [handleGossip_seen hid]
    simp only [hid, true_or]
  · rw [handleGossip_new hid, snapshot_remote_eq_iff h]
    simp only [hid, false_or]

theorem mem_credit {o o' : Origin α} {s s' : Snapshot} {applied : List (Origin α)} (h : o' ∈ credit o s s' applied) :
    o' = o ∨ o' ∈ applied := by
  unfold credit at h
  split at h
  · exact .inr h
  · exact List.mem_cons.1 h

theorem nodup_credit_iff {o : Origin α} {s s' : Snapshot} {applied : List (Origin α)} :
    (credit o s s' applied).Nodup ↔ applied.Nodup ∧ (o ∈ applied → s' = s) := by
  unfold credit
  split
  · next heq => exact ⟨fun h => ⟨h, fun _ => heq⟩, fun h => h.1⟩
  · next hne =>
    rw [List.nodup_cons]
    exact ⟨fun h => ⟨h.2, fun hm => absurd hm h.1⟩, fun h => ⟨fun hm => hne (h.2 hm), h.1⟩⟩

/-! ## Runs -/

/-- The entries of this node are below its next number. -/
structure Learner.OK (l : Learner α) : Prop where
  sane : Sane l.node.coordinator
  here : ∀ n, .here n ∈ l.applied → n < l.node.coordinator.log.nextSeqNo

theorem Learner.OK.new (cfg : Settings) : (Learner.new cfg : Learner α).OK :=
  ⟨Sane.new cfg, fun n h => by simp [Learner.new] at h⟩

/-- The events of an operation are new. -/
theorem creditOwn_spec : ∀ {es : List MembershipEvent} {s : Snapshot} {applied : List (Origin α)},
    es.Pairwise (·.seqNo < ·.seqNo) → (∀ e ∈ es, ∀ n, .here n ∈ applied → n < e.seqNo) →
    ((creditOwn s applied es).Nodup ↔ applied.Nodup) ∧
      ∀ o ∈ creditOwn s applied es, o ∈ applied ∨ ∃ e ∈ es, o = .here e.seqNo
  | [], _, _, _, _ => ⟨Iff.rfl, fun _ h => .inl h⟩
  | e :: es, s, applied, hs, hnew => by
    obtain ⟨hlt, hs⟩ := List.pairwise_cons.1 hs
    have hfresh : .here e.seqNo ∉ applied := fun hm => absurd (hnew e (by simp) _ hm) (lt_irrefl _)
    have hlater : ∀ x ∈ es, ∀ n, .here n ∈ credit (.here e.seqNo) s (s.applyEvent e).1 applied → n < x.seqNo := by
      intro x hx n hn
      rcases mem_credit hn with he | hn
      · cases he
        exact hlt x hx
      · exact hnew x (List.mem_cons_of_mem _ hx) n hn
    obtain ⟨hnodup, hmem⟩ := creditOwn_spec (s := (s.applyEvent e).1) hs hlater
    refine ⟨hnodup.trans ?_, fun o ho => ?_⟩
    · rw [nodup_credit_iff]
      exact ⟨fun h => h.1, fun h => ⟨h, fun hm => absurd hm hfresh⟩⟩
    · rcases hmem o ho with ho | ⟨x, hx, rfl⟩
      · rcases mem_credit ho with rfl | ho
        · exact .inr ⟨e, by simp, rfl⟩
        · exact .inl ho
      · exact .inr ⟨x, List.mem_cons_of_mem _ hx, rfl⟩

/-- A copy from outside, by either route. -/
theorem Learner.OK.copied {l : Learner α} (h : l.OK) {node : DiscoveryNode} {o : Origin α} (hs : Sane node.coordinator)
    (hle : l.node.coordinator.log.nextSeqNo ≤ node.coordinator.log.nextSeqNo)
    (ho : ∀ n, o = .here n → n < l.node.coordinator.log.nextSeqNo) :
    OK ⟨node, credit o l.snapshot node.coordinator.snapshot l.applied⟩ := by
  refine ⟨hs, fun n hn => lt_of_lt_of_le ?_ hle⟩
  rcases mem_credit hn with he | hn
  · exact ho n he.symm
  · exact h.here n hn

theorem nextSeqNo_remote_le {c : Coordinator} (h : Sane c) (e : MembershipEvent) :
    c.log.nextSeqNo ≤ (c.step clock (.remote e)).log.nextSeqNo := by
  have hl : Ledger c [c.log.localize e] (c.step clock (.remote e)) := Ledger.remote h e
  have := hl.numbered.length
  omega

/-- An operation of the node: its events are new, so each of them counts once. -/
theorem Learner.OK.call {l : Learner α} (h : l.OK) {op : Op} (hop : op.isLocal = true) :
    (l.step clock (.call op hop)).OK ∧ ((l.step clock (.call op hop)).applied.Nodup ↔ l.applied.Nodup) := by
  obtain ⟨es, hes, -⟩ := (Grown.step (c := l.node.coordinator) h.sane hop).ledger
  have hdrop : (l.node.call clock op).1.coordinator.log.log.drop l.node.coordinator.log.log.length = es := by
    show ((l.node.coordinator.step clock op).log.log).drop _ = _
    rw [hes.log, List.drop_left]
  have hnew : ∀ e ∈ es, ∀ n, .here n ∈ l.applied → n < e.seqNo := by
    intro e he n hn
    have := (hes.numbered.bounds e he).1
    have := h.here n hn
    omega
  obtain ⟨hnodup, hmem⟩ := creditOwn_spec (s := l.snapshot) hes.numbered.sorted hnew
  simp only [Learner.step, hdrop]
  refine ⟨⟨h.sane.step op, fun n hn => ?_⟩, hnodup⟩
  show n < (l.node.coordinator.step clock op).log.nextSeqNo
  rcases hmem _ hn with hn | ⟨e, he, heq⟩
  · have := hes.numbered.length
    have := h.here n hn
    omega
  · cases heq
    exact (hes.numbered.bounds e he).2

/-- **One arrival**: it keeps the invariant, and the changes stay without
duplicates exactly when a later copy is guarded. -/
theorem Learner.OK.step {l : Learner α} (h : l.OK) {a : Arrival α} (ha : a.Labelled l) :
    (l.step clock a).OK ∧ ((l.step clock a).applied.Nodup ↔ l.applied.Nodup ∧ a.Guarded l) := by
  cases a with
  | call op hop =>
    have hcall : (l.step clock (.call op hop)).OK ∧ _ := h.call hop
    exact ⟨hcall.1, hcall.2.trans (and_iff_left trivial).symm⟩
  | replayed o e =>
    refine ⟨h.copied (h.sane.step _) (nextSeqNo_remote_le h.sane e) fun n hn => ?_, ?_⟩
    · subst hn
      exact ha
    · exact nodup_credit_iff.trans (and_congr_right fun _ => imp_congr_right fun _ => snapshot_remote_eq_iff h.sane e)
  | gossiped o e =>
    have hkeep : Sane (l.node.handleGossip clock e).coordinator ∧
        l.node.coordinator.log.nextSeqNo ≤ (l.node.handleGossip clock e).coordinator.log.nextSeqNo := by
      by_cases hid : eventId e ∈ l.node.seenEventIds
      · rw [handleGossip_seen hid]
        exact ⟨h.sane, le_rfl⟩
      · rw [handleGossip_new hid]
        exact ⟨h.sane.step _, nextSeqNo_remote_le h.sane e⟩
    refine ⟨h.copied hkeep.1 hkeep.2 fun n hn => ?_, ?_⟩
    · subst hn
      exact ha
    · exact nodup_credit_iff.trans
        (and_congr_right fun _ => imp_congr_right fun _ => snapshot_handleGossip_eq_iff h.sane e)

theorem Learner.OK.run : ∀ {as : List (Arrival α)} {l : Learner α}, l.OK →
    l.Along clock (fun l a => a.Labelled l) as →
    ((l.run clock as).applied.Nodup ↔ l.applied.Nodup ∧ l.Along clock (fun l a => a.Guarded l) as)
  | [], _, _, _ => (and_iff_left trivial).symm
  | a :: as, l, h, hl => by
    obtain ⟨hok, hstep⟩ : (l.step clock a).OK ∧ _ := h.step hl.1
    show ((l.step clock a).run clock as).applied.Nodup ↔ _
    rw [hok.run hl.2, hstep, and_assoc]
    rfl

/-- **Every event is applied at most once**, by whichever routes and however
often its copies come, exactly when each copy of an event that has changed
the snapshot is known to gossip or refused by the state of its user. -/
theorem applied_once_iff (clock : Nat → Time) (cfg : Settings) (as : List (Arrival α))
    (h : (Learner.new cfg).Along clock (fun l a => a.Labelled l) as) :
    ((Learner.new cfg).run clock as).applied.Nodup ↔
      (Learner.new cfg).Along clock (fun l a => a.Guarded l) as := by
  rw [(Learner.OK.new cfg).run h]
  exact and_iff_right List.nodup_nil

/-- The log of a node at which a member joined, became active and left. -/
def visitLog : List MembershipEvent :=
  (((Coordinator.new ⟨"room", some "a:1", 1⟩ Dict.empty).run (fun _ => 0)
    [.join "c:1" "C" none none .accepts, .startBackfill "c:1", .completeBackfill "c:1",
      .leave "c:1"]).log.getEventsSince
      0).map MembershipEvent.reread

/-- The join of that member. -/
def visitJoin : MembershipEvent := ⟨1, "room", "c:1", .joinAccepted, 0, 1, "coordinator", 1, none, "C", none, none⟩

/-- The copies of a response to a join, labelled by their numbers. -/
def replays (es : List MembershipEvent) : List (Arrival Int) := es.map fun e => .replayed (.elsewhere e.seqNo) e

theorem applied_once_iff_joining :
    ((Learner.new ⟨"room", some "b:1", 1⟩).run (fun _ => 0)
      [.replayed (.elsewhere 1) visitJoin, .gossiped (.elsewhere 1) visitJoin]).applied.Nodup := by
  refine (applied_once_iff (α := Nat) (fun _ => 0) ⟨"room", some "b:1", 1⟩
    [.replayed (.elsewhere 1) visitJoin, .gossiped (.elsewhere 1) visitJoin] ⟨trivial, trivial, trivial⟩).2 ?_
  refine ⟨fun h => ?_, fun _ => ?_, trivial⟩
  · cases h
  · exact .inr (by decide)

/-- **A late copy of a join brings back a member that has left**: the
response told of the join and of the leave, and gossip has not seen either. -/
theorem late_join_applied_again :
    let b := (Learner.new ⟨"room", some "b:1", 1⟩).run (fun _ => 0) (replays visitLog)
    let b' := b.step (fun _ => 0) (.gossiped (.elsewhere 1) visitJoin)
    visitLog.head? = some visitJoin ∧ b.snapshot.stateOf "c:1" = some .left ∧
      b'.snapshot.stateOf "c:1" = some .joining ∧ ¬ b'.applied.Nodup := by
  decide

end PeerChat.Membership
