/-
`EventNotifier` (`peer_discovery/membership_integration/notifier.py`) and
`MembershipCoordinator.subscribe`, with callbacks that call the coordinator
again.

`dispatch` and the catch-up of `subscribe` are loops that call one callback
after the other, and a callback may start any operation before it returns;
the calls under way are a stack (`CallFrame`). An operation that dispatches
while a loop below it still has a subscriber to call overtakes that call.
When none does, every subscriber hears the events in the order of their
numbers (`heard_in_order`).
-/
import PeerChat.Membership.Ledger
import PeerChat.Membership.Threads

namespace PeerChat.Membership

open Lib

/-- A call under way. -/
inductive CallFrame : Type 1
  /-- The rest of an operation. -/
  | operation (p : Action Unit)
  /-- The loop of `dispatch`, with the subscribers still to be called. -/
  | dispatch (e : MembershipEvent) (delta : MembershipDelta) (subscribers : List Nat)
  /-- The loop of `subscribe`, with the events still to be replayed. -/
  | catchUp (subscriber : Nat) (events : List (MembershipEvent × MembershipDelta))
  /-- The body of a callback. -/
  | callback

/-- A coordinator, its subscribers and the calls under way, the innermost
first. Handles are numbers, given out in order. -/
structure Notified : Type 1 where
  coordinator : Coordinator
  subscribers : List Nat
  handles : Nat
  /-- The calls of the subscribers' callbacks, in order. -/
  received : List (Nat × MembershipEvent)
  stack : List CallFrame

/-- What the caller, or the callback that is running, does next. -/
inductive Move
  /-- It calls an operation. -/
  | call (op : Op)
  | subscribe (fromVersion : Int)
  | unsubscribe (handle : Nat)
  /-- The callback returns or raises, which its loop catches. -/
  | finish
  /-- The innermost call goes on by one step. -/
  | advance
  /-- `check_liveness` goes on with an entry it listed and a callback has
  since replaced or removed: what it reports of it is left open. -/
  | detached (change : Option ChangeType)

namespace Notified

/-- The notifier of a new coordinator. -/
def new (cfg : Settings) (files : Dict Int (Option Checkpoint)) : Notified := ⟨.new cfg files, [], 0, [], []⟩

/-- No operation is running: the caller or a callback has control. -/
def idle (n : Notified) : Bool :=
  match n.stack with
  | [] | .callback :: _ => true
  | _ => false

/-- The call of a callback. -/
def deliver (n : Notified) (subscriber : Nat) (e : MembershipEvent) (rest : List CallFrame) : Notified :=
  { n with received := n.received ++ [(subscriber, e)], stack := .callback :: rest }

/-- The loop that a step of an operation starts. `dispatch` runs over a
copy of the subscribers, and returns at once without a delta. -/
def loop (n : Notified) {β : Type} (cmd : Cmd β) : List CallFrame :=
  match cmd with
  | .dispatch e (some d) => [.dispatch e d n.subscribers]
  | _ => []

/-- One step of the innermost call; `none` when a callback or the caller
has control. -/
def advance (clock : Nat → Time) (n : Notified) : Option Notified :=
  match n.stack with
  | [] | .callback :: _ => none
  | .operation (.pure _) :: rest | .operation (.raise _) :: rest => some { n with stack := rest }
  | .operation (.op cmd k) :: rest =>
    match exec clock cmd n.coordinator with
    | (.ok b, c) => some { n with coordinator := c, stack := n.loop cmd ++ .operation (k b) :: rest }
    | (.error _, c) => some { n with coordinator := c, stack := rest }
  | .dispatch _ _ [] :: rest | .catchUp _ [] :: rest => some { n with stack := rest }
  | .dispatch e d (s :: ss) :: rest => some (n.deliver s e (.dispatch e d ss :: rest))
  | .catchUp s ((e, _) :: es) :: rest => some (n.deliver s e (.catchUp s es :: rest))

/-- One step; `none` when the move is not possible. -/
def step (clock : Nat → Time) (n : Notified) : Move → Option Notified
  | .call op =>
    if n.idle then some { n with stack := .operation (op.prog n.coordinator.settings) :: n.stack } else none
  | .subscribe v =>
    if n.idle then
      some { n with
        subscribers := n.subscribers ++ [n.handles]
        handles := n.handles + 1
        stack := .catchUp n.handles (n.coordinator.log.catchUp v) :: n.stack }
    else none
  | .unsubscribe h => if n.idle then some { n with subscribers := n.subscribers.filter (· ≠ h) } else none
  | .finish =>
    match n.stack with
    | .callback :: rest => some { n with stack := rest }
    | _ => none
  | .advance => n.advance clock
  | .detached change =>
    match n.stack with
    | .operation (.op (.checkEntry _ _) k) :: rest => some { n with stack := .operation (k change) :: rest }
    | _ => none

/-- A sequence of moves. -/
def run (clock : Nat → Time) (n : Notified) : List Move → Option Notified
  | [] => some n
  | m :: ms => (n.step clock m).bind fun n' => run clock n' ms

/-- What a subscriber has been called with. -/
def heard (n : Notified) (s : Nat) : List MembershipEvent :=
  n.received.filterMap fun p => if p.1 = s then some p.2 else none

/-- Every subscriber hears the events in the order of their numbers. -/
def InOrder (n : Notified) : Prop := ∀ s, (n.heard s).Pairwise (·.seqNo < ·.seqNo)

/-- Every subscriber that hears of a join and of the backfill that follows
it hears of the join first. -/
def JoinFirst (n : Notified) : Prop :=
  ∀ s, ∀ j ∈ n.heard s, ∀ h ∈ n.heard s, j.eventType = .joinAccepted → h.eventType = .historyBackfillComplete →
    j.userId = h.userId → j.seqNo < h.seqNo → [j, h].Sublist (n.heard s)

end Notified

/-! ## Overtaking -/

/-- The calls of callbacks that a call under way has still to make. -/
def CallFrame.owes : CallFrame → List (Nat × MembershipEvent)
  | .dispatch e _ ss => ss.map fun s => (s, e)
  | .catchUp s es => es.map fun p => (s, p.1)
  | .operation _ | .callback => []

/-- The calls of callbacks that the stack has still to make, in order. -/
def owed (stack : List CallFrame) : List (Nat × MembershipEvent) := stack.flatMap CallFrame.owes

@[simp] theorem owes_operation (p : Action Unit) : (CallFrame.operation p).owes = [] := rfl

@[simp] theorem owes_callback : CallFrame.callback.owes = [] := rfl

@[simp] theorem owed_nil : owed [] = [] := rfl

@[simp] theorem owed_cons (f : CallFrame) (rest : List CallFrame) : owed (f :: rest) = f.owes ++ owed rest :=
  List.flatMap_cons

/-- A log whose events are numbered in order, below the next number. -/
def EventLog.Ordered (l : EventLog) : Prop :=
  l.log.Pairwise (·.seqNo < ·.seqNo) ∧ ∀ e ∈ l.log, e.seqNo < l.nextSeqNo

instance (l : EventLog) : Decidable l.Ordered := inferInstanceAs (Decidable (_ ∧ _))

/-- The log that `recover` would bring back is in order and does not give
out numbers again. -/
def Coordinator.resumes (c : Coordinator) : Bool :=
  match c.durability.recover c.settings.roomId with
  | none => true
  | some (log, _) => decide (log.Ordered ∧ c.log.nextSeqNo ≤ log.nextSeqNo)

namespace Notified

/-- The step dispatches no event to a subscriber that an outer loop has
still to call, and brings back no log that gives out numbers again. -/
def undisturbedBy (n : Notified) (rest : List CallFrame) {β : Type} (cmd : Cmd β) : Bool :=
  match cmd with
  | .dispatch _ (some _) => (owed rest).all fun p => decide (p.1 ∉ n.subscribers)
  | .restore => n.coordinator.resumes
  | _ => true

/-- The next step disturbs nothing. -/
def undisturbed (n : Notified) : Bool :=
  match n.stack with
  | .operation (.op cmd _) :: rest => n.undisturbedBy rest cmd
  | _ => true

/-- No step of a run disturbs anything. -/
def calm (clock : Nat → Time) (n : Notified) : List Move → Bool
  | [] => true
  | m :: ms => n.undisturbed && (n.step clock m).all fun n' => calm clock n' ms

end Notified

/-! ## What an operation dispatches -/

/-- The newest event that was appended and not dispatched yet, after a
step. -/
def Cmd.newest (o : Option MembershipEvent) : {β : Type} → Cmd β → β → Option MembershipEvent
  | _, .append _, e | _, .appendRemote _, e => some e
  | _, .dispatch _ _, _ => none
  | _, _, _ => o

/-- A step dispatches only the newest event. -/
def Cmd.Announces (o : Option MembershipEvent) : {β : Type} → Cmd β → Prop
  | _, .dispatch e _ => o = some e
  | _, _ => True

/-- A program that dispatches each event before it appends another one, and
once. -/
def Announces {α : Type} : Option MembershipEvent → Action α → Prop
  | _, .pure _ | _, .raise _ => True
  | o, .op c k => c.Announces o ∧ ∀ b, Announces (c.newest o b) (k b)

namespace Announces

variable {α β : Type}

/-- A program that needs no event may be given one. -/
theorem weaken {o : Option MembershipEvent} {p : Action α} (h : Announces none p) : Announces o p := by
  induction p with
  | pure a => trivial
  | raise x => trivial
  | op c k ih =>
    cases c with
    | append _ => exact ⟨trivial, h.2⟩
    | appendRemote _ => exact ⟨trivial, h.2⟩
    | dispatch e d => cases h.1
    | _ => exact ⟨trivial, fun b => ih b (h.2 b)⟩

theorem bind {o : Option MembershipEvent} {p : Action α} {f : α → Action β} (hp : Announces o p)
    (hf : ∀ a, Announces none (f a)) : Announces o (p >>= f) := by
  show Announces o (p.bind f)
  induction p generalizing o with
  | pure a => exact (hf a).weaken
  | raise x => trivial
  | op c k ih => exact ⟨hp.1, fun b => ih b (hp.2 b)⟩

/-- A step that dispatches nothing. -/
theorem next {o : Option MembershipEvent} {c : Cmd α} {f : α → Action β} (h : c.Announces o)
    (hf : ∀ a, Announces (c.newest o a) (f a)) : Announces o (.lift c >>= f) := ⟨h, hf⟩

theorem lift {o : Option MembershipEvent} {c : Cmd α} (h : c.Announces o) :
    Announces o (.lift c : Action α) := ⟨h, fun _ => trivial⟩

theorem when {o : Option MembershipEvent} {b : Prop} [Decidable b] {p : Action Unit} (h : Announces o p) :
    Announces o (.when b p) := by
  unfold Prog.when
  split
  · exact h
  · trivial

theorem forEach {τ : Type} {f : τ → Action Unit} (h : ∀ x, Announces none (f x)) :
    ∀ l : List τ, Announces none (Prog.forEach f l)
  | [] => trivial
  | x :: l => (h x).bind fun _ => forEach h l

theorem record (a : NewEvent) : Announces none (Membership.record a) :=
  next trivial fun _ => next trivial fun _ => next rfl fun _ => trivial

theorem handlePresenceChange (u : String) (ch : ChangeType) :
    Announces none (Membership.handlePresenceChange u ch) := by
  refine next trivial fun current => ?_
  cases current with
  | none => trivial
  | some m => exact (record _).bind fun _ => .bind (when (lift trivial)) fun _ => lift trivial

theorem handleJoin (cfg : Settings) (u name : String) (key : Option Bytes) (trace : Option String) (v : Verdict) :
    Announces none (Membership.handleJoin cfg u name key trace v) := by
  refine next trivial fun duplicate => ?_
  cases duplicate with
  | true => exact next trivial fun _ => next trivial fun _ => trivial
  | false =>
    cases v with
    | raises => trivial
    | rejects reason =>
      exact next trivial fun _ => next trivial fun _ => next rfl fun _ => next trivial fun _ => trivial
    | accepts =>
      exact (record _).bind fun _ => .bind (when (lift trivial)) fun _ => next trivial fun _ =>
        next trivial fun _ => trivial

theorem handleLeave (u : String) : Announces none (Membership.handleLeave u) := by
  refine next trivial fun current => ?_
  cases current with
  | none => trivial
  | some m =>
    simp only
    split
    · trivial
    · refine (when ?_).bind fun _ => (record _).bind fun _ => next trivial fun _ => lift trivial
      exact next trivial fun _ => next trivial fun _ => trivial

theorem handleHeartbeat (u : String) : Announces none (Membership.handleHeartbeat u) := by
  refine next trivial fun current => ?_
  cases current with
  | none => trivial
  | some m =>
    refine next trivial fun _ => next trivial fun _ => next trivial fun _ => (when ?_).bind fun _ => lift trivial
    exact (handlePresenceChange u _).weaken

theorem moveBackfill (from_ : MemberState) (t : EventType) (u : String) :
    Announces none (Membership.moveBackfill from_ t u) := by
  refine next trivial fun current => ?_
  cases current with
  | none => trivial
  | some m => exact when ((record _).bind fun _ => lift trivial)

theorem checkMember (now : Time) (u : String) : Announces none (Membership.checkMember now u) := by
  refine next trivial fun change => ?_
  cases change with
  | none => trivial
  | some ch => exact handlePresenceChange u ch

theorem tick (cfg : Settings) : Announces none (Membership.tick cfg) := by
  refine Announces.bind ?_ fun _ => ?_
  · exact next trivial fun now => next trivial fun ids => forEach (checkMember now) ids
  · refine next trivial fun now => next trivial fun members => forEach (fun p => ?_) members
    exact when ((record _).bind fun _ => next trivial fun _ => lift trivial)

theorem applyRemoteEvent (e : MembershipEvent) : Announces none (Membership.applyRemoteEvent e) := by
  refine next trivial fun e => next trivial fun _ => next rfl fun _ => (when ?_).bind fun _ => lift trivial
  exact next trivial fun _ => when (next trivial fun _ => when (handlePresenceChange _ _))

theorem recover (cfg : Settings) : Announces none (Membership.recover cfg) := by
  refine next trivial fun found => when (next trivial fun members => forEach (fun p => ?_) members)
  exact when (lift trivial)

/-- **Every operation dispatches an event before it appends another one**,
and no other event. -/
theorem prog (cfg : Settings) (op : Op) : Announces none (op.prog cfg) := by
  cases op with
  | join u name key trace v => exact (handleJoin cfg u name key trace v).bind fun _ => trivial
  | startBackfill u => exact moveBackfill _ _ u
  | completeBackfill u => exact moveBackfill _ _ u
  | heartbeat u => exact handleHeartbeat u
  | leave u => exact handleLeave u
  | tick => exact tick cfg
  | remote e => exact applyRemoteEvent e
  | recover => exact recover cfg

end Announces

/-! ## The calls made and owed -/

/-- A subscriber catches up with events of the log, in their order. -/
theorem EventLog.catchUp_sublist (l : EventLog) (v : Int) : ((l.catchUp v).map Prod.fst).Sublist l.log := by
  have hkeep : ∀ es : List MembershipEvent,
      ((es.filterMap fun e => (synthesizeDelta e).map fun d => (e, d)).map Prod.fst).Sublist es := by
    intro es
    induction es with
    | nil => exact .slnil
    | cons e es ih =>
      cases hd : synthesizeDelta e with
      | none => simpa [hd] using ih.cons e
      | some d => simpa [hd] using ih.cons_cons e
  exact (hkeep _).trans List.filter_sublist

/-- The calls of callbacks that were made, and those the stack has still to
make, are in order. -/
structure Sequenced (calls : List (Nat × MembershipEvent)) (subscribers : List Nat) (handles : Nat)
    (log : EventLog) : Prop where
  order : calls.Pairwise fun p q => p.1 = q.1 → p.2.seqNo < q.2.seqNo
  below : ∀ p ∈ calls, p.2.seqNo < log.nextSeqNo
  known : ∀ p ∈ calls, p.1 < handles
  nodup : subscribers.Nodup
  subscribed : ∀ s ∈ subscribers, s < handles
  log : log.Ordered

namespace Sequenced

variable {made todo : List (Nat × MembershipEvent)} {subscribers : List Nat} {handles : Nat} {log : EventLog}

theorem push (h : Sequenced made subscribers handles log) {e : MembershipEvent} (he : e.seqNo = log.nextSeqNo)
    (term : Int) : Sequenced made subscribers handles (log.push e term) := by
  refine { h with below := fun p hp => ?_, log := ⟨?_, fun x hx => ?_⟩ }
  · have := h.below p hp
    show _ < log.nextSeqNo + 1
    omega
  · refine List.pairwise_append.2 ⟨h.log.1, List.pairwise_singleton _ _, fun x hx y hy => ?_⟩
    rw [List.mem_singleton.1 hy, he]
    exact h.log.2 x hx
  · show x.seqNo < log.nextSeqNo + 1
    rcases List.mem_append.1 hx with hx | hx
    · have := h.log.2 x hx
      omega
    · rw [List.mem_singleton.1 hx, he]
      omega

theorem restore (h : Sequenced made subscribers handles log) {log' : EventLog} (hlog : log'.Ordered)
    (hnext : log.nextSeqNo ≤ log'.nextSeqNo) : Sequenced made subscribers handles log' :=
  { h with below := fun p hp => (h.below p hp).trans_le hnext, log := hlog }

theorem unsubscribe (h : Sequenced made subscribers handles log) (q : Nat → Bool) :
    Sequenced made (subscribers.filter q) handles log :=
  { h with nodup := h.nodup.filter q, subscribed := fun s hs => h.subscribed s (List.mem_of_mem_filter hs) }

/-- Calls that come in between, in order among themselves. -/
theorem insert (h : Sequenced (made ++ todo) subscribers handles log) {new : List (Nat × MembershipEvent)}
    (hnew : new.Pairwise fun p q => p.1 = q.1 → p.2.seqNo < q.2.seqNo)
    (hmade : ∀ p ∈ made, ∀ q ∈ new, p.1 = q.1 → p.2.seqNo < q.2.seqNo)
    (htodo : ∀ p ∈ new, ∀ q ∈ todo, p.1 ≠ q.1) :
    (made ++ (new ++ todo)).Pairwise fun p q => p.1 = q.1 → p.2.seqNo < q.2.seqNo := by
  obtain ⟨hm, ht, hmt⟩ := List.pairwise_append.1 h.order
  refine List.pairwise_append.2 ⟨hm, List.pairwise_append.2 ⟨hnew, ht, fun p hp q hq he => ?_⟩, fun p hp q hq => ?_⟩
  · exact absurd he (htodo p hp q hq)
  · rcases List.mem_append.1 hq with hq | hq
    · exact hmade p hp q hq
    · exact hmt p hp q hq

/-- An event dispatched to subscribers that nothing is owed. -/
theorem dispatch (h : Sequenced (made ++ todo) subscribers handles log) {e : MembershipEvent}
    (he : e.seqNo < log.nextSeqNo) (hnewest : ∀ p ∈ made ++ todo, p.2.seqNo < e.seqNo)
    (hfree : ∀ p ∈ todo, p.1 ∉ subscribers) :
    Sequenced (made ++ (subscribers.map (fun s => (s, e)) ++ todo)) subscribers handles log := by
  have hcall : ∀ {p : Nat × MembershipEvent}, p ∈ made ++ (subscribers.map (fun s => (s, e)) ++ todo) →
      p ∈ made ++ todo ∨ (p.1 ∈ subscribers ∧ p.2 = e) := by
    intro p hp
    simp only [List.mem_append, List.mem_map] at hp ⊢
    rcases hp with hp | ⟨s, hs, rfl⟩ | hp
    · exact .inl (.inl hp)
    · exact .inr ⟨hs, rfl⟩
    · exact .inl (.inr hp)
  refine { h with order := h.insert ?_ ?_ ?_, below := fun p hp => ?_, known := fun p hp => ?_ }
  · refine List.pairwise_map.2 (h.nodup.imp fun hne heq => ?_)
    exact absurd heq hne
  · intro p hp q hq _
    obtain ⟨s, _, rfl⟩ := List.mem_map.1 hq
    exact hnewest p (List.mem_append_left _ hp)
  · intro p hp q hq heq
    obtain ⟨s, hs, rfl⟩ := List.mem_map.1 hp
    exact hfree q hq (heq ▸ hs)
  · rcases hcall hp with hp | ⟨_, hp⟩
    · exact h.below p hp
    · rw [hp]; exact he
  · rcases hcall hp with hp | ⟨hp, _⟩
    · exact h.known p hp
    · exact h.subscribed _ hp

/-- The events that a new subscriber catches up with. -/
theorem catchUp (h : Sequenced (made ++ todo) subscribers handles log) (v : Int) :
    Sequenced (made ++ ((log.catchUp v).map (fun p => (handles, p.1)) ++ todo)) (subscribers ++ [handles])
      (handles + 1) log := by
  have hlog : ∀ p ∈ (log.catchUp v).map (fun p => (handles, p.1)), p.1 = handles ∧ p.2 ∈ log.log := by
    intro p hp
    obtain ⟨q, hq, rfl⟩ := List.mem_map.1 hp
    exact ⟨rfl, (log.catchUp_sublist v).subset (List.mem_map_of_mem hq)⟩
  have hold : ∀ p ∈ made ++ todo, p.1 ≠ handles := fun p hp => (h.known p hp).ne
  have hcall : ∀ {p : Nat × MembershipEvent}, p ∈ made ++ ((log.catchUp v).map (fun p => (handles, p.1)) ++ todo) →
      p ∈ made ++ todo ∨ (p.1 = handles ∧ p.2 ∈ log.log) := by
    intro p hp
    rcases List.mem_append.1 hp with hp | hp
    · exact .inl (List.mem_append_left _ hp)
    rcases List.mem_append.1 hp with hp | hp
    · exact .inr (hlog p hp)
    · exact .inl (List.mem_append_right _ hp)
  refine ⟨h.insert ?_ ?_ ?_, fun p hp => ?_, fun p hp => ?_, ?_, fun s hs => ?_, h.log⟩
  · have hsorted := List.pairwise_map.1 (h.log.1.sublist (log.catchUp_sublist v))
    refine List.pairwise_map.2 (hsorted.imp fun {p q} hlt _ => ?_)
    exact hlt
  · intro p hp q hq heq
    exact absurd (heq.trans (hlog q hq).1) (hold p (List.mem_append_left _ hp))
  · intro p hp q hq heq
    exact hold q (List.mem_append_right _ hq) (heq.symm.trans (hlog p hp).1)
  · rcases hcall hp with hp | ⟨_, hp⟩
    · exact h.below p hp
    · exact h.log.2 _ hp
  · rcases hcall hp with hp | ⟨hp, _⟩
    · exact Nat.lt_succ_of_lt (h.known p hp)
    · rw [hp]; exact Nat.lt_succ_self _
  · refine List.nodup_append.2 ⟨h.nodup, List.nodup_singleton _, fun s hs t ht => ?_⟩
    rw [List.mem_singleton.1 ht]
    exact (h.subscribed s hs).ne
  · rcases List.mem_append.1 hs with hs | hs
    · exact Nat.lt_succ_of_lt (h.subscribed s hs)
    · rw [List.mem_singleton.1 hs]; exact Nat.lt_succ_self _

end Sequenced

/-- The operations on the stack dispatch only what they append. -/
def Announced (stack : List CallFrame) : Prop := ∀ p, .operation p ∈ stack → Announces none p

/-- The innermost operation may have an event to dispatch. -/
def Innermost (o : Option MembershipEvent) : List CallFrame → Prop
  | .operation p :: rest => Announces o p ∧ Announced rest
  | stack => Announced stack

theorem Announced.innermost {stack : List CallFrame} (h : Announced stack) : Innermost none stack := by
  cases stack with
  | nil => exact h
  | cons f rest =>
    cases f with
    | operation p => exact ⟨h p (by simp), fun q hq => h q (by simp [hq])⟩
    | _ => exact h

theorem Announced.cons {stack : List CallFrame} (h : Announced stack) {f : CallFrame} (hf : ∀ p, f ≠ .operation p) :
    Announced (f :: stack) := by
  intro p hp
  rcases List.mem_cons.1 hp with hp | hp
  · exact absurd hp.symm (hf p)
  · exact h p hp

theorem Innermost.tail {o : Option MembershipEvent} {f : CallFrame} {rest : List CallFrame}
    (h : Innermost o (f :: rest)) : Announced rest := by
  cases f with
  | operation p => exact h.2
  | _ => exact fun p hp => h p (by simp [hp])

namespace Notified

/-- The calls of callbacks that were made, and those that have still to
be made. -/
def calls (n : Notified) : List (Nat × MembershipEvent) := n.received ++ owed n.stack

/-- What holds between the steps: an event that the innermost operation has
still to dispatch is newer than all that was dispatched. -/
structure Inv (n : Notified) : Prop where
  sequenced : Sequenced n.calls n.subscribers n.handles n.coordinator.log
  innermost : ∃ o, Innermost o n.stack ∧
    ∀ e ∈ o, e.seqNo < n.coordinator.log.nextSeqNo ∧ ∀ p ∈ n.calls, p.2.seqNo < e.seqNo

/-- Nothing is left to dispatch for the operations on the stack. -/
theorem Inv.settled {n : Notified} (h : Sequenced n.calls n.subscribers n.handles n.coordinator.log)
    (hs : Announced n.stack) : n.Inv :=
  ⟨h, none, hs.innermost, fun e he => by cases he⟩

theorem Inv.new (cfg : Settings) (files : Dict Int (Option Checkpoint)) : (new cfg files).Inv := by
  refine Inv.settled ⟨.nil, ?_, ?_, .nil, ?_, .nil, ?_⟩ fun p hp => ?_
  · intro p hp
    cases hp
  · intro p hp
    cases hp
  · intro p hp
    cases hp
  · intro p hp
    cases hp
  · cases hp

theorem Inv.idle {n : Notified} (h : n.Inv) (hi : n.idle = true) : Announced n.stack := by
  obtain ⟨o, ho, -⟩ := h.innermost
  unfold Notified.idle at hi
  split at hi
  · next hst =>
    rw [hst]
    intro p hp
    cases hp
  · next rest hst =>
    rw [hst] at ho ⊢
    exact ho
  · cases hi

/-- The innermost call ends, with nothing left to do. -/
theorem Inv.pop {n : Notified} (h : n.Inv) {f : CallFrame} {rest : List CallFrame} (hst : n.stack = f :: rest)
    (hf : f.owes = []) : Inv { n with stack := rest } := by
  obtain ⟨o, ho, -⟩ := h.innermost
  have hcalls : n.calls = n.received ++ owed rest := by simp [calls, hst, hf]
  refine Inv.settled ?_ (hst ▸ ho).tail
  show Sequenced (n.received ++ owed rest) _ _ _
  rw [← hcalls]
  exact h.sequenced

/-- A loop makes its next call. -/
theorem Inv.deliver {n : Notified} (h : n.Inv) {f f' : CallFrame} {rest : List CallFrame} (hst : n.stack = f :: rest)
    {s : Nat} {e : MembershipEvent} (hf : f.owes = (s, e) :: f'.owes) (hf' : ∀ p, f' ≠ .operation p) :
    (n.deliver s e (f' :: rest)).Inv := by
  obtain ⟨o, ho, -⟩ := h.innermost
  have hcalls : n.calls = (n.deliver s e (f' :: rest)).calls := by
    simp [calls, Notified.deliver, hst, hf]
  refine Inv.settled ?_ (((hst ▸ ho).tail.cons hf').cons fun p hp => by cases hp)
  rw [← hcalls]
  exact h.sequenced

/-- A step of the innermost operation that leaves the log alone. -/
theorem Inv.quiet {n : Notified} (h : n.Inv) {β : Type} {cmd : Cmd β} {k : β → Action Unit} {rest : List CallFrame}
    (hst : n.stack = .operation (.op cmd k) :: rest) {b : β} (hb : ∀ o, cmd.newest o b = o) {c : Coordinator}
    (hlog : c.log = n.coordinator.log) : Inv { n with coordinator := c, stack := .operation (k b) :: rest } := by
  obtain ⟨o, ho, hnewest⟩ := h.innermost
  have hcalls : n.calls = n.received ++ owed rest := by simp [calls, hst]
  rw [hst] at ho
  refine ⟨?_, o, ⟨hb o ▸ ho.1.2 b, ho.2⟩, ?_⟩
  · show Sequenced (n.received ++ owed rest) _ _ c.log
    rw [hlog, ← hcalls]
    exact h.sequenced
  · show ∀ e ∈ o, e.seqNo < c.log.nextSeqNo ∧ ∀ p ∈ n.received ++ owed rest, p.2.seqNo < e.seqNo
    rw [hlog, ← hcalls]
    exact hnewest

/-- The innermost operation appends an event. -/
theorem Inv.append {n : Notified} (h : n.Inv) {β : Type} {cmd : Cmd β} {k : β → Action Unit} {rest : List CallFrame}
    (hst : n.stack = .operation (.op cmd k) :: rest) {b : β} {e : MembershipEvent} (hb : ∀ o, cmd.newest o b = some e)
    (he : e.seqNo = n.coordinator.log.nextSeqNo) {c : Coordinator} {term : Int}
    (hlog : c.log = n.coordinator.log.push e term) :
    Inv { n with coordinator := c, stack := .operation (k b) :: rest } := by
  obtain ⟨o, ho, -⟩ := h.innermost
  have hcalls : n.calls = n.received ++ owed rest := by simp [calls, hst]
  rw [hst] at ho
  refine ⟨?_, some e, ⟨hb o ▸ ho.1.2 b, ho.2⟩, ?_⟩
  · show Sequenced (n.received ++ owed rest) _ _ c.log
    rw [hlog, ← hcalls]
    exact h.sequenced.push he term
  · show ∀ e' ∈ some e, e'.seqNo < c.log.nextSeqNo ∧ ∀ p ∈ n.received ++ owed rest, p.2.seqNo < e'.seqNo
    rw [← hcalls, hlog]
    intro e' he'
    obtain rfl := Option.mem_some_iff.1 he'
    refine ⟨?_, fun p hp => ?_⟩
    · show e.seqNo < n.coordinator.log.nextSeqNo + 1
      omega
    · rw [he]
      exact h.sequenced.below p hp

/-- `dispatch` without a delta calls nobody. -/
theorem Inv.silent {n : Notified} (h : n.Inv) {e : MembershipEvent} {k : Unit → Action Unit} {rest : List CallFrame}
    (hst : n.stack = .operation (.op (.dispatch e none) k) :: rest) {c : Coordinator}
    (hlog : c.log = n.coordinator.log) : Inv { n with coordinator := c, stack := .operation (k ()) :: rest } := by
  obtain ⟨o, ho, -⟩ := h.innermost
  have hcalls : n.calls = n.received ++ owed rest := by simp [calls, hst]
  rw [hst] at ho
  refine ⟨?_, none, ⟨ho.1.2 (), ho.2⟩, fun e he => by cases he⟩
  show Sequenced (n.received ++ owed rest) _ _ c.log
  rw [hlog, ← hcalls]
  exact h.sequenced

/-- The innermost operation dispatches an event: nothing is owed to those
that are called. -/
theorem Inv.dispatch {n : Notified} (h : n.Inv) {e : MembershipEvent} {d : MembershipDelta} {k : Unit → Action Unit}
    {rest : List CallFrame} (hst : n.stack = .operation (.op (.dispatch e (some d)) k) :: rest)
    (hfree : ∀ p ∈ owed rest, p.1 ∉ n.subscribers) {c : Coordinator} (hlog : c.log = n.coordinator.log) :
    Inv { n with coordinator := c, stack := .dispatch e d n.subscribers :: .operation (k ()) :: rest } := by
  obtain ⟨o, ho, hnewest⟩ := h.innermost
  have hcalls : n.calls = n.received ++ owed rest := by simp [calls, hst]
  rw [hst] at ho
  obtain ⟨hlt, hmax⟩ := hnewest e (Option.mem_def.2 ho.1.1)
  refine Inv.settled ?_ ?_
  · show Sequenced (n.received ++ owed (.dispatch e d n.subscribers :: .operation (k ()) :: rest)) _ _ c.log
    rw [owed_cons, owed_cons, owes_operation, List.nil_append, hlog]
    exact (hcalls ▸ h.sequenced).dispatch hlt (hcalls ▸ hmax) hfree
  · have hrest : Announced (.operation (k ()) :: rest) := by
      intro p hp
      rcases List.mem_cons.1 hp with hp | hp
      · cases hp
        exact ho.1.2 ()
      · exact ho.2 p hp
    exact hrest.cons fun p hp => by cases hp

/-- The innermost operation brings back the log of a checkpoint. -/
theorem Inv.restore {n : Notified} (h : n.Inv) {k : Bool → Action Unit} {rest : List CallFrame}
    (hst : n.stack = .operation (.op .restore k) :: rest) {b : Bool} {c : Coordinator} (hlog : c.log.Ordered)
    (hnext : n.coordinator.log.nextSeqNo ≤ c.log.nextSeqNo) :
    Inv { n with coordinator := c, stack := .operation (k b) :: rest } := by
  obtain ⟨o, ho, hnewest⟩ := h.innermost
  have hcalls : n.calls = n.received ++ owed rest := by simp [calls, hst]
  rw [hst] at ho
  refine ⟨?_, o, ⟨ho.1.2 b, ho.2⟩, ?_⟩
  · show Sequenced (n.received ++ owed rest) _ _ c.log
    rw [← hcalls]
    exact h.sequenced.restore hlog hnext
  · show ∀ e ∈ o, e.seqNo < c.log.nextSeqNo ∧ ∀ p ∈ n.received ++ owed rest, p.2.seqNo < e.seqNo
    rw [← hcalls]
    exact fun e he => ⟨(hnewest e he).1.trans_le hnext, (hnewest e he).2⟩

/-- One step of the innermost operation. -/
theorem Inv.operation {clock : Nat → Time} {n n' : Notified} (h : n.Inv) {β : Type} {cmd : Cmd β}
    {k : β → Action Unit} {rest : List CallFrame} (hst : n.stack = .operation (.op cmd k) :: rest)
    (hu : n.undisturbedBy rest cmd = true) (hs : n.advance clock = some n') : n'.Inv := by
  simp only [advance, hst] at hs
  cases cmd with
  | dispatch e delta =>
    cases delta with
    | none =>
      cases hs
      exact h.silent hst rfl
    | some d =>
      cases hs
      exact h.dispatch hst (by simpa [undisturbedBy] using hu) rfl
  | append a =>
    simp only [exec, EventLog.append] at hs
    by_cases ht : a.term < n.coordinator.log.currentTerm
    · rw [if_pos ht] at hs
      cases hs
      exact h.pop hst rfl
    · rw [if_neg ht] at hs
      cases hs
      exact h.append hst (fun _ => rfl) rfl rfl
  | appendRemote a =>
    cases hs
    exact h.append hst (fun _ => rfl) rfl rfl
  | restore =>
    simp only [exec] at hs
    simp only [undisturbedBy, Coordinator.resumes] at hu
    cases hr : n.coordinator.durability.recover n.coordinator.settings.roomId with
    | none =>
      rw [hr] at hs
      cases hs
      exact h.quiet hst (fun _ => rfl) rfl
    | some r =>
      rw [hr] at hs hu
      cases hs
      obtain ⟨hlog, hnext⟩ := of_decide_eq_true hu
      exact h.restore hst hlog hnext
  | _ =>
    cases hs
    exact h.quiet hst (fun _ => rfl) rfl

theorem Inv.advance {clock : Nat → Time} {n n' : Notified} (h : n.Inv) (hu : n.undisturbed = true)
    (hs : n.advance clock = some n') : n'.Inv := by
  cases hst : n.stack with
  | nil => simp [Notified.advance, hst] at hs
  | cons f rest =>
    cases f with
    | callback => simp [Notified.advance, hst] at hs
    | operation p =>
      cases p with
      | pure a =>
        simp only [Notified.advance, hst] at hs
        cases hs
        exact h.pop hst rfl
      | raise x =>
        simp only [Notified.advance, hst] at hs
        cases hs
        exact h.pop hst rfl
      | op cmd k =>
        simp only [undisturbed, hst] at hu
        exact h.operation hst hu hs
    | dispatch e d ss =>
      simp only [Notified.advance, hst] at hs
      cases ss with
      | nil =>
        cases hs
        exact h.pop hst rfl
      | cons s ss =>
        cases hs
        exact h.deliver hst rfl fun p hp => by cases hp
    | catchUp s es =>
      simp only [Notified.advance, hst] at hs
      cases es with
      | nil =>
        cases hs
        exact h.pop hst rfl
      | cons p es =>
        cases hs
        exact h.deliver hst rfl fun p hp => by cases hp

/-- **What a step that disturbs nothing keeps.** -/
theorem Inv.step {clock : Nat → Time} {n n' : Notified} (h : n.Inv) (hu : n.undisturbed = true) {m : Move}
    (hs : n.step clock m = some n') : n'.Inv := by
  cases m with
  | call op =>
    simp only [Notified.step, Option.ite_none_right_eq_some, Option.some.injEq] at hs
    obtain ⟨hi, rfl⟩ := hs
    refine Inv.settled ?_ ?_
    · exact h.sequenced
    · intro p hp
      rcases List.mem_cons.1 hp with hp | hp
      · cases hp
        exact Announces.prog _ op
      · exact h.idle hi p hp
  | subscribe v =>
    simp only [Notified.step, Option.ite_none_right_eq_some, Option.some.injEq] at hs
    obtain ⟨hi, rfl⟩ := hs
    exact Inv.settled (h.sequenced.catchUp v) ((h.idle hi).cons fun p hp => by cases hp)
  | unsubscribe s =>
    simp only [Notified.step, Option.ite_none_right_eq_some, Option.some.injEq] at hs
    obtain ⟨hi, rfl⟩ := hs
    exact Inv.settled (h.sequenced.unsubscribe _) (h.idle hi)
  | finish =>
    simp only [Notified.step] at hs
    split at hs
    · next rest hst =>
      cases hs
      exact h.pop hst rfl
    · cases hs
  | advance => exact h.advance hu hs
  | detached change =>
    simp only [Notified.step] at hs
    split at hs
    · next hst =>
      cases hs
      exact h.quiet hst (fun _ => rfl) rfl
    · cases hs

theorem Inv.run {clock : Nat → Time} : ∀ {ms : List Move} {n n' : Notified}, n.Inv → n.calm clock ms = true →
    n.run clock ms = some n' → n'.Inv
  | [], n, n', h, _, hr => by cases hr; exact h
  | m :: ms, n, n', h, hc, hr => by
    obtain ⟨n₁, hs, hr⟩ := Option.bind_eq_some_iff.1 hr
    simp only [calm, hs, Option.all_some, Bool.and_eq_true] at hc
    exact (h.step hc.1 hs).run hc.2 hr

/-- What the subscribers have heard is in order when the calls are. -/
theorem Inv.inOrder {n : Notified} (h : n.Inv) : n.InOrder := by
  intro s
  refine List.pairwise_filterMap.2 ?_
  refine (List.pairwise_append.1 h.sequenced.order).1.imp fun {p q} hlt e he e' he' => ?_
  simp only [Option.ite_none_right_eq_some, Option.some.injEq] at he he'
  obtain ⟨rfl, rfl⟩ := he
  obtain ⟨hq, rfl⟩ := he'
  exact hlt hq.symm

theorem InOrder.joinFirst {n : Notified} (h : n.InOrder) : n.JoinFirst := by
  intro s j hj e he _ _ _ hlt
  have hsorted := h s
  generalize n.heard s = l at hj he hsorted
  induction l with
  | nil => cases hj
  | cons x l ih =>
    obtain ⟨hx, hl⟩ := List.pairwise_cons.1 hsorted
    rcases List.mem_cons.1 hj with rfl | hjl
    · rcases List.mem_cons.1 he with rfl | hel
      · exact absurd hlt (lt_irrefl _)
      · exact (List.singleton_sublist.2 hel).cons_cons j
    · rcases List.mem_cons.1 he with rfl | hel
      · exact absurd hlt (hx j hjl).not_gt
      · exact (ih hjl hel hl).cons x

/-! ## What overtakes stays ahead -/

theorem advance_calls {clock : Nat → Time} {n n' : Notified} (hs : n.advance clock = some n') :
    n.calls.Sublist n'.calls := by
  unfold advance at hs
  split at hs
  · cases hs
  · cases hs
  · next hst =>
    cases hs
    simp [calls, hst]
  · next hst =>
    cases hs
    simp [calls, hst]
  · next cmd k rest hst =>
    split at hs
    · cases hs
      simp only [calls, hst, owed, List.flatMap_append, List.flatMap_cons, owes_operation, List.nil_append]
      exact (List.sublist_append_right _ _).append_left _
    · cases hs
      simp [calls, hst]
  · next hst =>
    cases hs
    simp [calls, hst, CallFrame.owes]
  · next hst =>
    cases hs
    simp [calls, hst, CallFrame.owes]
  · next hst =>
    cases hs
    simp [calls, deliver, hst, CallFrame.owes]
  · next hst =>
    cases hs
    simp [calls, deliver, hst, CallFrame.owes]

/-- A step makes or keeps the calls that are owed, and may put others before
them. -/
theorem step_calls {clock : Nat → Time} {n n' : Notified} {m : Move} (hs : n.step clock m = some n') :
    n.calls.Sublist n'.calls := by
  cases m with
  | call op =>
    simp only [step, Option.ite_none_right_eq_some, Option.some.injEq] at hs
    obtain ⟨-, rfl⟩ := hs
    simp [calls]
  | subscribe v =>
    simp only [step, Option.ite_none_right_eq_some, Option.some.injEq] at hs
    obtain ⟨-, rfl⟩ := hs
    simp only [calls, owed_cons]
    exact (List.sublist_append_right _ _).append_left _
  | unsubscribe s =>
    simp only [step, Option.ite_none_right_eq_some, Option.some.injEq] at hs
    obtain ⟨-, rfl⟩ := hs
    exact .refl _
  | finish =>
    simp only [step] at hs
    split at hs
    · next hst =>
      cases hs
      simp [calls, hst]
    · cases hs
  | advance => exact advance_calls hs
  | detached change =>
    simp only [step] at hs
    split at hs
    · next hst =>
      cases hs
      simp [calls, hst]
    · cases hs

theorem run_calls {clock : Nat → Time} : ∀ {ms : List Move} {n n' : Notified}, n.run clock ms = some n' →
    n.calls.Sublist n'.calls
  | [], n, n', hr => by cases hr; exact .refl _
  | m :: ms, n, n', hr => by
    obtain ⟨n₁, hs, hr⟩ := Option.bind_eq_some_iff.1 hr
    exact (step_calls hs).trans (run_calls hr)

/-- The condition is needed: a subscriber that is called for an event while
an outer loop has still to call it hears the two in the wrong order, once
all calls have returned. -/
theorem Inv.not_inOrder_of_disturbed {clock : Nat → Time} {n n₁ n₂ : Notified} (h : n.Inv) {e e' : MembershipEvent}
    {d : MembershipDelta} {k : Unit → Action Unit} {rest : List CallFrame}
    (hst : n.stack = .operation (.op (.dispatch e (some d)) k) :: rest) {s : Nat} (hs : s ∈ n.subscribers)
    (howed : (s, e') ∈ owed rest) (hstep : n.advance clock = some n₁) {ms : List Move}
    (hrun : n₁.run clock ms = some n₂) (hend : n₂.stack = []) : ¬ n₂.InOrder := by
  intro horder
  obtain ⟨o, ho, hnewest⟩ := h.innermost
  rw [hst] at ho
  have hlt : e'.seqNo < e.seqNo := by
    refine (hnewest e (Option.mem_def.2 ho.1.1)).2 (s, e') ?_
    simp [calls, hst, howed]
  have hpair : [(s, e), (s, e')].Sublist n₁.calls := by
    simp only [Notified.advance, hst] at hstep
    cases hstep
    have hfirst : [(s, e)].Sublist (CallFrame.dispatch e d n.subscribers).owes :=
      List.singleton_sublist.2 (List.mem_map_of_mem hs)
    exact (hfirst.append (List.singleton_sublist.2 howed)).trans (List.sublist_append_right _ _)
  have hreceived : [(s, e), (s, e')].Sublist n₂.received := by
    have := hpair.trans (run_calls hrun)
    simpa [calls, hend] using this
  have hheard : [e, e'].Sublist (n₂.heard s) := by
    have := hreceived.filterMap fun p => if p.1 = s then some p.2 else none
    simpa [heard] using this
  exact absurd hlt (List.pairwise_iff_forall_sublist.1 (horder s) hheard).not_gt

end Notified

/-- **Subscribers hear the events in order**, whatever the callbacks call,
as long as no event is dispatched to a subscriber that an outer loop has
still to call and `recover` does not take the numbers back: so each of them
hears of a join before it hears of the backfill that follows. -/
theorem heard_in_order (clock : Nat → Time) (cfg : Settings) (files : Dict Int (Option Checkpoint))
    (ms : List Move) (n : Notified) (hrun : (Notified.new cfg files).run clock ms = some n)
    (hcalm : (Notified.new cfg files).calm clock ms = true) : n.InOrder ∧ n.JoinFirst := by
  have h := (Notified.Inv.new cfg files).run hcalm hrun
  exact ⟨h.inOrder, h.inOrder.joinFirst⟩

/-- Two subscribers, and a join. -/
def joinHeard : List Move :=
  [.subscribe 0, .advance, .subscribe 0, .advance, .call (.join "b:1" "B" none none .accepts)] ++
    List.replicate 5 .advance

/-- A callback that starts and completes the backfill. -/
def backfills : List Move :=
  [.call (.startBackfill "b:1")] ++ List.replicate 6 .advance ++ [.call (.completeBackfill "b:1")] ++
    List.replicate 5 .advance

/-- The second subscriber is the one that backfills, when both have heard
of the join. -/
def lastBackfills : List Move := joinHeard ++ [.finish, .advance] ++ backfills ++ [.finish, .advance]

theorem heard_in_order_lastBackfills :
    ∃ n, (Notified.new room Dict.empty).run seconds lastBackfills = some n ∧
      (n.heard 1).map (·.seqNo) = [1, 3] ∧ n.InOrder ∧ n.JoinFirst := by
  have hcalm : (Notified.new room Dict.empty).calm seconds lastBackfills = true := by decide +kernel
  have hheard : ((Notified.new room Dict.empty).run seconds lastBackfills).map
      (fun n => (n.heard 1).map (·.seqNo)) = some [1, 3] := by decide +kernel
  obtain ⟨n, hn, hmap⟩ := Option.map_eq_some_iff.1 hheard
  exact ⟨n, hn, hmap, heard_in_order seconds room Dict.empty lastBackfills n hn hcalm⟩

/-- The first subscriber backfills. -/
def firstBackfills : List Move :=
  joinHeard ++ backfills ++ [.finish, .advance, .finish, .advance, .advance, .advance, .finish, .advance]

/-- **A callback that calls the coordinator overtakes the event it was
called for.** -/
theorem backfill_before_join :
    ∃ n, (Notified.new room Dict.empty).run seconds firstBackfills = some n ∧
      (n.heard 1).map (fun e => (e.seqNo, e.userId, e.eventType)) =
        [(3, "b:1", .historyBackfillComplete), (1, "b:1", .joinAccepted)] ∧
      ¬ n.InOrder ∧ ¬ n.JoinFirst := by
  have hheard : ((Notified.new room Dict.empty).run seconds firstBackfills).map
      (fun n => (n.heard 1).map fun e => (e.seqNo, e.userId, e.eventType)) =
        some [(3, "b:1", .historyBackfillComplete), (1, "b:1", .joinAccepted)] := by decide +kernel
  obtain ⟨n, hn, hmap⟩ := Option.map_eq_some_iff.1 hheard
  obtain ⟨e, l, he, hcomplete, hl⟩ := List.map_eq_cons_iff.1 hmap
  obtain ⟨j, l, rfl, hjoin, hnil⟩ := List.map_eq_cons_iff.1 hl
  obtain rfl := List.map_eq_nil_iff.1 hnil
  simp only [Prod.mk.injEq] at hcomplete hjoin
  obtain ⟨he3, heu, het⟩ := hcomplete
  obtain ⟨hj1, hju, hjt⟩ := hjoin
  refine ⟨n, hn, hmap, fun h => ?_, fun h => ?_⟩
  · have hpair := h 1
    rw [he] at hpair
    have hlt := (List.pairwise_cons.1 hpair).1 j (by simp)
    omega
  · have hsub := h 1 j (by simp [he]) e (by simp [he]) hjt het (hju.trans heu.symm) (by omega)
    rw [he] at hsub
    have heq := List.Sublist.eq_of_length hsub rfl
    injection heq with hje
    rw [hje] at hj1
    omega

end PeerChat.Membership
