/-
A room of nodes over connections that fail (`_send_with_retry`,
`_flush_peer_retry_queue` and `_handle_ws` of
`distribution/broadcast_node.py`), without signatures or encryption.

A server acknowledges a frame and schedules `_receive` for it; that the
acknowledgement gets back is another matter, so a copy may arrive in several
attempts. The sends of one node to one peer are those of the retry queue.

What arrives first of each copy is a delivery of the library's flooding, and
what arrives again changes nothing. `copies_kept`: no copy is lost between
two nodes. `reliable_flooding`: once nothing of a message waits anywhere,
everybody whom flooding is sure to reach has accepted it, once.
-/
import PeerChat.Distribution.Flooding
import PeerChat.Distribution.RetryQueue

namespace PeerChat

open Lib BroadcastNode Flooding

namespace RetryQueue.Retries

/-- The message in the attempt of a task. -/
def sending (s : Retries) (task : Nat) : Option Nat :=
  match s.tasks[task]? with
  | some (.send call _) => some call
  | some (.flush messages i _) => messages[i]?
  | _ => none

/-- What waits at the sender: with its first send, in the queue or with a
flush. -/
def waiting (s : Retries) : List Nat := s.attempted ++ s.queue ++ s.held

variable {s : Retries} {task t c : Nat}

theorem places_eq (s : Retries) (c : Nat) : s.places c = s.waiting.count c + (s.acknowledged.map Prod.snd).count c := by
  simp only [places, waiting, List.count_append]

/-- A task is among the tasks. -/
theorem lt_of_sending (h : s.sending t = some c) : t < s.tasks.length := by
  by_contra hge
  rw [sending, List.getElem?_eq_none (Nat.le_of_not_lt hge)] at h
  cases h

theorem sending_congr {s' : Retries} (h : s'.tasks[t]? = s.tasks[t]?) : s'.sending t = s.sending t := by
  simp only [sending, h]

/-- A new task leaves the others where they are. -/
theorem sending_send (h : s.sending t = some c) : (s.step .send).sending t = some c :=
  (sending_congr (List.getElem?_append_left (lt_of_sending h))).trans h

theorem sending_flush (h : s.sending t = some c) : (s.step .flush).sending t = some c := by
  by_cases hq : s.queue.isEmpty
  · rwa [step, if_pos hq]
  · rw [step, if_neg hq]
    exact (sending_congr (List.getElem?_append_left (lt_of_sending h))).trans h

/-- An acknowledgement moves its task on, and is entered for what it sent. -/
theorem step_acknowledge (s : Retries) (task : Nat) :
    (∀ t ≠ task, (s.step (.acknowledge task)).sending t = s.sending t) ∧
      (s.step (.acknowledge task)).acknowledged = s.acknowledged ++ (s.sending task).toList.map (task, ·) := by
  rcases h : s.tasks[task]? with _ | t
  · exact ⟨fun t _ => by simp only [step, h], by simp [sending, step, h]⟩
  cases t with
  | send call attempt =>
    refine ⟨fun t ht => sending_congr ?_, by simp [sending, step, h]⟩
    simp only [step, h, List.getElem?_set_ne (Ne.symm ht)]
  | flush messages i attempt =>
    rcases hcall : messages[i]? with _ | call
    · exact ⟨fun t _ => by simp only [step, h, hcall], by simp [sending, step, h, hcall]⟩
    · refine ⟨fun t ht => sending_congr ?_, by simp [sending, step, h, hcall]⟩
      simp only [step, h, hcall, List.getElem?_set_ne (Ne.symm ht)]
  | returned => exact ⟨fun t _ => by simp only [step, h], by simp [sending, step, h]⟩
  | flushed messages => exact ⟨fun t _ => by simp only [step, h], by simp [sending, step, h]⟩
  | stopped messages i => exact ⟨fun t _ => by simp only [step, h], by simp [sending, step, h]⟩

/-- A failure changes its task alone. -/
theorem step_fail (s : Retries) (task : Nat) :
    (∀ t ≠ task, (s.step (.fail task)).sending t = s.sending t) ∧
      (s.step (.fail task)).acknowledged = s.acknowledged := by
  unfold sending
  simp only [step]
  split
  · split
    · exact ⟨fun t ht => by simp only [List.getElem?_set_ne (Ne.symm ht)], rfl⟩
    · exact ⟨fun t ht => by simp only [List.getElem?_set_ne (Ne.symm ht)], rfl⟩
  · split
    · exact ⟨fun t ht => by simp only [List.getElem?_set_ne (Ne.symm ht)], rfl⟩
    · exact ⟨fun t ht => by simp only [putBack, List.getElem?_set_ne (Ne.symm ht)], rfl⟩
  · exact ⟨fun t _ => rfl, rfl⟩

/-- A step that does not bring in a message keeps the others where they are
or moves them on. -/
theorem calls_step {e : Event} (he : e ≠ .send) : (s.step e).calls = s.calls := by
  rw [(moves_step s e).calls, if_neg he, Nat.add_zero]

theorem places_step {e : Event} (he : e ≠ .send) : (s.step e).places c = s.places c := by
  rw [(moves_step s e).places, if_neg fun h => he h.1, Nat.add_zero]

end RetryQueue.Retries

open RetryQueue

/-- What one node sends to one peer: its coroutines, the message of each call
of `_send_with_retry`, and the tasks in whose attempt the peer has sent an
acknowledgement. -/
structure Link where
  retries : Retries
  messages : List Message
  answered : List Nat

/-- A call of `_send_with_retry`: by whom, to whom, and the number it has
between the two. -/
structure Parcel where
  owner : String
  peer : Peer
  call : Nat
  deriving DecidableEq

/-- The nodes, with what each accepted and handed over, and what is between
them. -/
structure Links where
  node : String → BroadcastNode.Run
  link : String × Peer → Link
  /-- The `_receive` tasks that have not begun. -/
  scheduled : List (Parcel × Message)
  /-- The copies for which none has run yet. -/
  outstanding : List (Parcel × Message)

/-- What happens next, at one of the nodes. -/
inductive LinkEvent
  | doBroadcast (a : String) (m : Message)
  | applyVcSync (a : String) (now : Time) (vc : VectorClock)
  | holdbackDrain (a : String) (now : Time)
  /-- A handshake of `a` with `p`, or the background task, flushes the queue. -/
  | flush (a : String) (p : Peer)
  /-- The frame of a task of `a` gets to the server at `p`. -/
  | handleWs (a : String) (p : Peer) (task : Nat)
  /-- The acknowledgement gets back. -/
  | acknowledge (a : String) (p : Peer) (task : Nat)
  /-- The attempt fails: no connection, or no acknowledgement in time. -/
  | fail (a : String) (p : Peer) (task : Nat)
  /-- A scheduled `_receive` runs. -/
  | receive (k : Nat) (addedAt now : Time)

namespace Links

/-- Nothing has been sent. -/
def start (node : String → BroadcastNode.Run) : Links := ⟨node, fun _ => ⟨.start, [], []⟩, [], []⟩

/-- `_send_with_retry` is called at `a`. -/
def handOver (s : Links) (a : String) (x : Peer × Message) : Links :=
  let l := s.link (a, x.1)
  { s with
    link := Function.update s.link (a, x.1) ⟨l.retries.step .send, l.messages ++ [x.2], l.answered⟩
    outstanding := s.outstanding ++ [(⟨a, x.1, l.retries.calls⟩, x.2)] }

/-- A call on the node at `a`. -/
def call (s : Links) (a : String) (c : BroadcastNode.Call) : Links :=
  { s with node := Function.update s.node a ((s.node a).step c) }

/-- A step of the coroutines that send from `a` to `p`. -/
def retry (s : Links) (a : String) (p : Peer) (e : RetryQueue.Event) (answered : List Nat) : Links :=
  { s with link := Function.update s.link (a, p) ⟨(s.link (a, p)).retries.step e, (s.link (a, p)).messages, answered⟩ }

/-- The message of a copy. -/
def message (s : Links) (c : Parcel) : Option Message := (s.link (c.owner, c.peer)).messages[c.call]?

/-- `_handle_ws` gets a frame: it answers, and schedules `_receive`. -/
def schedule (s : Links) (c : Parcel) (m : Message) (task : Nat) : Links :=
  let l := s.link (c.owner, c.peer)
  { s with
    link := Function.update s.link (c.owner, c.peer) ⟨l.retries, l.messages, task :: l.answered⟩
    scheduled := s.scheduled ++ [(c, m)] }

/-- The `k`-th `_receive` begins. -/
def begin (s : Links) (k : Nat) (c : Parcel) : Links :=
  { s with
    scheduled := s.scheduled.eraseIdx k
    outstanding := s.outstanding.filter (·.1 ≠ c) }

def step (room : Finset String) (peers : String → List Peer) (s : Links) : LinkEvent → Links
  | .doBroadcast a m =>
    if a ∈ room then
      ((s.node a).node.doBroadcast (env peers a) m).2.1.sent.foldl (handOver · a)
        (s.call a (.doBroadcast (env peers a) m))
    else s
  | .applyVcSync a now vc => s.call a (.applyVcSync (env peers a) now vc)
  | .holdbackDrain a now => s.call a (.holdbackDrain now)
  | .flush a p => s.retry a p .flush (s.link (a, p)).answered
  | .handleWs a p task =>
    -- there is one frame in an attempt, and a server at each address of the room
    if p.key ∈ room ∧ task ∉ (s.link (a, p)).answered then
      match (s.link (a, p)).retries.sending task with
      | some call =>
        match s.message ⟨a, p, call⟩ with
        | some m => s.schedule ⟨a, p, call⟩ m task
        | none => s
      | none => s
    else s
  | .acknowledge a p task =>
    if task ∈ (s.link (a, p)).answered then
      s.retry a p (.acknowledge task) ((s.link (a, p)).answered.filter (· ≠ task))
    else s
  | .fail a p task => s.retry a p (.fail task) ((s.link (a, p)).answered.filter (· ≠ task))
  | .receive k addedAt now =>
    match s.scheduled[k]? with
    | some (c, m) =>
      ((s.node c.peer.key).node.receive (env peers c.peer.key) addedAt now m).2.1.sent.foldl (handOver · c.peer.key)
        ((s.call c.peer.key (.receive (env peers c.peer.key) addedAt now m)).begin k c)
    | none => s

/-- The run through a list of events. -/
def run (room : Finset String) (peers : String → List Peer) (s : Links) (es : List LinkEvent) : Links :=
  es.foldl (step room peers) s

/-- Nothing of the message waits: no `_receive` of it is to begin, and no call
of `_send_with_retry` between two nodes of the room still has it. -/
def Settled (room : Finset String) (peers : String → List Peer) (s : Links) (i : String) : Prop :=
  (∀ x ∈ s.scheduled, x.2.id ≠ i) ∧
    ∀ a ∈ room, ∀ p ∈ peers a, p.key ∈ room →
      ∀ call ∈ (s.link (a, p)).retries.waiting, (s.message ⟨a, p, call⟩).map Message.id ≠ some i

instance (room : Finset String) (peers : String → List Peer) (s : Links) (i : String) :
    Decidable (Settled room peers s i) := by
  unfold Settled
  infer_instance

/-! ## The calls of one node -/

/-- What a node has seen, it has accepted. -/
def Heard (r : BroadcastNode.Run) : Prop := ∀ i ∈ r.node.seen, i ∈ r.accepted.map Message.id

/-- What a call does to a node that sees `ids` in it. -/
structure Sees (r r' : BroadcastNode.Run) (ids : Finset String) : Prop where
  seen : r'.node.seen = r.node.seen ∪ ids
  address : r'.node.address = r.node.address
  heard : Heard r → Heard r'
  inv : r.Inv → r'.Inv

theorem sees_receive (r : BroadcastNode.Run) (env : NodeEnv) (addedAt now : Time) (m : Message) :
    Sees r (r.step (.receive env addedAt now m)) {m.id} := by
  rcases r.node.receive_cases env addedAt now m with ⟨hold, he⟩ | ⟨hnew, n₂, d, hacc, he⟩
  · have hstep : r.step (.receive env addedAt now m) = r := by simp [BroadcastNode.Run.step, he]
    rw [hstep]
    exact ⟨(Finset.union_eq_left.2 (Finset.singleton_subset_iff.2 hold)).symm, rfl, id, id⟩
  · have hseen : n₂.seen = insert m.id r.node.seen := by
      rw [show n₂ = _ from (congrArg Prod.fst hacc).symm, accept_seen]
    have haddr : n₂.address = r.node.address := by
      rw [show n₂ = _ from (congrArg Prod.fst hacc).symm, accept_address]
    refine ⟨?_, ?_, fun h i hi => ?_, fun h => h.step _⟩
    · simp only [BroadcastNode.Run.step, he, hseen]
      rw [Finset.insert_eq, Finset.union_comm]
    · simp only [BroadcastNode.Run.step, he, haddr]
    · simp only [BroadcastNode.Run.step, he, hseen, Finset.mem_insert, if_true, List.map_append, List.map_cons,
        List.map_nil, List.mem_append, List.mem_singleton] at hi ⊢
      exact hi.symm.imp_left (h i)

theorem sees_doBroadcast (r : BroadcastNode.Run) (peers : String → List Peer) (a : String) (m : Message) :
    Sees r (r.step (.doBroadcast (env peers a) m)) {m.id} := by
  rcases r.node.doBroadcast_cases (env peers a) m with ⟨hold, he⟩ | ⟨-, hsign, -⟩ | ⟨hnew, signed, hsign, sent, he, -⟩
  · have hstep : r.step (.doBroadcast (env peers a) m) = r := by simp [BroadcastNode.Run.step, he]
    rw [hstep]
    exact ⟨(Finset.union_eq_left.2 (Finset.singleton_subset_iff.2 hold)).symm, rfl, id, id⟩
  · cases hsign
  · cases hsign
    refine ⟨?_, ?_, fun h i hi => ?_, fun h => h.step _⟩
    · simp only [BroadcastNode.Run.step, he]
      rw [Finset.insert_eq, Finset.union_comm]
    · simp only [BroadcastNode.Run.step, he]
    · simp only [BroadcastNode.Run.step, he, Finset.mem_insert, if_true, List.map_append, List.map_cons,
        List.map_nil, List.mem_append, List.mem_singleton] at hi ⊢
      exact hi.symm.imp_left (h i)

theorem sees_applyVcSync (r : BroadcastNode.Run) (env : NodeEnv) (now : Time) (vc : VectorClock) :
    Sees r (r.step (.applyVcSync env now vc)) ∅ :=
  ⟨(Finset.union_empty _).symm, rfl, id, fun h => h.step _⟩

theorem sees_holdbackDrain (r : BroadcastNode.Run) (now : Time) : Sees r (r.step (.holdbackDrain now)) ∅ := by
  have hnode : (r.node.holdbackDrain now).1.seen = r.node.seen ∧
      (r.node.holdbackDrain now).1.address = r.node.address := by
    unfold holdbackDrain
    split <;> exact ⟨rfl, rfl⟩
  refine ⟨?_, hnode.2, fun h i hi => h i (hnode.1 ▸ hi), fun h => h.step _⟩
  rw [Finset.union_empty]
  exact hnode.1

/-! ## What holds in every state -/

/-- A copy whose frame a server has answered: `_receive` is scheduled for it,
or has run. -/
def Handled (s : Links) (c : Parcel) : Prop :=
  (s.message c).isSome ∧ (c ∈ s.scheduled.map Prod.fst ∨ c ∉ s.outstanding.map Prod.fst)

/-- What every state has. -/
structure Inv (room : Finset String) (peers : String → List Peer) (s : Links) : Prop where
  runs : ∀ a, (s.node a).Inv
  heard : ∀ a, Heard (s.node a)
  address : ∀ a ∈ room, (s.node a).node.address = a
  counted : ∀ x, (s.link x).messages.length = (s.link x).retries.calls
  places : ∀ x call, (s.link x).retries.places call = if call < (s.link x).retries.calls then 1 else 0
  nodup : (s.outstanding.map Prod.fst).Nodup
  known : ∀ x ∈ s.outstanding, s.message x.1 = some x.2 ∧ x.1.owner ∈ room ∧ x.1.peer ∈ peers x.1.owner
  queued : ∀ x ∈ s.scheduled, s.message x.1 = some x.2 ∧ x.1.peer.key ∈ room
  landed : ∀ c m, s.message c = some m → c ∈ s.outstanding.map Prod.fst ∨ m.id ∈ (s.node c.peer.key).node.seen
  acknowledged : ∀ a p, ∀ call ∈ (s.link (a, p)).retries.acknowledged.map Prod.snd, s.Handled ⟨a, p, call⟩
  answered : ∀ a p, ∀ task ∈ (s.link (a, p)).answered,
    ∃ call, (s.link (a, p)).retries.sending task = some call ∧ s.Handled ⟨a, p, call⟩

variable {room : Finset String} {peers : String → List Peer} {s : Links} {a b : String} {p : Peer} {c : Parcel}
  {m : Message} {ids : Finset String}

theorem Inv.call (h : Inv room peers s) {x : BroadcastNode.Call}
    (hs : Sees (s.node a) ((s.node a).step x) ids) : Inv room peers (s.call a x) where
  runs b := by
    simp only [Links.call, Function.update_apply]
    split
    · exact hs.inv (h.runs a)
    · exact h.runs b
  heard b := by
    simp only [Links.call, Function.update_apply]
    split
    · exact hs.heard (h.heard a)
    · exact h.heard b
  address b hb := by
    simp only [Links.call, Function.update_apply]
    split
    · next heq =>
      rw [hs.address, ← heq]
      exact h.address b hb
    · exact h.address b hb
  counted := h.counted
  places := h.places
  nodup := h.nodup
  known := h.known
  queued := h.queued
  landed c m hm := by
    refine (h.landed c m hm).imp_right fun hseen => ?_
    simp only [Links.call, Function.update_apply]
    split
    · next heq =>
      rw [hs.seen, ← heq]
      exact Finset.mem_union_left _ hseen
    · exact hseen
  acknowledged := h.acknowledged
  answered := h.answered

/-! ### A copy more -/

/-- The copy that `handOver` adds. -/
def next (s : Links) (a : String) (p : Peer) : Parcel := ⟨a, p, (s.link (a, p)).retries.calls⟩

theorem message_next (h : Inv room peers s) : s.message (s.next a p) = none := by
  simp only [message, next, ← h.counted (a, p), List.getElem?_eq_none (Nat.le_refl _)]

theorem message_handOver (h : Inv room peers s) (x : Peer × Message) (c : Parcel) :
    (s.handOver a x).message c = if c = s.next a x.1 then some x.2 else s.message c := by
  obtain ⟨b, q, call⟩ := c
  have hlen := h.counted (a, x.1)
  simp only [message, handOver, next, Function.update_apply, Parcel.mk.injEq, Prod.mk.injEq]
  by_cases hx : b = a ∧ q = x.1
  · obtain ⟨rfl, rfl⟩ := hx
    simp only [and_self, if_true, true_and, ← hlen]
    by_cases hcall : call = (s.link (b, x.1)).messages.length
    · rw [if_pos hcall, hcall, List.getElem?_concat_length]
    · rw [if_neg hcall, List.getElem?_append]
      split
      · rfl
      · next hge =>
        rw [List.getElem?_eq_none (by simp; omega), List.getElem?_eq_none (by omega)]
  · rw [if_neg hx, if_neg fun h => hx ⟨h.1, h.2.1⟩]

theorem Handled.ne_next (h : Inv room peers s) (hc : s.Handled c) : c ≠ s.next a p := by
  rintro rfl
  have hsome := hc.1
  rw [message_next h] at hsome
  cases hsome

theorem Handled.handOver (h : Inv room peers s) (hc : s.Handled c) (x : Peer × Message) :
    (s.handOver a x).Handled c := by
  have hne : c ≠ s.next a x.1 := hc.ne_next h
  refine ⟨?_, ?_⟩
  · rw [message_handOver h, if_neg hne]
    exact hc.1
  · refine hc.2.imp_right fun hout hin => ?_
    simp only [Links.handOver, List.map_append, List.map_cons, List.map_nil, List.mem_append,
      List.mem_singleton] at hin
    rcases hin with hin | rfl
    · exact hout hin
    · exact hne rfl

theorem Inv.handOver (h : Inv room peers s) (ha : a ∈ room) {x : Peer × Message} (hx : x.1 ∈ peers a) :
    Inv room peers (s.handOver a x) where
  runs := h.runs
  heard := h.heard
  address := h.address
  counted y := by
    simp only [Links.handOver, Function.update_apply]
    split
    · simp [h.counted (a, x.1), Retries.step]
    · exact h.counted y
  places y call := by
    simp only [Links.handOver, Function.update_apply]
    split
    · rw [(Retries.moves_step _ .send).places, (Retries.moves_step _ .send).calls, h.places (a, x.1)]
      simp only [true_and, if_true]
      repeat' split
      all_goals omega
    · exact h.places y call
  nodup := by
    simp only [Links.handOver, List.map_append, List.map_cons, List.map_nil]
    refine List.nodup_append.2 ⟨h.nodup, List.nodup_singleton _, fun c hc c' hc' => ?_⟩
    rw [List.mem_singleton.1 hc']
    rintro rfl
    obtain ⟨y, hy, hyc⟩ := List.mem_map.1 hc
    have hmessage := (h.known y hy).1
    rw [hyc] at hmessage
    cases (message_next h).symm.trans hmessage
  known y hy := by
    rw [message_handOver h]
    simp only [Links.handOver, List.mem_append, List.mem_singleton] at hy
    rcases hy with hy | rfl
    · rw [if_neg ?_]
      · exact h.known y hy
      · intro heq
        have hmessage := (h.known y hy).1
        rw [heq, message_next h] at hmessage
        cases hmessage
    · exact ⟨if_pos rfl, ha, hx⟩
  queued y hy := by
    rw [message_handOver h, if_neg ?_]
    · exact h.queued y hy
    · intro heq
      have hmessage := (h.queued y hy).1
      rw [heq, message_next h] at hmessage
      cases hmessage
  landed c m hm := by
    rw [message_handOver h] at hm
    simp only [Links.handOver, List.map_append, List.map_cons, List.map_nil, List.mem_append, List.mem_singleton]
    split at hm
    · next heq => exact .inl (.inr heq)
    · exact (h.landed c m hm).imp_left .inl
  acknowledged b q call hcall := by
    refine (h.acknowledged b q call ?_).handOver h x
    simp only [Links.handOver, Function.update_apply] at hcall
    split at hcall
    · next heq =>
      rw [heq]
      exact hcall
    · exact hcall
  answered b q task htask := by
    simp only [Links.handOver, Function.update_apply] at htask ⊢
    split at htask
    · next heq =>
      rw [if_pos heq]
      obtain ⟨rfl, rfl⟩ := Prod.mk.inj heq
      obtain ⟨call, hsend, hc⟩ := h.answered b x.1 task htask
      exact ⟨call, Retries.sending_send hsend, hc.handOver h x⟩
    · next hne =>
      rw [if_neg hne]
      obtain ⟨call, hsend, hc⟩ := h.answered b q task htask
      exact ⟨call, hsend, hc.handOver h x⟩

theorem Inv.handOvers (ha : a ∈ room) {sent : List (Peer × Message)} (hsent : ∀ x ∈ sent, x.1 ∈ peers a) :
    ∀ {s : Links}, Inv room peers s → Inv room peers (sent.foldl (Links.handOver · a) s) := by
  induction sent with
  | nil => exact fun h => h
  | cons x sent ih =>
    intro s h
    exact ih (fun y hy => hsent y (List.mem_cons_of_mem _ hy)) (h.handOver ha (hsent x List.mem_cons_self))

/-! ### Coroutines and servers -/

theorem message_retry (s : Links) (e : RetryQueue.Event) (answered : List Nat) (c : Parcel) :
    (s.retry a p e answered).message c = s.message c := by
  simp only [message, retry, Function.update_apply]
  split
  · next heq => rw [heq]
  · rfl

theorem handled_retry (s : Links) (e : RetryQueue.Event) (answered : List Nat) (c : Parcel) :
    (s.retry a p e answered).Handled c ↔ s.Handled c := by
  simp only [Handled, message_retry]
  exact Iff.rfl

/-- A step of the coroutines, of which the acknowledged and the answered
copies are known to be handled. -/
theorem Inv.retry (h : Inv room peers s) (e : RetryQueue.Event) (he : e ≠ .send) {answered : List Nat}
    (hack : ∀ call ∈ ((s.link (a, p)).retries.step e).acknowledged.map Prod.snd, s.Handled ⟨a, p, call⟩)
    (hans : ∀ task ∈ answered, ∃ call, ((s.link (a, p)).retries.step e).sending task = some call ∧
      s.Handled ⟨a, p, call⟩) : Inv room peers (s.retry a p e answered) where
  runs := h.runs
  heard := h.heard
  address := h.address
  counted y := by
    simp only [Links.retry, Function.update_apply]
    split
    · exact (h.counted (a, p)).trans (Retries.calls_step he).symm
    · exact h.counted y
  places y call := by
    simp only [Links.retry, Function.update_apply]
    split
    · rw [Retries.places_step he, Retries.calls_step he]
      exact h.places (a, p) call
    · exact h.places y call
  nodup := h.nodup
  known y hy := by
    rw [message_retry]
    exact h.known y hy
  queued y hy := by
    rw [message_retry]
    exact h.queued y hy
  landed c m hm := by
    rw [message_retry] at hm
    exact h.landed c m hm
  acknowledged b q call hcall := by
    rw [handled_retry]
    simp only [Links.retry, Function.update_apply] at hcall
    split at hcall
    · next heq =>
      obtain ⟨rfl, rfl⟩ := Prod.mk.inj heq
      exact hack call hcall
    · exact h.acknowledged b q call hcall
  answered b q task htask := by
    simp only [handled_retry]
    simp only [Links.retry, Function.update_apply] at htask ⊢
    split at htask
    · next heq =>
      rw [if_pos heq]
      obtain ⟨rfl, rfl⟩ := Prod.mk.inj heq
      exact hans task htask
    · next hne =>
      rw [if_neg hne]
      exact h.answered b q task htask

/-- The attempt of a task is over: the others keep what they are sending. -/
theorem Inv.others (h : Inv room peers s) {task : Nat} {e : RetryQueue.Event}
    (he : ∀ t ≠ task, ((s.link (a, p)).retries.step e).sending t = (s.link (a, p)).retries.sending t) :
    ∀ t ∈ (s.link (a, p)).answered.filter (· ≠ task), ∃ call,
      ((s.link (a, p)).retries.step e).sending t = some call ∧ s.Handled ⟨a, p, call⟩ := by
  intro t ht
  obtain ⟨ht, hne⟩ := List.mem_filter.1 ht
  rw [he t (by simpa using hne)]
  exact h.answered a p t ht

theorem message_schedule (s : Links) (c c' : Parcel) (m : Message) (task : Nat) :
    (s.schedule c' m task).message c = s.message c := by
  simp only [message, schedule, Function.update_apply]
  split
  · next heq => rw [heq]
  · rfl

theorem Handled.schedule (hc : s.Handled c) (c' : Parcel) (m : Message) (task : Nat) :
    (s.schedule c' m task).Handled c := by
  refine ⟨?_, hc.2.imp_left fun hin => ?_⟩
  · rw [message_schedule]
    exact hc.1
  · simp only [Links.schedule, List.map_append, List.mem_append]
    exact .inl hin

theorem Inv.schedule (h : Inv room peers s) {task call : Nat} (hp : p.key ∈ room)
    (hsend : (s.link (a, p)).retries.sending task = some call) (hm : s.message ⟨a, p, call⟩ = some m) :
    Inv room peers (s.schedule ⟨a, p, call⟩ m task) where
  runs := h.runs
  heard := h.heard
  address := h.address
  counted y := by
    simp only [Links.schedule, Function.update_apply]
    split
    · exact h.counted (a, p)
    · exact h.counted y
  places y call := by
    simp only [Links.schedule, Function.update_apply]
    split
    · exact h.places (a, p) call
    · exact h.places y call
  nodup := h.nodup
  known y hy := by
    rw [message_schedule]
    exact h.known y hy
  queued y hy := by
    rw [message_schedule]
    simp only [Links.schedule, List.mem_append, List.mem_singleton] at hy
    rcases hy with hy | rfl
    · exact h.queued y hy
    · exact ⟨hm, hp⟩
  landed c m hm := by
    rw [message_schedule] at hm
    exact h.landed c m hm
  acknowledged b q call' hcall := by
    refine (h.acknowledged b q call' ?_).schedule _ m task
    simp only [Links.schedule, Function.update_apply] at hcall
    split at hcall
    · next heq =>
      rw [heq]
      exact hcall
    · exact hcall
  answered b q t ht := by
    simp only [Links.schedule, Function.update_apply] at ht ⊢
    split at ht
    · next heq =>
      rw [if_pos heq]
      obtain ⟨rfl, rfl⟩ := Prod.mk.inj heq
      rcases List.mem_cons.1 ht with rfl | ht
      · refine ⟨call, hsend, ?_, .inl ?_⟩
        · exact Option.isSome_iff_exists.2 ⟨m, (message_schedule s ⟨b, q, call⟩ ⟨b, q, call⟩ m t).trans hm⟩
        · simp
      · obtain ⟨call', hsend', hc⟩ := h.answered b q t ht
        exact ⟨call', hsend', hc.schedule ⟨b, q, call⟩ m task⟩
    · next hne =>
      rw [if_neg hne]
      obtain ⟨call', hsend', hc⟩ := h.answered b q t ht
      exact ⟨call', hsend', hc.schedule ⟨a, p, call⟩ m task⟩

/-- A `_receive` that begins is over with for its copy, and the others wait as
before. -/
theorem Handled.begin {k : Nat} (hk : s.scheduled[k]? = some (c, m)) {c' : Parcel} (hc : s.Handled c') :
    (s.begin k c).Handled c' := by
  refine ⟨hc.1, ?_⟩
  by_cases hcc : c' = c
  · right
    simp [Links.begin, hcc]
  · rcases hc.2 with hin | hout
    · left
      obtain ⟨x, hx, rfl⟩ := List.mem_map.1 hin
      obtain ⟨j, hj, rfl⟩ := List.mem_iff_getElem.1 hx
      obtain ⟨hlt, hkx⟩ := List.getElem?_eq_some_iff.1 hk
      refine List.mem_map_of_mem (List.mem_eraseIdx_iff_getElem.2 ⟨j, hj, ?_, rfl⟩)
      rintro rfl
      rw [hkx] at hcc
      exact hcc rfl
    · right
      intro hin
      obtain ⟨x, hx, rfl⟩ := List.mem_map.1 hin
      exact hout (List.mem_map_of_mem (List.mem_of_mem_filter hx))

theorem Inv.begin (h : Inv room peers s) {k : Nat} (hk : s.scheduled[k]? = some (c, m))
    (hseen : m.id ∈ (s.node c.peer.key).node.seen) : Inv room peers (s.begin k c) where
  runs := h.runs
  heard := h.heard
  address := h.address
  counted := h.counted
  places := h.places
  nodup := h.nodup.sublist ((List.filter_sublist).map Prod.fst)
  known y hy := h.known y (List.mem_of_mem_filter hy)
  queued y hy := h.queued y ((List.eraseIdx_sublist _ _).subset hy)
  landed c' m' hm' := by
    by_cases hcc : c' = c
    · have hmessage := (h.queued _ (List.mem_of_getElem? hk)).1
      rw [hcc] at hm'
      obtain rfl : m = m' := Option.some.inj (hmessage.symm.trans hm')
      rw [hcc]
      exact .inr hseen
    · refine (h.landed c' m' hm').imp_left fun hin => ?_
      obtain ⟨x, hx, rfl⟩ := List.mem_map.1 hin
      exact List.mem_map_of_mem (List.mem_filter.2 ⟨hx, by simpa using hcc⟩)
  acknowledged b q call hcall := (h.acknowledged b q call hcall).begin hk
  answered b q task htask := by
    obtain ⟨call, hsend, hc⟩ := h.answered b q task htask
    exact ⟨call, hsend, hc.begin hk⟩

/-! ### Steps -/

theorem mem_forward {n : BroadcastNode} {x : Peer × Message} (hx : x ∈ forward (env peers a) n m) :
    x.1 ∈ peers a ∧ x.2 = m := by
  obtain ⟨q, hq, rfl⟩ := List.mem_map.1 hx
  exact ⟨List.mem_of_mem_filter hq, rfl⟩

theorem sent_doBroadcast {n : BroadcastNode} {x : Peer × Message}
    (hx : x ∈ (n.doBroadcast (env peers a) m).2.1.sent) : x.1 ∈ peers a ∧ x.2.id = m.id := by
  unfold doBroadcast at hx
  split at hx
  · cases hx
  · split at hx
    · cases hx
    · next hsign =>
      cases hsign
      simp only at hx
      split at hx
      · obtain ⟨hp, he⟩ := mem_forward hx
        exact ⟨hp, by rw [he]; rfl⟩
      · cases hx

theorem sent_receive {n : BroadcastNode} {addedAt now : Time} {x : Peer × Message}
    (hx : x ∈ (n.receive (env peers a) addedAt now m).2.1.sent) : x.1 ∈ peers a ∧ x.2.id = m.id := by
  rcases n.receive_cases (env peers a) addedAt now m with ⟨-, he⟩ | ⟨-, n₂, d, -, he⟩
  · rw [he] at hx
    cases hx
  · rw [he] at hx
    simp only [forwardReceived] at hx
    split at hx
    · split at hx
      · cases hx
      · obtain ⟨hp, he⟩ := mem_forward hx
        exact ⟨hp, by rw [he]⟩
    · cases hx

theorem Inv.step (h : Inv room peers s) (e : LinkEvent) : Inv room peers (s.step room peers e) := by
  cases e with
  | doBroadcast a m =>
    simp only [Links.step]
    split
    · next ha => exact (h.call (sees_doBroadcast _ _ _ _)).handOvers ha fun x hx => (sent_doBroadcast hx).1
    · exact h
  | applyVcSync a now vc => exact h.call (sees_applyVcSync _ _ _ _)
  | holdbackDrain a now => exact h.call (sees_holdbackDrain _ _)
  | flush a p =>
    refine h.retry .flush (by simp) (fun call hcall => h.acknowledged a p call ?_) fun task htask => ?_
    · simp only [Retries.step] at hcall
      split at hcall <;> exact hcall
    · obtain ⟨call, hsend, hc⟩ := h.answered a p task htask
      exact ⟨call, Retries.sending_flush hsend, hc⟩
  | handleWs a p task =>
    simp only [Links.step]
    split
    · next hp =>
      split
      · next call hsend =>
        split
        · next m hm => exact h.schedule hp.1 hsend hm
        · exact h
      · exact h
    · exact h
  | acknowledge a p task =>
    simp only [Links.step]
    split
    · next htask =>
      obtain ⟨hothers, hack⟩ := Retries.step_acknowledge (s.link (a, p)).retries task
      refine h.retry (.acknowledge task) (by simp) (fun call hcall => ?_) (h.others hothers)
      -- what is acknowledged now was answered before
      obtain ⟨call', hsend, hc⟩ := h.answered a p task htask
      rw [hack, hsend, List.map_append] at hcall
      rcases List.mem_append.1 hcall with hcall | hcall
      · exact h.acknowledged a p call hcall
      · simp only [Option.toList_some, List.map_cons, List.map_nil, List.mem_singleton] at hcall
        rwa [hcall]
    · exact h
  | fail a p task =>
    obtain ⟨hothers, hack⟩ := Retries.step_fail (s.link (a, p)).retries task
    refine h.retry (.fail task) (by simp) (fun call hcall => ?_) (h.others hothers)
    rw [hack] at hcall
    exact h.acknowledged a p call hcall
  | receive k addedAt now =>
    simp only [Links.step]
    split
    · next c m hk =>
      have hroom := (h.queued _ (List.mem_of_getElem? hk)).2
      have hsees := sees_receive (s.node c.peer.key) (env peers c.peer.key) addedAt now m
      have hcall := h.call (x := .receive (env peers c.peer.key) addedAt now m) hsees
      refine (hcall.begin hk ?_).handOvers hroom fun x hx => (sent_receive hx).1
      simp only [Links.call, Function.update_self, hsees.seen]
      exact Finset.mem_union_right _ (Finset.mem_singleton_self _)
    · exact h

theorem Inv.run (h : Inv room peers s) (es : List LinkEvent) : Inv room peers (s.run room peers es) := by
  induction es generalizing s with
  | nil => exact h
  | cons e es ih => exact ih (h.step e)

/-- A room in which nothing has been sent. -/
theorem Inv.start {node : String → BroadcastNode.Run} (hruns : ∀ a, (node a).Inv) (hheard : ∀ a, Heard (node a))
    (haddr : ∀ a ∈ room, (node a).node.address = a) : Inv room peers (start node) where
  runs := hruns
  heard := hheard
  address := haddr
  counted _ := rfl
  places _ _ := rfl
  nodup := List.nodup_nil
  known := nofun
  queued := nofun
  landed c m hm := by simp [message, Links.start] at hm
  acknowledged := nofun
  answered := nofun

/-- A copy is with its sender, scheduled at its peer, or received; and an
acknowledged one is not with its sender. -/
theorem Inv.kept (h : Inv room peers s) {call : Nat} (hm : s.message ⟨a, p, call⟩ = some m) :
    ((s.link (a, p)).retries.waiting.count call = 1 ∨ (⟨a, p, call⟩, m) ∈ s.scheduled ∨
      (⟨a, p, call⟩ : Parcel) ∉ s.outstanding.map Prod.fst) ∧
    (call ∈ (s.link (a, p)).retries.acknowledged.map Prod.snd → (s.link (a, p)).retries.waiting.count call = 0) := by
  have hlt : call < (s.link (a, p)).retries.calls := by
    rw [← h.counted (a, p)]
    exact (List.getElem?_eq_some_iff.1 hm).1
  have hplaces := h.places (a, p) call
  rw [if_pos hlt, Retries.places_eq] at hplaces
  refine ⟨?_, fun hack => ?_⟩
  · by_cases hack : call ∈ (s.link (a, p)).retries.acknowledged.map Prod.snd
    · rcases (h.acknowledged a p call hack).2 with hin | hout
      · obtain ⟨x, hx, hxc⟩ := List.mem_map.1 hin
        have hmessage := (h.queued x hx).1
        rw [hxc, hm] at hmessage
        have heq : x = (⟨a, p, call⟩, m) := Prod.ext hxc (Option.some.inj hmessage).symm
        exact .inr (.inl (heq ▸ hx))
      · exact .inr (.inr hout)
    · rw [List.count_eq_zero_of_not_mem hack] at hplaces
      exact .inl hplaces
  · have hpos := List.count_pos_iff.2 hack
    omega

/-! ## One message -/

/-- Whom in the room a node forwards a message of `o` to. -/
def out (room : Finset String) (peers : String → List Peer) (o a : String) : List String :=
  (targets peers o a).filter (· ∈ room)

/-- The outstanding copies of a message, as flooding has them. -/
def copies (room : Finset String) (i : String) (l : List (Parcel × Message)) : List (String × Int) :=
  (l.filter fun x => x.2.id = i ∧ x.1.peer.key ∈ room).map fun x => (x.1.peer.key, x.2.ttl)

theorem copies_append (i : String) (l l' : List (Parcel × Message)) :
    copies room i (l ++ l') = copies room i l ++ copies room i l' := by simp [copies]

theorem copies_eq_nil {i : String} {l : List (Parcel × Message)} (h : ∀ x ∈ l, x.2.id ≠ i) : copies room i l = [] := by
  simp only [copies, List.map_eq_nil_iff, List.filter_eq_nil_iff, decide_eq_true_eq, not_and]
  exact fun x hx hid => absurd hid (h x hx)

theorem node_handOvers (sent : List (Peer × Message)) : ∀ s : Links,
    (sent.foldl (handOver · a) s).node = s.node := by
  induction sent with
  | nil => exact fun s => rfl
  | cons x sent ih => exact fun s => ih (s.handOver a x)

/-- What is sent is what was handed over. -/
theorem message_handOver_cases {x : Peer × Message} (hm : (s.handOver a x).message c = some m) :
    s.message c = some m ∨ m = x.2 := by
  simp only [message, handOver, Function.update_apply] at hm ⊢
  split at hm
  · next heq =>
    rw [heq]
    rcases List.mem_append.1 (List.mem_of_getElem? hm) with _ | hin
    · rw [List.getElem?_append] at hm
      split at hm
      · exact .inl hm
      · exact .inr (List.mem_singleton.1 (List.mem_of_getElem? hm))
    · exact .inr (List.mem_singleton.1 hin)
  · exact .inl hm

theorem message_handOvers_cases {sent : List (Peer × Message)} (hm : (sent.foldl (handOver · a) s).message c = some m) :
    s.message c = some m ∨ ∃ x ∈ sent, x.2 = m := by
  induction sent generalizing s with
  | nil => exact .inl hm
  | cons x sent ih =>
    rcases ih hm with hm | ⟨y, hy, rfl⟩
    · rcases message_handOver_cases hm with hm | rfl
      · exact .inl hm
      · exact .inr ⟨x, List.mem_cons_self, rfl⟩
    · exact .inr ⟨y, List.mem_cons_of_mem _ hy, rfl⟩

/-- What is handed over is outstanding. -/
theorem outstanding_handOvers (sent : List (Peer × Message)) : ∀ s : Links,
    ∃ l : List (Parcel × Message), (sent.foldl (handOver · a) s).outstanding = s.outstanding ++ l ∧
      l.map (fun x => (x.1.peer, x.2)) = sent := by
  induction sent with
  | nil => exact fun s => ⟨[], by simp, rfl⟩
  | cons x sent ih =>
    intro s
    obtain ⟨l, hl, hmap⟩ := ih (s.handOver a x)
    refine ⟨(s.next a x.1, x.2) :: l, ?_, ?_⟩
    · rw [List.foldl_cons, hl]
      simp [handOver, next]
    · simp [hmap, next]

/-- The state of flooding that a message is in. -/
structure Follows (room : Finset String) (o i : String) (s : Links) (f : Flood String) : Prop where
  reached : f.reached = room.filter fun a => i ∈ (s.node a).node.seen
  inFlight : f.inFlight = copies room i s.outstanding
  sender : ∀ x ∈ s.outstanding, x.2.id = i → x.2.sender = o

/-- Nobody has the message, and no copy of it exists. -/
structure Unheard (room : Finset String) (i : String) (s : Links) : Prop where
  seen : ∀ a ∈ room, i ∉ (s.node a).node.seen
  outstanding : ∀ x ∈ s.outstanding, x.2.id ≠ i

/-- `s'` is as `s` for the message. -/
structure Same (room : Finset String) (i : String) (s s' : Links) : Prop where
  seen : ∀ a ∈ room, i ∈ (s'.node a).node.seen ↔ i ∈ (s.node a).node.seen
  copies : copies room i s'.outstanding = copies room i s.outstanding
  outstanding : ∀ x ∈ s'.outstanding, x.2.id = i → x ∈ s.outstanding

variable {o i : String} {f : Flood String} {s' : Links}

theorem Follows.same (h : Follows room o i s f) (hs : Same room i s s') : Follows room o i s' f where
  reached := by
    rw [h.reached]
    exact Finset.filter_congr fun a ha => (hs.seen a ha).symm
  inFlight := by rw [h.inFlight, hs.copies]
  sender x hx hid := h.sender x (hs.outstanding x hx hid) hid

theorem Unheard.same (h : Unheard room i s) (hs : Same room i s s') : Unheard room i s' where
  seen a ha hin := h.seen a ha ((hs.seen a ha).1 hin)
  outstanding x hx hid := h.outstanding x (hs.outstanding x hx hid) hid

theorem Same.refl (s : Links) : Same room i s s := ⟨fun _ _ => Iff.rfl, rfl, fun _ hx _ => hx⟩

theorem Same.trans {s'' : Links} (h : Same room i s s') (h' : Same room i s' s'') : Same room i s s'' where
  seen a ha := (h'.seen a ha).trans (h.seen a ha)
  copies := h'.copies.trans h.copies
  outstanding x hx hid := h.outstanding x (h'.outstanding x hx hid) hid

/-- A call on a node that is about other messages. -/
theorem Same.call {x : BroadcastNode.Call} (hs : Sees (s.node a) ((s.node a).step x) ids) (hi : i ∉ ids) :
    Same room i s (s.call a x) where
  seen b _ := by
    simp only [Links.call, Function.update_apply]
    split
    · next heq =>
      rw [hs.seen, heq, Finset.mem_union]
      exact or_iff_left hi
    · exact Iff.rfl
  copies := rfl
  outstanding _ hx _ := hx

theorem Same.handOvers {sent : List (Peer × Message)} (hsent : ∀ x ∈ sent, x.2.id ≠ i) (s : Links) :
    Same room i s (sent.foldl (handOver · a) s) := by
  obtain ⟨l, hl, hmap⟩ := outstanding_handOvers (a := a) sent s
  have hother : ∀ x ∈ l, x.2.id ≠ i := by
    intro x hx
    have hmem : (x.1.peer, x.2) ∈ sent := hmap ▸ List.mem_map_of_mem hx
    exact hsent _ hmem
  refine ⟨fun b _ => by rw [node_handOvers], ?_, fun x hx hid => ?_⟩
  · rw [hl, copies_append, copies_eq_nil hother, List.append_nil]
  · rw [hl] at hx
    exact (List.mem_append.1 hx).resolve_right fun hx => hother x hx hid

/-- The `_receive` of another message begins. -/
theorem Same.begin (k : Nat) (hc : ∀ x ∈ s.outstanding, x.1 = c → x.2.id ≠ i) : Same room i s (s.begin k c) where
  seen _ _ := Iff.rfl
  copies := by
    simp only [Links.begin, Links.copies, List.filter_filter]
    refine congrArg _ (List.filter_congr fun x hx => ?_)
    by_cases hid : x.2.id = i
    · have hne : x.1 ≠ c := fun heq => hc x hx heq hid
      simp [hne]
    · simp [hid]
  outstanding _ hx _ := List.mem_of_mem_filter hx

/-- The message of an outstanding copy is the one that it was made with. -/
theorem Inv.outstanding_eq (h : Inv room peers s) (hm : s.message c = some m) {x : Parcel × Message}
    (hx : x ∈ s.outstanding) (hxc : x.1 = c) : x = (c, m) := by
  have hmessage := (h.known x hx).1
  rw [hxc, hm] at hmessage
  exact Prod.ext hxc (Option.some.inj hmessage).symm

/-- A node that has seen the id refuses the message. -/
theorem receive_seen (peers : String → List Peer) (addedAt now : Time) (hseen : m.id ∈ (s.node a).node.seen) :
    s.call a (.receive (env peers a) addedAt now m) = s ∧
      ((s.node a).node.receive (env peers a) addedAt now m).2.1.sent = [] := by
  rcases (s.node a).node.receive_cases (env peers a) addedAt now m with ⟨-, he⟩ | ⟨hnew, -⟩
  · refine ⟨?_, by rw [he]⟩
    have hstep : (s.node a).step (.receive (env peers a) addedAt now m) = s.node a := by
      simp [BroadcastNode.Run.step, he]
    simp only [Links.call, hstep, Function.update_eq_self]
  · exact absurd hseen hnew

/-- What a node sends on, as flooding has it. -/
theorem copies_sent {l : List (Parcel × Message)} {sent : List (Peer × Message)}
    (hl : l.map (fun x => (x.1.peer, x.2)) = sent) (hsent : ∀ x ∈ sent, x.2.id = i) :
    copies room i l = (sent.map fun x => (x.1.key, x.2.ttl)).filter (·.1 ∈ room) := by
  subst hl
  rw [List.map_map, List.filter_map, copies]
  refine congrArg _ (List.filter_congr fun x hx => ?_)
  have hid : x.2.id = i := hsent _ (List.mem_map_of_mem hx)
  simp [hid]

theorem filter_targets (room : Finset String) (peers : String → List Peer) (o a : String) (t : Int) :
    ((targets peers o a).map (·, t)).filter (fun x => decide (x.1 ∈ room)) = (out room peers o a).map (·, t) := by
  rw [List.filter_map, out]
  rfl

/-- The first `_receive` at a node. -/
theorem Follows.accept (h : Inv room peers s) (hf : Follows room o i s f) {k : Nat} (addedAt now : Time)
    (hk : s.scheduled[k]? = some (c, m)) (hid : m.id = i) (hsender : m.sender = o)
    (hnew : m.id ∉ (s.node c.peer.key).node.seen) : Follows room o i (s.step room peers (.receive k addedAt now))
      ⟨insert c.peer.key f.reached, copies room i (s.outstanding.filter (·.1 ≠ c)) ++
        if 0 < m.ttl then (out room peers o c.peer.key).map (·, m.ttl - 1) else []⟩ := by
  have hroom := (h.queued _ (List.mem_of_getElem? hk)).2
  have hsees := sees_receive (s.node c.peer.key) (env peers c.peer.key) addedAt now m
  simp only [Links.step, hk]
  obtain ⟨l, hl, hmap⟩ := outstanding_handOvers (a := c.peer.key)
    ((s.node c.peer.key).node.receive (env peers c.peer.key) addedAt now m).2.1.sent
    ((s.call c.peer.key (.receive (env peers c.peer.key) addedAt now m)).begin k c)
  have hsent : ∀ x ∈ ((s.node c.peer.key).node.receive (env peers c.peer.key) addedAt now m).2.1.sent,
      x.2.id = i := fun x hx => (sent_receive hx).2.trans hid
  obtain ⟨n₂, hn₂, hforward⟩ : ∃ n₂ : BroadcastNode, n₂.address = c.peer.key ∧
      ((s.node c.peer.key).node.receive (env peers c.peer.key) addedAt now m).2.1.sent =
        forwardReceived (env peers c.peer.key) n₂ m := by
    rcases (s.node c.peer.key).node.receive_cases (env peers c.peer.key) addedAt now m with
      ⟨hold, -⟩ | ⟨-, n₂, d, hacc, he⟩
    · exact absurd hold hnew
    · refine ⟨n₂, ?_, by rw [he]⟩
      rw [show n₂ = _ from (congrArg Prod.fst hacc).symm, accept_address]
      exact h.address _ hroom
  refine ⟨?_, ?_, fun x hx hxid => ?_⟩
  · rw [node_handOvers]
    ext b
    simp only [Finset.mem_insert, hf.reached, Finset.mem_filter, Links.begin, Links.call, Function.update_apply]
    by_cases hb : b = c.peer.key
    · simp [hb, hroom, hsees.seen, hid]
    · simp [hb]
  · rw [hl, copies_append, copies_sent hmap hsent, hforward,
      forwardReceived_targets hn₂ hsender]
    refine congrArg (copies room i (s.outstanding.filter (·.1 ≠ c)) ++ ·) ?_
    split
    · exact (filter_targets room peers o _ _).symm
    · rfl
  · rw [hl] at hx
    rcases List.mem_append.1 hx with hx | hx
    · exact hf.sender x (List.mem_of_mem_filter hx) hxid
    · have hmem : (x.1.peer, x.2) ∈ forwardReceived (env peers c.peer.key) n₂ m := by
        rw [← hforward, ← hmap]
        exact List.mem_map_of_mem hx
      exact (mem_forwardReceived hmem).2.trans hsender

/-- A `_receive` for the message: the first of its copy is a delivery, and
another one changes nothing. -/
theorem Follows.receive (h : Inv room peers s) (hf : Follows room o i s f) {k : Nat} (addedAt now : Time)
    (hk : s.scheduled[k]? = some (c, m)) (hid : m.id = i) : ∃ n g, Flood.Steps room (out room peers o) n f g ∧
      Follows room o i (s.step room peers (.receive k addedAt now)) g := by
  obtain ⟨hm, hroom⟩ := h.queued _ (List.mem_of_getElem? hk)
  by_cases hin : c ∈ s.outstanding.map Prod.fst
  · obtain ⟨x, hx, hxc⟩ := List.mem_map.1 hin
    obtain rfl := h.outstanding_eq hm hx hxc
    obtain ⟨l, l', hsplit⟩ := List.append_of_mem hx
    have hrest : s.outstanding.filter (·.1 ≠ c) = l ++ l' := by
      have hnd := h.nodup
      simp only [hsplit, List.map_append, List.map_cons] at hnd
      obtain ⟨hl, hl'⟩ := not_or.1 (List.mem_append.not.1 (List.nodup_middle.1 hnd).notMem)
      rw [hsplit, List.filter_append, List.filter_cons_of_neg (by simp),
        List.filter_eq_self.2 fun y hy => ?_, List.filter_eq_self.2 fun y hy => ?_]
      · simp only [ne_eq, decide_not, Bool.not_eq_eq_eq_not, Bool.not_true, decide_eq_false_iff_not]
        rintro rfl
        exact hl' (List.mem_map_of_mem hy)
      · simp only [ne_eq, decide_not, Bool.not_eq_eq_eq_not, Bool.not_true, decide_eq_false_iff_not]
        rintro rfl
        exact hl (List.mem_map_of_mem hy)
    have hflight : f.inFlight = copies room i l ++ (c.peer.key, m.ttl) :: copies room i l' := by
      rw [hf.inFlight, hsplit, copies_append]
      simp [copies, hid, hroom]
    have hsender : m.sender = o := hf.sender (c, m) hx hid
    refine ⟨1, _, .snoc (.refl f) hflight, ?_⟩
    rw [← copies_append]
    have hreached : c.peer.key ∈ f.reached ↔ m.id ∈ (s.node c.peer.key).node.seen := by
      rw [hf.reached, Finset.mem_filter, hid]
      exact and_iff_right hroom
    by_cases hseen : m.id ∈ (s.node c.peer.key).node.seen
    · obtain ⟨hcall, hsent⟩ := receive_seen peers addedAt now hseen
      rw [Flood.receive, if_neg fun hn => hn.2 (hreached.2 hseen)]
      simp only [Links.step, hk, hcall, hsent, List.foldl_nil]
      refine ⟨hf.reached, ?_, fun y hy hyid => hf.sender y (List.mem_of_mem_filter hy) hyid⟩
      simp only [Links.begin, hrest]
    · rw [Flood.receive, if_pos ⟨hroom, fun hin => hseen (hreached.1 hin)⟩, ← hrest]
      exact hf.accept h addedAt now hk hid hsender hseen
  · have hseen : m.id ∈ (s.node c.peer.key).node.seen := (h.landed c m hm).resolve_left hin
    obtain ⟨hcall, hsent⟩ := receive_seen peers addedAt now hseen
    refine ⟨0, f, .refl f, ?_⟩
    simp only [Links.step, hk, hcall, hsent, List.foldl_nil]
    exact hf.same (.begin k fun x hx hxc => absurd (hxc ▸ List.mem_map_of_mem hx) hin)

/-- A step that is about other messages. -/
theorem same_step (h : Inv room peers s) {e : LinkEvent} (hb : ∀ a m, e = .doBroadcast a m → m.id ≠ i)
    (hr : ∀ k addedAt now, e = .receive k addedAt now → ∀ x, s.scheduled[k]? = some x → x.2.id ≠ i) :
    Same room i s (s.step room peers e) := by
  cases e with
  | doBroadcast a m =>
    have hne : m.id ≠ i := hb a m rfl
    simp only [step]
    split
    · refine (Same.call (sees_doBroadcast _ _ _ _) (by simpa using Ne.symm hne)).trans (.handOvers (fun x hx => ?_) _)
      rw [(sent_doBroadcast hx).2]
      exact hne
    · exact .refl s
  | applyVcSync a now vc => exact .call (sees_applyVcSync _ _ _ _) (Finset.notMem_empty i)
  | holdbackDrain a now => exact .call (sees_holdbackDrain _ _) (Finset.notMem_empty i)
  | flush a p => exact ⟨fun _ _ => Iff.rfl, rfl, fun _ hx _ => hx⟩
  | handleWs a p task =>
    simp only [step]
    split
    · split
      · split
        · exact ⟨fun _ _ => Iff.rfl, rfl, fun _ hx _ => hx⟩
        · exact .refl s
      · exact .refl s
    · exact .refl s
  | acknowledge a p task =>
    simp only [step]
    split
    · exact ⟨fun _ _ => Iff.rfl, rfl, fun _ hx _ => hx⟩
    · exact .refl s
  | fail a p task => exact ⟨fun _ _ => Iff.rfl, rfl, fun _ hx _ => hx⟩
  | receive k addedAt now =>
    simp only [step]
    split
    · next c m hk =>
      have hne : m.id ≠ i := hr k addedAt now rfl (c, m) hk
      have hm := (h.queued _ (List.mem_of_getElem? hk)).1
      have hcall : Same room i s (s.call c.peer.key (.receive (env peers c.peer.key) addedAt now m)) :=
        .call (sees_receive _ _ _ _ _) (by simpa using Ne.symm hne)
      refine (hcall.trans (.begin k fun x hx hxc => ?_)).trans (.handOvers (fun x hx => ?_) _)
      · rw [h.outstanding_eq hm hx hxc]
        exact hne
      · rw [(sent_receive hx).2]
        exact hne
    · exact .refl s

/-- Steps that do not originate the message. -/
theorem Unheard.step (h : Inv room peers s) (hu : Unheard room i s) {e : LinkEvent}
    (hb : ∀ a m, e = .doBroadcast a m → m.id ≠ i) : Unheard room i (s.step room peers e) := by
  refine hu.same (same_step h hb ?_)
  rintro k - - - ⟨c, m⟩ hk hid
  -- a scheduled copy is outstanding, or has been received
  obtain ⟨hm, hroom⟩ := h.queued _ (List.mem_of_getElem? hk)
  rcases h.landed c m hm with hin | hseen
  · obtain ⟨x, hx, hxc⟩ := List.mem_map.1 hin
    refine hu.outstanding x hx ?_
    rw [h.outstanding_eq hm hx hxc]
    exact hid
  · exact hu.seen _ hroom (hid ▸ hseen)

theorem Follows.step (h : Inv room peers s) (hf : Follows room o i s f) {e : LinkEvent}
    (hb : ∀ a m, e = .doBroadcast a m → m.id ≠ i) :
    ∃ n g, Flood.Steps room (out room peers o) n f g ∧ Follows room o i (s.step room peers e) g := by
  by_cases hr : ∀ k addedAt now, e = .receive k addedAt now → ∀ x, s.scheduled[k]? = some x → x.2.id ≠ i
  · exact ⟨0, f, .refl f, hf.same (same_step h hb hr)⟩
  · simp only [not_forall, not_not] at hr
    obtain ⟨k, addedAt, now, rfl, ⟨c, m⟩, hk, hid⟩ := hr
    exact hf.receive h addedAt now hk hid

/-- The message is originated. -/
theorem Follows.start (h : Inv room peers s) (hu : Unheard room m.id s) (ho : o ∈ room) (hsender : m.sender = o)
    (hpos : 0 < m.ttl) : Follows room o m.id (s.step room peers (.doBroadcast o m))
      (.start (out room peers o) o m.ttl) := by
  have hnew := hu.seen o ho
  have hsees := sees_doBroadcast (s.node o) peers o m
  simp only [Links.step, if_pos ho]
  obtain ⟨l, hl, hmap⟩ := outstanding_handOvers (a := o) ((s.node o).node.doBroadcast (env peers o) m).2.1.sent
    (s.call o (.doBroadcast (env peers o) m))
  have hsent : ∀ x ∈ ((s.node o).node.doBroadcast (env peers o) m).2.1.sent, x.2.id = m.id :=
    fun x hx => (sent_doBroadcast hx).2
  obtain ⟨n₂, haddr, hforward⟩ : ∃ n₂ : BroadcastNode, n₂.address = o ∧
      ((s.node o).node.doBroadcast (env peers o) m).2.1.sent =
        forward (env peers o) n₂ ((s.node o).node.stamped m) := by
    rw [doBroadcast_eq hnew hpos]
    exact ⟨_, h.address o ho, rfl⟩
  refine ⟨?_, ?_, fun x hx hid => ?_⟩
  · rw [node_handOvers]
    ext b
    simp only [Flood.start, Finset.mem_singleton, Finset.mem_filter, Links.call, Function.update_apply]
    by_cases hb : b = o
    · simp [hb, ho, hsees.seen]
    · simp only [hb, if_false, false_iff, not_and]
      exact hu.seen b
  · have hnone : copies room m.id (s.call o (.doBroadcast (env peers o) m)).outstanding = [] :=
      copies_eq_nil hu.outstanding
    rw [hl, copies_append, copies_sent hmap hsent, hnone, List.nil_append, hforward,
      forward_targets (c := (s.node o).node.stamped m) haddr hsender]
    exact (filter_targets room peers o o m.ttl).symm
  · rw [hl] at hx
    rcases List.mem_append.1 hx with hx | hx
    · exact absurd hid (hu.outstanding x hx)
    · have hmem : (x.1.peer, x.2) ∈ ((s.node o).node.doBroadcast (env peers o) m).2.1.sent := by
        rw [← hmap]
        exact List.mem_map_of_mem hx
      rw [hforward] at hmem
      rw [(mem_forward hmem).2]
      exact hsender

theorem Unheard.run (h : Inv room peers s) (hu : Unheard room i s) (es : List LinkEvent)
    (hb : ∀ a m, .doBroadcast a m ∈ es → m.id ≠ i) : Unheard room i (s.run room peers es) := by
  induction es generalizing s with
  | nil => exact hu
  | cons e es ih =>
    refine ih (h.step e) (hu.step h fun a m he => hb a m (he ▸ List.mem_cons_self)) fun a m hm => ?_
    exact hb a m (List.mem_cons_of_mem _ hm)

theorem Follows.run (h : Inv room peers s) (hf : Follows room o i s f) (es : List LinkEvent)
    (hb : ∀ a m, .doBroadcast a m ∈ es → m.id ≠ i) :
    ∃ n g, Flood.Steps room (out room peers o) n f g ∧ Follows room o i (s.run room peers es) g := by
  induction es generalizing s f with
  | nil => exact ⟨0, f, .refl f, hf⟩
  | cons e es ih =>
    obtain ⟨n, g, hsteps, hf'⟩ := hf.step h fun a m he => hb a m (he ▸ List.mem_cons_self)
    obtain ⟨n', g', hsteps', hf''⟩ := ih (h.step e) hf' fun a m hm => hb a m (List.mem_cons_of_mem _ hm)
    exact ⟨_, g', hsteps.trans hsteps', hf''⟩

/-! ## Every run -/

/-- Nodes that have just been constructed. -/
def new (timeout : String → Time) : Links := start fun a => ⟨.new a (timeout a), [], []⟩

/-- The id that an event originates. -/
def origin : LinkEvent → Option String
  | .doBroadcast _ m => some m.id
  | _ => none

theorem Inv.new (room : Finset String) (peers : String → List Peer) (timeout : String → Time) :
    Inv room peers (new timeout) :=
  .start (fun a => .init a (timeout a)) (fun _ _ hi => absurd hi (Finset.notMem_empty _)) fun _ _ => rfl

theorem Unheard.new (room : Finset String) (timeout : String → Time) (i : String) : Unheard room i (new timeout) :=
  ⟨fun _ _ => Finset.notMem_empty i, nofun⟩

theorem settled_copies (h : Inv room peers s) (hs : Settled room peers s i) : copies room i s.outstanding = [] := by
  simp only [copies, List.map_eq_nil_iff, List.filter_eq_nil_iff, decide_eq_true_eq, not_and]
  intro x hx hid hroom
  obtain ⟨hm, howner, hpeer⟩ := h.known x hx
  have hid' : (s.message x.1).map Message.id = some i := by rw [hm, Option.map_some, hid]
  rcases (h.kept hm).1 with hwait | hscheduled | hout
  · have hin : x.1.call ∈ (s.link (x.1.owner, x.1.peer)).retries.waiting := by
      rw [← List.count_pos_iff, hwait]
      exact Nat.one_pos
    exact hs.2 x.1.owner howner x.1.peer hpeer hroom x.1.call hin hid'
  · exact hs.1 _ hscheduled hid
  · exact hout (List.mem_map_of_mem hx)

/-- Whom a message of `o` is sure to get to: its peers, and whoever there is a
path to when the hops suffice for any path. -/
def Reaches (room : Finset String) (peers : String → List Peer) (m : Message) (o a : String) : Prop :=
  a = o ∨ Edge room peers o a ∨
    (room.card : Int) ≤ m.ttl + 2 ∧ Relation.ReflTransGen (Edge room peers) o a

theorem mem_out {o a : String} (h : Edge room peers a b) : b ∈ out room peers o a ∨ b = o ∨ b = a := by
  obtain ⟨hroom, p, hp, rfl⟩ := h
  by_cases hbo : p.key = o
  · exact .inr (.inl hbo)
  · by_cases hba : p.key = a
    · exact .inr (.inr hba)
    · refine .inl (List.mem_filter.2 ⟨?_, decide_eq_true hroom⟩)
      exact List.mem_map.2 ⟨p, List.mem_filter.2 ⟨hp, by simpa using ⟨hbo, hba⟩⟩, rfl⟩

/-- Where nothing of a message waits, everybody whom it reaches has seen it. -/
theorem seen_of_settled {timeout : String → Time} {es : List LinkEvent} (hids : (es.filterMap origin).Nodup)
    (hmem : .doBroadcast o m ∈ es) (ho : o ∈ room) (hsender : m.sender = o) (hpos : 0 < m.ttl)
    (hsettled : Settled room peers ((new timeout).run room peers es) m.id) (ha : Reaches room peers m o a) :
    m.id ∈ (((new timeout).run room peers es).node a).node.seen := by
  have h := (Inv.new room peers timeout).run es
  obtain ⟨es₁, es₂, rfl⟩ := List.append_of_mem hmem
  have hother : ∀ b m', .doBroadcast b m' ∈ es₁ ++ es₂ → m'.id ≠ m.id := by
    intro b m' hb hid
    simp only [List.filterMap_append, List.filterMap_cons, origin] at hids
    refine (List.nodup_middle.1 hids).notMem ?_
    rw [← List.filterMap_append]
    exact List.mem_filterMap.2 ⟨_, hb, congrArg some hid⟩
  have h₁ := (Inv.new room peers timeout).run es₁
  have hu := (Unheard.new room timeout m.id).run (.new room peers timeout) es₁ fun b m' hb =>
    hother b m' (List.mem_append_left _ hb)
  obtain ⟨n, f, hsteps, hf⟩ := (Follows.start h₁ hu ho hsender hpos).run (h₁.step (.doBroadcast o m)) es₂
    fun b m' hb => hother b m' (List.mem_append_right _ hb)
  have hrun : (new timeout).run room peers (es₁ ++ .doBroadcast o m :: es₂) =
      (((new timeout).run room peers es₁).step room peers (.doBroadcast o m)).run room peers es₂ := by
    simp [run]
  rw [← hrun] at hf
  have hinv := (Flood.Inv.start ho).steps hsteps
  have hdone : f.inFlight = [] := hf.inFlight.trans (settled_copies h hsettled)
  have hreached : a ∈ f.reached := by
    rcases ha with rfl | hedge | ⟨hcard, hpath⟩
    · exact hinv.origin
    · rcases mem_out (o := o) hedge with hout | rfl | rfl
      · rcases hsteps.origin a hout hedge.1 with hin | ⟨t, ht⟩
        · exact hin
        · rw [hdone] at ht
          cases ht
      · exact hinv.origin
      · exact hinv.origin
    · exact hinv.covers hdone hcard (E := Edge room peers) (fun x b hb => ⟨hb.1, mem_out hb⟩) hpath
  rw [hf.reached] at hreached
  exact (Finset.mem_filter.1 hreached).2

/-- The acknowledgement of `b:2` is lost and `a:1` gives up; `c:3` does not
answer until `b:2` flushes what it has for it; and then `a:1` flushes, and
`b:2` gets the message again. -/
def outages : List LinkEvent :=
  [.doBroadcast "a:1" news, .handleWs "a:1" ("b", 2) 0, .fail "a:1" ("b", 2) 0, .fail "a:1" ("b", 2) 0,
    .fail "a:1" ("b", 2) 0, .receive 0 0 0, .fail "b:2" ("c", 3) 0, .fail "b:2" ("c", 3) 0, .fail "b:2" ("c", 3) 0,
    .flush "b:2" ("c", 3), .handleWs "b:2" ("c", 3) 1, .acknowledge "b:2" ("c", 3) 1, .receive 0 0 0,
    .flush "a:1" ("b", 2), .handleWs "a:1" ("b", 2) 1, .acknowledge "a:1" ("b", 2) 1, .receive 0 0 0]

/-- The room after that. -/
def recovered : Links := (new fun _ => 5).run {"a:1", "b:2", "c:3"} row outages

end Links

end PeerChat
