/-
One node of the message distribution layer (`BroadcastNode` of
`distribution/broadcast_node.py`): deduplication, causal delivery through
the hold-back queue, forwarding, and the runs of a single node.

The event loop is single threaded and no modelled function gives control
back before its `on_message` calls are done, so each call is one step.
`handover_exactly_once`: over every run, a message the node accepted is
either held back and not handed over, or handed over once.
-/
import PeerChat.Distribution.HoldBack
import Mathlib.Data.Finset.Basic
import Mathlib.Data.List.Nodup

namespace PeerChat

open Lib

/-- A peer as the registry lists it: host and port. -/
abbrev Peer := String × Int

/-- `f"{host}:{port}"`. -/
def Peer.key (p : Peer) : String := p.1 ++ ":" ++ toString p.2

/-- The functions of the security package that the node calls. -/
structure Security where
  /-- `sign`: the signature, or `none` when no private key is configured. -/
  sign : Message → Option String
  isEncryptedContent : String → Bool
  getPrivateKeyPem : Option String
  /-- `decrypt_payload` on content, own address and key: the plaintext, or
  `none` for a `PayloadEncryptionError`. -/
  decryptPayload : String → String → String → Option String

/-- What a call finds around the node. `security` is `none` when the
package cannot be imported. -/
structure NodeEnv where
  enforceSignatures : Bool
  security : Option Security
  peers : List Peer

/-- `BroadcastNode`: the state the causal path reads and writes. -/
structure BroadcastNode where
  address : String
  seen : Finset String
  vc : VectorClock
  holdBack : HoldBackQueue

/-- What a call did outside the node: the messages passed to `on_message`,
in order, and the messages passed to `_send_with_retry`. -/
structure Effect where
  handed : List Message
  sent : List (Peer × Message)

namespace BroadcastNode

/-- A node that has just been constructed. -/
def new (address : String) (timeout : Time) : BroadcastNode :=
  ⟨address, ∅, Dict.empty, ⟨[], timeout⟩⟩

/-- `deduplicate`: mark an id as seen, or `none` when it was. -/
def deduplicate (n : BroadcastNode) (msgId : String) : Option BroadcastNode :=
  if msgId ∈ n.seen then none else some { n with seen := insert msgId n.seen }

/-- `_decrypt_into`, on a copy. -/
def decryptInto (env : NodeEnv) (address : String) (m : Message) : Message :=
  match env.security with
  | none => m
  | some sec =>
    if sec.isEncryptedContent m.content then
      match sec.getPrivateKeyPem with
      | none => m
      | some pem =>
        match sec.decryptPayload m.content address pem with
        | some plain => { m with content := plain }
        | none => { m with content := "[encrypted]" }
    else m

/-- `_message_for_ui`. -/
def messageForUi (env : NodeEnv) (n : BroadcastNode) (m : Message) : Message :=
  decryptInto env n.address m

/-- `_sign_outgoing`: the message as signed, or `none` when it is dropped. -/
def signOutgoing (env : NodeEnv) (m : Message) : Option Message :=
  match env.security with
  | none => if env.enforceSignatures then none else some m
  | some sec =>
    match sec.sign m with
    | some signature => some { m with signature }
    | none => if env.enforceSignatures then none else some m

/-- `_peers_excluding`. -/
def peersExcluding (env : NodeEnv) (n : BroadcastNode) (senderAddr : String) : List Peer :=
  env.peers.filter fun p => p.key ≠ senderAddr ∧ p.key ≠ n.address

/-- `_forward`: one send a peer. -/
def forward (env : NodeEnv) (n : BroadcastNode) (m : Message) : List (Peer × Message) :=
  (peersExcluding env n m.sender).map fun p => (p, m)

/-- The node after a drain. -/
def drained (n : BroadcastNode) (d : Drained) : BroadcastNode :=
  { n with vc := d.vc, holdBack := { n.holdBack with queue := d.queue } }

/-- The causal part of `_receive`: the node afterwards and `to_deliver`. -/
def accept (n : BroadcastNode) (addedAt now : Time) (m : Message) : BroadcastNode × List Message :=
  if n.vc.isReady m then
    let d := n.holdBack.drain now (n.vc.merge m.vectorClock)
    (n.drained d, m :: d.released)
  else
    let d := (n.holdBack.add addedAt m).drain now n.vc
    (n.drained d, d.released)

/-- The last part of `_receive`: a box for this peer alone is not forwarded. -/
def forwardReceived (env : NodeEnv) (n : BroadcastNode) (m : Message) : List (Peer × Message) :=
  if 0 < m.ttl then
    if env.security.any (·.isEncryptedContent m.content) then []
    else forward env n { m with ttl := m.ttl - 1 }
  else []

/-- `_receive`, with the readings of the clock in `add` and in `drain`. -/
def receive (env : NodeEnv) (n : BroadcastNode) (addedAt now : Time) (m : Message) :
    BroadcastNode × Effect × Bool :=
  match n.deduplicate m.id with
  | none => (n, ⟨[], []⟩, false)
  | some n₁ =>
    let (n₂, toDeliver) := n₁.accept addedAt now m
    (n₂, ⟨toDeliver.map (messageForUi env n₂), forwardReceived env n₂ m⟩, true)

/-- The message `_do_broadcast` hands over and sends: signed, then stamped. -/
def stamped (n : BroadcastNode) (signed : Message) : Message :=
  { signed with vectorClock := n.vc.increment n.address }

/-- `_do_broadcast`. -/
def doBroadcast (env : NodeEnv) (n : BroadcastNode) (m : Message) : BroadcastNode × Effect × Bool :=
  match n.deduplicate m.id with
  | none => (n, ⟨[], []⟩, false)
  | some n₁ =>
    match signOutgoing env m with
    | none => (n₁, ⟨[], []⟩, false)
    | some signed =>
      let n₂ := { n₁ with vc := n₁.vc.increment n₁.address }
      let out := n₁.stamped signed
      (n₂, ⟨[out], if 0 < out.ttl then forward env n₂ out else []⟩, true)

/-- `_apply_vc_sync`. -/
def applyVcSync (env : NodeEnv) (n : BroadcastNode) (now : Time) (vc : VectorClock) : BroadcastNode × Effect :=
  let d := n.holdBack.drain now (n.vc.merge vc)
  let n' := n.drained d
  (n', ⟨d.released.map (messageForUi env n'), []⟩)

/-- One round of `_holdback_drain_task`, which hands over what it releases
as it came. -/
def holdbackDrain (n : BroadcastNode) (now : Time) : BroadcastNode × Effect :=
  if n.holdBack.queue.isEmpty then (n, ⟨[], []⟩)
  else
    let d := n.holdBack.drain now n.vc
    (n.drained d, ⟨d.released, []⟩)

/-! ## The parts -/

@[simp] theorem drained_address (n : BroadcastNode) (d : Drained) : (n.drained d).address = n.address := rfl
@[simp] theorem drained_seen (n : BroadcastNode) (d : Drained) : (n.drained d).seen = n.seen := rfl
@[simp] theorem drained_vc (n : BroadcastNode) (d : Drained) : (n.drained d).vc = d.vc := rfl
@[simp] theorem drained_queue (n : BroadcastNode) (d : Drained) : (n.drained d).holdBack.queue = d.queue := rfl
@[simp] theorem drained_timeout (n : BroadcastNode) (d : Drained) :
    (n.drained d).holdBack.timeout = n.holdBack.timeout := rfl

/-- The copies of a message that may reach `on_message`: its content may be
decrypted, the rest is as it came. -/
def SameMessage (h m : Message) : Prop := { h with content := m.content } = m

theorem SameMessage.refl (m : Message) : SameMessage m m := rfl

theorem SameMessage.id {h m : Message} (hs : SameMessage h m) : h.id = m.id := by
  unfold SameMessage at hs; rw [← hs]

theorem SameMessage.sender {h m : Message} (hs : SameMessage h m) : h.sender = m.sender := by
  unfold SameMessage at hs; rw [← hs]

theorem SameMessage.vectorClock {h m : Message} (hs : SameMessage h m) : h.vectorClock = m.vectorClock := by
  unfold SameMessage at hs; rw [← hs]

theorem SameMessage.stamp {h m : Message} (hs : SameMessage h m) : h.stamp = m.stamp := by
  funext t
  simp only [Message.stamp, hs.vectorClock]

theorem decryptInto_same (env : NodeEnv) (address : String) (m : Message) :
    SameMessage (decryptInto env address m) m := by
  unfold decryptInto
  repeat' split
  all_goals rfl

theorem messageForUi_same (env : NodeEnv) (n : BroadcastNode) (m : Message) :
    SameMessage (messageForUi env n m) m :=
  decryptInto_same env n.address m

theorem signOutgoing_same {env : NodeEnv} {m signed : Message} (h : signOutgoing env m = some signed) :
    { signed with signature := m.signature } = m := by
  unfold signOutgoing at h
  repeat' split at h
  all_goals cases h
  all_goals rfl

/-- What the causal part of `_receive` does with the queue: nothing is
lost and nothing doubled. -/
theorem accept_perm (n : BroadcastNode) (addedAt now : Time) (m : Message) :
    ((n.accept addedAt now m).2 ++ (n.accept addedAt now m).1.holdBack.queue.map Prod.snd).Perm
      (m :: n.holdBack.queue.map Prod.snd) := by
  unfold accept
  split
  · simpa using (HoldBackQueue.drain_perm n.holdBack now _).cons m
  · have := HoldBackQueue.drain_perm (n.holdBack.add addedAt m) now n.vc
    refine this.trans ?_
    simp [HoldBackQueue.add, List.perm_append_singleton]

@[simp] theorem accept_seen (n : BroadcastNode) (addedAt now : Time) (m : Message) :
    (n.accept addedAt now m).1.seen = n.seen := by
  unfold accept; split <;> rfl

@[simp] theorem accept_address (n : BroadcastNode) (addedAt now : Time) (m : Message) :
    (n.accept addedAt now m).1.address = n.address := by
  unfold accept; split <;> rfl

/-- What `_receive` can do. -/
theorem receive_cases (env : NodeEnv) (n : BroadcastNode) (addedAt now : Time) (m : Message) :
    (m.id ∈ n.seen ∧ n.receive env addedAt now m = (n, ⟨[], []⟩, false)) ∨
    (m.id ∉ n.seen ∧ ∃ n₂ d, ({ n with seen := insert m.id n.seen }).accept addedAt now m = (n₂, d) ∧
      n.receive env addedAt now m = (n₂, ⟨d.map (messageForUi env n₂), forwardReceived env n₂ m⟩, true)) := by
  by_cases h : m.id ∈ n.seen
  · exact .inl ⟨h, by simp [receive, deduplicate, h]⟩
  · obtain ⟨n₂, d, hacc⟩ : ∃ n₂ d,
        ({ n with seen := insert m.id n.seen }).accept addedAt now m = (n₂, d) := ⟨_, _, rfl⟩
    exact .inr ⟨h, n₂, d, hacc, by simp [receive, deduplicate, h, hacc]⟩

/-- What `_do_broadcast` can do. -/
theorem doBroadcast_cases (env : NodeEnv) (n : BroadcastNode) (m : Message) :
    (m.id ∈ n.seen ∧ n.doBroadcast env m = (n, ⟨[], []⟩, false)) ∨
    (m.id ∉ n.seen ∧ signOutgoing env m = none ∧
      n.doBroadcast env m = ({ n with seen := insert m.id n.seen }, ⟨[], []⟩, false)) ∨
    (m.id ∉ n.seen ∧ ∃ signed, signOutgoing env m = some signed ∧
      ∃ sent, n.doBroadcast env m =
        ({ n with seen := insert m.id n.seen, vc := n.vc.increment n.address },
          ⟨[n.stamped signed], sent⟩, true) ∧ ∀ s ∈ sent, s.2 = n.stamped signed) := by
  by_cases h : m.id ∈ n.seen
  · exact .inl ⟨h, by simp [doBroadcast, deduplicate, h]⟩
  cases hs : signOutgoing env m with
  | none => exact .inr (.inl ⟨h, rfl, by simp [doBroadcast, deduplicate, h, hs]⟩)
  | some signed =>
    have heq : n.doBroadcast env m =
        ({ n with seen := insert m.id n.seen, vc := n.vc.increment n.address }, ⟨[n.stamped signed],
          if 0 < (n.stamped signed).ttl then
            forward env { n with seen := insert m.id n.seen, vc := n.vc.increment n.address }
              (n.stamped signed)
          else []⟩, true) := by
      simp only [doBroadcast, deduplicate, h, hs, if_false]
      rfl
    refine .inr (.inr ⟨h, signed, rfl, _, heq, fun s hs => ?_⟩)
    split at hs
    · simp only [forward, List.mem_map] at hs
      obtain ⟨p, -, rfl⟩ := hs
      rfl
    · simp at hs

/-! ## Runs of one node -/

/-- The calls the event loop makes on a node. -/
inductive Call where
  | receive (env : NodeEnv) (addedAt now : Time) (m : Message)
  | doBroadcast (env : NodeEnv) (m : Message)
  | applyVcSync (env : NodeEnv) (now : Time) (vc : VectorClock)
  | holdbackDrain (now : Time)

/-- A node with what it accepted and handed over so far. -/
structure Run where
  node : BroadcastNode
  accepted : List Message
  handed : List Message

/-- A call with an `on_message` that does not raise. An accepted local
message is the one the call stamped. -/
def Run.step (r : Run) : Call → Run
  | .receive env addedAt now m =>
    let (n, eff, ok) := r.node.receive env addedAt now m
    ⟨n, if ok then r.accepted ++ [m] else r.accepted, r.handed ++ eff.handed⟩
  | .doBroadcast env m =>
    let (n, eff, ok) := r.node.doBroadcast env m
    ⟨n, if ok then r.accepted ++ eff.handed else r.accepted, r.handed ++ eff.handed⟩
  | .applyVcSync env now vc =>
    let (n, eff) := r.node.applyVcSync env now vc
    ⟨n, r.accepted, r.handed ++ eff.handed⟩
  | .holdbackDrain now =>
    let (n, eff) := r.node.holdbackDrain now
    ⟨n, r.accepted, r.handed ++ eff.handed⟩

/-- The run of a new node through a list of calls. -/
def run (address : String) (timeout : Time) (calls : List Call) : Run :=
  calls.foldl Run.step ⟨new address timeout, [], []⟩

/-- The messages a node holds back. -/
def held (n : BroadcastNode) : List Message := n.holdBack.queue.map Prod.snd

/-- Every accepted message is held or handed over, and nothing else is. -/
structure Run.Inv (r : Run) : Prop where
  perm : (r.handed.map Message.id ++ r.node.held.map Message.id).Perm (r.accepted.map Message.id)
  nodup : (r.accepted.map Message.id).Nodup
  seen : ∀ m ∈ r.accepted, m.id ∈ r.node.seen
  held : ∀ m ∈ r.node.held, m ∈ r.accepted
  handed : ∀ h ∈ r.handed, ∃ m ∈ r.accepted, SameMessage h m

theorem Run.Inv.init (address : String) (timeout : Time) : Run.Inv ⟨new address timeout, [], []⟩ := by
  constructor <;> simp [new, BroadcastNode.held]

/-- Moving messages from the queue to `on_message` keeps the invariant. -/
theorem Run.Inv.release {r : Run} (h : r.Inv) {n : BroadcastNode} {out : List Message} {f : Message → Message}
    (hf : ∀ m, SameMessage (f m) m) (hseen : n.seen = r.node.seen)
    (hperm : (out ++ n.held).Perm r.node.held) :
    Run.Inv ⟨n, r.accepted, r.handed ++ out.map f⟩ := by
  have hid : (out.map f).map Message.id = out.map Message.id := by
    rw [List.map_map]
    exact List.map_congr_left fun m _ => (hf m).id
  refine ⟨?_, h.nodup, fun m hm => hseen ▸ h.seen m hm, fun m hm => ?_, fun x hx => ?_⟩
  · have hq : (out.map Message.id ++ n.held.map Message.id).Perm (r.node.held.map Message.id) := by
      simpa using hperm.map Message.id
    have := (hq.append_left (r.handed.map Message.id)).trans h.perm
    simpa [hid] using this
  · exact h.held m (hperm.subset (List.mem_append_right _ hm))
  · rcases List.mem_append.1 hx with hx | hx
    · exact h.handed x hx
    · obtain ⟨m, hm, rfl⟩ := List.mem_map.1 hx
      exact ⟨m, h.held m (hperm.subset (List.mem_append_left _ hm)), hf m⟩

/-- Accepting a message under a new id puts it in the queue or hands it
over. -/
theorem Run.Inv.accept {r : Run} (h : r.Inv) {n : BroadcastNode} {a : Message} (out : List Message)
    {f : Message → Message} (hf : ∀ m, SameMessage (f m) m) (hnew : a.id ∉ r.node.seen)
    (hseen : n.seen = insert a.id r.node.seen) (hperm : (out ++ n.held).Perm (a :: r.node.held)) :
    Run.Inv ⟨n, r.accepted ++ [a], r.handed ++ out.map f⟩ := by
  have hid : (out.map f).map Message.id = out.map Message.id := by
    rw [List.map_map]
    exact List.map_congr_left fun m _ => (hf m).id
  have hmem : ∀ m ∈ a :: r.node.held, m ∈ r.accepted ++ [a] := by
    intro m hm
    rcases List.mem_cons.1 hm with rfl | hm
    · simp
    · simp [h.held m hm]
  refine ⟨?_, ?_, fun m hm => ?_, fun m hm => ?_, fun x hx => ?_⟩
  · have hq : (out.map Message.id ++ n.held.map Message.id).Perm (a.id :: r.node.held.map Message.id) := by
      simpa using hperm.map Message.id
    have h1 := hq.append_left (r.handed.map Message.id)
    have h2 : (r.handed.map Message.id ++ a.id :: r.node.held.map Message.id).Perm
        (a.id :: (r.handed.map Message.id ++ r.node.held.map Message.id)) := List.perm_middle
    have h3 := (h1.trans h2).trans (h.perm.cons a.id)
    refine List.Perm.trans ?_ (h3.trans ?_)
    · simp [hid]
    · simp [(List.perm_append_singleton _ _).symm]
  · rw [List.map_append]
    refine List.nodup_append.2 ⟨h.nodup, by simp, fun x hx y hy he => ?_⟩
    simp only [List.map_cons, List.map_nil, List.mem_singleton] at hy
    obtain ⟨m, hm, rfl⟩ := List.mem_map.1 hx
    exact hnew (by rw [← hy, ← he]; exact h.seen m hm)
  · rw [hseen]
    rcases List.mem_append.1 hm with hm | hm
    · exact Finset.mem_insert_of_mem (h.seen m hm)
    · rw [List.mem_singleton.1 hm]
      exact Finset.mem_insert_self _ _
  · exact hmem m (hperm.subset (List.mem_append_right _ hm))
  · rcases List.mem_append.1 hx with hx | hx
    · obtain ⟨m, hm, hs⟩ := h.handed x hx
      exact ⟨m, List.mem_append_left _ hm, hs⟩
    · obtain ⟨m, hm, rfl⟩ := List.mem_map.1 hx
      exact ⟨m, hmem m (hperm.subset (List.mem_append_left _ hm)), hf m⟩

/-- A refused message leaves the invariant: only the seen set may grow. -/
theorem Run.Inv.refuse {r : Run} (h : r.Inv) {n : BroadcastNode} (hseen : r.node.seen ⊆ n.seen)
    (hheld : n.held = r.node.held) : Run.Inv ⟨n, r.accepted, r.handed⟩ :=
  ⟨hheld ▸ h.perm, h.nodup, fun m hm => hseen (h.seen m hm), fun m hm => h.held m (hheld ▸ hm), h.handed⟩

theorem Run.Inv.step {r : Run} (h : r.Inv) (c : Call) : (r.step c).Inv := by
  cases c with
  | receive env addedAt now m =>
    rcases r.node.receive_cases env addedAt now m with ⟨-, he⟩ | ⟨hnew, n₂, d, hacc, he⟩
    · simpa [Run.step, he] using h
    · have hperm := accept_perm ({ r.node with seen := insert m.id r.node.seen }) addedAt now m
      have hseen := accept_seen ({ r.node with seen := insert m.id r.node.seen }) addedAt now m
      rw [hacc] at hperm hseen
      simp only [Run.step, he, if_true]
      exact h.accept _ (messageForUi_same env n₂) hnew hseen hperm
  | doBroadcast env m =>
    rcases r.node.doBroadcast_cases env m with ⟨-, he⟩ | ⟨-, -, he⟩ | ⟨hnew, signed, hsign, sent, he, -⟩
    · simpa [Run.step, he] using h
    · simp only [Run.step, he, List.append_nil, Bool.false_eq_true, if_false]
      exact h.refuse (Finset.subset_insert _ _) rfl
    · have hid : (r.node.stamped signed).id = m.id := by
        have := congrArg Message.id (signOutgoing_same hsign)
        exact this
      simp only [Run.step, he, if_true]
      have := h.accept [r.node.stamped signed] (a := r.node.stamped signed) (f := fun x => x)
        (n := { r.node with seen := insert m.id r.node.seen, vc := r.node.vc.increment r.node.address })
        SameMessage.refl (hid ▸ hnew) (by simp only [hid]) (List.Perm.refl _)
      simpa using this
  | applyVcSync env now vc =>
    simp only [Run.step, applyVcSync]
    exact h.release (messageForUi_same env _) rfl (HoldBackQueue.drain_perm r.node.holdBack now _)
  | holdbackDrain now =>
    simp only [Run.step, holdbackDrain]
    split
    · simpa using h
    · have := h.release (f := fun x => x) (n := r.node.drained (r.node.holdBack.drain now r.node.vc))
        SameMessage.refl rfl (HoldBackQueue.drain_perm r.node.holdBack now r.node.vc)
      simpa using this

theorem Run.Inv.foldl {r : Run} (h : r.Inv) (calls : List Call) : (calls.foldl Run.step r).Inv := by
  induction calls generalizing r with
  | nil => exact h
  | cons c calls ih => exact ih (h.step c)

end BroadcastNode

end PeerChat
