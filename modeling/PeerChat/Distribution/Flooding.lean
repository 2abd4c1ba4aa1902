/-
One message flooding a room (`_do_broadcast`, `_receive`, `_forward` and
`_peers_excluding` of `distribution/broadcast_node.py`), over lossless links
and without signatures or encryption.

The copies of the message are under way until they are delivered, in any
order. Each step is one of the library's flooding, in which a node is
reached when it has seen the id. `flooding_covers_room`: no node forwards
twice, every run ends, and where the time to live allows for a path through
the whole room, everybody reachable has accepted the message once.
-/
import PeerChat.Lib.Flood
import PeerChat.Distribution.BroadcastNode

namespace PeerChat

open Lib BroadcastNode

/-- The nodes, the copies under way, and what the calls on the nodes did, in
order: at whom, the effect and the answer. -/
structure Flooding where
  node : String → BroadcastNode
  inFlight : List (Peer × Message)
  calls : List (String × Effect × Bool)

namespace Flooding

/-- What a node finds around it: its peers and nothing else. -/
def env (peers : String → List Peer) (a : String) : NodeEnv := ⟨false, none, peers a⟩

/-- The node at `o` originates `m`. -/
def originate (peers : String → List Peer) (node : String → BroadcastNode) (o : String) (m : Message) : Flooding :=
  let (n, eff, ok) := (node o).doBroadcast (env peers o) m
  ⟨Function.update node o n, eff.sent, [(o, eff, ok)]⟩

/-- A copy is delivered, and `rest` is still under way; one for an address
outside the room finds nobody. -/
def deliver (room : Finset String) (peers : String → List Peer) (r : Flooding) (rest : List (Peer × Message)) (p : Peer)
    (c : Message) (addedAt now : Time) : Flooding :=
  if p.key ∈ room then
    let (n, eff, ok) := (r.node p.key).receive (env peers p.key) addedAt now c
    ⟨Function.update r.node p.key n, rest ++ eff.sent, r.calls ++ [(p.key, eff, ok)]⟩
  else { r with inFlight := rest }

/-- One delivery. -/
inductive Step (room : Finset String) (peers : String → List Peer) : Flooding → Flooding → Prop
  | deliver {r : Flooding} {l l' : List (Peer × Message)} {p : Peer} {c : Message} (addedAt now : Time)
    (h : r.inFlight = l ++ (p, c) :: l') : Step room peers r (r.deliver room peers (l ++ l') p c addedAt now)

/-- A run, with the number of its deliveries. -/
inductive Steps (room : Finset String) (peers : String → List Peer) : Nat → Flooding → Flooding → Prop
  | refl (r : Flooding) : Steps room peers 0 r r
  | snoc {n : Nat} {r r₁ r₂ : Flooding} (h : Steps room peers n r r₁) (hs : Step room peers r₁ r₂) :
    Steps room peers (n + 1) r r₂

/-- The calls of a node that sent anything. -/
def forwards (r : Flooding) (a : String) : Nat := (r.calls.filter fun x => x.1 = a ∧ x.2.1.sent ≠ []).length

/-- The calls of a node that accepted the message. -/
def acceptances (r : Flooding) (a : String) : Nat := (r.calls.filter fun x => x.1 = a ∧ x.2.2 = true).length

/-- How often a node has passed the id to `on_message`. -/
def deliveries (r : Flooding) (a i : String) : Nat :=
  ((r.calls.filter (·.1 = a)).flatMap fun x => x.2.1.handed.map Message.id).count i

/-- How often it is in the hold-back queue of a node. -/
def waiting (r : Flooding) (a i : String) : Nat := ((r.node a).held.map Message.id).count i

/-- All copies that were ever sent. -/
def sends (r : Flooding) : Nat := (r.calls.map fun x => x.2.1.sent.length).sum

variable {room : Finset String} {peers : String → List Peer} {r r' : Flooding} {o : String} {m : Message}

/-! ## The calls of one node -/

/-- Whom a node forwards to. -/
def targets (peers : String → List Peer) (o a : String) : List String :=
  ((peers a).filter fun p => p.key ≠ o ∧ p.key ≠ a).map Peer.key

theorem forward_targets {n : BroadcastNode} {a : String} {c : Message} (hn : n.address = a) (hc : c.sender = o) :
    (forward (env peers a) n c).map (fun q => (q.1.key, q.2.ttl)) = (targets peers o a).map (·, c.ttl) := by
  simp only [forward, peersExcluding, env, targets, hn, hc, List.map_map]
  rfl

theorem forwardReceived_targets {n : BroadcastNode} {a : String} {c : Message} (hn : n.address = a)
    (hc : c.sender = o) :
    (forwardReceived (env peers a) n c).map (fun q => (q.1.key, q.2.ttl)) =
      if 0 < c.ttl then (targets peers o a).map (·, c.ttl - 1) else [] := by
  unfold forwardReceived
  split
  · exact forward_targets (c := { c with ttl := c.ttl - 1 }) hn hc
  · rfl

theorem mem_forwardReceived {n : BroadcastNode} {a : String} {c : Message} {q : Peer × Message}
    (h : q ∈ forwardReceived (env peers a) n c) : q.2.id = c.id ∧ q.2.sender = c.sender := by
  unfold forwardReceived at h
  split at h
  · obtain ⟨p, -, rfl⟩ := List.mem_map.1 h
    exact ⟨rfl, rfl⟩
  · cases h

/-- The state of the library's flooding, as far as it is seen of the room. -/
structure Sim (room : Finset String) (o : String) (m : Message) (r : Flooding) (f : Flood String) : Prop where
  reached : f.reached = room.filter fun a => m.id ∈ (r.node a).seen
  inFlight : f.inFlight = r.inFlight.map fun q => (q.1.key, q.2.ttl)
  copies : ∀ q ∈ r.inFlight, q.2.id = m.id ∧ q.2.sender = o
  address : ∀ a ∈ room, (r.node a).address = a

/-- What the calls have done with the id. -/
structure Tally (room : Finset String) (m : Message) (r : Flooding) : Prop where
  inside : ∀ x ∈ r.calls, x.1 ∈ room
  refused : ∀ x ∈ r.calls, x.2.2 = false → x.2.1.sent = []
  accepted : ∀ a ∈ room, r.acceptances a = if m.id ∈ (r.node a).seen then 1 else 0
  kept : ∀ a ∈ room, r.deliveries a m.id + r.waiting a m.id = if m.id ∈ (r.node a).seen then 1 else 0

/-- The room after a call of one node. -/
def called (r : Flooding) (rest : List (Peer × Message)) (a : String) (x : BroadcastNode × Effect × Bool) : Flooding :=
  ⟨Function.update r.node a x.1, rest ++ x.2.1.sent, r.calls ++ [(a, x.2)]⟩

variable {a b : String} {n : BroadcastNode} {eff : Effect} {ok : Bool} {rest : List (Peer × Message)}

theorem acceptances_called (r : Flooding) : (r.called rest a (n, eff, ok)).acceptances b =
    r.acceptances b + if a = b ∧ ok = true then 1 else 0 := by
  simp only [acceptances, called, List.filter_append, List.length_append, List.filter_singleton]
  by_cases h : a = b ∧ ok = true
  · simp [h]
  · simp [h]

theorem deliveries_called (r : Flooding) (i : String) : (r.called rest a (n, eff, ok)).deliveries b i =
    r.deliveries b i + if a = b then (eff.handed.map Message.id).count i else 0 := by
  simp only [deliveries, called, List.filter_append, List.flatMap_append, List.count_append, List.filter_singleton]
  by_cases h : a = b
  · simp [h]
  · simp [h]

theorem waiting_called (r : Flooding) (i : String) : (r.called rest a (n, eff, ok)).waiting b i =
    if b = a then (n.held.map Message.id).count i else r.waiting b i := by
  simp only [waiting, called, Function.update_apply]
  split <;> rfl

theorem node_called (r : Flooding) : (r.called rest a (n, eff, ok)).node b = if b = a then n else r.node b := by
  simp only [called, Function.update_apply]

/-- A call that changes nothing. -/
theorem node_refused (r : Flooding) : (r.called rest a (r.node a, eff, ok)).node b = r.node b := by
  rw [node_called]
  split
  · next hb => rw [hb]
  · rfl

/-- A call that knows the id already. -/
theorem Tally.refuse (h : Tally room m r) (ha : a ∈ room) :
    Tally room m (r.called rest a (r.node a, ⟨[], []⟩, false)) := by
  refine ⟨fun x hx => ?_, fun x hx hok => ?_, fun b hb => ?_, fun b hb => ?_⟩
  · rcases List.mem_append.1 hx with hx | hx
    · exact h.inside x hx
    · rw [List.mem_singleton.1 hx]
      exact ha
  · rcases List.mem_append.1 hx with hx | hx
    · exact h.refused x hx hok
    · rw [List.mem_singleton.1 hx]
  · rw [acceptances_called, node_refused, h.accepted b hb]
    simp
  · have hwait : (r.called rest a (r.node a, ⟨[], []⟩, false)).waiting b m.id = r.waiting b m.id := by
      simp only [waiting, node_refused]
    rw [deliveries_called, hwait, node_refused, ← h.kept b hb]
    simp

/-- A call that accepts it. -/
theorem Tally.accept (h : Tally room m r) (ha : a ∈ room) (hnew : m.id ∉ (r.node a).seen)
    (hseen : m.id ∈ n.seen) (hone : (eff.handed.map Message.id).count m.id + (n.held.map Message.id).count m.id = 1 +
      r.waiting a m.id) : Tally room m (r.called rest a (n, eff, true)) := by
  refine ⟨fun x hx => ?_, fun x hx hok => ?_, fun b hb => ?_, fun b hb => ?_⟩
  · rcases List.mem_append.1 hx with hx | hx
    · exact h.inside x hx
    · rw [List.mem_singleton.1 hx]
      exact ha
  · rcases List.mem_append.1 hx with hx | hx
    · exact h.refused x hx hok
    · rw [List.mem_singleton.1 hx] at hok
      cases hok
  · rw [acceptances_called, node_called, h.accepted b hb]
    by_cases hab : a = b
    · subst hab
      simp [hnew, hseen]
    · simp [hab, Ne.symm hab]
  · have hkept := h.kept b hb
    rw [deliveries_called, waiting_called, node_called]
    by_cases hab : a = b
    · subst hab
      simp only [hnew, hseen, if_true, if_false] at hkept ⊢
      omega
    · simpa [hab, Ne.symm hab] using hkept

/-! ## A delivery -/

theorem deliver_eq (hp : a ∈ room) {p : Peer} (hpa : p.key = a) (c : Message) (addedAt now : Time) :
    r.deliver room peers rest p c addedAt now =
      r.called rest a ((r.node a).receive (env peers a) addedAt now c) := by
  subst hpa
  rw [deliver, if_pos hp]
  rfl

theorem Tally.deliver (h : Tally room m r) {p : Peer} {c : Message} (hc : c.id = m.id) (addedAt now : Time) :
    Tally room m (r.deliver room peers rest p c addedAt now) := by
  by_cases hp : p.key ∈ room
  · rw [deliver_eq hp rfl]
    rcases (r.node p.key).receive_cases (env peers p.key) addedAt now c with ⟨-, he⟩ | ⟨hnew, n₂, d, hacc, he⟩
    · rw [he]
      exact h.refuse hp
    · rw [he]
      have hperm : (d ++ n₂.held).Perm (c :: (r.node p.key).held) := by
        have h := accept_perm ({ r.node p.key with seen := insert c.id (r.node p.key).seen }) addedAt now c
        rw [hacc] at h
        exact h
      have hseen : n₂.seen = insert c.id (r.node p.key).seen := by
        have h := accept_seen ({ r.node p.key with seen := insert c.id (r.node p.key).seen }) addedAt now c
        rw [hacc] at h
        exact h
      have hids : (d.map (messageForUi (env peers p.key) n₂)).map Message.id = d.map Message.id := by
        rw [List.map_map]
        exact List.map_congr_left fun x _ => (messageForUi_same _ _ x).id
      refine h.accept hp (hc ▸ hnew) ?_ ?_
      · rw [hseen, hc]
        exact Finset.mem_insert_self _ _
      · -- the message joins what is held, and nothing is lost or doubled
        have hcount := (hperm.map Message.id).count_eq m.id
        rw [List.map_append, List.count_append, List.map_cons, List.count_cons, hc, beq_self_eq_true,
          if_pos rfl] at hcount
        rw [hids, waiting]
        omega
  · rw [Flooding.deliver, if_neg hp]
    exact ⟨h.inside, h.refused, h.accepted, h.kept⟩

section Sim

variable {f : Flood String} {c : Message}

theorem Sim.refuse (h : Sim room o m r f) (hrest : ∀ q ∈ rest, q.2.id = m.id ∧ q.2.sender = o) :
    Sim room o m (r.called rest a (r.node a, ⟨[], []⟩, false))
      ⟨f.reached, rest.map fun q => (q.1.key, q.2.ttl)⟩ := by
  refine ⟨?_, ?_, ?_, fun b hb => ?_⟩
  · simp only [node_refused]
    exact h.reached
  · simp only [called, List.append_nil]
  · simp only [called, List.append_nil]
    exact hrest
  · rw [node_refused]
    exact h.address b hb

theorem Sim.accept (h : Sim room o m r f) (hrest : ∀ q ∈ rest, q.2.id = m.id ∧ q.2.sender = o) (ha : a ∈ room)
    (hid : c.id = m.id) (hsender : c.sender = o) (hseen : n.seen = insert m.id (r.node a).seen)
    (haddr : n.address = a) (handed : List Message) :
    Sim room o m (r.called rest a (n, ⟨handed, forwardReceived (env peers a) n c⟩, true))
      ⟨insert a f.reached, rest.map (fun q => (q.1.key, q.2.ttl)) ++
        if 0 < c.ttl then (targets peers o a).map (·, c.ttl - 1) else []⟩ := by
  refine ⟨?_, ?_, fun q hq => ?_, fun b hb => ?_⟩
  · ext b
    simp only [Finset.mem_insert, h.reached, Finset.mem_filter, node_called]
    by_cases hb : b = a
    · subst hb
      simp [ha, hseen]
    · simp [hb]
  · simp only [called, List.map_append, forwardReceived_targets haddr hsender]
  · rcases List.mem_append.1 hq with hq | hq
    · exact hrest q hq
    · obtain ⟨h₁, h₂⟩ := mem_forwardReceived hq
      exact ⟨h₁.trans hid, h₂.trans hsender⟩
  · rw [node_called]
    split
    · next hb => rw [hb, haddr]
    · exact h.address b hb

/-- A delivery is one of the library's. -/
theorem Sim.deliver (h : Sim room o m r f) {l l' : List (Peer × Message)} {p : Peer}
    (hr : r.inFlight = l ++ (p, c) :: l') (addedAt now : Time) :
    ∃ k k', f.inFlight = k ++ (p.key, c.ttl) :: k' ∧
      Sim room o m (r.deliver room peers (l ++ l') p c addedAt now)
        (f.receive room (targets peers o) (k ++ k') p.key c.ttl) := by
  obtain ⟨hid, hsender⟩ := h.copies (p, c) (by rw [hr]; simp)
  have hrest : ∀ q ∈ l ++ l', q.2.id = m.id ∧ q.2.sender = o := by
    intro q hq
    refine h.copies q ?_
    rw [hr]
    rcases List.mem_append.1 hq with hq | hq
    · exact List.mem_append_left _ hq
    · exact List.mem_append_right _ (List.mem_cons_of_mem _ hq)
  refine ⟨l.map _, l'.map _, by rw [h.inFlight, hr, List.map_append, List.map_cons], ?_⟩
  rw [← List.map_append]
  by_cases hp : p.key ∈ room
  · rw [deliver_eq hp rfl]
    have hreached : p.key ∈ f.reached ↔ m.id ∈ (r.node p.key).seen := by
      rw [h.reached, Finset.mem_filter]
      exact and_iff_right hp
    rcases (r.node p.key).receive_cases (env peers p.key) addedAt now c with ⟨hold, he⟩ | ⟨hnew, n₂, d, hacc, he⟩
    · rw [hid] at hold
      rw [he, Flood.receive, if_neg fun hn => hn.2 (hreached.2 hold)]
      exact h.refuse hrest
    · rw [hid] at hnew hacc
      have hseen := accept_seen ({ r.node p.key with seen := insert m.id (r.node p.key).seen }) addedAt now c
      have haddr := accept_address ({ r.node p.key with seen := insert m.id (r.node p.key).seen }) addedAt now c
      rw [hacc] at hseen haddr
      rw [he, Flood.receive, if_pos ⟨hp, fun hn => hnew (hreached.1 hn)⟩]
      exact h.accept hrest hp hid hsender hseen (haddr.trans (h.address p.key hp)) _
  · rw [Flooding.deliver, if_neg hp, Flood.receive, if_neg fun hn => hp hn.1]
    exact ⟨h.reached, rfl, hrest, h.address⟩

end Sim

/-! ## Runs -/

theorem sends_deliver {l l' : List (Peer × Message)} {p : Peer} {c : Message}
    (hr : r.inFlight = l ++ (p, c) :: l') (addedAt now : Time) :
    (r.deliver room peers (l ++ l') p c addedAt now).sends + r.inFlight.length =
      r.sends + (r.deliver room peers (l ++ l') p c addedAt now).inFlight.length + 1 := by
  have hlen : r.inFlight.length = (l ++ l').length + 1 := by
    rw [hr]
    simp only [List.length_append, List.length_cons]
    omega
  rw [hlen]
  unfold deliver
  split
  · simp only [sends, List.map_append, List.map_cons, List.map_nil, List.sum_append, List.sum_cons, List.sum_nil,
      List.length_append]
    omega
  · simp only [sends]
    omega

/-- A run of the room is one of the library's. -/
theorem Steps.sim {n : Nat} {f : Flood String} (hs : Steps room peers n r r') (h : Sim room o m r f)
    (ht : Tally room m r) :
    (∃ f', Flood.Steps room (targets peers o) n f f' ∧ Sim room o m r' f') ∧ Tally room m r' ∧
      r'.sends + r.inFlight.length = r.sends + r'.inFlight.length + n := by
  induction hs with
  | refl r => exact ⟨⟨f, .refl f, h⟩, ht, rfl⟩
  | snoc _ hstep ih =>
    obtain ⟨⟨f₁, hf₁, hsim⟩, htally, hsends⟩ := ih h ht
    cases hstep with
    | @deliver l l' p c addedAt now hr =>
      obtain ⟨k, k', hk, hsim'⟩ : ∃ k k', f₁.inFlight = k ++ (p.key, c.ttl) :: k' ∧ _ := hsim.deliver hr addedAt now
      have hc : c.id = m.id := (hsim.copies (p, c) (by rw [hr]; simp)).1
      have hsent : (deliver room peers _ (l ++ l') p c addedAt now).sends + _ = _ := sends_deliver hr addedAt now
      exact ⟨⟨_, .snoc hf₁ hk, hsim'⟩, htally.deliver hc addedAt now, by omega⟩

/-- What `_do_broadcast` does without signatures. -/
theorem doBroadcast_eq {nd : BroadcastNode} (hnew : m.id ∉ nd.seen) (hpos : 0 < m.ttl) :
    nd.doBroadcast (env peers o) m =
      ({ nd with seen := insert m.id nd.seen, vc := nd.vc.increment nd.address }, ⟨[nd.stamped m],
        forward (env peers o) { nd with seen := insert m.id nd.seen, vc := nd.vc.increment nd.address }
          (nd.stamped m)⟩, true) := by
  have hsign : signOutgoing (env peers o) m = some m := rfl
  have httl : 0 < (nd.stamped m).ttl := hpos
  simp only [doBroadcast, deduplicate, hnew, if_false, hsign]
  rw [if_pos (show 0 < (BroadcastNode.stamped { nd with seen := insert m.id nd.seen } m).ttl from hpos)]
  rfl

variable {node : String → BroadcastNode}

theorem Tally.originate (ho : o ∈ room) (hpos : 0 < m.ttl)
    (hnew : ∀ a ∈ room, m.id ∉ (node a).seen ∧ m.id ∉ (node a).held.map Message.id) :
    Tally room m (originate peers node o m) := by
  have hstart : Tally room m ⟨node, [], []⟩ := by
    refine ⟨nofun, nofun, fun a ha => ?_, fun a ha => ?_⟩
    · rw [if_neg (hnew a ha).1]
      rfl
    · rw [if_neg (hnew a ha).1, waiting, List.count_eq_zero_of_not_mem (hnew a ha).2]
      rfl
  have horig : Flooding.originate peers node o m =
      called ⟨node, [], []⟩ [] o ((node o).doBroadcast (env peers o) m) := rfl
  rw [horig, doBroadcast_eq (hnew o ho).1 hpos]
  refine hstart.accept ho (hnew o ho).1 (Finset.mem_insert_self _ _) ?_
  simp only [stamped, List.map_cons, List.map_nil, List.count_singleton_self, waiting]
  rfl

theorem Sim.originate (ho : o ∈ room) (hsender : m.sender = o) (hpos : 0 < m.ttl)
    (haddr : ∀ a ∈ room, (node a).address = a) (hnew : ∀ a ∈ room, m.id ∉ (node a).seen) :
    Sim room o m (originate peers node o m) (.start (targets peers o) o m.ttl) := by
  have horig : Flooding.originate peers node o m =
      called ⟨node, [], []⟩ [] o ((node o).doBroadcast (env peers o) m) := rfl
  rw [horig, doBroadcast_eq (hnew o ho) hpos]
  refine ⟨?_, ?_, fun q hq => ?_, fun a ha => ?_⟩
  · ext a
    simp only [Flood.start, Finset.mem_singleton, Finset.mem_filter, node_called]
    constructor
    · rintro rfl
      simp [ho]
    · rintro ⟨ha, hseen⟩
      by_contra hne
      rw [if_neg hne] at hseen
      exact hnew a ha hseen
  · exact (forward_targets (c := (node o).stamped m) (haddr o ho) hsender).symm
  · obtain ⟨p, -, rfl⟩ := List.mem_map.1 hq
    exact ⟨rfl, hsender⟩
  · rw [node_called]
    split
    · next hao => exact hao ▸ haddr o ho
    · exact haddr a ha

/-- No copy is left to deliver. -/
def Final (room : Finset String) (peers : String → List Peer) (r : Flooding) : Prop := ∀ r', ¬ Step room peers r r'

theorem Final.inFlight (h : Final room peers r) : r.inFlight = [] := by
  cases hr : r.inFlight with
  | nil => rfl
  | cons q l => exact absurd (Step.deliver (l := []) 0 0 hr) (h _)

/-- A node of the room is on the peer list of another. -/
def Edge (room : Finset String) (peers : String → List Peer) (a b : String) : Prop :=
  b ∈ room ∧ ∃ p ∈ peers a, p.key = b

theorem forwards_le (ht : Tally room m r) (a : String) : r.forwards a ≤ 1 := by
  have hsub : r.forwards a ≤ r.acceptances a := by
    rw [forwards, acceptances, ← List.countP_eq_length_filter, ← List.countP_eq_length_filter]
    refine List.countP_mono_left fun x hx hsent => ?_
    simp only [decide_eq_true_eq] at hsent ⊢
    refine ⟨hsent.1, ?_⟩
    by_contra hok
    exact hsent.2 (ht.refused x hx (by simpa using hok))
  by_cases ha : a ∈ room
  · rw [ht.accepted a ha] at hsub
    split at hsub <;> omega
  · have hnone : r.acceptances a = 0 := by
      rw [acceptances, List.length_eq_zero_iff, List.filter_eq_nil_iff]
      intro x hx hxa
      simp only [decide_eq_true_eq] at hxa
      exact ha (hxa.1 ▸ ht.inside x hx)
    omega

/-- **Flooding ends, and covers the room.** -/
theorem flooding_covers_room (room : Finset String) (peers : String → List Peer) (node : String → BroadcastNode)
    (o : String) (m : Message) (ho : o ∈ room) (hsender : m.sender = o) (hk : 1 ≤ m.ttl)
    (haddr : ∀ a ∈ room, (node a).address = a)
    (hnew : ∀ a ∈ room, m.id ∉ (node a).seen ∧ m.id ∉ (node a).held.map Message.id) {n : Nat} {r : Flooding}
    (hrun : Steps room peers n (originate peers node o m) r) :
    (∀ a, r.forwards a ≤ 1) ∧
    n ≤ ∑ a ∈ room, (peers a).length ∧ r.sends ≤ ∑ a ∈ room, (peers a).length ∧
    (Final room peers r → (room.card : Int) ≤ m.ttl + 2 → ∀ a, Relation.ReflTransGen (Edge room peers) o a →
      r.acceptances a = 1 ∧ r.deliveries a m.id + r.waiting a m.id = 1) := by
  have hsim : Sim room o m (originate peers node o m) (.start (targets peers o) o m.ttl) :=
    .originate ho hsender (by omega) haddr fun a ha => (hnew a ha).1
  have htally : Tally room m (originate peers node o m) := .originate ho (by omega) hnew
  obtain ⟨⟨f, hf, hsim'⟩, htally', hsends⟩ := hrun.sim hsim htally
  have hbound := hf.length_le ho
  have hlen : f.inFlight.length = r.inFlight.length := by rw [hsim'.inFlight, List.length_map]
  have hsum : ∑ a ∈ room, (targets peers o a).length ≤ ∑ a ∈ room, (peers a).length := by
    refine Finset.sum_le_sum fun a _ => ?_
    rw [targets, List.length_map]
    exact List.length_filter_le _ _
  refine ⟨forwards_le htally', by omega, ?_, fun hfinal hcard a ha => ?_⟩
  · have hstart : (originate peers node o m).sends = (originate peers node o m).inFlight.length := by
      simp [sends, originate]
    omega
  · have hinv := (Flood.Inv.start ho).steps hf
    have hdone : f.inFlight = [] := by rw [hsim'.inFlight, hfinal.inFlight, List.map_nil]
    have hreached : a ∈ f.reached := by
      refine hinv.covers hdone hcard (E := Edge room peers) (fun x b hb => ⟨hb.1, ?_⟩) ha
      obtain ⟨p, hp, rfl⟩ := hb.2
      by_cases hbo : p.key = o
      · exact .inr (.inl hbo)
      · by_cases hbx : p.key = x
        · exact .inr (.inr hbx)
        · exact .inl (List.mem_map.2 ⟨p, List.mem_filter.2 ⟨hp, by simpa using ⟨hbo, hbx⟩⟩, rfl⟩)
    rw [hsim'.reached, Finset.mem_filter] at hreached
    have hacc := htally'.accepted a hreached.1
    have hkept := htally'.kept a hreached.1
    rw [if_pos hreached.2] at hacc hkept
    exact ⟨hacc, hkept⟩

/-! ## Three nodes in a row -/

/-- The peers of `a:1`, `b:2` and `c:3`: the first knows the second, and the
second both others. -/
def row (a : String) : List Peer :=
  if a = "a:1" then [("b", 2)] else if a = "b:2" then [("a", 1), ("c", 3)] else [("b", 2)]

/-- A message of `a:1` with one hop. -/
def news : Message := ⟨"hi", "a:1", "m", 0, "", 1, Dict.empty⟩

/-- The room when `a:1` has sent it. -/
def told : Flooding := originate row (fun a => .new a 5) "a:1" news

/-- The copy that arrives at `b:2`, and the one that it passes on. -/
def copy (ttl : Int) : Message := { news with ttl, vectorClock := VectorClock.increment Dict.empty "a:1" }

/-- The room when both copies have arrived. -/
def allTold : Flooding :=
  (told.deliver {"a:1", "b:2", "c:3"} row [] ("b", 2) (copy 1) 0 0).deliver {"a:1", "b:2", "c:3"} row []
    ("c", 3) (copy 0) 0 0

theorem flooding_covers_row :
    allTold.inFlight = [] ∧ allTold.acceptances "c:3" = 1 ∧ allTold.sends ≤ 4 := by
  have h₁ : told.inFlight = [] ++ (("b", 2), copy 1) :: [] := by decide +kernel
  have h₂ : (told.deliver {"a:1", "b:2", "c:3"} row [] ("b", 2) (copy 1) 0 0).inFlight =
      [] ++ (("c", 3), copy 0) :: [] := by decide +kernel
  have hdone : allTold.inFlight = [] := by decide +kernel
  have hrun : Steps {"a:1", "b:2", "c:3"} row 2 told allTold :=
    .snoc (.snoc (.refl told) (.deliver 0 0 h₁)) (.deliver 0 0 h₂)
  have hfinal : Final {"a:1", "b:2", "c:3"} row allTold := by
    intro r' hs
    cases hs with
    | deliver addedAt now h => simp [hdone] at h
  have hab : Edge {"a:1", "b:2", "c:3"} row "a:1" "b:2" := ⟨by decide, ("b", 2), by decide, by decide⟩
  have hbc : Edge {"a:1", "b:2", "c:3"} row "b:2" "c:3" := ⟨by decide, ("c", 3), by decide, by decide⟩
  have hedges : Relation.ReflTransGen (Edge {"a:1", "b:2", "c:3"} row) "a:1" "c:3" := .tail (.single hab) hbc
  obtain ⟨-, -, hsends, hcovers⟩ := flooding_covers_room {"a:1", "b:2", "c:3"} row (fun a => .new a 5) "a:1" news
    (by decide) rfl (by decide) (fun _ _ => rfl)
    (fun _ _ => ⟨by simp [BroadcastNode.new], by simp [BroadcastNode.new, BroadcastNode.held]⟩) hrun
  exact ⟨hdone, (hcovers hfinal (by decide) "c:3" hedges).1, hsends⟩

end Flooding

end PeerChat
