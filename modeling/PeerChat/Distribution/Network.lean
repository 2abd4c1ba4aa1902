/-
Any number of nodes over a network that delays, reorders, duplicates and
loses copies at will: whatever a node put on the wire may arrive anywhere,
any number of times or never.

`Network` keeps what the nodes cannot see: who handed over what in which
order, what arrived where, and each broadcast with what its sender had been
handed by then. The invariant `NetInv` ties each clock to the log of its
node and each stamp to its past; `causal_delivery` and `no_stuck_message`
are then the library's `Genuine.before` and `Genuine.all_delivered`.
-/
import PeerChat.Distribution.BroadcastNode

namespace PeerChat

open Lib BroadcastNode

/-- The nodes, the wire and the history. A node is addressed by its
address; the addresses that never take a step are no nodes of the run. -/
structure Network where
  node : String → BroadcastNode
  /-- Everything any node passed to `_send_with_retry`. -/
  wire : List (Peer × Message)
  /-- What each node passed to `on_message`, in order. -/
  handed : String → List Message
  /-- The copies that reached `_receive`, at each node. -/
  arrived : String → List Message
  /-- The broadcasts, oldest first, each with its sender's hand-overs
  before it. -/
  history : List (Broadcast Message)

namespace Network

/-- Nodes just constructed, nothing sent. -/
def init (timeout : String → Time) : Network :=
  ⟨fun a => .new a (timeout a), [], fun _ => [], fun _ => [], []⟩

/-- The wire copy of a message: encrypted for the peer and signed anew, so
content and signature are the copy's own. -/
def WireCopy (c m : Message) : Prop :=
  { c with content := m.content, signature := m.signature } = m

instance (c m : Message) : Decidable (WireCopy c m) := inferInstanceAs (Decidable (_ = _))

/-- Node `a` originates `m`. -/
def broadcast (N : Network) (a : String) (env : NodeEnv) (m : Message) : Network :=
  let (n, eff, ok) := (N.node a).doBroadcast env m
  { N with
    node := Function.update N.node a n
    wire := N.wire ++ eff.sent
    handed := Function.update N.handed a (N.handed a ++ eff.handed)
    history := if ok then N.history ++ eff.handed.map fun out => ⟨out, N.handed a⟩ else N.history }

/-- A copy `c` reaches node `a`. -/
def deliver (N : Network) (a : String) (env : NodeEnv) (addedAt now : Time) (c : Message) : Network :=
  let (n, eff, _) := (N.node a).receive env addedAt now c
  { N with
    node := Function.update N.node a n
    wire := N.wire ++ eff.sent
    handed := Function.update N.handed a (N.handed a ++ eff.handed)
    arrived := Function.update N.arrived a (N.arrived a ++ [c]) }

/-- A round of node `a`'s periodic drain. -/
def drain (N : Network) (a : String) (now : Time) : Network :=
  let (n, eff) := (N.node a).holdbackDrain now
  { N with
    node := Function.update N.node a n
    handed := Function.update N.handed a (N.handed a ++ eff.handed) }

/-- No entry of node `a` has waited longer than the timeout. -/
def Punctual (N : Network) (a : String) (now : Time) : Prop :=
  ∀ e ∈ (N.node a).holdBack.queue, now - e.1 ≤ (N.node a).holdBack.timeout

instance (N : Network) (a : String) (now : Time) : Decidable (N.Punctual a now) :=
  inferInstanceAs (Decidable (∀ e ∈ _, _))

/-- One step: a fresh message originated under the node's own address and
signed, a copy of something on the wire arriving, or a periodic drain; none
of them past a hold-back timeout. -/
inductive Step : Network → Network → Prop
  | broadcast {N} (a : String) (env : NodeEnv) (m : Message) : m.sender = a →
      (∀ r ∈ N.history, r.msg.id ≠ m.id) → (signOutgoing env m).isSome = true →
      Step N (N.broadcast a env m)
  | deliver {N} (a : String) (env : NodeEnv) (addedAt now : Time) (c : Message) :
      (∃ s ∈ N.wire, WireCopy c s.2) → N.Punctual a now →
      now - addedAt ≤ (N.node a).holdBack.timeout →
      Step N (N.deliver a env addedAt now c)
  | drain {N} (a : String) (now : Time) : N.Punctual a now → Step N (N.drain a now)

/-- The states a run from new nodes reaches. -/
def Reachable (timeout : String → Time) (N : Network) : Prop :=
  Relation.ReflTransGen Step (init timeout) N

/-- `a` happens before `b`: it was handed over at the sender of `b` before
`b` was broadcast, or so in turn. -/
def HappensBefore (N : Network) : String → String → Prop := Lib.HappensBefore Message.id N.history

/-- A copy of a broadcast message. -/
def Known (N : Network) (x : Message) : Prop :=
  ∃ q ∈ N.history, Copy Message.id Message.sender Message.stamp x q.msg

end Network

open Network

/-! ## The invariant -/

/-- What holds in every reachable state. -/
structure NetInv (N : Network) : Prop where
  address : ∀ a, (N.node a).address = a
  genuine : Genuine Message.id Message.sender Message.stamp N.history
  causal : ∀ a, Causal Message.sender Message.stamp (N.handed a)
  tracks : ∀ a, (N.node a).vc.Tracks (N.handed a)
  wire : ∀ s ∈ N.wire, N.Known s.2
  handed : ∀ a, ∀ x ∈ N.handed a, N.Known x
  held : ∀ a, ∀ x ∈ (N.node a).held, N.Known x
  seen : ∀ a i, i ∈ (N.node a).seen ↔ i ∈ (N.handed a).map Message.id ∨ i ∈ (N.node a).held.map Message.id
  nodup : ∀ a, ((N.handed a).map Message.id ++ (N.node a).held.map Message.id).Nodup
  own : ∀ q ∈ N.history, q.msg.id ∈ (N.handed q.msg.sender).map Message.id
  waiting : ∀ a, ∀ x ∈ (N.node a).held, (N.node a).vc.isReady x = false
  arrived : ∀ a, ∀ x ∈ N.arrived a, x.id ∈ (N.node a).seen

theorem NetInv.init (timeout : String → Time) : NetInv (Network.init timeout) where
  address _ := rfl
  genuine := .nil
  causal _ := .nil
  tracks _ := VectorClock.Tracks.nil
  wire := by simp [Network.init]
  handed := by simp [Network.init]
  held := by simp [Network.init, BroadcastNode.new, BroadcastNode.held]
  seen := by simp [Network.init, BroadcastNode.new, BroadcastNode.held]
  nodup := by simp [Network.init, BroadcastNode.new, BroadcastNode.held]
  own := by simp [Network.init]
  waiting := by simp [Network.init, BroadcastNode.new, BroadcastNode.held]
  arrived := by simp [Network.init]

theorem NetInv.disjoint {N : Network} (h : NetInv N) {a i : String}
    (hi : i ∈ (N.node a).held.map Message.id) : i ∉ (N.handed a).map Message.id :=
  fun hh => (List.nodup_append.1 (h.nodup a)).2.2 i hh i hi rfl

/-- An id that was not seen is neither in the log nor in the queue. -/
theorem NetInv.not_mem_of_not_seen {N : Network} (h : NetInv N) {a i : String} (hi : i ∉ (N.node a).seen) :
    i ∉ (N.handed a).map Message.id ++ (N.node a).held.map Message.id :=
  fun hmem => hi ((h.seen a i).2 (List.mem_append.1 hmem))

theorem Network.Known.append {N N' : Network} {x : Message} (h : N.Known x) {T : List (Broadcast Message)}
    (hh : N'.history = N.history ++ T) : N'.Known x := by
  obtain ⟨q, hq, hx⟩ := h
  exact ⟨q, by simp [hh, hq], hx⟩

theorem Network.Known.congr {N : Network} {x y : Message} (h : N.Known y) (hi : x.id = y.id)
    (hs : x.sender = y.sender) (hv : x.vectorClock = y.vectorClock) : N.Known x := by
  obtain ⟨q, hq, h1, h2, h3⟩ := h
  refine ⟨q, hq, hi.trans h1, hs.trans h2, ?_⟩
  rw [← h3]
  funext t
  simp only [Message.stamp, hv]

/-- The own entry of a broadcast message is at least 1. -/
theorem NetInv.one_le_stamp {N : Network} (h : NetInv N) {x : Message} (hx : N.Known x) :
    1 ≤ x.stamp x.sender := by
  obtain ⟨q, hq, -, hs, hv⟩ := hx
  have hst := (h.genuine.ok q hq).stamped q.msg.sender
  have := delivered_nonneg Message.sender q.past q.msg.sender
  rw [delivered_append, delivered_singleton, if_pos rfl] at hst
  rw [hv, hs]
  omega

theorem NetInv.stamp_nonempty {N : Network} (h : NetInv N) {x : Message} (hx : N.Known x) :
    x.vectorClock.items.isEmpty = false := by
  by_contra hne
  have h0 := Message.count_eq_zero_of_isEmpty (m := x) (by simpa using hne) x.sender
  have := h.one_le_stamp hx
  omega

/-- No stamp counts more messages of `t` than `t` has broadcast. -/
theorem NetInv.stamp_le {N : Network} (h : NetInv N) {x : Message} (hx : N.Known x) (t : String) :
    x.stamp t ≤ delivered Message.sender (N.handed t) t := by
  -- a broadcast of `t` with number `k` is in `t`'s own log
  have hown : ∀ q ∈ N.history, q.msg.sender = t → q.msg.stamp t ≤ delivered Message.sender (N.handed t) t := by
    intro q hq hqt
    obtain ⟨y, hy, hyq⟩ := List.mem_map.1 (h.own q hq)
    rw [hqt] at hy
    obtain ⟨q', hq', hcopy⟩ := h.handed t y hy
    obtain rfl : q' = q := h.genuine.ident_inj hq' hq (hcopy.1.symm.trans hyq)
    rw [← hcopy.2.2]
    exact (h.causal t).stamp_le hy t
  obtain ⟨q, hq, hcopy⟩ := hx
  rw [hcopy.2.2]
  by_cases hs : q.msg.sender = t
  · exact hown q hq hs
  have hst := (h.genuine.ok q hq).stamped t
  rw [delivered_append, delivered_singleton, if_neg hs, add_zero] at hst
  by_cases h0 : q.msg.stamp t < 1
  · have := delivered_nonneg Message.sender (N.handed t) t
    omega
  · obtain ⟨y, hy, hyt, hyk⟩ := (h.genuine.ok q hq).causal.exists_of_le (s := t)
      (k := q.msg.stamp t) (by omega) (by omega)
    obtain ⟨q', hq', hc'⟩ := (h.genuine.ok q hq).known y hy
    have := hown q' hq' (hc'.2.1.symm.trans hyt)
    rw [← hc'.2.2] at this
    omega

/-! ## Replacing a node -/

/-- What one node, its log and its arrivals may be replaced with. -/
structure NodeOK (N : Network) (a : String) (n : BroadcastNode) (log arr : List Message) : Prop where
  address : n.address = a
  causal : Causal Message.sender Message.stamp log
  tracks : n.vc.Tracks log
  handed : ∀ x ∈ log, N.Known x
  held : ∀ x ∈ n.held, N.Known x
  seen : ∀ i, i ∈ n.seen ↔ i ∈ log.map Message.id ∨ i ∈ n.held.map Message.id
  nodup : (log.map Message.id ++ n.held.map Message.id).Nodup
  grows : N.handed a <+: log
  waiting : ∀ x ∈ n.held, n.vc.isReady x = false
  arrived : ∀ x ∈ arr, x.id ∈ n.seen

/-- One node replaced, with broadcasts of its own that its log holds. -/
theorem NetInv.replaceWith {N : Network} (h : NetInv N) {a : String} {n : BroadcastNode} {log arr : List Message}
    (T : List (Broadcast Message)) (sent : List (Peer × Message))
    (hgen : Genuine Message.id Message.sender Message.stamp (N.history ++ T))
    (hown : ∀ q ∈ T, q.msg.sender = a ∧ q.msg.id ∈ log.map Message.id)
    (hn : NodeOK { N with history := N.history ++ T } a n log arr)
    (hsent : ∀ s ∈ sent, ({ N with history := N.history ++ T } : Network).Known s.2) :
    NetInv
      { node := Function.update N.node a n
        wire := N.wire ++ sent
        handed := Function.update N.handed a log
        history := N.history ++ T
        arrived := Function.update N.arrived a arr } where
  address b := by
    by_cases hb : b = a
    · subst hb; simpa using hn.address
    · simpa [hb] using h.address b
  genuine := hgen
  causal b := by
    by_cases hb : b = a
    · subst hb; simpa using hn.causal
    · simpa [hb] using h.causal b
  tracks b := by
    by_cases hb : b = a
    · subst hb; simpa using hn.tracks
    · simpa [hb] using h.tracks b
  wire s hs := by
    rcases List.mem_append.1 hs with hs | hs
    · exact (h.wire s hs).append rfl
    · exact hsent s hs
  handed b x hx := by
    by_cases hb : b = a
    · subst hb; exact hn.handed x (by simpa using hx)
    · exact (h.handed b x (by simpa [hb] using hx)).append rfl
  held b x hx := by
    by_cases hb : b = a
    · subst hb; exact hn.held x (by simpa using hx)
    · exact (h.held b x (by simpa [hb] using hx)).append rfl
  seen b i := by
    by_cases hb : b = a
    · subst hb; simpa using hn.seen i
    · simpa [hb] using h.seen b i
  nodup b := by
    by_cases hb : b = a
    · subst hb; simpa using hn.nodup
    · simpa [hb] using h.nodup b
  own q hq := by
    rcases List.mem_append.1 hq with hq | hq
    · have := h.own q hq
      by_cases hb : q.msg.sender = a
      · rw [hb] at this
        simp only [hb, Function.update_self]
        exact (hn.grows.map Message.id).subset this
      · simpa [hb] using this
    · obtain ⟨hb, hlog⟩ := hown q hq
      simp only [hb, Function.update_self]
      exact hlog
  waiting b x hx := by
    by_cases hb : b = a
    · subst hb; simpa using hn.waiting x (by simpa using hx)
    · simpa [hb] using h.waiting b x (by simpa [hb] using hx)
  arrived b x hx := by
    by_cases hb : b = a
    · subst hb; simpa using hn.arrived x (by simpa using hx)
    · simpa [hb] using h.arrived b x (by simpa [hb] using hx)

/-- One node replaced, with nothing broadcast. -/
theorem NetInv.replace {N : Network} (h : NetInv N) {a : String} {n : BroadcastNode} {log arr : List Message}
    (sent : List (Peer × Message)) (hn : NodeOK N a n log arr) (hsent : ∀ s ∈ sent, N.Known s.2) :
    NetInv { N with
      node := Function.update N.node a n
      wire := N.wire ++ sent
      handed := Function.update N.handed a log
      arrived := Function.update N.arrived a arr } := by
  have hnil : N.history ++ [] = N.history := List.append_nil _
  have := h.replaceWith [] sent (by rw [hnil]; exact h.genuine) (by simp) (by rw [hnil]; exact hn)
    (by rw [hnil]; exact hsent)
  rw [hnil] at this
  exact this

/-! ## Broadcasting -/

/-- What a step relation's broadcast does, its guards given. -/
theorem NetInv.broadcast_eq {N : Network} (h : NetInv N) {a : String} {env : NodeEnv} {m : Message}
    (hfresh : ∀ r ∈ N.history, r.msg.id ≠ m.id) (hsign : (signOutgoing env m).isSome = true) :
    m.id ∉ (N.node a).seen ∧ ∃ signed sent, signOutgoing env m = some signed ∧
      (N.node a).doBroadcast env m =
        ({ N.node a with seen := insert m.id (N.node a).seen, vc := (N.node a).vc.increment a },
          ⟨[(N.node a).stamped signed], sent⟩, true) ∧
      ∀ s ∈ sent, s.2 = (N.node a).stamped signed := by
  have hnew : m.id ∉ (N.node a).seen := by
    intro hs
    have hknown : ∃ x, N.Known x ∧ x.id = m.id := by
      rcases (h.seen a m.id).1 hs with hi | hi
      · obtain ⟨x, hx, he⟩ := List.mem_map.1 hi
        exact ⟨x, h.handed a x hx, he⟩
      · obtain ⟨x, hx, he⟩ := List.mem_map.1 hi
        exact ⟨x, h.held a x hx, he⟩
    obtain ⟨x, ⟨q, hq, hcopy⟩, he⟩ := hknown
    exact hfresh q hq (hcopy.1.symm.trans he)
  refine ⟨hnew, ?_⟩
  rcases (N.node a).doBroadcast_cases env m with ⟨hs, -⟩ | ⟨-, hs, -⟩ | ⟨-, signed, hs, sent, he, hsent⟩
  · exact absurd hs hnew
  · simp [hs] at hsign
  · refine ⟨signed, sent, hs, ?_, hsent⟩
    have hinc : (N.node a).vc.increment (N.node a).address = (N.node a).vc.increment a := by
      rw [h.address a]
    rw [← hinc]
    exact he

/-- Held messages are other nodes', and count no more of `a`'s than `a` has
sent: a broadcast of `a` makes none of them ready. -/
theorem NetInv.waiting_increment {N : Network} (h : NetInv N) {a : String} {out : Message} (hsend : out.sender = a)
    (htracks : ((N.node a).vc.increment a).Tracks (N.handed a ++ [out])) {x : Message} (hx : x ∈ (N.node a).held) :
    ((N.node a).vc.increment a).isReady x = false := by
  have hxk := h.held a x hx
  have hne := h.stamp_nonempty hxk
  have hxa : x.sender ≠ a := by
    intro hxs
    obtain ⟨q, hq, hcopy⟩ := hxk
    have hin := h.own q hq
    rw [← hcopy.2.1, hxs, ← hcopy.1] at hin
    exact h.disjoint (List.mem_map_of_mem hx) hin
  have hold := h.waiting a x hx
  rw [← Bool.not_eq_true] at hold ⊢
  rw [VectorClock.isReady_iff (h.tracks a) hne] at hold
  rw [VectorClock.isReady_iff htracks hne]
  intro hready
  obtain ⟨hseq, hoth⟩ := hready
  refine hold ⟨?_, fun t ht => ?_⟩
  · simpa [hsend, Ne.symm hxa] using hseq
  · by_cases hta : t = a
    · rw [hta]; exact h.stamp_le hxk a
    · simpa [hsend, Ne.symm hta] using hoth t ht

/-- A message stamped over the log of its sender continues the history. -/
theorem NetInv.genuine_snoc {N : Network} (h : NetInv N) {a : String} {out : Message} (hsend : out.sender = a)
    (hfresh : ∀ r ∈ N.history, r.msg.id ≠ out.id)
    (hstamp : ∀ t, out.stamp t = delivered Message.sender (N.handed a ++ [out]) t) :
    Genuine Message.id Message.sender Message.stamp (N.history ++ [⟨out, N.handed a⟩]) := by
  refine .snoc h.genuine (h.causal a) hstamp (h.handed a) hfresh fun q hq hqs => ?_
  have hown := h.own q hq
  rw [show q.msg.sender = a from hqs.trans hsend] at hown
  obtain ⟨x, hx, hxq⟩ := List.mem_map.1 hown
  exact ⟨x, hx, hxq⟩

theorem NetInv.broadcast {N : Network} (h : NetInv N) {a : String} {env : NodeEnv} {m : Message}
    (hm : m.sender = a) (hfresh : ∀ r ∈ N.history, r.msg.id ≠ m.id)
    (hsign : (signOutgoing env m).isSome = true) : NetInv (N.broadcast a env m) := by
  obtain ⟨hnew, signed, sent, hs, he, hsent⟩ := h.broadcast_eq (a := a) hfresh hsign
  set out := (N.node a).stamped signed with hout
  have hsame := signOutgoing_same hs
  have hid : out.id = m.id := by
    have := congrArg Message.id hsame
    exact this
  have hsend : out.sender = a := by
    have := congrArg Message.sender hsame
    exact this.trans hm
  have hvc : out.vectorClock = (N.node a).vc.increment out.sender := by
    rw [hsend, hout, BroadcastNode.stamped, h.address a]
  have htracks : ((N.node a).vc.increment a).Tracks (N.handed a ++ [out]) := by
    have := (h.tracks a).increment (m := out)
    rwa [hsend] at this
  have hstamp : ∀ t, out.stamp t = delivered Message.sender (N.handed a ++ [out]) t := by
    intro t
    rw [← htracks t, Message.stamp, hvc, hsend]
  have hgen := h.genuine_snoc hsend (by rw [hid]; exact hfresh) hstamp
  have hknown {x : Message} (hx : N.Known x) :
      ({ N with history := N.history ++ [⟨out, N.handed a⟩] } : Network).Known x := hx.append rfl
  have hnow : ({ N with history := N.history ++ [⟨out, N.handed a⟩] } : Network).Known out :=
    ⟨⟨out, N.handed a⟩, by simp, rfl, rfl, rfl⟩
  have hok : NodeOK { N with history := N.history ++ [⟨out, N.handed a⟩] } a
      { N.node a with seen := insert m.id (N.node a).seen, vc := (N.node a).vc.increment a }
      (N.handed a ++ [out]) (N.arrived a) := by
    refine ⟨h.address a, .snoc (h.causal a) (.of_stamp hstamp), htracks, fun x hx => ?_,
      fun x hx => hknown (h.held a x hx), fun i => ?_, ?_, List.prefix_append _ _,
      fun x hx => h.waiting_increment hsend htracks hx, fun x hx => Finset.mem_insert_of_mem (h.arrived a x hx)⟩
    · rcases List.mem_append.1 hx with hx | hx
      · exact hknown (h.handed a x hx)
      · cases List.mem_singleton.1 hx
        exact hnow
    · simp only [Finset.mem_insert, h.seen a i, BroadcastNode.held, List.map_append, List.mem_append, List.map_cons,
        List.map_nil, List.mem_singleton, hid]
      tauto
    · have := List.nodup_middle.2 (List.nodup_cons.2 ⟨h.not_mem_of_not_seen hnew, h.nodup a⟩)
      simpa [hid, BroadcastNode.held] using this
  have hall := h.replaceWith [⟨out, N.handed a⟩] sent hgen (by simp [hsend]) hok
    (fun s hs => by rw [hsent s hs]; exact hnow)
  simpa [Network.broadcast, he] using hall

/-! ## Receiving -/

/-- A drain that only releases ready messages keeps a node in order: from a
log whose ids, with the queue's, are the seen ones. -/
theorem NetInv.drained_ok {N : Network} (h : NetInv N) {a : String} {n : BroadcastNode} {q : HoldBackQueue}
    {vc : VectorClock} {log arr : List Message} {now : Time} {f : Message → Message}
    (hf : ∀ m, SameMessage (f m) m) (ha : n.address = a)
    (hto : ∀ e ∈ q.queue, now - e.1 ≤ q.timeout) (hc : Causal Message.sender Message.stamp log)
    (ht : vc.Tracks log) (hlog : ∀ x ∈ log, N.Known x) (hq : ∀ x ∈ q.queue.map Prod.snd, N.Known x)
    (hgrows : N.handed a <+: log)
    (hseen : ∀ i, i ∈ n.seen ↔ i ∈ log.map Message.id ∨ i ∈ (q.queue.map Prod.snd).map Message.id)
    (hnd : (log.map Message.id ++ (q.queue.map Prod.snd).map Message.id).Nodup)
    (harr : ∀ x ∈ arr, x.id ∈ n.seen) :
    NodeOK N a (n.drained (q.drain now vc)) (log ++ (q.drain now vc).released.map f) arr := by
  have hperm := HoldBackQueue.drain_perm q now vc
  have hrun := HoldBackQueue.drain_readyRun hto vc
  set d := q.drain now vc with hd
  have hmem : ∀ x ∈ d.released ++ d.queue.map Prod.snd, x ∈ q.queue.map Prod.snd := fun x hx => hperm.subset hx
  have hne : ∀ x ∈ d.released, x.vectorClock.items.isEmpty = false := fun x hx =>
    h.stamp_nonempty (hq x (hmem x (List.mem_append_left _ hx)))
  obtain ⟨hc', ht'⟩ := hrun.causal hne ht hc
  -- the log holds the copies made for the UI; they have the same stamps
  have hcf : Causal Message.sender Message.stamp (log ++ d.released.map f) :=
    hc'.append_map (fun m => (hf m).sender) (fun m => (hf m).stamp)
  have hids : (log ++ d.released.map f).map Message.id = log.map Message.id ++ d.released.map Message.id := by
    rw [List.map_append, List.map_map]
    congr 1
    exact List.map_congr_left fun m _ => (hf m).id
  have hpid : (d.released.map Message.id ++ (d.queue.map Prod.snd).map Message.id).Perm
      ((q.queue.map Prod.snd).map Message.id) := by
    simpa using hperm.map Message.id
  have hnd' : (log.map Message.id ++ (d.released.map Message.id ++ (d.queue.map Prod.snd).map Message.id)).Nodup :=
    (hpid.append_left _).nodup_iff.2 hnd
  refine ⟨ha, hcf, fun s => ?_, fun x hx => ?_, fun x hx => ?_, fun i => ?_, ?_, ?_, ?_, harr⟩
  · rw [drained_vc, hd, HoldBackQueue.drain_vc, ← hd, delivered_append,
      delivered_map (fun m => (hf m).sender), ← delivered_append]
    exact ht' s
  · rcases List.mem_append.1 hx with hx | hx
    · exact hlog x hx
    · obtain ⟨m, hm, rfl⟩ := List.mem_map.1 hx
      exact (hq m (hmem m (List.mem_append_left _ hm))).congr (hf m).id (hf m).sender (hf m).vectorClock
  · exact hq x (hmem x (List.mem_append_right _ hx))
  · have hi := hpid.mem_iff (a := i)
    rw [List.mem_append] at hi
    rw [drained_seen, hseen i, hids, List.mem_append, ← hi]
    exact (or_assoc).symm
  · rw [hids, List.append_assoc]
    exact hnd'
  · exact hgrows.trans (List.prefix_append _ _)
  · intro x hx
    obtain ⟨e, he, rfl⟩ := List.mem_map.1 hx
    exact HoldBackQueue.drain_fixpoint q now vc e he

theorem NetInv.nodeOK {N : Network} (h : NetInv N) (a : String) :
    NodeOK N a (N.node a) (N.handed a) (N.arrived a) :=
  ⟨h.address a, h.causal a, h.tracks a, h.handed a, h.held a, h.seen a, h.nodup a, List.prefix_refl _,
    h.waiting a, h.arrived a⟩

theorem NetInv.arrived_insert {N : Network} (h : NetInv N) (a : String) (c : Message) :
    ∀ x ∈ N.arrived a ++ [c], x.id ∈ insert c.id (N.node a).seen := by
  intro x hx
  rcases List.mem_append.1 hx with hx | hx
  · exact Finset.mem_insert_of_mem (h.arrived a x hx)
  · rw [List.mem_singleton.1 hx]; exact Finset.mem_insert_self _ _

section

variable {N : Network} {a : String} {now : Time} {c : Message} {f : Message → Message}

/-- A ready message is delivered before the queue is drained. -/
theorem NetInv.ready_ok (h : NetInv N) (hf : ∀ m, SameMessage (f m) m) (hc : N.Known c) (hp : N.Punctual a now)
    (hnew : c.id ∉ (N.node a).seen) (hr : (N.node a).vc.isReady c = true) :
    NodeOK N a
      ({ N.node a with seen := insert c.id (N.node a).seen }.drained
        ((N.node a).holdBack.drain now ((N.node a).vc.merge c.vectorClock)))
      (N.handed a ++ [c].map f ++
        ((N.node a).holdBack.drain now ((N.node a).vc.merge c.vectorClock)).released.map f)
      (N.arrived a ++ [c]) := by
  have hready := (VectorClock.isReady_iff (h.tracks a) (h.stamp_nonempty hc)).1 hr
  have hcausal : Causal Message.sender Message.stamp (N.handed a ++ [c].map f) :=
    (Causal.snoc (h.causal a) hready).append_map (fun m => (hf m).sender) (fun m => (hf m).stamp)
  have htracks : ((N.node a).vc.merge c.vectorClock).Tracks (N.handed a ++ [c].map f) := by
    intro s
    rw [delivered_append, delivered_map (fun m => (hf m).sender), ← delivered_append]
    exact (h.tracks a).merge hready s
  have hids : (N.handed a ++ [c].map f).map Message.id = (N.handed a).map Message.id ++ [c.id] := by
    simp [(hf c).id]
  refine h.drained_ok (n := { N.node a with seen := insert c.id (N.node a).seen }) hf (h.address a) hp
    hcausal htracks ?_ (h.held a) (List.prefix_append _ _) ?_ ?_ (h.arrived_insert a c)
  · intro x hx
    rcases List.mem_append.1 hx with hx | hx
    · exact h.handed a x hx
    · simp only [List.map_cons, List.map_nil, List.mem_singleton] at hx
      rw [hx]
      exact hc.congr (hf c).id (hf c).sender (hf c).vectorClock
  · intro i
    have := h.seen a i
    rw [hids]
    simp only [Finset.mem_insert, List.mem_append, List.mem_singleton, this, BroadcastNode.held]
    tauto
  · rw [hids, List.append_assoc, List.singleton_append]
    exact List.nodup_middle.2 (List.nodup_cons.2 ⟨h.not_mem_of_not_seen hnew, h.nodup a⟩)

/-- Another message joins the queue before it is drained. -/
theorem NetInv.held_ok (h : NetInv N) (hf : ∀ m, SameMessage (f m) m) (hc : N.Known c) (hp : N.Punctual a now)
    {addedAt : Time} (hadd : now - addedAt ≤ (N.node a).holdBack.timeout) (hnew : c.id ∉ (N.node a).seen) :
    NodeOK N a
      ({ N.node a with seen := insert c.id (N.node a).seen }.drained
        (((N.node a).holdBack.add addedAt c).drain now (N.node a).vc))
      (N.handed a ++ (((N.node a).holdBack.add addedAt c).drain now (N.node a).vc).released.map f)
      (N.arrived a ++ [c]) := by
  have hids : (((N.node a).holdBack.add addedAt c).queue.map Prod.snd).map Message.id =
      (N.node a).held.map Message.id ++ [c.id] := by
    simp [HoldBackQueue.add, BroadcastNode.held]
  refine h.drained_ok (n := { N.node a with seen := insert c.id (N.node a).seen }) hf (h.address a) ?_
    (h.causal a) (h.tracks a) (h.handed a) ?_ (List.prefix_refl _) ?_ ?_ (h.arrived_insert a c)
  · intro e he
    rcases List.mem_append.1 he with he | he
    · exact hp e he
    · rw [List.mem_singleton.1 he]; exact hadd
  · intro x hx
    simp only [HoldBackQueue.add, List.map_append, List.mem_append, List.map_cons, List.map_nil,
      List.mem_singleton] at hx
    rcases hx with hx | rfl
    · exact h.held a x hx
    · exact hc
  · intro i
    have := h.seen a i
    rw [hids]
    simp only [Finset.mem_insert, List.mem_append, List.mem_singleton, this]
    tauto
  · rw [hids, ← List.append_assoc]
    refine List.nodup_append.2 ⟨h.nodup a, by simp, fun x hx y hy he => ?_⟩
    rw [List.mem_singleton.1 hy] at he
    exact h.not_mem_of_not_seen hnew (he ▸ hx)

/-- A node that accepts a copy of a broadcast message. -/
theorem NetInv.accept_ok (h : NetInv N) (hf : ∀ m, SameMessage (f m) m) (hc : N.Known c) (hp : N.Punctual a now)
    {addedAt : Time} (hadd : now - addedAt ≤ (N.node a).holdBack.timeout) (hnew : c.id ∉ (N.node a).seen)
    {n₂ : BroadcastNode} {d : List Message}
    (hacc : ({ N.node a with seen := insert c.id (N.node a).seen }).accept addedAt now c = (n₂, d)) :
    NodeOK N a n₂ (N.handed a ++ d.map f) (N.arrived a ++ [c]) := by
  unfold BroadcastNode.accept at hacc
  split at hacc
  · next hr =>
    obtain ⟨rfl, rfl⟩ := Prod.mk.inj hacc
    simpa using h.ready_ok hf hc hp hnew hr
  · obtain ⟨rfl, rfl⟩ := Prod.mk.inj hacc
    exact h.held_ok hf hc hp hadd hnew

end

theorem NetInv.deliver {N : Network} (h : NetInv N) {a : String} {env : NodeEnv} {addedAt now : Time}
    {c : Message} (hw : ∃ s ∈ N.wire, WireCopy c s.2) (hp : N.Punctual a now)
    (hadd : now - addedAt ≤ (N.node a).holdBack.timeout) : NetInv (N.deliver a env addedAt now c) := by
  obtain ⟨s, hs, hcopy⟩ := hw
  have hc : N.Known c := by
    refine (h.wire s hs).congr ?_ ?_ ?_ <;> unfold WireCopy at hcopy <;> rw [← hcopy]
  rcases (N.node a).receive_cases env addedAt now c with ⟨hseen, he⟩ | ⟨hnew, n₂, d, hacc, he⟩
  · have hok : NodeOK N a (N.node a) (N.handed a) (N.arrived a ++ [c]) := by
      refine { h.nodeOK a with arrived := fun x hx => ?_ }
      rcases List.mem_append.1 hx with hx | hx
      · exact h.arrived a x hx
      · rw [List.mem_singleton.1 hx]; exact hseen
    simpa [Network.deliver, he] using h.replace [] hok (by simp)
  · have hok := h.accept_ok (messageForUi_same env n₂) hc hp hadd hnew hacc
    have := h.replace (forwardReceived env n₂ c) hok ?_
    · simpa [Network.deliver, he] using this
    · intro t ht
      unfold forwardReceived at ht
      split at ht
      · split at ht
        · simp at ht
        · simp only [forward, List.mem_map] at ht
          obtain ⟨p, -, rfl⟩ := ht
          exact hc.congr rfl rfl rfl
      · simp at ht

theorem NetInv.drain {N : Network} (h : NetInv N) {a : String} {now : Time} (hp : N.Punctual a now) :
    NetInv (N.drain a now) := by
  by_cases hq : (N.node a).holdBack.queue.isEmpty = true
  · simpa [Network.drain, holdbackDrain, hq] using h
  · have hok := h.drained_ok (f := fun m => m) (n := N.node a) SameMessage.refl (h.address a) hp (h.causal a)
      (h.tracks a) (h.handed a) (h.held a) (List.prefix_refl _) (h.seen a) (h.nodup a) (h.arrived a)
    have := h.replace [] hok (by simp)
    simpa [Network.drain, holdbackDrain, hq] using this

theorem NetInv.step {N N' : Network} (h : NetInv N) (hs : Step N N') : NetInv N' := by
  cases hs with
  | broadcast a env m hm hf hsg => exact h.broadcast hm hf hsg
  | deliver a env addedAt now c hw hp hadd => exact h.deliver hw hp hadd
  | drain a now hp => exact h.drain hp

/-- The invariant holds in every reachable state. -/
theorem netInv_of_reachable {timeout : String → Time} {N : Network} (h : Reachable timeout N) : NetInv N := by
  induction h with
  | refl => exact NetInv.init timeout
  | tail _ hs ih => exact ih.step hs

/-! ## Causal delivery -/

/-- **Causal delivery**: at every node, what happens before a delivered
message was delivered earlier; and the messages of each sender were
delivered in send order without a gap. -/
theorem causal_delivery {timeout : String → Time} {N : Network} (h : Reachable timeout N) (p : String) :
    (∀ l₁ m' l₂, N.handed p = l₁ ++ m' :: l₂ → ∀ a, N.HappensBefore a m'.id → ∃ m ∈ l₁, m.id = a) ∧
    ∀ s, ((N.handed p).filter (fun m => m.sender = s)).map Message.id <+:
      (N.history.filter (fun r => r.msg.sender = s)).map (fun r => r.msg.id) := by
  have hN := netInv_of_reachable h
  refine ⟨fun l₁ m' l₂ hl a hab => ?_, fun s => hN.genuine.sender_prefix (hN.causal p) (hN.handed p) s⟩
  have hc := hN.causal p
  have hk := hN.handed p
  rw [hl] at hc hk
  exact hN.genuine.before hc hk hab

/-- Every message the other nodes broadcast has arrived at `p`. -/
def Network.Complete (N : Network) (p : String) : Prop :=
  ∀ r ∈ N.history, r.msg.sender ≠ p → ∃ c ∈ N.arrived p, c.id = r.msg.id

/-- With everything arrived, everything is delivered. -/
theorem NetInv.all_handed {N : Network} (h : NetInv N) {p : String} (hp : N.Complete p) :
    ∀ r ∈ N.history, ∃ x ∈ N.handed p, x.id = r.msg.id := by
  refine h.genuine.all_delivered (b := (N.node p).held) (h.causal p) (h.handed p) (h.held p) (fun r hr => ?_)
    fun x hx hready => ?_
  · by_cases hs : r.msg.sender = p
    · left
      have := h.own r hr
      rw [hs] at this
      exact List.mem_map.1 this
    · obtain ⟨c, hc, hcr⟩ := hp r hr hs
      rcases (h.seen p c.id).1 (h.arrived p c hc) with hi | hi
      · obtain ⟨x, hx, hxc⟩ := List.mem_map.1 hi
        exact .inl ⟨x, hx, hxc.trans hcr⟩
      · obtain ⟨x, hx, hxc⟩ := List.mem_map.1 hi
        exact .inr ⟨x, hx, hxc.trans hcr⟩
  · have := h.waiting p x hx
    rw [(VectorClock.isReady_iff (h.tracks p) (h.stamp_nonempty (h.held p x hx))).2 hready] at this
    exact Bool.noConfusion this

/-- With everything arrived, a node has delivered the broadcasts, each
once. -/
theorem NetInv.handed_perm {N : Network} (h : NetInv N) {p : String} (hp : N.Complete p) :
    ((N.handed p).map fun x => (x.id, x.sender)).Perm (N.history.map fun r => (r.msg.id, r.msg.sender)) := by
  have hn₁ : ((N.handed p).map fun x => (x.id, x.sender)).Nodup := by
    refine List.Nodup.of_map Prod.fst ?_
    rw [List.map_map]
    exact (List.nodup_append.1 (h.nodup p)).1
  have hn₂ : (N.history.map fun r => (r.msg.id, r.msg.sender)).Nodup := by
    refine List.Nodup.of_map Prod.fst ?_
    rw [List.map_map]
    exact h.genuine.ident_nodup
  refine (List.perm_ext_iff_of_nodup hn₁ hn₂).2 fun ⟨i, s⟩ => ?_
  simp only [List.mem_map, Prod.mk.injEq]
  constructor
  · intro hex
    obtain ⟨x, hx, rfl, rfl⟩ := hex
    obtain ⟨q, hq, hcopy⟩ := h.handed p x hx
    exact ⟨q, hq, hcopy.1.symm, hcopy.2.1.symm⟩
  · intro hex
    obtain ⟨r, hr, rfl, rfl⟩ := hex
    obtain ⟨x, hx, hxr⟩ := h.all_handed hp r hr
    obtain ⟨q, hq, hcopy⟩ := h.handed p x hx
    obtain rfl : q = r := h.genuine.ident_inj hq hr (hcopy.1.symm.trans hxr)
    exact ⟨x, hx, hxr, hcopy.2.1⟩

theorem NetInv.count_eq {N : Network} (h : NetInv N) {p : String} (hp : N.Complete p) (s : String) :
    (N.node p).vc.count s = N.history.countP (fun r => r.msg.sender = s) := by
  rw [h.tracks p s]
  have := (h.handed_perm hp).countP_eq (fun x => decide (x.2 = s))
  simp only [List.countP_map] at this
  exact congrArg Nat.cast this

/-- **No stuck message**: once a node has received a copy of everything the
others broadcast, its hold-back queue is empty, it has delivered each of
these messages exactly once and its clock counts each sender's broadcasts.
So what is delivered and the clock do not depend on the order of arrival:
any other run with the same broadcasts ends with the same. -/
theorem no_stuck_message {timeout : String → Time} {N : Network} (h : Reachable timeout N) {p : String}
    (hp : N.Complete p) :
    (N.node p).holdBack.queue = [] ∧
    (∀ r ∈ N.history, ((N.handed p).map Message.id).count r.msg.id = 1) ∧
    (∀ s, (N.node p).vc.count s = N.history.countP (fun r => r.msg.sender = s)) ∧
    ∀ (timeout' : String → Time) (N' : Network), Reachable timeout' N' → N'.Complete p →
      (N'.history.map (·.msg)).Perm (N.history.map (·.msg)) →
      ((N'.handed p).map Message.id).Perm ((N.handed p).map Message.id) ∧
      ∀ s, (N'.node p).vc.count s = (N.node p).vc.count s := by
  have hN := netInv_of_reachable h
  refine ⟨?_, fun r hr => ?_, hN.count_eq hp, fun timeout' N' h' hp' hperm => ?_⟩
  · -- a held message would be delivered already
    refine List.eq_nil_iff_forall_not_mem.2 fun e he => ?_
    have hx : e.2 ∈ (N.node p).held := List.mem_map_of_mem he
    obtain ⟨q, hq, hcopy⟩ := hN.held p e.2 hx
    obtain ⟨x, hxl, hxq⟩ := hN.all_handed hp q hq
    refine hN.disjoint (a := p) (i := e.2.id) (List.mem_map_of_mem hx) ?_
    rw [hcopy.1, ← hxq]
    exact List.mem_map_of_mem hxl
  · obtain ⟨x, hx, hxr⟩ := hN.all_handed hp r hr
    rw [← hxr]
    exact List.count_eq_one_of_mem (List.nodup_append.1 (hN.nodup p)).1 (List.mem_map_of_mem hx)
  · have hN' := netInv_of_reachable h'
    have hids : ∀ (A : Network), NetInv A → A.Complete p →
        ((A.handed p).map Message.id).Perm ((A.history.map (·.msg)).map Message.id) := by
      intro A hA hAp
      have := (hA.handed_perm hAp).map Prod.fst
      simpa [List.map_map, Function.comp_def] using this
    refine ⟨(hids N' hN' hp').trans ((hperm.map _).trans (hids N hN hp).symm), fun s => ?_⟩
    rw [hN'.count_eq hp', hN.count_eq hp]
    have := hperm.countP_eq (fun m => decide (m.sender = s))
    simp only [List.countP_map] at this
    exact congrArg Nat.cast this

/-! ## A reordered exchange -/

namespace Reordered

/-- Every node knows two peers; no security package. -/
def env : NodeEnv := ⟨false, none, [("b", 2), ("c", 3)]⟩

/-- A message as the upper layer passes it to `broadcast`. -/
def msg (i s : String) : Message := ⟨"hi", s, i, 0, "", 10, Dict.empty⟩

/-- The copy of `m1` on the wire. -/
def m1 : Message := { msg "m1" "a:1" with vectorClock := VectorClock.increment Dict.empty "a:1" }

/-- The copy of `m2`, broadcast by `b:2` after it was handed `m1`. -/
def m2 : Message := { msg "m2" "b:2" with vectorClock := m1.vectorClock.increment "b:2" }

/-- `b:2` has answered `m1` with `m2`. -/
def answered : Network :=
  (((Network.init fun _ => 5).broadcast "a:1" env (msg "m1" "a:1")).deliver "b:2" env 0 0 m1).broadcast
    "b:2" env (msg "m2" "b:2")

/-- At `c:3` the answer overtakes the message. -/
def final : Network := (answered.deliver "c:3" env 1 1 m2).deliver "c:3" env 2 2 m1

theorem answered_reachable : Reachable (fun _ => 5) answered := by
  have h1 : Reachable (fun _ => 5) ((Network.init fun _ => 5).broadcast "a:1" env (msg "m1" "a:1")) :=
    .tail .refl (.broadcast _ _ _ rfl (by decide) rfl)
  have h2 := Relation.ReflTransGen.tail h1 (.deliver "b:2" env 0 0 m1 (by decide) (by decide) (by decide))
  exact .tail h2 (.broadcast _ _ _ rfl (by decide) rfl)

theorem final_reachable : Reachable (fun _ => 5) final := by
  have h1 := Relation.ReflTransGen.tail answered_reachable
    (.deliver "c:3" env 1 1 m2 (by decide) (by decide) (by decide))
  exact .tail h1 (.deliver "c:3" env 2 2 m1 (by decide) (by decide) (by decide))

theorem m1_before_m2 : final.HappensBefore "m1" "m2" :=
  .single ⟨⟨m2, [m1]⟩, by decide, rfl, m1, by decide, rfl⟩

/-- The message was handed over before its answer. -/
theorem causal_delivery_at_c : final.handed "c:3" = [m1, m2] ∧ ∃ m ∈ [m1], m.id = "m1" :=
  ⟨by decide, (causal_delivery final_reachable "c:3").1 [m1] m2 [] (by decide) "m1" m1_before_m2⟩

theorem final_complete : final.Complete "c:3" := by
  intro r hr
  revert r
  decide

/-- Nothing is held back at `c:3`, and its clock counts both senders. -/
theorem no_stuck_message_at_c : (final.node "c:3").holdBack.queue = [] ∧ (final.node "c:3").vc.count "b:2" = 1 :=
  have h := no_stuck_message final_reachable final_complete
  ⟨h.1, (h.2.2.1 "b:2").trans (by decide)⟩

end Reordered

end PeerChat
