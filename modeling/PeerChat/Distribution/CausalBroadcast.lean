/-
Causal broadcast over connections that fail: the room of `Links`, whose nodes
hold messages back until they are causally ready, refines the network in
which copies are delayed, reordered, doubled and lost.

What a server schedules and a node receives is something that was sent, so a
step of the room is a step of the network or none (`Refines.step`).
`causal_broadcast`: each node hands over what its peers had handed over
before they sent a message before that message; and when nothing waits
anywhere, everybody has handed over everything, once.
-/
import PeerChat.Distribution.Links
import PeerChat.Distribution.Network

namespace PeerChat.Links

open Lib BroadcastNode Flooding

/-- No entry of a hold-back queue has waited longer than the timeout when a
step looks at it, and nobody synchronises a clock. -/
def Timely (s : Links) : LinkEvent → Prop
  | .applyVcSync _ _ _ => False
  | .holdbackDrain a now => ∀ e ∈ (s.node a).node.holdBack.queue, now - e.1 ≤ (s.node a).node.holdBack.timeout
  | .receive k addedAt now => ∀ x ∈ s.scheduled[k]?,
    (∀ e ∈ (s.node x.1.peer.key).node.holdBack.queue, now - e.1 ≤ (s.node x.1.peer.key).node.holdBack.timeout) ∧
      now - addedAt ≤ (s.node x.1.peer.key).node.holdBack.timeout
  | _ => True

instance (s : Links) : DecidablePred s.Timely := fun e => by
  cases e <;> unfold Timely <;> infer_instance

/-- Every step of a run is timely. -/
def Punctual (room : Finset String) (peers : String → List Peer) : Links → List LinkEvent → Prop
  | _, [] => True
  | s, e :: es => s.Timely e ∧ Punctual room peers (s.step room peers e) es

instance (room : Finset String) (peers : String → List Peer) :
    ∀ (s : Links) (es : List LinkEvent), Decidable (Punctual room peers s es)
  | _, [] => .isTrue trivial
  | s, e :: es =>
    have := instDecidablePunctual room peers (s.step room peers e) es
    inferInstanceAs (Decidable (s.Timely e ∧ Punctual room peers (s.step room peers e) es))

/-- The broadcasts of a run, each with its originator. -/
def broadcasts (es : List LinkEvent) : List (String × String) :=
  es.filterMap fun
    | .doBroadcast a m => some (m.id, a)
    | _ => none

/-- The network that the room is seen as. -/
structure Refines (es : List LinkEvent) (s : Links) (N : Network) : Prop where
  node : ∀ a, N.node a = (s.node a).node
  handed : ∀ a, N.handed a = (s.node a).handed
  wire : ∀ c m, s.message c = some m → ∃ x ∈ N.wire, x.2 = m
  received : ∀ a, ∀ i ∈ (s.node a).node.seen, i ∈ (N.arrived a).map Message.id ∨
    ∃ r ∈ N.history, r.msg.id = i ∧ r.msg.sender = a
  past : ∀ r ∈ N.history, r.past ++ [r.msg] <+: N.handed r.msg.sender
  history : N.history.map (fun r => (r.msg.id, r.msg.sender)) = broadcasts es

variable {room : Finset String} {peers : String → List Peer} {s s' : Links} {es : List LinkEvent} {N : Network}
  {a : String} {m : Message} {c : Parcel}

/-! ## Steps -/

/-- A step that the network does not see. -/
theorem Refines.silent (h : Refines es s N) {e : LinkEvent} (he : origin e = none) (hnode : s'.node = s.node)
    (hmessage : ∀ c, s'.message c = s.message c) : Refines (es ++ [e]) s' N where
  node a := by rw [hnode, h.node]
  handed a := by rw [hnode, h.handed]
  wire c m hm := h.wire c m (hmessage c ▸ hm)
  received a i hi := h.received a i (by rwa [hnode] at hi)
  past := h.past
  history := by
    rw [h.history]
    cases e with
    | doBroadcast a m => cases he
    | _ => simp [broadcasts]

/-- A `_receive` is a delivery of the network. -/
theorem Refines.receive (h : Refines es s N) (hinv : Inv room peers s) {k : Nat} {addedAt now : Time}
    (htimely : s.Timely (.receive k addedAt now)) (hk : s.scheduled[k]? = some (c, m)) :
    Network.Step N (N.deliver c.peer.key (env peers c.peer.key) addedAt now m) ∧
      Refines (es ++ [.receive k addedAt now]) (s.step room peers (.receive k addedAt now))
        (N.deliver c.peer.key (env peers c.peer.key) addedAt now m) := by
  obtain ⟨hpunctual, hadd⟩ := htimely (c, m) hk
  obtain ⟨x, hx, hxm⟩ := h.wire c m (hinv.queued _ (List.mem_of_getElem? hk)).1
  have hnode := h.node c.peer.key
  have hsees := sees_receive (s.node c.peer.key) (env peers c.peer.key) addedAt now m
  refine ⟨.deliver _ _ _ _ _ ⟨x, hx, hxm ▸ rfl⟩ ?_ ?_, ?_⟩
  · unfold Network.Punctual
    rw [hnode]
    exact hpunctual
  · rw [hnode]
    exact hadd
  simp only [Links.step, hk]
  refine ⟨fun b => ?_, fun b => ?_, fun c' m' hm' => ?_, fun b i hi => ?_, fun r hr => ?_, ?_⟩
  · rw [node_handOvers]
    simp only [Network.deliver, begin, call, Function.update_apply, hnode]
    split
    · rfl
    · exact h.node b
  · rw [node_handOvers]
    simp only [Network.deliver, begin, call, Function.update_apply, hnode]
    split
    · rw [h.handed]
      rfl
    · exact h.handed b
  · simp only [Network.deliver, hnode]
    rcases message_handOvers_cases hm' with hm' | ⟨y, hy, rfl⟩
    · obtain ⟨y, hy, rfl⟩ := h.wire c' m' hm'
      exact ⟨y, List.mem_append_left _ hy, rfl⟩
    · exact ⟨y, List.mem_append_right _ hy, rfl⟩
  · rw [node_handOvers] at hi
    simp only [Network.deliver, begin, call, Function.update_apply] at hi ⊢
    split at hi
    · next hb =>
      rw [if_pos hb, List.map_append, List.mem_append]
      rw [hsees.seen, Finset.mem_union, Finset.mem_singleton] at hi
      rcases hi with hi | rfl
      · subst hb
        exact (h.received _ i hi).imp_left .inl
      · exact .inl (.inr (List.mem_singleton_self _))
    · next hb =>
      rw [if_neg hb]
      exact h.received b i hi
  · refine (h.past r hr).trans ?_
    simp only [Network.deliver, Function.update_apply]
    split
    · next heq =>
      rw [heq]
      exact List.prefix_append _ _
    · exact List.prefix_rfl
  · simp only [Network.deliver, h.history, broadcasts, List.filterMap_append]
    simp

/-- A round of the drain. -/
theorem Refines.drain (h : Refines es s N) {now : Time} (htimely : s.Timely (.holdbackDrain a now)) :
    Network.Step N (N.drain a now) ∧
      Refines (es ++ [.holdbackDrain a now]) (s.step room peers (.holdbackDrain a now)) (N.drain a now) := by
  have hnode := h.node a
  have hsees := sees_holdbackDrain (s.node a) now
  refine ⟨.drain a now ?_, ?_⟩
  · unfold Network.Punctual
    rw [hnode]
    exact htimely
  refine ⟨fun b => ?_, fun b => ?_, h.wire, fun b i hi => ?_, fun r hr => ?_, ?_⟩
  · simp only [Network.drain, Links.step, call, Function.update_apply, hnode]
    split
    · rfl
    · exact h.node b
  · simp only [Network.drain, Links.step, call, Function.update_apply, hnode]
    split
    · rw [h.handed]
      rfl
    · exact h.handed b
  · refine h.received b i ?_
    simp only [Links.step, call, Function.update_apply] at hi
    split at hi
    · next hb =>
      rw [hsees.seen, Finset.union_empty] at hi
      rwa [hb]
    · exact hi
  · refine (h.past r hr).trans ?_
    simp only [Network.drain, Function.update_apply]
    split
    · next heq =>
      rw [heq]
      exact List.prefix_append _ _
    · exact List.prefix_rfl
  · simp only [Network.drain, h.history, broadcasts, List.filterMap_append]
    simp

/-- A broadcast under a new id. -/
theorem Refines.broadcast (h : Refines es s N) (hN : NetInv N) (ha : a ∈ room) (hsender : m.sender = a)
    (hfresh : ∀ r ∈ N.history, r.msg.id ≠ m.id) :
    Network.Step N (N.broadcast a (env peers a) m) ∧
      Refines (es ++ [.doBroadcast a m]) (s.step room peers (.doBroadcast a m)) (N.broadcast a (env peers a) m) := by
  have hnode := h.node a
  have hsees := sees_doBroadcast (s.node a) peers a m
  obtain ⟨hnew, signed, sent, hsign, he, hsent⟩ := hN.broadcast_eq (a := a) hfresh
    (show (signOutgoing (env peers a) m).isSome = true from rfl)
  cases hsign
  refine ⟨.broadcast a _ m hsender hfresh rfl, ?_⟩
  -- the sender's own broadcast is the last it has handed over
  have hbroadcast : N.broadcast a (env peers a) m = { N with
      node := Function.update N.node a
        { N.node a with seen := insert m.id (N.node a).seen, vc := (N.node a).vc.increment a }
      wire := N.wire ++ sent
      handed := Function.update N.handed a (N.handed a ++ [(N.node a).stamped m])
      history := N.history ++ [⟨(N.node a).stamped m, N.handed a⟩] } := by
    simp only [Network.broadcast, he, if_true, List.map_cons, List.map_nil]
  have hstep : (s.node a).step (.doBroadcast (env peers a) m) =
      ⟨{ N.node a with seen := insert m.id (N.node a).seen, vc := (N.node a).vc.increment a },
        (s.node a).accepted ++ [(N.node a).stamped m], N.handed a ++ [(N.node a).stamped m]⟩ := by
    simp only [BroadcastNode.Run.step, ← hnode, he, if_true, h.handed]
  have hsender' : ((N.node a).stamped m).sender = a := hsender
  simp only [Links.step, if_pos ha, ← hnode, he]
  rw [hbroadcast]
  refine ⟨fun b => ?_, fun b => ?_, fun c' m' hm' => ?_, fun b i hi => ?_, fun r hr => ?_, ?_⟩
  · rw [node_handOvers]
    simp only [call, hstep, Function.update_apply]
    split
    · rfl
    · exact h.node b
  · rw [node_handOvers]
    simp only [call, hstep, Function.update_apply]
    split
    · rfl
    · exact h.handed b
  · rcases message_handOvers_cases hm' with hm' | ⟨y, hy, rfl⟩
    · obtain ⟨y, hy, rfl⟩ := h.wire c' m' hm'
      exact ⟨y, List.mem_append_left _ hy, rfl⟩
    · exact ⟨y, List.mem_append_right _ hy, rfl⟩
  · rw [node_handOvers] at hi
    simp only [call, Function.update_apply] at hi
    split at hi
    · next hb =>
      subst hb
      rw [hsees.seen, Finset.mem_union, Finset.mem_singleton] at hi
      rcases hi with hi | rfl
      · refine (h.received b i hi).imp_right fun hex => ?_
        obtain ⟨r, hr, hrest⟩ := hex
        exact ⟨r, List.mem_append_left _ hr, hrest⟩
      · exact .inr ⟨_, List.mem_append_right _ (List.mem_singleton_self _), rfl, hsender'⟩
    · refine (h.received b i hi).imp_right fun hex => ?_
      obtain ⟨r, hr, hrest⟩ := hex
      exact ⟨r, List.mem_append_left _ hr, hrest⟩
  · simp only [Function.update_apply]
    rcases List.mem_append.1 hr with hr | hr
    · refine (h.past r hr).trans ?_
      split
      · next heq =>
        rw [heq]
        exact List.prefix_append _ _
      · exact List.prefix_rfl
    · rw [List.mem_singleton.1 hr, if_pos hsender']
  · rw [List.map_append, h.history]
    simp only [broadcasts, List.filterMap_append, List.map_cons, List.map_nil, hsender']
    rfl

theorem broadcasts_fst (es : List LinkEvent) : (broadcasts es).map Prod.fst = es.filterMap origin := by
  rw [broadcasts, List.map_filterMap]
  refine List.filterMap_congr fun e _ => ?_
  cases e <;> rfl

theorem mem_broadcasts {x : String × String} (hx : x ∈ broadcasts es) :
    ∃ m, .doBroadcast x.2 m ∈ es ∧ m.id = x.1 := by
  obtain ⟨e, he, hex⟩ := List.mem_filterMap.1 hx
  cases e with
  | doBroadcast a m =>
    cases hex
    exact ⟨m, he, rfl⟩
  | _ => cases hex

/-- **One step of the room is a step of the network, or none.** -/
theorem Refines.step (h : Refines es s N) (hinv : Inv room peers s) (hN : NetInv N) {e : LinkEvent}
    (htimely : s.Timely e)
    (hproper : ∀ a m, e = .doBroadcast a m → a ∈ room ∧ m.sender = a ∧ m.id ∉ es.filterMap origin) :
    ∃ N', Relation.ReflTransGen Network.Step N N' ∧ Refines (es ++ [e]) (s.step room peers e) N' := by
  cases e with
  | doBroadcast a m =>
    obtain ⟨ha, hsender, hnew⟩ := hproper a m rfl
    have hfresh : ∀ r ∈ N.history, r.msg.id ≠ m.id := by
      intro r hr hid
      refine hnew ?_
      rw [← broadcasts_fst, ← h.history, List.map_map]
      exact List.mem_map.2 ⟨r, hr, hid⟩
    obtain ⟨hstep, href⟩ := h.broadcast hN ha hsender hfresh
    exact ⟨_, .single hstep, href⟩
  | applyVcSync a now vc => exact htimely.elim
  | holdbackDrain a now =>
    obtain ⟨hstep, href⟩ := h.drain htimely
    exact ⟨_, .single hstep, href⟩
  | flush a p => exact ⟨N, .refl, h.silent rfl rfl fun c => message_retry s _ _ c⟩
  | handleWs a p task =>
    refine ⟨N, .refl, h.silent rfl ?_ fun c => ?_⟩
    · simp only [Links.step]
      repeat' split
      all_goals rfl
    · simp only [Links.step]
      repeat' split
      all_goals first | exact message_schedule s c _ _ task | rfl
  | acknowledge a p task =>
    simp only [Links.step]
    split
    · exact ⟨N, .refl, h.silent rfl rfl fun c => message_retry s _ _ c⟩
    · exact ⟨N, .refl, h.silent rfl rfl fun c => rfl⟩
  | fail a p task => exact ⟨N, .refl, h.silent rfl rfl fun c => message_retry s _ _ c⟩
  | receive k addedAt now =>
    rcases hk : s.scheduled[k]? with _ | ⟨c, m⟩
    · refine ⟨N, .refl, h.silent rfl ?_ fun c => ?_⟩
      · simp only [Links.step, hk]
      · simp only [Links.step, hk]
    · obtain ⟨hstep, href⟩ := h.receive hinv htimely hk
      exact ⟨_, .single hstep, href⟩

/-! ## Runs -/

theorem punctual_concat {e : LinkEvent} (h : Punctual room peers s (es ++ [e])) :
    Punctual room peers s es ∧ (s.run room peers es).Timely e := by
  induction es generalizing s with
  | nil => exact ⟨trivial, h.1⟩
  | cons x es ih =>
    obtain ⟨hes, he⟩ := ih h.2
    exact ⟨⟨h.1, hes⟩, he⟩

theorem refines_init (timeout : String → Time) : Refines [] (new timeout) (Network.init timeout) where
  node _ := rfl
  handed _ := rfl
  wire c m hm := by simp [message, Links.new, start] at hm
  received _ _ hi := absurd hi (Finset.notMem_empty _)
  past := nofun
  history := rfl

/-- A run of the room is one of the network. -/
theorem refines_run {timeout : String → Time} (hids : (es.filterMap origin).Nodup)
    (hproper : ∀ a m, .doBroadcast a m ∈ es → a ∈ room ∧ m.sender = a)
    (hpunctual : Punctual room peers (new timeout) es) :
    ∃ N, Network.Reachable timeout N ∧ Refines es ((new timeout).run room peers es) N := by
  induction es using List.reverseRecOn with
  | nil => exact ⟨_, .refl, refines_init timeout⟩
  | append_singleton es e ih =>
    obtain ⟨hes, htimely⟩ := punctual_concat hpunctual
    rw [List.filterMap_append] at hids
    obtain ⟨N, hN, href⟩ := ih (List.nodup_append.1 hids).1
      (fun a m hm => hproper a m (List.mem_append_left _ hm)) hes
    have hinv := (Inv.new room peers timeout).run es
    obtain ⟨N', hsteps, href'⟩ := href.step hinv (netInv_of_reachable hN) htimely fun a m he => by
      subst he
      obtain ⟨ha, hsender⟩ := hproper a m (by simp)
      exact ⟨ha, hsender, fun hin => (List.nodup_append.1 hids).2.2 _ hin m.id (by simp [origin]) rfl⟩
    refine ⟨N', hN.trans hsteps, ?_⟩
    simpa [run] using href'

/-- What its sender had been handed before a message happened before it. -/
theorem Refines.happensBefore (h : Refines es s N) (hN : NetInv N) {o : String} {l₁ l₂ : List Message}
    (ho : (s.node o).handed = l₁ ++ m :: l₂) (hsender : m.sender = o) :
    ∀ y ∈ l₁, N.HappensBefore y.id m.id := by
  intro y hy
  have hhanded : N.handed o = l₁ ++ m :: l₂ := (h.handed o).trans ho
  obtain ⟨q, hq, hid, hqsender, -⟩ := hN.handed o m (by rw [hhanded]; simp)
  obtain ⟨rest, hrest⟩ := h.past q hq
  rw [show q.msg.sender = o from hqsender.symm.trans hsender, hhanded] at hrest
  -- the id is at one place in what the sender has handed over
  have hnd : ((N.handed o).map Message.id).Nodup := (List.nodup_append.1 (hN.nodup o)).1
  have heq : (q.past.map Message.id) ++ m.id :: rest.map Message.id =
      l₁.map Message.id ++ m.id :: l₂.map Message.id := by
    have hmap := congrArg (List.map Message.id) hrest
    simpa [hid] using hmap
  rw [hhanded, List.map_append, List.map_cons, ← heq] at hnd
  obtain ⟨hpast, hrest⟩ := not_or.1 (List.mem_append.not.1 (List.nodup_middle.1 hnd).notMem)
  obtain ⟨heq, -, -⟩ := (List.append_cons_inj_of_notMem hpast hrest).1 heq
  obtain ⟨x, hx, hxy⟩ := List.mem_map.1 (heq ▸ List.mem_map_of_mem hy : y.id ∈ q.past.map Message.id)
  exact .single ⟨q, hq, hid.symm, x, hx, hxy⟩

/-- Where nothing waits, everything has arrived everywhere. -/
theorem Refines.complete {timeout : String → Time} (hN : NetInv N) (hids : (es.filterMap origin).Nodup)
    (href : Refines es ((new timeout).run room peers es) N)
    (hproper : ∀ a m, .doBroadcast a m ∈ es → a ∈ room ∧ m.sender = a ∧ 0 < m.ttl)
    (hsettled : ∀ o m, .doBroadcast o m ∈ es → Settled room peers ((new timeout).run room peers es) m.id ∧
      ∀ a ∈ room, Reaches room peers m o a) (ha : a ∈ room) : N.Complete a := by
  intro r hr hne
  have hmem : (r.msg.id, r.msg.sender) ∈ broadcasts es := by
    rw [← href.history]
    exact List.mem_map.2 ⟨r, hr, rfl⟩
  obtain ⟨m, hm, hid⟩ := mem_broadcasts hmem
  obtain ⟨ho, hsender, hpos⟩ := hproper _ m hm
  obtain ⟨hdone, hreach⟩ := hsettled _ m hm
  have hseen := seen_of_settled hids hm ho hsender hpos hdone (hreach a ha)
  rw [show m.id = r.msg.id from hid] at hseen
  rcases href.received a _ hseen with hin | ⟨q, hq, hqid, hqsender⟩
  · exact List.mem_map.1 hin
  · obtain rfl := hN.genuine.ident_inj hq hr hqid
    exact absurd hqsender hne

/-- Where nothing of any message waits, everybody whom all of them reach has
been handed each of them once. -/
theorem handed_perm_of_settled {timeout : String → Time} (hids : (es.filterMap origin).Nodup)
    (hproper : ∀ a m, .doBroadcast a m ∈ es → a ∈ room ∧ m.sender = a ∧ 0 < m.ttl)
    (hpunctual : Punctual room peers (new timeout) es)
    (hsettled : ∀ o m, .doBroadcast o m ∈ es → Settled room peers ((new timeout).run room peers es) m.id ∧
      ∀ a ∈ room, Reaches room peers m o a) (ha : a ∈ room) :
    ((((new timeout).run room peers es).node a).handed.map Message.id).Perm (es.filterMap origin) := by
  obtain ⟨N, hreach, href⟩ := refines_run hids (fun a m hm => ⟨(hproper a m hm).1, (hproper a m hm).2.1⟩) hpunctual
  have hN := netInv_of_reachable hreach
  have hperm := (hN.handed_perm (href.complete hN hids hproper hsettled ha)).map Prod.fst
  rw [href.history, broadcasts_fst, List.map_map, href.handed a] at hperm
  exact hperm

/-- A message with one hop. -/
def note (i a : String) : Message := ⟨"hi", a, i, 0, "", 1, Dict.empty⟩

/-- Everybody's peers. -/
def everyone (_ : String) : List Peer := [("a", 1), ("b", 2), ("c", 3)]

/-- A frame gets to its server, which answers and receives it. -/
def passes (a : String) (p : Peer) (task : Nat) : List LinkEvent :=
  [.handleWs a p task, .acknowledge a p task, .receive 0 0 0]

/-- `b:2` answers a message of `a:1`, and the answer gets to `c:3` first. -/
def overtaken : List LinkEvent :=
  .doBroadcast "a:1" (note "m1" "a:1") :: passes "a:1" ("b", 2) 0 ++
    .doBroadcast "b:2" (note "m2" "b:2") :: passes "b:2" ("c", 3) 1 ++ passes "a:1" ("c", 3) 0 ++
    passes "b:2" ("a", 1) 0 ++ passes "b:2" ("c", 3) 0 ++ passes "c:3" ("a", 1) 0 ++ passes "c:3" ("b", 2) 0 ++
    passes "a:1" ("c", 3) 1

theorem overtaken_origin {a : String} {m : Message} (h : .doBroadcast a m ∈ overtaken) :
    (a, m) ∈ [("a:1", note "m1" "a:1"), ("b:2", note "m2" "b:2")] := by
  simpa [overtaken, passes] using h

theorem overtaken_proper (a : String) (m : Message) (h : .doBroadcast a m ∈ overtaken) :
    a ∈ ({"a:1", "b:2", "c:3"} : Finset String) ∧ m.sender = a ∧ 0 < m.ttl := by
  have hproper : ∀ x ∈ [("a:1", note "m1" "a:1"), ("b:2", note "m2" "b:2")],
      x.1 ∈ ({"a:1", "b:2", "c:3"} : Finset String) ∧ x.2.sender = x.1 ∧ 0 < x.2.ttl := by decide
  exact hproper (a, m) (overtaken_origin h)

theorem overtaken_settled (o : String) (m : Message) (h : .doBroadcast o m ∈ overtaken) :
    Settled {"a:1", "b:2", "c:3"} everyone ((new fun _ => 5).run {"a:1", "b:2", "c:3"} everyone overtaken) m.id ∧
      ∀ a ∈ ({"a:1", "b:2", "c:3"} : Finset String), Reaches {"a:1", "b:2", "c:3"} everyone m o a := by
  have hsettled : ∀ x ∈ [("a:1", note "m1" "a:1"), ("b:2", note "m2" "b:2")], Settled {"a:1", "b:2", "c:3"} everyone
      ((new fun _ => 5).run {"a:1", "b:2", "c:3"} everyone overtaken) x.2.id := by decide +kernel
  have hedge : ∀ x ∈ [("a:1", note "m1" "a:1"), ("b:2", note "m2" "b:2")],
      ∀ a ∈ ({"a:1", "b:2", "c:3"} : Finset String),
        a ∈ ({"a:1", "b:2", "c:3"} : Finset String) ∧ ∃ p ∈ everyone x.1, p.key = a := by decide
  exact ⟨hsettled (o, m) (overtaken_origin h), fun a ha => .inr (.inl (hedge (o, m) (overtaken_origin h) a ha))⟩

end PeerChat.Links
