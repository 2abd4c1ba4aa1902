/-
Where the messages of a room come from: every copy, on its way, held back or
handed over, is one of the messages as they were broadcast, but for the hops
that it has left (`_do_broadcast`, `_receive` and `_forward` of
`distribution/broadcast_node.py`, over the connections of `Links`).
-/
import PeerChat.Distribution.Links

namespace PeerChat.Links

open Lib BroadcastNode Flooding

/-- What goes out with an event, as it was stamped. -/
def born (room : Finset String) (peers : String → List Peer) (s : Links) : LinkEvent → List Message
  | .doBroadcast a m => if a ∈ room then ((s.node a).node.doBroadcast (env peers a) m).2.1.handed else []
  | _ => []

/-- What goes out in a run. -/
def births (room : Finset String) (peers : String → List Peer) : Links → List LinkEvent → List Message
  | _, [] => []
  | s, e :: es => s.born room peers e ++ births room peers (s.step room peers e) es

/-- One of these messages, but for the hops. -/
def CopyOf (l : List Message) (m : Message) : Prop := ∃ r ∈ l, m = { r with ttl := m.ttl }

/-- Every message that is anywhere in the room is one of these. -/
structure Carried (l : List Message) (s : Links) : Prop where
  message : ∀ c m, s.message c = some m → CopyOf l m
  held : ∀ a, ∀ m ∈ (s.node a).node.held, CopyOf l m
  handed : ∀ a, ∀ m ∈ (s.node a).handed, CopyOf l m

variable {room : Finset String} {peers : String → List Peer} {s s' : Links} {a : String} {m : Message} {c : Parcel}
  {l l' : List Message} {es : List LinkEvent}

theorem CopyOf.mono (h : CopyOf l m) (hl : l ⊆ l') : CopyOf l' m := by
  obtain ⟨r, hr, hm⟩ := h
  exact ⟨r, hl hr, hm⟩

theorem CopyOf.hop (h : CopyOf l m) (ttl : Int) : CopyOf l { m with ttl } := by
  obtain ⟨r, hr, hm⟩ := h
  refine ⟨r, hr, ?_⟩
  rw [hm]

theorem CopyOf.of_mem (h : m ∈ l) : CopyOf l m := ⟨m, h, rfl⟩

theorem Carried.mono (h : Carried l s) (hl : l ⊆ l') : Carried l' s where
  message c m hm := (h.message c m hm).mono hl
  held a m hm := (h.held a m hm).mono hl
  handed a m hm := (h.handed a m hm).mono hl

/-- A step of the connections. -/
theorem Carried.silent (h : Carried l s) (hnode : s'.node = s.node) (hmessage : ∀ c, s'.message c = s.message c) :
    Carried l s' where
  message c m hm := h.message c m (hmessage c ▸ hm)
  held a m hm := h.held a m (by rwa [hnode] at hm)
  handed a m hm := h.handed a m (by rwa [hnode] at hm)

/-- A call on a node, and what it sends. -/
theorem Carried.call (h : Carried l s) {r : BroadcastNode.Run} {sent : List (Peer × Message)}
    (hheld : ∀ m ∈ r.node.held, CopyOf l m) (hhanded : ∀ m ∈ r.handed, CopyOf l m)
    (hsent : ∀ x ∈ sent, CopyOf l x.2) (hnode : s'.node = Function.update s.node a r)
    (hmessage : ∀ c, s'.message c = s.message c) : Carried l (sent.foldl (handOver · a) s') where
  message c m hm := by
    rcases message_handOvers_cases hm with hm | ⟨x, hx, rfl⟩
    · exact h.message c m (hmessage c ▸ hm)
    · exact hsent x hx
  held b m hm := by
    rw [node_handOvers, hnode, Function.update_apply] at hm
    split at hm
    · exact hheld m hm
    · exact h.held b m hm
  handed b m hm := by
    rw [node_handOvers, hnode, Function.update_apply] at hm
    split at hm
    · exact hhanded m hm
    · exact h.handed b m hm

/-- Nothing is decrypted on the way. -/
theorem messageForUi_env (n : BroadcastNode) : messageForUi (env peers a) n = id := rfl

theorem mem_forwardReceived {n : BroadcastNode} {x : Peer × Message}
    (hx : x ∈ forwardReceived (env peers a) n m) : x.2 = { m with ttl := m.ttl - 1 } := by
  unfold forwardReceived at hx
  split at hx
  · rw [if_neg (by simp [env])] at hx
    obtain ⟨p, -, rfl⟩ := List.mem_map.1 hx
    rfl
  · cases hx

theorem mem_held_or_released {q : HoldBackQueue} {now : Time} {vc : VectorClock} {m : Message}
    (hm : m ∈ (q.drain now vc).released ∨ m ∈ (q.drain now vc).queue.map Prod.snd) : m ∈ q.queue.map Prod.snd :=
  (HoldBackQueue.drain_perm q now vc).subset (List.mem_append.2 hm)

/-- A call that drains the queue, and sends nothing. -/
theorem Carried.drains (h : Carried l s) {c : BroadcastNode.Call} (now : Time) (vc : VectorClock)
    (hc : (s.node a).step c = ⟨(s.node a).node.drained ((s.node a).node.holdBack.drain now vc), (s.node a).accepted,
      (s.node a).handed ++ ((s.node a).node.holdBack.drain now vc).released⟩) : Carried l (s.call a c) := by
  refine h.call (r := (s.node a).step c) (fun m hm => ?_) (fun m hm => ?_)
    (List.forall_mem_nil fun x : Peer × Message => CopyOf l x.2) rfl fun c => rfl
  · rw [hc] at hm
    exact h.held a m (mem_held_or_released (.inr hm))
  · rw [hc] at hm
    rcases List.mem_append.1 hm with hm | hm
    · exact h.handed a m hm
    · exact h.held a m (mem_held_or_released (.inl hm))

/-- A broadcast: what is new is what its caller is handed. -/
theorem Carried.doBroadcast (h : Carried l s) :
    Carried (l ++ s.born room peers (.doBroadcast a m)) (s.step room peers (.doBroadcast a m)) := by
  simp only [Links.step, born]
  split
  · have hl := h.mono (List.subset_append_left l ((s.node a).node.doBroadcast (env peers a) m).2.1.handed)
    rcases (s.node a).node.doBroadcast_cases (env peers a) m with
      ⟨_, he⟩ | ⟨_, hsign, _⟩ | ⟨_, signed, _, sent, he, hs⟩
    · refine hl.call (r := (s.node a).step (.doBroadcast (env peers a) m)) ?_ ?_ ?_ rfl fun c => rfl
      · simpa [BroadcastNode.Run.step, he] using h.held a
      · simpa [BroadcastNode.Run.step, he] using h.handed a
      · simp [he]
    · cases hsign
    · have hout : CopyOf (l ++ [(s.node a).node.stamped signed]) ((s.node a).node.stamped signed) :=
        .of_mem (List.mem_append_right _ List.mem_cons_self)
      rw [he] at hl ⊢
      refine hl.call (r := (s.node a).step (.doBroadcast (env peers a) m)) ?_ ?_ ?_ rfl fun c => rfl
      · simp only [BroadcastNode.Run.step, he]
        exact hl.held a
      · intro x hx
        simp only [BroadcastNode.Run.step, he] at hx
        rcases List.mem_append.1 hx with hx | hx
        · exact hl.handed a x hx
        · rw [List.mem_singleton.1 hx]
          exact hout
      · intro x hx
        rw [hs x hx]
        exact hout
  · rw [List.append_nil]
    exact h

/-- A message's arrival: it is held, handed or passed on with one hop less. -/
theorem Carried.receive (hinv : Inv room peers s) (h : Carried l s) (k : Nat) (addedAt now : Time) :
    Carried l (s.step room peers (.receive k addedAt now)) := by
  rcases hk : s.scheduled[k]? with _ | ⟨c, m⟩
  · simp only [Links.step, hk]
    exact h
  · have hm := h.message c m (hinv.queued _ (List.mem_of_getElem? hk)).1
    simp only [Links.step, hk]
    rcases (s.node c.peer.key).node.receive_cases (env peers c.peer.key) addedAt now m with
      ⟨-, he⟩ | ⟨-, n₂, d, hacc, he⟩
    · refine h.call (r := (s.node c.peer.key).step (.receive (env peers c.peer.key) addedAt now m)) ?_ ?_ ?_ rfl
        fun c => rfl
      · simpa [BroadcastNode.Run.step, he] using h.held c.peer.key
      · simpa [BroadcastNode.Run.step, he] using h.handed c.peer.key
      · simp [he]
    · have hperm := accept_perm { (s.node c.peer.key).node with seen := insert m.id (s.node c.peer.key).node.seen }
        addedAt now m
      rw [hacc] at hperm
      have hmem (x : Message) (hx : x ∈ d ∨ x ∈ n₂.held) : CopyOf l x := by
        rcases List.mem_cons.1 (hperm.subset (List.mem_append.2 hx)) with rfl | hx
        · exact hm
        · exact h.held c.peer.key x hx
      refine h.call (r := (s.node c.peer.key).step (.receive (env peers c.peer.key) addedAt now m)) ?_ ?_ ?_ rfl
        fun c => rfl
      · simp only [BroadcastNode.Run.step, he]
        exact fun x hx => hmem x (.inr hx)
      · simp only [BroadcastNode.Run.step, he, messageForUi_env, List.map_id]
        intro x hx
        rcases List.mem_append.1 hx with hx | hx
        · exact h.handed c.peer.key x hx
        · exact hmem x (.inl hx)
      · intro x hx
        rw [he] at hx
        rw [mem_forwardReceived hx]
        exact hm.hop _

/-- **What is in the room was broadcast**, one step. -/
theorem Carried.step (hinv : Inv room peers s) (h : Carried l s) (e : LinkEvent) :
    Carried (l ++ s.born room peers e) (s.step room peers e) := by
  cases e with
  | doBroadcast a m => exact h.doBroadcast
  | applyVcSync a now vc =>
    rw [show s.born room peers (.applyVcSync a now vc) = [] from rfl, List.append_nil]
    refine h.drains (c := .applyVcSync (env peers a) now vc) now ((s.node a).node.vc.merge vc) ?_
    simp only [BroadcastNode.Run.step, BroadcastNode.applyVcSync, messageForUi_env, List.map_id]
  | holdbackDrain a now =>
    rw [show s.born room peers (.holdbackDrain a now) = [] from rfl, List.append_nil]
    by_cases hq : (s.node a).node.holdBack.queue.isEmpty = true
    · have hsame : (s.node a).step (.holdbackDrain now) = s.node a := by
        simp [BroadcastNode.Run.step, BroadcastNode.holdbackDrain, hq]
      refine h.silent ?_ fun c => rfl
      simp [Links.step, Links.call, hsame]
    · refine h.drains (c := .holdbackDrain now) now (s.node a).node.vc ?_
      simp only [BroadcastNode.Run.step, BroadcastNode.holdbackDrain, if_neg hq]
  | flush a p =>
    rw [show s.born room peers (.flush a p) = [] from rfl, List.append_nil]
    exact h.silent rfl fun c => message_retry s _ _ c
  | handleWs a p task =>
    rw [show s.born room peers (.handleWs a p task) = [] from rfl, List.append_nil]
    refine h.silent ?_ fun c => ?_
    · simp only [Links.step]
      repeat' split
      all_goals rfl
    · simp only [Links.step]
      repeat' split
      all_goals first | exact message_schedule s c _ _ task | rfl
  | acknowledge a p task =>
    rw [show s.born room peers (.acknowledge a p task) = [] from rfl, List.append_nil]
    simp only [Links.step]
    split
    · exact h.silent rfl fun c => message_retry s _ _ c
    · exact h
  | fail a p task =>
    rw [show s.born room peers (.fail a p task) = [] from rfl, List.append_nil]
    exact h.silent rfl fun c => message_retry s _ _ c
  | receive k addedAt now =>
    rw [show s.born room peers (.receive k addedAt now) = [] from rfl, List.append_nil]
    exact h.receive hinv k addedAt now

/-- **What is in the room was broadcast**, but for the hops. -/
theorem Carried.run : ∀ {es : List LinkEvent} {s : Links} {l : List Message}, Inv room peers s → Carried l s →
    Carried (l ++ births room peers s es) (s.run room peers es)
  | [], s, l, _, h => by
    rw [births, List.append_nil]
    exact h
  | e :: es, s, l, hinv, h => by
    rw [births, ← List.append_assoc]
    exact Carried.run (hinv.step e) (h.step hinv e)

theorem Carried.new (timeout : String → Time) : Carried [] (new timeout) where
  message c m hm := by simp [Links.message, Links.new, start] at hm
  held a m hm := by cases hm
  handed a m hm := by cases hm

/-- What goes out is what somebody broadcast, with a clock. -/
theorem mem_births : ∀ {es : List LinkEvent} {s : Links}, m ∈ births room peers s es →
    ∃ a x, .doBroadcast a x ∈ es ∧ m = { x with vectorClock := m.vectorClock }
  | [], _, h => by cases h
  | e :: es, s, h => by
    rcases List.mem_append.1 h with h | h
    · cases e with
      | doBroadcast a x =>
        simp only [born] at h
        split at h
        · rcases (s.node a).node.doBroadcast_cases (env peers a) x with
            ⟨_, he⟩ | ⟨_, hsign, _⟩ | ⟨_, y, hsign, _, he, _⟩
          · rw [he] at h
            cases h
          · cases hsign
          · cases hsign
            rw [he] at h
            rw [List.mem_singleton.1 h]
            exact ⟨a, x, List.mem_cons_self, rfl⟩
        · cases h
      | _ => cases h
    · obtain ⟨a, x, hx, hm⟩ := mem_births h
      exact ⟨a, x, List.mem_cons_of_mem _ hx, hm⟩

/-- The ids of what goes out are among those that are originated, in order. -/
theorem births_sublist : ∀ (es : List LinkEvent) (s : Links),
    ((births room peers s es).map Message.id).Sublist (es.filterMap origin)
  | [], _ => .slnil
  | e :: es, s => by
    have ih := births_sublist es (s.step room peers e)
    rw [births, List.map_append]
    cases e with
    | doBroadcast a x =>
      have hone : ((s.born room peers (.doBroadcast a x)).map Message.id).Sublist [x.id] := ?_
      · exact hone.append ih
      simp only [born]
      split
      · rcases (s.node a).node.doBroadcast_cases (env peers a) x with ⟨_, he⟩ | ⟨_, hsign, _⟩ | ⟨_, y, hsign, _, he, _⟩
        · rw [he]
          exact List.nil_sublist _
        · cases hsign
        · cases hsign
          rw [he]
          exact List.Sublist.refl _
      · exact List.nil_sublist _
    | _ => exact ih

/-- Two copies under one id are of one message, where the ids are distinct. -/
theorem CopyOf.eq_of_id {m' : Message} (h : CopyOf l m) (h' : CopyOf l m') (hids : (l.map Message.id).Nodup)
    (hid : m'.id = m.id) : m' = { m with ttl := m'.ttl } := by
  obtain ⟨r, hr, hm⟩ := h
  obtain ⟨r', hr', hm'⟩ := h'
  have heq : r'.id = r.id := by
    rw [hm, hm'] at hid
    exact hid
  obtain rfl := List.inj_on_of_nodup_map hids hr' hr heq
  rw [hm, hm']

/-- What was handed over went out. -/
theorem handed_copyOf {timeout : String → Time} (a : String)
    (hm : m ∈ (((new timeout).run room peers es).node a).handed) : CopyOf (births room peers (new timeout) es) m := by
  have hcarried : Carried (births room peers (new timeout) es) ((new timeout).run room peers es) :=
    Carried.run (Inv.new room peers timeout) (Carried.new timeout)
  exact hcarried.handed a m hm

/-- What was handed over was broadcast, but for its clock and its hops. -/
theorem broadcast_of_handed {timeout : String → Time} (a : String)
    (hm : m ∈ (((new timeout).run room peers es).node a).handed) :
    ∃ o x, .doBroadcast o x ∈ es ∧ m = { x with vectorClock := m.vectorClock, ttl := m.ttl } := by
  obtain ⟨r, hr, hrm⟩ := handed_copyOf a hm
  obtain ⟨o, x, hx, hrx⟩ := mem_births hr
  refine ⟨o, x, hx, ?_⟩
  rw [hrm, hrx]

end PeerChat.Links
