/-
The membership of a room that one node changes. Its coordinator announces
what it logs (`GossipDispatcher.dispatch`), over connections that fail; the
nodes that follow handle what is handed over to them
(`DiscoveryNode.handle_message`), chat and heartbeats among it, and tick.

`membership_followed`: a follower has at any time the states of the first
announcements, however many; and when nothing of any message waits, it has
the states of the node that announces.
-/
import PeerChat.Distribution.SendOrder
import PeerChat.Membership.Bootstrap
import PeerChat.Membership.EventIds

namespace PeerChat.Membership

open Lib JsonText
open FirstUse (isDiscoveryMessage)
open History (Decoding)

/-! ## States -/

/-- The state of every user. -/
abbrev Roster := String → Option MemberState

namespace Roster

/-- An event moves its user. -/
def hear (s : Roster) (e : MembershipEvent) : Roster :=
  Function.update s e.userId (transition e.eventType (s e.userId))

/-- The states after announcements. -/
def after (s : Roster) (es : List MembershipEvent) : Roster := es.foldl hear s

theorem after_reread (s : Roster) (es : List MembershipEvent) :
    s.after (es.map MembershipEvent.reread) = s.after es := by
  rw [after, List.foldl_map]
  rfl

end Roster

/-! ## The node that announces -/

/-- The events that `dispatch` gossips of what it is given. -/
def gossiped (out : List (MembershipEvent × MembershipDelta)) : List MembershipEvent :=
  (out.filter (·.1.source ≠ "remote")).map Prod.fst

/-- What a coordinator has its node gossip during some calls. -/
def Coordinator.announces (clock : Nat → Time) (c : Coordinator) (ops : List Op) : List MembershipEvent :=
  gossiped ((c.run clock ops).dispatched.drop c.dispatched.length)

theorem envelopes_eq (out : List (MembershipEvent × MembershipDelta)) :
    envelopes out = (gossiped out).map MembershipEvent.reread := by
  rw [envelopes, gossiped, List.map_map]
  rfl

theorem announced_sublist (s : Snapshot) (e : MembershipEvent) : ((announced s e).map Prod.fst).Sublist [e] := by
  simp only [announced, deltas]
  split
  · exact List.Sublist.refl _
  · cases deltaOf s e with
    | none => exact List.nil_sublist _
    | some d => exact List.Sublist.refl _

theorem announcements_sublist : ∀ (es : List MembershipEvent) (s : Snapshot),
    ((announcements s es).map Prod.fst).Sublist es
  | [], _ => .slnil
  | e :: es, s => by
    rw [announcements, List.map_append]
    exact (announced_sublist s e).append (announcements_sublist es _)

/-! ## The followers -/

/-- Content by which nobody joins and nothing is announced: chat, heartbeats,
and what `handle_message` turns away. -/
def isQuiet (D : Decoding) (content : String) : Bool :=
  !isDiscoveryMessage content ||
    match decodeEnvelope D content with
    | none => true
    | some env =>
      match kindOf env.subtype with
      | some .heartbeat | none => true
      | some .joinRequest | some .joinResponse | some .gossip => false

/-- What a follower does. -/
inductive FollowerStep
  /-- It handles a message that is handed over. -/
  | message (m : Message)
  /-- A call of its coordinator, such as a tick. -/
  | call (op : Op)

def FollowerStep.message? : FollowerStep → Option Message
  | .message m => some m
  | .call _ => none

namespace Participant

section

variable (D : Decoding) (clock : Nat → Time) (v : Verdict)

def perform (p : Participant) : FollowerStep → Participant
  | .message m => (p.handleMessage D clock v m.sender m.content).participant
  | .call op => (p.moved (p.node.coordinator.step clock op)).1

def performAll (p : Participant) (ds : List FollowerStep) : Participant := ds.foldl (perform D clock v) p

/-- Its coordinator has nothing to announce. -/
def Silent (p p' : Participant) : Prop :=
  gossiped (p'.node.coordinator.dispatched.drop p.node.coordinator.dispatched.length) = []

/-- It announces nothing itself; its calls are such as the others could be
told of. -/
def Follows : Participant → List FollowerStep → Prop
  | _, [] => True
  | p, d :: ds =>
    (∀ op, d = .call op → op.isLocal = true ∧ GossipSafe p.node.coordinator op) ∧ Silent p (p.perform D clock v d) ∧
      (p.perform D clock v d).Follows ds

end

end Participant

variable {D : Decoding} {clock clockB : Nat → Time} {v : Verdict} {c : Coordinator} {p : Participant}
  {ops : List Op} {op : Op} {m : Message} {e : MembershipEvent}

theorem hear_remote (h : Sane c) (hne : e.eventType ≠ .heartbeat) :
    (c.step clock (.remote e)).snapshot.stateOf = Roster.hear c.snapshot.stateOf e := by
  funext u
  rw [stateOf_remote h hne, Roster.hear, Function.update_apply]
  split
  · next hu => rw [hu]
  · rfl

/-- An operation of which nothing is announced leaves the states. -/
theorem stateOf_silent (h : Sane c) (hop : op.isLocal = true) (hs : GossipSafe c op)
    (hsilent : gossiped ((c.step clock op).dispatched.drop c.dispatched.length) = []) :
    (c.step clock op).snapshot.stateOf = c.snapshot.stateOf := by
  have hsync : Synced clock c.dispatched ⟨c, []⟩ c := ⟨h, [], by simp, fun _ => ⟨h, fun _ => rfl⟩⟩
  have hstep : Synced clock c.dispatched ⟨c, []⟩ (c.step clock op) := hsync.step hop hs
  obtain ⟨out, hout, hin⟩ := hstep.inStep
  rw [hout, List.drop_left] at hsilent
  rw [envelopes_eq, hsilent] at hin
  exact funext fun u => (hin trivial).same u

/-! ## Quiet messages -/

theorem node_moved (hsilent : gossiped (c.dispatched.drop p.node.coordinator.dispatched.length) = []) :
    (p.moved c).1.node = ⟨c, p.node.seenEventIds⟩ := by
  unfold Participant.moved
  rw [envelopes_eq, hsilent]
  split <;> rfl

/-- A quiet message is at most a heartbeat. -/
theorem handleMessage_quiet (clock : Nat → Time) (v : Verdict) (p : Participant) (h : isQuiet D m.content = true) :
    (p.handleMessage D clock v m.sender m.content).participant = p ∨
      (p.handleMessage D clock v m.sender m.content).participant =
        (p.moved (p.node.coordinator.step clock (.heartbeat m.sender))).1 := by
  unfold isQuiet at h
  unfold Participant.handleMessage
  by_cases hdisc : isDiscoveryMessage m.content = true
  · simp only [hdisc, Bool.not_true, Bool.false_or, Bool.false_eq_true, if_false] at h ⊢
    cases henv : decodeEnvelope D m.content with
    | none => exact .inl rfl
    | some env =>
      simp only [henv] at h ⊢
      cases hkind : kindOf env.subtype with
      | none => exact .inl rfl
      | some k =>
        cases k with
        | heartbeat =>
          simp only [Participant.handleHeartbeat]
          split
          · exact .inl rfl
          · refine .inr ?_
            simp only [Coordinator.step, Op.prog]
            split
            · next hrun => rw [hrun]; rfl
            · next hrun => rw [hrun]; rfl
        | joinRequest | joinResponse | gossip =>
          rw [hkind] at h
          cases h
  · rw [Bool.not_eq_true] at hdisc
    simp only [hdisc, Bool.not_false, if_true]
    exact .inl rfl

theorem decodeEnvelope_gossipContent {key : Bytes} (hlimit : D.limit (gossipContent D.floats key e).toList = none) :
    isDiscoveryMessage (gossipContent D.floats key e) = true ∧
      decodeEnvelope D (gossipContent D.floats key e) =
        some ⟨codePoints Kind.gossip.subtype, key, [(codePoints "event", .obj (e.toDict D.floats))]⟩ := by
  have hwritten : (Doc.obj [(codePoints "event", .obj (e.toDict D.floats))]).Written :=
    written_object fun q hq => List.mem_singleton.1 hq ▸ ⟨⟨_, rfl⟩, written_toDict D.floats e⟩
  have hdisc : isDiscoveryMessage (gossipContent D.floats key e) = true :=
    isDiscoveryMessage_encodeEnvelope .gossip key _
  have hreceived := received_encodeEnvelope D .gossip key hwritten hlimit
  unfold received at hreceived
  rw [show encodeEnvelope Kind.gossip.subtype key _ = gossipContent D.floats key e from rfl, hdisc, if_pos rfl]
    at hreceived
  exact ⟨hdisc, hreceived⟩

/-- What a node gossips is not quiet. -/
theorem isQuiet_gossipContent {key : Bytes} (hlimit : D.limit (gossipContent D.floats key e).toList = none) :
    isQuiet D (gossipContent D.floats key e) = false := by
  obtain ⟨hdisc, henv⟩ := decodeEnvelope_gossipContent hlimit
  have hkind : kindOf (codePoints Kind.gossip.subtype) = some .gossip := by decide +kernel
  simp only [isQuiet, hdisc, henv, hkind, Bool.not_true, Bool.or_false]

/-! ## What is announced -/

/-- A run of local operations, one after the other. -/
theorem Ledger.local_run : ∀ {ops : List Op} {c : Coordinator}, Sane c → (∀ op ∈ ops, op.isLocal = true) →
    ∃ es, Ledger c es (c.run clock ops) ∧ ∀ e ∈ es, Own e
  | [], c, _, _ => ⟨[], .refl c, by simp⟩
  | op :: ops, c, h, hops => by
    have hgrown : Grown c (c.step clock op) := Grown.step h (hops op (by simp))
    obtain ⟨es, hes, hpaired⟩ := hgrown.ledger
    obtain ⟨es', hes', hown⟩ : ∃ es', Ledger (c.step clock op) es' ((c.step clock op).run clock ops) ∧
        ∀ e ∈ es', Own e := Ledger.local_run (h.step op) fun x hx => hops x (List.mem_cons_of_mem _ hx)
    refine ⟨es ++ es', hes.trans hes', fun e he => ?_⟩
    rcases List.mem_append.1 he with he | he
    · exact hpaired.own e he
    · exact hown e he

/-- What a node announces names no originator, is no heartbeat, and has ids
of its own. -/
structure Announcements (es : List MembershipEvent) : Prop where
  originator : ∀ e ∈ es, e.originator = none
  proper : ∀ e ∈ es, e.eventType ≠ .heartbeat
  ids : (es.map eventId).Nodup

theorem Announcements.of_run (h : Sane c) (hops : ∀ op ∈ ops, op.isLocal = true) :
    Announcements (c.announces clock ops) := by
  obtain ⟨es, hes, hown⟩ : ∃ es, Ledger c es (c.run clock ops) ∧ ∀ e ∈ es, Own e := Ledger.local_run h hops
  have hout : c.announces clock ops = gossiped (announcements c.snapshot es) := by
    rw [Coordinator.announces, hes.dispatched, List.drop_left]
  have hsub : (c.announces clock ops).Sublist es := by
    rw [hout]
    exact (List.filter_sublist.map _).trans (announcements_sublist es _)
  have hmem : ∀ e ∈ c.announces clock ops, e ∈ es ∧ e.eventType ≠ .heartbeat ∧ e.eventType ≠ .leaveRequested := by
    intro e he
    rw [hout] at he
    obtain ⟨q, hq, rfl⟩ := List.mem_map.1 he
    exact mem_of_mem_announcements (List.mem_of_mem_filter hq)
  have horig : ∀ e ∈ c.announces clock ops, e.originator = none := fun e he =>
    hown e (hmem e he).1 (hmem e he).2.1 (hmem e he).2.2
  refine ⟨horig, fun e he => (hmem e he).2.1, ?_⟩
  refine List.pairwise_map.2 ((hes.numbered.sorted.sublist hsub).imp_of_mem fun hx hy hlt hid => ?_)
  have hname := (eventId_eq_iff (horig _ hx) (horig _ hy)).1 hid
  exact hlt.ne hname.2.1

/-- Events with ids of their own are all applied by a node that has seen none
of the ids. -/
theorem applies_of_unseen : ∀ {es : List MembershipEvent} {b : DiscoveryNode}, (es.map eventId).Nodup →
    (∀ e ∈ es, eventId e ∉ b.seenEventIds) → b.Applies clock es
  | [], _, _, _ => trivial
  | e :: es, b, hids, hunseen => by
    have he := hunseen e (by simp)
    obtain ⟨hnew, hids⟩ := List.nodup_cons.1 hids
    refine ⟨he, applies_of_unseen hids fun x hx hseen => ?_⟩
    rw [handleGossip_new he] at hseen
    rcases Net.mem_markSeen hseen with hid | hseen
    · exact hnew (hid ▸ List.mem_map_of_mem hx)
    · exact hunseen x (List.mem_cons_of_mem _ hx) hseen

/-- A node that applies every event has the states after them. -/
theorem stateOf_receive : ∀ {es : List MembershipEvent} {b : DiscoveryNode}, Sane b.coordinator →
    (∀ e ∈ es, e.eventType ≠ .heartbeat) → b.Applies clock es →
      (b.receive clock es).coordinator.snapshot.stateOf = Roster.after b.coordinator.snapshot.stateOf es
  | [], _, _, _, _ => rfl
  | e :: es, b, h, hproper, happlies => by
    have hb : b.handleGossip clock e = ⟨b.coordinator.step clock (.remote e), _⟩ := handleGossip_new happlies.1
    have hsane : Sane (b.handleGossip clock e).coordinator := by
      rw [hb]
      exact h.step _
    have ih := stateOf_receive hsane (fun x hx => hproper x (List.mem_cons_of_mem _ hx)) happlies.2
    refine ih.trans ?_
    rw [hb, hear_remote h (hproper e (by simp))]
    rfl

theorem Synced.run {d₀ : List (MembershipEvent × MembershipDelta)} {b₀ : DiscoveryNode} : ∀ {ops : List Op}
    {c : Coordinator}, Synced clockB d₀ b₀ c → (∀ op ∈ ops, op.isLocal = true) → AllGossipSafe clock c ops →
      Synced clockB d₀ b₀ (c.run clock ops)
  | [], _, h, _, _ => h
  | op :: ops, c, h, hops, hsafe => by
    have hstep : Synced clockB d₀ b₀ (c.step clock op) := h.step (hops op (by simp)) hsafe.1
    have hrest : Synced clockB d₀ b₀ ((c.step clock op).run clock ops) :=
      Synced.run hstep (fun x hx => hops x (List.mem_cons_of_mem _ hx)) hsafe.2
    exact hrest

/-- **The announcements are the changes**, where every operation is such as
the others could be told of. -/
theorem stateOf_run (h : Sane c) (hops : ∀ op ∈ ops, op.isLocal = true) (hsafe : AllGossipSafe clock c ops) :
    (c.run clock ops).snapshot.stateOf = Roster.after c.snapshot.stateOf (c.announces clock ops) := by
  have hann : Announcements (c.announces clock ops) := .of_run h hops
  have hsync : Synced clock c.dispatched ⟨c, []⟩ (c.run clock ops) :=
    Synced.run ⟨h, [], by simp, fun _ => ⟨h, fun _ => rfl⟩⟩ hops hsafe
  obtain ⟨out, hout, hin⟩ := hsync.inStep
  have hsent : gossiped out = c.announces clock ops := by
    rw [Coordinator.announces, hout, List.drop_left]
  rw [envelopes_eq, hsent] at hin
  have hids : (((c.announces clock ops).map MembershipEvent.reread).map eventId).Nodup := by
    rw [List.map_map]
    exact hann.ids
  have hproper : ∀ e ∈ (c.announces clock ops).map MembershipEvent.reread, e.eventType ≠ .heartbeat := by
    intro e he
    obtain ⟨x, hx, rfl⟩ := List.mem_map.1 he
    exact hann.proper x hx
  have happlies : DiscoveryNode.Applies clock ⟨c, []⟩ ((c.announces clock ops).map MembershipEvent.reread) :=
    applies_of_unseen hids fun e _ => List.not_mem_nil
  funext u
  rw [(hin happlies).same u, stateOf_receive h hproper happlies, Roster.after_reread]

/-! ## What is followed -/

/-- A step by which a follower hears nothing. -/
structure Participant.Idle (p p' : Participant) : Prop where
  sane : Sane p'.node.coordinator
  states : p'.node.coordinator.snapshot.stateOf = p.node.coordinator.snapshot.stateOf
  seen : p'.node.seenEventIds = p.node.seenEventIds

theorem idle_call (h : Sane p.node.coordinator) (hop : op.isLocal = true ∧ GossipSafe p.node.coordinator op)
    (hsilent : p.Silent (p.moved (p.node.coordinator.step clock op)).1) :
    p.Idle (p.moved (p.node.coordinator.step clock op)).1 := by
  have hcoordinator : (p.moved (p.node.coordinator.step clock op)).1.node.coordinator =
      p.node.coordinator.step clock op := by
    unfold Participant.moved
    split <;> rfl
  unfold Participant.Silent at hsilent
  rw [hcoordinator] at hsilent
  have hnode := node_moved hsilent
  refine ⟨?_, ?_, ?_⟩
  · rw [hcoordinator]
    exact h.step op
  · rw [hcoordinator]
    exact stateOf_silent h hop.1 hop.2 hsilent
  · rw [hnode]

theorem idle_message (h : Sane p.node.coordinator) (hm : isQuiet D m.content = true)
    (hsilent : p.Silent (p.perform D clock v (.message m))) : p.Idle (p.perform D clock v (.message m)) := by
  rcases handleMessage_quiet clock v p hm with hp | hp
  · have hsame : p.perform D clock v (.message m) = p := hp
    rw [hsame]
    exact ⟨h, rfl, rfl⟩
  · have hcall : p.perform D clock v (.message m) =
        (p.moved (p.node.coordinator.step clock (.heartbeat m.sender))).1 := hp
    rw [hcall] at hsilent ⊢
    exact idle_call h ⟨rfl, trivial⟩ hsilent

/-- An announcement that is new. -/
theorem node_perform_gossip {key : Bytes} (hm : m.content = gossipContent D.floats key e)
    (hlimit : D.limit (gossipContent D.floats key e).toList = none) (hnew : eventId e ∉ p.node.seenEventIds) :
    (p.perform D clock v (.message m)).node =
      ⟨p.node.coordinator.step clock (.remote e.reread), (markSeen p.node.seenEventIds (eventId e)).1⟩ := by
  have hnode : (p.perform D clock v (.message m)).node = p.node.handleGossip clock e.reread := by
    show (p.handleMessage D clock v m.sender m.content).participant.node = _
    rw [hm, handleMessage_gossip D clock v p m.sender key e hlimit]
    rfl
  have hreread : eventId e.reread ∉ p.node.seenEventIds := hnew
  rw [hnode, handleGossip_new hreread]
  rfl

theorem Announcements.tail {es : List MembershipEvent} (h : Announcements (e :: es)) : Announcements es where
  originator x hx := h.originator x (List.mem_cons_of_mem _ hx)
  proper x hx := h.proper x (List.mem_cons_of_mem _ hx)
  ids := (List.nodup_cons.1 h.ids).2

/-- **A follower has the states after what it heard.** -/
theorem followed {key : Bytes} : ∀ {steps : List FollowerStep} {p : Participant} {es : List MembershipEvent},
    Sane p.node.coordinator → p.Follows D clock v steps →
    ((steps.filterMap FollowerStep.message?).map Message.content).filter (!isQuiet D ·) =
      es.map (gossipContent D.floats key) →
    (∀ e ∈ es, D.limit (gossipContent D.floats key e).toList = none) → Announcements es →
    (∀ e ∈ es, eventId e ∉ p.node.seenEventIds) →
      (p.performAll D clock v steps).node.coordinator.snapshot.stateOf =
        Roster.after p.node.coordinator.snapshot.stateOf es
  | [], p, es, _, _, hes, _, _, _ => by
    obtain rfl : es = [] := List.map_eq_nil_iff.1 hes.symm
    rfl
  | step :: steps, p, es, h, hf, hes, hlimit, hann, hunseen => by
    obtain ⟨hcall, hsilent, hf⟩ := hf
    have hidle (hidle : p.Idle (p.perform D clock v step))
        (hes : ((steps.filterMap FollowerStep.message?).map Message.content).filter (!isQuiet D ·) =
          es.map (gossipContent D.floats key)) :
        ((p.perform D clock v step).performAll D clock v steps).node.coordinator.snapshot.stateOf =
          Roster.after p.node.coordinator.snapshot.stateOf es := by
      rw [followed hidle.sane hf hes hlimit hann (hidle.seen ▸ hunseen), hidle.states]
    cases step with
    | call op => exact hidle (idle_call h (hcall op rfl) hsilent) hes
    | message m =>
      rw [List.filterMap_cons_some (show (FollowerStep.message m).message? = some m from rfl), List.map_cons] at hes
      by_cases hm : isQuiet D m.content = true
      · rw [List.filter_cons_of_neg (by simp [hm])] at hes
        exact hidle (idle_message h hm hsilent) hes
      · rw [List.filter_cons_of_pos (by simp [hm])] at hes
        cases es with
        | nil => cases hes
        | cons e es =>
          obtain ⟨hcontent, hes⟩ := List.cons.inj hes
          have hnode : (p.perform D clock v (.message m)).node =
              ⟨p.node.coordinator.step clock (.remote e.reread), (markSeen p.node.seenEventIds (eventId e)).1⟩ :=
            node_perform_gossip hcontent (hlimit e (by simp)) (hunseen e (by simp))
          have ih := followed (by rw [hnode]; exact h.step _) hf hes
            (fun x hx => hlimit x (List.mem_cons_of_mem _ hx)) hann.tail fun x hx hseen => by
              rw [hnode] at hseen
              rcases Net.mem_markSeen hseen with hid | hseen
              · exact (List.nodup_cons.1 hann.ids).1 (hid ▸ List.mem_map_of_mem hx)
              · exact hunseen x (List.mem_cons_of_mem _ hx) hseen
          have hproper : e.reread.eventType ≠ .heartbeat := hann.proper e (by simp)
          refine ih.trans ?_
          rw [hnode, hear_remote h hproper]
          rfl

theorem Announcements.sublist {es es' : List MembershipEvent} (h : Announcements es) (hsub : es'.Sublist es) :
    Announcements es' where
  originator e he := h.originator e (hsub.subset he)
  proper e he := h.proper e (hsub.subset he)
  ids := h.ids.sublist (hsub.map _)

/-! ## The room -/

section

variable {room : Finset String} {peers : String → List Peer} {timeout : String → Time} {es : List LinkEvent}
  {a b : String}

/-- All that is not quiet comes from the node that announces. -/
theorem heard_from (hsender : ∀ a m, .doBroadcast a m ∈ es → a ∈ room ∧ m.sender = a)
    (hquiet : ∀ o m, .doBroadcast o m ∈ es → o ≠ a → isQuiet D m.content = true) :
    ((((Links.new timeout).run room peers es).node b).handed.map Message.content).filter (!isQuiet D ·) =
      (((((Links.new timeout).run room peers es).node b).handed.filter (·.sender = a)).map Message.content).filter
        (!isQuiet D ·) := by
  rw [List.filter_map, List.filter_map, List.filter_filter]
  refine congrArg _ (List.filter_congr fun m hm => ?_)
  obtain ⟨o, x, hx, hmx⟩ := Links.broadcast_of_handed b hm
  have hcontent : m.content = x.content := by rw [hmx]
  have ho : m.sender = o := by
    rw [hmx]
    exact (hsender o x hx).2
  by_cases ha : o = a
  · simp [ho, ha]
  · simp [hcontent, hquiet o x hx ha]

end

/-- The coordinator of `a:1`, which `c:1` joins. -/
def host : Coordinator := .new ⟨"room", some "a:1", 1⟩ Dict.empty

def visitors : List Op := [.join "c:1" "C" none none .accepts, .heartbeat "c:1"]

def hostAndGuest (_ : String) : List Peer := [("a", 1), ("b", 2)]

/-- A message with one hop. -/
def letter (content i a : String) : Message := ⟨content, a, i, 0, "", 1, Dict.empty⟩

/-- What `a:1` gossips of its visitors. -/
def invitation : String := gossipContent Decoding.plain.floats [] (Net.firstJoin 0)

/-- `b:2` chats, and the gossip of `a:1` gets to it at the second attempt. -/
def invited : List LinkEvent :=
  [.doBroadcast "b:2" (letter "hi" "m1" "b:2"), .doBroadcast "a:1" (letter invitation "m2" "a:1"),
    .fail "a:1" ("b", 2) 0, .handleWs "b:2" ("a", 1) 0, .acknowledge "b:2" ("a", 1) 0, .receive 0 0 0,
    .flush "a:1" ("b", 2), .handleWs "a:1" ("b", 2) 0, .acknowledge "a:1" ("b", 2) 0, .receive 0 0 0]

/-- The node `b:2`, which has heard nothing. -/
def guest : Participant := ⟨⟨.new ⟨"room", some "b:2", 1⟩ Dict.empty, []⟩, true, Dict.empty⟩

/-- It handles both messages, and ticks in between. -/
def attends : List FollowerStep :=
  [.message { letter "hi" "m1" "b:2" with vectorClock := Dict.empty.set "b:2" 1 }, .call .tick,
    .message { letter invitation "m2" "a:1" with vectorClock := Dict.empty.set "a:1" 1 }]

theorem announces_visitors : host.announces still visitors = [Net.firstJoin 0] := by decide +kernel

theorem follows_attends : guest.Follows Decoding.plain still .accepts attends := by
  have hheard (p : Participant) : p.handleMessage Decoding.plain still .accepts "a:1" invitation =
      .returned true none { p with node := p.node.handleGossip still (Net.firstJoin 0).reread } [] :=
    handleMessage_gossip Decoding.plain still .accepts p "a:1" [] (Net.firstJoin 0) rfl
  refine ⟨fun op h => ?_, ?_, fun op h => ?_, ?_, fun op h => ?_, ?_, trivial⟩
  · cases h
  · unfold Participant.Silent
    decide +kernel
  · cases h
    exact ⟨rfl, trivial⟩
  · unfold Participant.Silent
    decide +kernel
  · cases h
  · unfold Participant.Silent
    simp only [Participant.perform, letter, hheard]
    decide +kernel

theorem broadcast_invited {o : String} {m : Message} (h : .doBroadcast o m ∈ invited) :
    (o, m) ∈ [("b:2", letter "hi" "m1" "b:2"), ("a:1", letter invitation "m2" "a:1")] := by
  simpa [invited] using h

/-- The guest handles what it is handed: a message has the content that its
sender gave it, and the rest is evaluated. -/
theorem handed_invited : attends.filterMap FollowerStep.message? =
    (((Links.new fun _ => 5).run {"a:1", "b:2"} hostAndGuest invited).node "b:2").handed := by
  have hrest : (attends.filterMap FollowerStep.message?).map (fun m => { m with content := "" }) =
      (((Links.new fun _ => 5).run {"a:1", "b:2"} hostAndGuest invited).node "b:2").handed.map
        fun m => { m with content := "" } := by
    decide +kernel
  have hcontent : ∀ m ∈ (((Links.new fun _ => 5).run {"a:1", "b:2"} hostAndGuest invited).node "b:2").handed,
      { m with content := if m.sender = "b:2" then "hi" else invitation } = m := by
    intro m hm
    obtain ⟨o, x, hx, hmx⟩ := Links.broadcast_of_handed "b:2" hm
    have hin := broadcast_invited hx
    simp only [List.mem_cons, Prod.mk.injEq, List.not_mem_nil, or_false] at hin
    rcases hin with hin | hin
    · rw [hmx, hin.2]
      rfl
    · rw [hmx, hin.2]
      rfl
  have hmap := congrArg (List.map fun m => { m with content := if m.sender = "b:2" then "hi" else invitation }) hrest
  rw [List.map_map, List.map_map] at hmap
  exact hmap.trans ((List.map_congr_left hcontent).trans (List.map_id _))

end PeerChat.Membership
