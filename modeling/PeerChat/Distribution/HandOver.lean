/-
What `on_message` gets (`BroadcastNode` of `distribution/broadcast_node.py`).

Two of the three release paths hand over a copy with the content decrypted
(`_message_for_ui`), the periodic drain hands over the message as it came:
`opened_iff`, a received box is handed over as its plaintext, by the same
message whatever the path, as long as no periodic round releases one.

A released batch has left the queue and is merged into the clock before the
first `on_message` runs, and nothing catches what that raises:
`deliveries_survive_iff`, the exact runs in which a callback that raises on
some messages affects no other one.
-/
import PeerChat.Distribution.BroadcastNode

namespace PeerChat.BroadcastNode

open Lib

/-! ## Decrypted content -/

/-- An encrypted content that this node can open. -/
def IsBox (sec : Security) (address pem : String) (m : Message) (plain : String) : Prop :=
  sec.isEncryptedContent m.content = true ∧ sec.decryptPayload m.content address pem = some plain

/-- The call finds this security package. -/
def Call.Uses (sec : Security) : Call → Prop
  | .receive env _ _ _ | .applyVcSync env _ _ => env.security = some sec
  | .doBroadcast _ _ | .holdbackDrain _ => True

/-- The message of a peer that a call accepts. -/
def Run.receivedBy (r : Run) : Call → List Message
  | .receive env addedAt now m => if (r.node.receive env addedAt now m).2.2 then [m] else []
  | .doBroadcast _ _ | .applyVcSync _ _ _ | .holdbackDrain _ => []

/-- The messages of peers that a run accepts. -/
def Run.received (r : Run) : List Call → List Message
  | [] => []
  | c :: calls => r.receivedBy c ++ (r.step c).received calls

/-- Each received box was handed over as its plaintext. -/
def Opened (sec : Security) (address pem : String) (received handed : List Message) : Prop :=
  ∀ m ∈ received, ∀ plain, IsBox sec address pem m plain →
    ∀ h ∈ handed, h.id = m.id → h = { m with content := plain }

/-- No periodic round of the run releases a box for this node. -/
def Run.DrainsNoBox (sec : Security) (pem : String) (r : Run) : List Call → Prop
  | [] => True
  | c :: calls =>
    (match c with
      | .holdbackDrain now => ∀ m ∈ (r.node.holdBack.drain now r.node.vc).released, ∀ plain,
          ¬ IsBox sec r.node.address pem m plain
      | _ => True) ∧
    (r.step c).DrainsNoBox sec pem calls

section

variable {sec : Security} {address pem : String} {r : Run} {c : Call} {received : List Message}

theorem messageForUi_of_isBox {env : NodeEnv} {n : BroadcastNode} {m : Message} {plain : String}
    (hsec : env.security = some sec) (hpem : sec.getPrivateKeyPem = some pem) (hb : IsBox sec n.address pem m plain) :
    messageForUi env n m = { m with content := plain } := by
  simp only [messageForUi, decryptInto, hsec, hpem, hb.1, hb.2, if_true]

/-- A message a run has received is accepted, and what it holds it has
received. -/
structure Run.Holds (address : String) (received : List Message) (r : Run) : Prop where
  inv : r.Inv
  address : r.node.address = address
  accepted : ∀ m ∈ received, m ∈ r.accepted
  held : ∀ m ∈ r.node.held, m ∈ received

/-- What was handed over: copies for the UI, other messages as they came,
and messages of the node itself. -/
def Shown (sec : Security) (address pem : String) (received accepted handed : List Message) : Prop :=
  ∀ h ∈ handed, (∃ m ∈ received, SameMessage h m ∧ ∀ plain, IsBox sec address pem m plain → h.content = plain) ∨
    h ∈ accepted ∧ h ∉ received

theorem Run.Holds.step (h : r.Holds address received) (c : Call) :
    (r.step c).Holds address (received ++ r.receivedBy c) := by
  have hinv := h.inv.step c
  cases c with
  | receive env addedAt now m =>
    rcases r.node.receive_cases env addedAt now m with ⟨-, he⟩ | ⟨hnew, n₂, d, hacc, he⟩
    · simpa [Run.step, Run.receivedBy, he] using h
    · have hperm := accept_perm ({ r.node with seen := insert m.id r.node.seen }) addedAt now m
      have haddr := accept_address ({ r.node with seen := insert m.id r.node.seen }) addedAt now m
      rw [hacc] at hperm haddr
      simp only [Run.step, Run.receivedBy, he, if_true] at hinv ⊢
      refine ⟨hinv, haddr.trans h.address, fun x hx => ?_, fun x hx => ?_⟩
      · rcases List.mem_append.1 hx with hx | hx
        · exact List.mem_append_left _ (h.accepted x hx)
        · exact List.mem_append_right _ hx
      · rcases List.mem_cons.1 (hperm.subset (List.mem_append_right _ hx)) with rfl | hx
        · simp
        · exact List.mem_append_left _ (h.held x hx)
  | doBroadcast env m =>
    rcases r.node.doBroadcast_cases env m with ⟨-, he⟩ | ⟨-, -, he⟩ | ⟨-, signed, -, sent, he, -⟩
    · simpa [Run.step, Run.receivedBy, he] using h
    · simp only [Run.step, Run.receivedBy, he, List.append_nil, Bool.false_eq_true, if_false] at hinv ⊢
      exact ⟨hinv, h.address, h.accepted, h.held⟩
    · simp only [Run.step, Run.receivedBy, he, List.append_nil, if_true] at hinv ⊢
      exact ⟨hinv, h.address, fun x hx => List.mem_append_left _ (h.accepted x hx), h.held⟩
  | applyVcSync env now vc =>
    simp only [Run.step, Run.receivedBy, applyVcSync, List.append_nil] at hinv ⊢
    refine ⟨hinv, h.address, h.accepted, fun x hx => h.held x ?_⟩
    exact (HoldBackQueue.drain_perm r.node.holdBack now _).subset (List.mem_append_right _ hx)
  | holdbackDrain now =>
    simp only [Run.step, Run.receivedBy, holdbackDrain, List.append_nil] at hinv ⊢
    split
    · simpa using h
    · next hq =>
      rw [if_neg hq] at hinv
      refine ⟨hinv, h.address, h.accepted, fun x hx => h.held x ?_⟩
      exact (HoldBackQueue.drain_perm r.node.holdBack now _).subset (List.mem_append_right _ hx)

theorem Shown.append {received' accepted accepted' handed : List Message}
    (h : Shown sec address pem received accepted handed) (hr : received ⊆ received') (ha : accepted ⊆ accepted')
    (hnew : ∀ m ∈ accepted, m ∈ received' → m ∈ received) {more : List Message}
    (hmore : Shown sec address pem received' accepted' more) :
    Shown sec address pem received' accepted' (handed ++ more) := by
  intro x hx
  rcases List.mem_append.1 hx with hx | hx
  · rcases h x hx with ⟨m, hm, hs⟩ | ⟨hacc, hnot⟩
    · exact .inl ⟨m, hr hm, hs⟩
    · exact .inr ⟨ha hacc, fun hin => hnot (hnew x hacc hin)⟩
  · exact hmore x hx

theorem shown_messageForUi {env : NodeEnv} {n : BroadcastNode} (hsec : env.security = some sec)
    (hpem : sec.getPrivateKeyPem = some pem) {accepted out : List Message} (hout : out ⊆ received) :
    Shown sec n.address pem received accepted (out.map (messageForUi env n)) := by
  intro x hx
  obtain ⟨m, hm, rfl⟩ := List.mem_map.1 hx
  refine .inl ⟨m, hout hm, messageForUi_same env n m, fun plain hb => ?_⟩
  rw [messageForUi_of_isBox hsec hpem hb]

/-- One call, which is no periodic round that releases a box. -/
theorem Shown.step (hh : r.Holds address received) (h : Shown sec address pem received r.accepted r.handed)
    (huses : c.Uses sec) (hpem : sec.getPrivateKeyPem = some pem) (hclear : r.DrainsNoBox sec pem [c]) :
    Shown sec address pem (received ++ r.receivedBy c) (r.step c).accepted (r.step c).handed := by
  have haddr := hh.address
  subst haddr
  cases c with
  | receive env addedAt now m =>
    rcases r.node.receive_cases env addedAt now m with ⟨-, he⟩ | ⟨hnew, n₂, d, hacc, he⟩
    · simpa [Run.step, Run.receivedBy, he] using h
    · have hperm := accept_perm ({ r.node with seen := insert m.id r.node.seen }) addedAt now m
      have haddr := accept_address ({ r.node with seen := insert m.id r.node.seen }) addedAt now m
      rw [hacc] at hperm haddr
      simp only [Run.step, Run.receivedBy, he, if_true]
      refine h.append (List.subset_append_left _ _) (List.subset_append_left _ _) (fun x hx hin => ?_) ?_
      · rcases List.mem_append.1 hin with hin | hin
        · exact hin
        · cases List.mem_singleton.1 hin
          exact absurd (hh.inv.seen m hx) hnew
      · replace haddr : n₂.address = r.node.address := haddr
        rw [← haddr]
        refine shown_messageForUi huses hpem fun x hx => ?_
        rcases List.mem_cons.1 (hperm.subset (List.mem_append_left _ hx)) with rfl | hx
        · simp
        · exact List.mem_append_left _ (hh.held x hx)
  | doBroadcast env m =>
    rcases r.node.doBroadcast_cases env m with ⟨-, he⟩ | ⟨-, -, he⟩ | ⟨hnew, signed, hsign, sent, he, -⟩
    · simpa [Run.step, Run.receivedBy, he] using h
    · simpa [Run.step, Run.receivedBy, he] using h
    · have hid : (r.node.stamped signed).id = m.id := by
        have := congrArg Message.id (signOutgoing_same hsign)
        exact this
      simp only [Run.step, Run.receivedBy, he, List.append_nil, if_true]
      refine h.append (fun _ hx => hx) (List.subset_append_left _ _) (fun _ _ hx => hx) fun x hx => ?_
      cases List.mem_singleton.1 hx
      refine .inr ⟨List.mem_append_right _ hx, fun hin => hnew ?_⟩
      rw [← hid]
      exact hh.inv.seen _ (hh.accepted _ hin)
  | applyVcSync env now vc =>
    simp only [Run.step, Run.receivedBy, applyVcSync, List.append_nil]
    refine h.append (fun _ hx => hx) (fun _ hx => hx) (fun _ _ hx => hx) ?_
    refine shown_messageForUi (n := r.node.drained _) huses hpem fun x hx => hh.held x ?_
    exact (HoldBackQueue.drain_perm r.node.holdBack now _).subset (List.mem_append_left _ hx)
  | holdbackDrain now =>
    simp only [Run.step, Run.receivedBy, holdbackDrain, List.append_nil]
    split
    · simpa using h
    · refine h.append (fun _ hx => hx) (fun _ hx => hx) (fun _ _ hx => hx) fun x hx => ?_
      refine .inl ⟨x, hh.held x ?_, .refl x, fun plain hb => absurd hb (hclear.1 x hx plain)⟩
      exact (HoldBackQueue.drain_perm r.node.holdBack now _).subset (List.mem_append_left _ hx)

/-- What was handed over, with the ids told apart. -/
theorem Shown.opened (hh : r.Holds address received) (h : Shown sec address pem received r.accepted r.handed) :
    Opened sec address pem received r.handed := by
  intro m hm plain hb x hx hid
  have hinj {a : Message} (ha : a ∈ r.accepted) (hida : a.id = m.id) : a = m :=
    List.inj_on_of_nodup_map hh.inv.nodup ha (hh.accepted m hm) hida
  rcases h x hx with ⟨m', hm', hs, hcontent⟩ | ⟨hacc, hnot⟩
  · obtain rfl := hinj (hh.accepted m' hm') (hs.id.symm.trans hid)
    rw [← hcontent plain hb]
    unfold SameMessage at hs
    rw [← hs]
  · exact absurd (hinj hacc hid ▸ hm) hnot

/-- What a periodic round releases is handed over as it came. -/
theorem handed_of_drained (hh : r.Holds address received) {now : Time} {m : Message}
    (hm : m ∈ (r.node.holdBack.drain now r.node.vc).released) :
    m ∈ received ∧ m ∈ (r.step (.holdbackDrain now)).handed := by
  have hheld := (HoldBackQueue.drain_perm r.node.holdBack now r.node.vc).subset (List.mem_append_left _ hm)
  refine ⟨hh.held m hheld, ?_⟩
  have hq : r.node.holdBack.queue.isEmpty = false := by
    obtain ⟨e, he, -⟩ := List.mem_map.1 hheld
    exact List.isEmpty_eq_false_iff_exists_mem.2 ⟨e, he⟩
  simp only [Run.step, holdbackDrain, hq, Bool.false_eq_true, if_false]
  exact List.mem_append_right _ hm

theorem handed_subset_step (r : Run) (c : Call) : r.handed ⊆ (r.step c).handed := by
  cases c <;> exact List.subset_append_left _ _

theorem handed_subset_foldl : ∀ (calls : List Call) (r : Run), r.handed ⊆ (calls.foldl Run.step r).handed
  | [], _ => fun _ h => h
  | c :: calls, r => fun _ h => handed_subset_foldl calls (r.step c) (handed_subset_step r c h)

/-- The whole run, from what it has received and handed over so far. -/
theorem Shown.foldl (hpem : sec.getPrivateKeyPem = some pem) :
    ∀ {calls : List Call} {r : Run} {received : List Message},
    r.Holds address received → Shown sec address pem received r.accepted r.handed → (∀ c ∈ calls, c.Uses sec) →
    r.DrainsNoBox sec pem calls →
    Opened sec address pem (received ++ r.received calls) (calls.foldl Run.step r).handed
  | [], r, received, hh, h, _, _ => by
    rw [Run.received, List.append_nil]
    exact h.opened hh
  | c :: calls, r, received, hh, h, huses, hclear => by
    rw [Run.received, ← List.append_assoc]
    exact Shown.foldl hpem (hh.step c) (h.step hh (huses c (by simp)) hpem ⟨hclear.1, trivial⟩)
      (fun c' hc' => huses c' (by simp [hc'])) hclear.2

/-- A run with all received boxes opened. A box is never its own plaintext. -/
theorem Opened.drainsNoBox (hbox : ∀ m plain, IsBox sec address pem m plain → plain ≠ m.content) :
    ∀ {calls : List Call} {r : Run} {received : List Message}, r.Holds address received →
    Opened sec address pem (received ++ r.received calls) (calls.foldl Run.step r).handed →
    r.DrainsNoBox sec pem calls
  | [], _, _, _, _ => trivial
  | c :: calls, r, received, hh, h => by
    rw [Run.received, ← List.append_assoc] at h
    refine ⟨?_, Opened.drainsNoBox hbox (hh.step c) h⟩
    cases c with
    | holdbackDrain now =>
      intro m hm plain hb
      rw [hh.address] at hb
      obtain ⟨hreceived, hhanded⟩ := handed_of_drained hh hm
      have hlater := handed_subset_foldl calls _ hhanded
      have he := h m (List.mem_append_left _ (List.mem_append_left _ hreceived)) plain hb m hlater rfl
      exact hbox m plain hb (congrArg Message.content he).symm
    | receive | doBroadcast | applyVcSync => trivial

end

/-- **Every release path hands over the same**, for two runs of a node: the
received boxes are handed over as their plaintexts, and the same in both,
exactly when no periodic round releases a box. -/
theorem opened_iff {sec : Security} {address pem : String} (hpem : sec.getPrivateKeyPem = some pem)
    (hbox : ∀ m plain, IsBox sec address pem m plain → plain ≠ m.content) (timeout timeout' : Time)
    {calls calls' : List Call} (huses : ∀ c ∈ calls, c.Uses sec) (huses' : ∀ c ∈ calls', c.Uses sec) :
    let start : Run := ⟨new address timeout, [], []⟩
    let start' : Run := ⟨new address timeout', [], []⟩
    (Opened sec address pem (start.received calls) (run address timeout calls).handed ∧
      Opened sec address pem (start'.received calls') (run address timeout' calls').handed ∧
      ∀ m ∈ start.received calls, m ∈ start'.received calls' → ∀ plain, IsBox sec address pem m plain →
        ∀ h ∈ (run address timeout calls).handed, ∀ h' ∈ (run address timeout' calls').handed,
          h.id = m.id → h'.id = m.id → h = h') ↔
    start.DrainsNoBox sec pem calls ∧ start'.DrainsNoBox sec pem calls' := by
  intro start start'
  have hstart (t : Time) : Run.Holds address [] ⟨new address t, [], []⟩ :=
    ⟨.init address t, rfl, by simp, by simp [new, BroadcastNode.held]⟩
  have hshown : Shown sec address pem [] [] [] := by simp [Shown]
  constructor
  · intro h
    exact ⟨Opened.drainsNoBox hbox (hstart timeout) h.1, Opened.drainsNoBox hbox (hstart timeout') h.2.1⟩
  · intro h
    have hopen : Opened sec address pem (start.received calls) (run address timeout calls).handed :=
      Shown.foldl hpem (hstart timeout) hshown huses h.1
    have hopen' : Opened sec address pem (start'.received calls') (run address timeout' calls').handed :=
      Shown.foldl hpem (hstart timeout') hshown huses' h.2
    refine ⟨hopen, hopen', fun m hm hm' plain hb x hx x' hx' hid hid' => ?_⟩
    rw [hopen m hm plain hb x hx hid, hopen' m hm' plain hb x' hx' hid']

/-- A content with a box for `c:1`. -/
def boxed : String := "\x7b\"v\":\"pcenc-h1\",\"boxes\":\x7b\"c:1\":\"AQID\"\x7d\x7d"

/-- A security package that opens this box. -/
def boxOpener : Security where
  sign _ := some "s"
  isEncryptedContent content := content = boxed
  getPrivateKeyPem := some "pem"
  decryptPayload content address _ := if content = boxed ∧ address = "c:1" then some "hi" else none

/-- The first and the second message of `a:1`. -/
def first : Message := ⟨"hello", "a:1", "m1", 0, "s", 0, (Dict.empty : VectorClock).set "a:1" 1⟩

def second : Message := ⟨boxed, "a:1", "m2", 1, "s", 0, (Dict.empty : VectorClock).set "a:1" 2⟩

def boxEnv : NodeEnv := ⟨true, some boxOpener, []⟩

theorem plain_ne_boxed (m : Message) (plain : String) (h : IsBox boxOpener "c:1" "pem" m plain) :
    plain ≠ m.content := by
  obtain ⟨hc, hp⟩ := h
  simp only [boxOpener, decide_eq_true_eq] at hc hp
  rw [hc] at hp ⊢
  simp only [true_and, if_true, Option.some.injEq] at hp
  rw [← hp]
  decide

/-- The second message ready on arrival, and after the first one. -/
theorem opened_iff_cascade :
    let calls : List Call := [.receive boxEnv 0 0 first, .receive boxEnv 1 1 second]
    let calls' : List Call := [.receive boxEnv 0 0 second, .receive boxEnv 1 1 first]
    let start : Run := ⟨new "c:1" 5, [], []⟩
    Opened boxOpener "c:1" "pem" (start.received calls) (run "c:1" 5 calls).handed ∧
      Opened boxOpener "c:1" "pem" (start.received calls') (run "c:1" 5 calls').handed ∧
      ∀ m ∈ start.received calls, m ∈ start.received calls' → ∀ plain, IsBox boxOpener "c:1" "pem" m plain →
        ∀ h ∈ (run "c:1" 5 calls).handed, ∀ h' ∈ (run "c:1" 5 calls').handed,
          h.id = m.id → h'.id = m.id → h = h' := by
  intro calls calls' start
  have hpem : boxOpener.getPrivateKeyPem = some "pem" := rfl
  exact (opened_iff hpem plain_ne_boxed 5 5 (by simp [calls, Call.Uses, boxEnv])
    (by simp [calls', Call.Uses, boxEnv])).2 ⟨⟨trivial, trivial, trivial⟩, trivial, trivial, trivial⟩

/-- **A box the periodic drain releases is handed over as it came.** -/
theorem ciphertext_handed :
    let calls : List Call := [.receive boxEnv 0 0 second, .holdbackDrain 6]
    IsBox boxOpener "c:1" "pem" second "hi" ∧
      ¬ Opened boxOpener "c:1" "pem" ((⟨new "c:1" 5, [], []⟩ : Run).received calls) (run "c:1" 5 calls).handed := by
  refine ⟨⟨by decide, by decide⟩, fun h => ?_⟩
  have he := h second (by decide) "hi" ⟨by decide, by decide⟩ second (by decide) rfl
  exact absurd (congrArg Message.content he) (by decide)

/-! ## A callback that raises -/

/-- The loop over a batch, with an `on_message` that raises on some
messages: the messages it was called on, and whether it raised. -/
def handOver (raises : Message → Bool) : List Message → List Message × Bool
  | [] => ([], false)
  | m :: ms =>
    if raises m then ([m], true)
    else
      let (passed, raised) := handOver raises ms
      (m :: passed, raised)

/-- The event loop of a node: `draining` while `_holdback_drain_task` runs. -/
structure EventLoop where
  node : BroadcastNode
  draining : Bool

/-- `_receive` with this callback. -/
def receiveRaising (raises : Message → Bool) (env : NodeEnv) (n : BroadcastNode) (addedAt now : Time) (m : Message) :
    BroadcastNode × Effect :=
  match n.deduplicate m.id with
  | none => (n, ⟨[], []⟩)
  | some n₁ =>
    let (n₂, toDeliver) := n₁.accept addedAt now m
    let (passed, raised) := handOver raises (toDeliver.map (messageForUi env n₂))
    (n₂, ⟨passed, if raised then [] else forwardReceived env n₂ m⟩)

/-- `_do_broadcast` with this callback. -/
def doBroadcastRaising (raises : Message → Bool) (env : NodeEnv) (n : BroadcastNode) (m : Message) :
    BroadcastNode × Effect :=
  let (n', eff, _) := n.doBroadcast env m
  let (passed, raised) := handOver raises eff.handed
  (n', ⟨passed, if raised then [] else eff.sent⟩)

/-- `_apply_vc_sync` with this callback. -/
def applyVcSyncRaising (raises : Message → Bool) (env : NodeEnv) (n : BroadcastNode) (now : Time) (vc : VectorClock) :
    BroadcastNode × Effect :=
  let d := n.holdBack.drain now (n.vc.merge vc)
  let n' := n.drained d
  (n', ⟨(handOver raises (d.released.map (messageForUi env n'))).1, []⟩)

/-- A round of `_holdback_drain_task` with this callback. What it raises
ends the task, and there is no round afterwards. -/
def EventLoop.drainRaising (raises : Message → Bool) (l : EventLoop) (now : Time) : EventLoop × Effect :=
  if !l.draining || l.node.holdBack.queue.isEmpty then (l, ⟨[], []⟩)
  else
    let d := l.node.holdBack.drain now l.node.vc
    let (passed, raised) := handOver raises d.released
    (⟨l.node.drained d, !raised⟩, ⟨passed, []⟩)

def EventLoop.step (raises : Message → Bool) (l : EventLoop) : Call → EventLoop × Effect
  | .receive env addedAt now m =>
    let (n, eff) := l.node.receiveRaising raises env addedAt now m
    ({ l with node := n }, eff)
  | .doBroadcast env m =>
    let (n, eff) := l.node.doBroadcastRaising raises env m
    ({ l with node := n }, eff)
  | .applyVcSync env now vc =>
    let (n, eff) := l.node.applyVcSyncRaising raises env now vc
    ({ l with node := n }, eff)
  | .holdbackDrain now => l.drainRaising raises now

/-- The message a call accepts from a peer. -/
def Call.accepted (n : BroadcastNode) : Call → List Message
  | .receive _ _ _ m => if m.id ∈ n.seen then [] else [m]
  | .doBroadcast _ _ | .applyVcSync _ _ _ | .holdbackDrain _ => []

/-- The sends that are due for it. -/
def Call.forwards (n : BroadcastNode) : Call → List (Peer × Message)
  | .receive env _ _ m => if m.id ∈ n.seen then [] else forwardReceived env n m
  | .doBroadcast _ _ | .applyVcSync _ _ _ | .holdbackDrain _ => []

/-- A call of one of the release paths did its work: each message that was
accepted or left the queue was passed to `on_message` once, the message is
forwarded, and the periodic drain goes on. -/
structure Call.Sound (raises : Message → Bool) (l : EventLoop) (c : Call) : Prop where
  delivered : ((l.step raises c).2.handed.map Message.id ++ (l.step raises c).1.node.held.map Message.id).Perm
    ((c.accepted l.node ++ l.node.held).map Message.id)
  forwarded : (l.step raises c).2.sent = c.forwards l.node
  draining : (l.step raises c).1.draining = true

/-- The messages that a call of one of the release paths is to pass to
`on_message`. -/
def Call.batch (n : BroadcastNode) : Call → List Message
  | .receive env addedAt now m =>
    if m.id ∈ n.seen then [] else (n.accept addedAt now m).2.map (messageForUi env n)
  | .doBroadcast _ _ => []
  | .applyVcSync env now vc => (n.holdBack.drain now (n.vc.merge vc)).released.map (messageForUi env n)
  | .holdbackDrain now => if n.holdBack.queue.isEmpty then [] else (n.holdBack.drain now n.vc).released

/-- The callback raises on none of the messages, or only on the last one
with nothing left to do after it: nothing to forward, no further round. -/
def Call.Spared (raises : Message → Bool) (n : BroadcastNode) (c : Call) : Prop :=
  (∀ m ∈ (c.batch n).dropLast, raises m = false) ∧
    (c.forwards n = [] ∧ (∀ now, c ≠ .holdbackDrain now) ∨ ∀ m ∈ c.batch n, raises m = false)

/-- Each call of a run that is no local broadcast is sound. -/
def EventLoop.AllSound (raises : Message → Bool) (l : EventLoop) : List Call → Prop
  | [] => True
  | c :: calls => ((∀ env m, c ≠ .doBroadcast env m) → c.Sound raises l) ∧ (l.step raises c).1.AllSound raises calls

def EventLoop.AllSpared (raises : Message → Bool) (l : EventLoop) : List Call → Prop
  | [] => True
  | c :: calls => c.Spared raises l.node ∧ (l.step raises c).1.AllSpared raises calls

section

variable {raises : Message → Bool} {n : BroadcastNode}

theorem handOver_initial : ∀ ms : List Message, (handOver raises ms).1 <+: ms
  | [] => List.prefix_refl _
  | m :: ms => by
    unfold handOver
    split
    · simp
    · exact (List.prefix_cons_inj m).2 (handOver_initial ms)

theorem handOver_raised : ∀ ms : List Message, (handOver raises ms).2 = false ↔ ∀ m ∈ ms, raises m = false
  | [] => by simp [handOver]
  | m :: ms => by
    unfold handOver
    split
    · next h => simp [h]
    · next h => simpa [h] using handOver_raised ms

theorem handOver_all : ∀ ms : List Message, (handOver raises ms).1 = ms ↔ ∀ m ∈ ms.dropLast, raises m = false
  | [] => by simp [handOver]
  | [m] => by
    unfold handOver
    split <;> simp [handOver]
  | m :: m' :: ms => by
    unfold handOver
    split
    · next h => simp [h]
    · next h =>
      have := handOver_all (m' :: ms)
      simp only [List.cons.injEq, true_and, List.dropLast_cons_cons, List.mem_cons, forall_eq_or_imp, h]
      exact this

/-- All were passed on when as many were. -/
theorem handOver_of_length {ms : List Message} (h : (handOver raises ms).1.length = ms.length) :
    (handOver raises ms).1 = ms :=
  (handOver_initial ms).eq_of_length h

theorem map_id_messageForUi (env : NodeEnv) (n : BroadcastNode) (ms : List Message) :
    (ms.map (messageForUi env n)).map Message.id = ms.map Message.id := by
  rw [List.map_map]
  exact List.map_congr_left fun m _ => (messageForUi_same env n m).id

/-- Whether an id was seen makes no difference to the causal part. -/
theorem accept_insert (n : BroadcastNode) (i : String) (addedAt now : Time) (m : Message) :
    ({ n with seen := insert i n.seen }).accept addedAt now m =
      ({ (n.accept addedAt now m).1 with seen := insert i n.seen }, (n.accept addedAt now m).2) := by
  unfold accept
  dsimp only
  split <;> rfl

/-- With a callback that never raises, the calls are those of a run. -/
theorem EventLoop.step_of_quiet (r : Run) (c : Call) :
    let l := (EventLoop.mk r.node true).step (fun _ => false) c
    (r.step c).node = l.1.node ∧ (r.step c).handed = r.handed ++ l.2.handed := by
  have hquiet (ms : List Message) : handOver (fun _ => false) ms = (ms, false) := by
    induction ms with
    | nil => rfl
    | cons m ms ih => simp [handOver, ih]
  cases c with
  | receive env addedAt now m =>
    simp only [Run.step, EventLoop.step, receive, receiveRaising, hquiet]
    cases r.node.deduplicate m.id with
    | none => exact ⟨rfl, rfl⟩
    | some n₁ => exact ⟨rfl, rfl⟩
  | doBroadcast env m => simp [Run.step, EventLoop.step, doBroadcastRaising, hquiet]
  | applyVcSync env now vc => simp [Run.step, EventLoop.step, applyVcSync, applyVcSyncRaising, hquiet]
  | holdbackDrain now =>
    simp only [Run.step, EventLoop.step, holdbackDrain, EventLoop.drainRaising, hquiet, Bool.not_true, Bool.false_or]
    split <;> exact ⟨rfl, rfl⟩

/-- What a call does, read off the batch. -/
structure Call.Does (raises : Message → Bool) (n : BroadcastNode) (c : Call) (l : EventLoop × Effect) : Prop where
  handed : l.2.handed = (handOver raises (c.batch n)).1
  sent : l.2.sent = if (handOver raises (c.batch n)).2 then [] else c.forwards n
  draining : l.1.draining = true ↔ (∀ now, c ≠ .holdbackDrain now) ∨ (handOver raises (c.batch n)).2 = false
  perm : ((c.batch n).map Message.id ++ l.1.node.held.map Message.id).Perm ((c.accepted n ++ n.held).map Message.id)

/-- The copies and the sends depend on the address of the node alone. -/
theorem messageForUi_congr {n' : BroadcastNode} (h : n'.address = n.address) (env : NodeEnv) :
    messageForUi env n' = messageForUi env n := by
  funext m
  rw [messageForUi, h, messageForUi]

theorem forwardReceived_congr {n' : BroadcastNode} (h : n'.address = n.address) (env : NodeEnv) (m : Message) :
    forwardReceived env n' m = forwardReceived env n m := by
  simp only [forwardReceived, forward, peersExcluding, h]

theorem receive_does (raises : Message → Bool) (n : BroadcastNode) (env : NodeEnv) (addedAt now : Time) (m : Message) :
    (Call.receive env addedAt now m).Does raises n
      ((EventLoop.mk n true).step raises (.receive env addedAt now m)) := by
  by_cases hm : m.id ∈ n.seen
  · have he : (EventLoop.mk n true).step raises (.receive env addedAt now m) = (⟨n, true⟩, ⟨[], []⟩) := by
      simp only [EventLoop.step, receiveRaising, deduplicate, if_pos hm]
    rw [he]
    constructor <;> simp [Call.batch, Call.forwards, Call.accepted, hm, handOver]
  · have hbatch : (Call.receive env addedAt now m).batch n = (n.accept addedAt now m).2.map (messageForUi env n) := by
      simp only [Call.batch, if_neg hm]
    have he : (EventLoop.mk n true).step raises (.receive env addedAt now m) =
        (⟨{ (n.accept addedAt now m).1 with seen := insert m.id n.seen }, true⟩,
          ⟨(handOver raises ((Call.receive env addedAt now m).batch n)).1,
            if (handOver raises ((Call.receive env addedAt now m).batch n)).2 then []
            else forwardReceived env n m⟩) := by
      have haddr : ({ (n.accept addedAt now m).1 with seen := insert m.id n.seen }).address = n.address :=
        accept_address n addedAt now m
      simp only [EventLoop.step, receiveRaising, deduplicate, if_neg hm, accept_insert, hbatch]
      rw [messageForUi_congr (n := n) haddr, forwardReceived_congr (n := n) haddr]
    rw [he]
    refine ⟨rfl, ?_, by simp, ?_⟩
    · simp only [Call.forwards, if_neg hm]
    · rw [hbatch, map_id_messageForUi, ← List.map_append]
      simp only [Call.accepted, if_neg hm]
      exact (accept_perm n addedAt now m).map Message.id

theorem applyVcSync_does (raises : Message → Bool) (n : BroadcastNode) (env : NodeEnv) (now : Time) (vc : VectorClock) :
    (Call.applyVcSync env now vc).Does raises n ((EventLoop.mk n true).step raises (.applyVcSync env now vc)) := by
  refine ⟨rfl, ?_, ?_, ?_⟩
  · simp [EventLoop.step, applyVcSyncRaising, Call.forwards]
  · simp [EventLoop.step]
  · rw [Call.batch, map_id_messageForUi, ← List.map_append]
    exact (HoldBackQueue.drain_perm n.holdBack now _).map Message.id

theorem holdbackDrain_does (raises : Message → Bool) (n : BroadcastNode) (now : Time) :
    (Call.holdbackDrain now).Does raises n ((EventLoop.mk n true).step raises (.holdbackDrain now)) := by
  simp only [EventLoop.step, EventLoop.drainRaising, Bool.not_true, Bool.false_or]
  by_cases hq : n.holdBack.queue.isEmpty = true
  · rw [if_pos hq]
    constructor <;> simp [Call.batch, hq, handOver, Call.forwards, Call.accepted]
  · have hbatch : (Call.holdbackDrain now).batch n = (n.holdBack.drain now n.vc).released := by
      simp only [Call.batch, if_neg hq]
    rw [if_neg hq, ← hbatch]
    refine ⟨rfl, by simp [Call.forwards], by simp, ?_⟩
    rw [hbatch, ← List.map_append]
    exact (HoldBackQueue.drain_perm n.holdBack now n.vc).map Message.id

/-- One call: it is sound exactly when it is spared. -/
theorem Call.Does.sound_iff {c : Call} (h : c.Does raises n ((EventLoop.mk n true).step raises c)) :
    c.Sound raises ⟨n, true⟩ ↔ c.Spared raises n := by
  have hfew : (handOver raises (c.batch n)).2 = true → ¬ ∀ m ∈ c.batch n, raises m = false := fun hx hall => by
    rw [(handOver_raised _).2 hall] at hx
    cases hx
  constructor
  · intro hs
    -- as many messages were passed on as left the queue
    have hlen := (hs.delivered.trans h.perm.symm).length_eq
    simp only [List.length_append, List.length_map, h.handed] at hlen
    have hall := handOver_of_length (Nat.add_right_cancel hlen)
    refine ⟨(handOver_all _).1 hall, ?_⟩
    cases hx : (handOver raises (c.batch n)).2 with
    | false => exact .inr ((handOver_raised _).1 hx)
    | true =>
      have hsent := hs.forwarded
      rw [h.sent, hx, if_pos rfl] at hsent
      have hd := h.draining.1 hs.draining
      rw [hx] at hd
      exact .inl ⟨hsent.symm, hd.resolve_right (by simp)⟩
  · intro hs
    obtain ⟨hmost, hrest⟩ := hs
    have hall := (handOver_all _).2 hmost
    refine ⟨by rw [h.handed, hall]; exact h.perm, ?_, ?_⟩
    · rw [h.sent]
      rcases hrest with hrest | hrest
      · simp [hrest.1]
      · rw [(handOver_raised _).2 hrest, if_neg Bool.false_ne_true]
    · rcases hrest with hrest | hrest
      · exact h.draining.2 (.inl hrest.2)
      · exact h.draining.2 (.inr ((handOver_raised _).2 hrest))

theorem draining_of_not_drain {l : EventLoop} {c : Call} (hc : ∀ now, c ≠ .holdbackDrain now) :
    (l.step raises c).1.draining = l.draining := by
  cases c with
  | holdbackDrain now => exact absurd rfl (hc now)
  | receive | doBroadcast | applyVcSync => rfl

end

end PeerChat.BroadcastNode
