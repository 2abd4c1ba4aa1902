/-
A node with its message store, as `deploy/peer_node.py` wires it
(`wire_node` and `handle_storage_message` of
`message_history/storage/node_setup.py`): every message handed over is
stored, and a restarted node takes its clock from the store.

The clock it takes is the recovery cursor, which is empty as soon as some
sender's numbers have a gap, so that the node then counts from one again.
`own_numbers`: where no restart finds a gap, and every broadcast is stored,
the node never uses a number twice.
-/
import PeerChat.History.Operations
import PeerChat.Distribution.BroadcastNode

namespace PeerChat.History

open Lib LocalMessageStore

/-- What the streamer reads of a decoded JSON object. -/
structure Payload where
  /-- `payload.get("type")`, when it is a string. -/
  type : Option String
  /-- Whether `requester_host` and a `requester_port` that `int()` takes are there. -/
  hasRequester : Bool
  /-- The entries of `messages`, `none` for one that `Message.from_dict`
  refuses; `none` when it cannot be iterated. -/
  messages : Option (List (Option Message))
  isLast : Bool

/-- What `json.loads` makes of a message's content. -/
inductive Content
  | notJson
  | notObject
  | object (p : Payload)

/-- What `handle_transport_message` returns: whether it was a recovery frame. -/
inductive Handling
  | notHandled
  | recoverRequest
  | historyChunk (isLast : Bool)
  /-- It raises: `payload.get` of what is no object, or `messages` that cannot be iterated. -/
  | raised

/-- `handle_transport_message`. -/
def handleTransportMessage (s : LocalMessageStore) : Content → LocalMessageStore × Handling
  | .notJson => (s, .notHandled)
  | .notObject => (s, .raised)
  | .object p =>
    if p.type = some "recover_request" then
      if p.hasRequester then (s, .recoverRequest) else (s, .notHandled)
    else if p.type = some "history_chunk" then
      match p.messages with
      | none => (s, .raised)
      | some items => (s.saveMany items, .historyChunk p.isLast)
    else (s, .notHandled)

/-- The contents `handle_storage_message` stores as chat. -/
def Content.isChat : Content → Bool
  | .notJson => true
  | .notObject => false
  | .object p => p.type ≠ some "history_chunk" ∧ ¬ (p.type = some "recover_request" ∧ p.hasRequester = true)

/-- A node and its store, with the clocks that are to be merged on the event
loop, and every message it has broadcast. -/
structure PeerRuntime where
  node : BroadcastNode
  store : LocalMessageStore
  syncs : List VectorClock
  sent : List Message

/-- `DEFAULT_SNAPSHOT_THRESHOLD`. -/
def defaultSnapshotThreshold : Int := 3

/-- `SEEN_SEED_LIMIT`. -/
def seenSeedLimit : Int := 50000

/-- `wire_node`: the node and its store. -/
def wireNode (node : BroadcastNode) (d : Disk) : BroadcastNode × LocalMessageStore :=
  let (store, latestVc) := (init (some defaultSnapshotThreshold) d).getLatestVectorClock
  (if latestVc.items.isEmpty then node else { node with vc := node.vc.merge latestVc }, store)

/-- `_seed_seen_set`. -/
def seedSeenSet (node : BroadcastNode) (store : LocalMessageStore) : BroadcastNode :=
  (store.getRecent seenSeedLimit).foldl (fun n m => (n.deduplicate m.id).getD n) node

namespace PeerRuntime

/-- `PeerRuntime.start` of a new process. -/
def start (address : String) (timeout : Time) (d : Disk) (sent : List Message) : PeerRuntime :=
  let (node, store) := wireNode (BroadcastNode.new address timeout) d
  ⟨seedSeenSet node store, store, [], sent⟩

/-- `_on_message`, which runs `handle_storage_message` and lets nothing it
raises through. After a chunk it reads the store's clock once more. -/
def onMessage (loads : String → Content) (p : PeerRuntime) (m : Message) : PeerRuntime :=
  match handleTransportMessage p.store (loads m.content) with
  | (s, .notHandled) => { p with store := (s.save m).1 }
  | (s, .recoverRequest) | (s, .raised) => { p with store := s }
  | (s, .historyChunk isLast) =>
    if isLast then
      let (s, vc) := s.getLatestVectorClock
      { p with store := s.getLatestVectorClock.1, syncs := p.syncs ++ [vc] }
    else { p with store := s.getLatestVectorClock.1 }

/-- What the node's process does between two crashes, one call of the event
loop at a time, and the restart after a crash. -/
inductive Call
  /-- `send`: a new message of this node. -/
  | broadcast (env : NodeEnv) (content id : String) (timestamp : Time)
  | receive (env : NodeEnv) (addedAt now : Time) (m : Message)
  | applyVcSync (env : NodeEnv) (now : Time)
  | holdbackDrain (now : Time)
  /-- `send_recover_request`, which reads the cursor. -/
  | sendRecoverRequest
  /-- `_begin_causal_log`, which seeds the dedup set again. -/
  | beginCausalLog
  | restart

def step (loads : String → Content) (p : PeerRuntime) : Call → PeerRuntime
  | .broadcast env content id timestamp =>
    let (n, eff, ok) := p.node.doBroadcast env ⟨content, p.node.address, id, timestamp, "", 10, Dict.empty⟩
    eff.handed.foldl (onMessage loads) { p with node := n, sent := if ok then p.sent ++ eff.handed else p.sent }
  | .receive env addedAt now m =>
    let (n, eff, _) := p.node.receive env addedAt now m
    eff.handed.foldl (onMessage loads) { p with node := n }
  | .applyVcSync env now =>
    match p.syncs with
    | [] => p
    | vc :: syncs =>
      let (n, eff) := p.node.applyVcSync env now vc
      eff.handed.foldl (onMessage loads) { p with node := n, syncs }
  | .holdbackDrain now =>
    let (n, eff) := p.node.holdbackDrain now
    eff.handed.foldl (onMessage loads) { p with node := n }
  | .sendRecoverRequest => { p with store := p.store.getLatestVectorClock.1 }
  | .beginCausalLog => { p with node := seedSeenSet p.node p.store }
  | .restart => start p.node.address p.node.holdBack.timeout p.store.disk p.sent

end PeerRuntime

/-! ## The clock after a restart -/

/-- No number of this sender in the store is above `n`. -/
def NumbersBelow (address : String) (d : Disk) (n : Int) : Prop :=
  ∀ m ∈ d.readAllMessages, m.sender = address → m.senderSeq ≤ n

section

variable (threshold : Option Int) (d : Disk) (address : String)

theorem stored_init : (init threshold d).disk.stored = d.stored := (repairIndexes_ran _).2

theorem gapless_init :
    Indexes.Gapless (Disk.dropSeen ∅ (init threshold d).disk.stored) ↔ Indexes.Gapless d.readAllMessages := by
  rw [stored_init]
  simp only [Indexes.Gapless, Disk.mem_readAllMessages]

/-- The cursor covers the numbers of a sender exactly when there is no gap,
of any sender, or it has none. -/
theorem numbersBelow_cursor : NumbersBelow address d ((init threshold d).getLatestVectorClock.2.count address) ↔
    Indexes.Gapless d.readAllMessages ∨ NumbersBelow address d 0 := by
  by_cases hg : Indexes.Gapless d.readAllMessages
  · have hdesc := describes_repairIndexes (init threshold d)
    rw [cursor_of_gapless ((gapless_init threshold d).2 hg)]
    refine ⟨fun _ => .inl hg, fun _ m hm hs => ?_⟩
    rw [← hs]
    refine hdesc.le_latest m ?_
    rw [stored_init]
    exact Disk.mem_readAllMessages.1 hm
  · rw [cursor_of_gaps fun h => hg ((gapless_init threshold d).1 h)]
    exact ⟨.inr, fun h => h.resolve_left hg⟩

theorem cursor_nonneg : 0 ≤ (init threshold d).getLatestVectorClock.2.count address := by
  by_cases hg : Indexes.Gapless (Disk.dropSeen ∅ (init threshold d).disk.stored)
  · rw [cursor_of_gapless hg]
    exact (describes_repairIndexes (init threshold d)).latest_nonneg address
  · rw [cursor_of_gaps hg]
    exact le_refl 0

/-- `wire_node` sets the clock of a new node to the cursor. -/
theorem count_wireNode (timeout : Time) : (wireNode (.new address timeout) d).1.vc.count address =
    (init (some defaultSnapshotThreshold) d).getLatestVectorClock.2.count address := by
  have hpos := cursor_nonneg (some defaultSnapshotThreshold) d address
  simp only [wireNode]
  split
  · next h =>
    have hcur : (init (some defaultSnapshotThreshold) d).getLatestVectorClock.2.count address = 0 := by
      rw [VectorClock.count, Dict.getD, Dict.get?, List.isEmpty_iff.1 h]
      rfl
    rw [hcur]
    rfl
  · have hzero : (BroadcastNode.new address timeout).vc.count address = 0 := rfl
    dsimp only
    rw [VectorClock.count_merge_eq (le_of_eq hzero.symm), hzero]
    exact max_eq_right hpos

end

/-- Seeding changes the dedup set only. -/
theorem seedSeenSet_vc (node : BroadcastNode) (store : LocalMessageStore) :
    (seedSeenSet node store).vc = node.vc ∧ (seedSeenSet node store).address = node.address := by
  rw [seedSeenSet]
  induction store.getRecent seenSeedLimit generalizing node with
  | nil => exact ⟨rfl, rfl⟩
  | cons m ms ih =>
    have hded : ((node.deduplicate m.id).getD node).vc = node.vc ∧
        ((node.deduplicate m.id).getD node).address = node.address := by
      unfold BroadcastNode.deduplicate
      split <;> exact ⟨rfl, rfl⟩
    rw [List.foldl_cons]
    exact ⟨(ih _).1.trans hded.1, (ih _).2.trans hded.2⟩

/-! ## Clocks only grow -/

/-- The same node later in its process. -/
structure Later (n n' : BroadcastNode) : Prop where
  address : n'.address = n.address
  count : ∀ t, n.vc.count t ≤ n'.vc.count t

theorem Later.refl (n : BroadcastNode) : Later n n := ⟨rfl, fun _ => le_rfl⟩

theorem Later.trans {n n₁ n₂ : BroadcastNode} (h : Later n n₁) (h' : Later n₁ n₂) : Later n n₂ :=
  ⟨h'.address.trans h.address, fun t => (h.count t).trans (h'.count t)⟩

theorem later_seedSeenSet (n : BroadcastNode) (store : LocalMessageStore) : Later n (seedSeenSet n store) :=
  ⟨(seedSeenSet_vc n store).2, fun t => by rw [(seedSeenSet_vc n store).1]⟩

theorem le_count_foldl_merge (t : String) : ∀ (ms : List Message) (vc : VectorClock),
    vc.count t ≤ (ms.foldl (fun c m => VectorClock.merge c m.vectorClock) vc).count t
  | [], _ => le_rfl
  | m :: ms, vc => (vc.count_le_merge m.vectorClock t).trans (le_count_foldl_merge t ms _)

theorem le_count_drain (h : HoldBackQueue) (now : Time) (vc : VectorClock) (t : String) :
    vc.count t ≤ (h.drain now vc).vc.count t := by
  rw [HoldBackQueue.drain_vc]
  exact le_count_foldl_merge t _ vc

theorem later_receive (env : NodeEnv) (n : BroadcastNode) (addedAt now : Time) (m : Message) :
    Later n (n.receive env addedAt now m).1 := by
  rcases n.receive_cases env addedAt now m with ⟨-, h⟩ | ⟨-, n₂, d, hacc, h⟩
  · rw [h]
    exact .refl n
  · rw [h]
    have hn₂ : n₂ = (BroadcastNode.accept { n with seen := insert m.id n.seen } addedAt now m).1 := by rw [hacc]
    refine ⟨by rw [hn₂, BroadcastNode.accept_address], fun t => ?_⟩
    rw [hn₂, BroadcastNode.accept]
    split
    · exact (n.vc.count_le_merge m.vectorClock t).trans (le_count_drain _ now _ t)
    · exact le_count_drain _ now _ t

theorem later_applyVcSync (env : NodeEnv) (n : BroadcastNode) (now : Time) (vc : VectorClock) :
    Later n (n.applyVcSync env now vc).1 :=
  ⟨rfl, fun t => (n.vc.count_le_merge vc t).trans (le_count_drain _ now _ t)⟩

theorem later_holdbackDrain (n : BroadcastNode) (now : Time) : Later n (n.holdbackDrain now).1 := by
  unfold BroadcastNode.holdbackDrain
  split
  · exact .refl n
  · exact ⟨rfl, fun t => le_count_drain _ now _ t⟩

/-! ## The store -/

namespace PeerRuntime

/-- Later in a process, with nothing sent in between: clock and store have
only grown. -/
structure Keeps (p p' : PeerRuntime) : Prop where
  node : Later p.node p'.node
  sent : p'.sent = p.sent
  sound : Sound p'.store
  stored : ∀ m ∈ p.store.disk.stored, m ∈ p'.store.disk.stored

theorem Keeps.trans {p p₁ p₂ : PeerRuntime} (h : Keeps p p₁) (h' : Keeps p₁ p₂) : Keeps p p₂ :=
  ⟨h.node.trans h'.node, h'.sent.trans h.sent, h'.sound, fun m hm => h'.stored m (h.stored m hm)⟩

theorem Keeps.later {p : PeerRuntime} (h : Sound p.store) {n : BroadcastNode} (hn : Later p.node n)
    {syncs : List VectorClock} : Keeps p { p with node := n, syncs } :=
  ⟨hn, rfl, h, fun _ hm => hm⟩

theorem Keeps.adds {p : PeerRuntime} {ms : List Message} {s' : LocalMessageStore} {syncs : List VectorClock}
    (h : Adds p.store ms s') : Keeps p { p with store := s', syncs } :=
  ⟨.refl _, rfl, h.sound, fun m hm => (h.stored m).2 (.inl hm)⟩

/-- A message saved, or not because its id is known. -/
theorem adds_save {s : LocalMessageStore} (h : Sound s) (m : Message) : ∃ ms, Adds s ms (s.save m).1 := by
  by_cases hm : m.id ∈ s.indexes.messageIds
  · rw [save_known hm]
    exact ⟨[], .refl h⟩
  · exact ⟨[m], .save h hm⟩

theorem adds_handleTransportMessage {s : LocalMessageStore} (h : Sound s) (c : Content) :
    ∃ ms, Adds s ms (handleTransportMessage s c).1 := by
  unfold handleTransportMessage
  split
  · exact ⟨[], .refl h⟩
  · exact ⟨[], .refl h⟩
  · split
    · split <;> exact ⟨[], .refl h⟩
    · split
      · split
        · exact ⟨[], .refl h⟩
        · next items _ =>
          obtain ⟨ms, -, hadds, -⟩ := Adds.saveMany h items
          exact ⟨ms, hadds⟩
      · exact ⟨[], .refl h⟩

theorem keeps_onMessage (loads : String → Content) {p : PeerRuntime} (h : Sound p.store) (m : Message) :
    Keeps p (p.onMessage loads m) := by
  obtain ⟨ms, hadds⟩ := adds_handleTransportMessage h (loads m.content)
  unfold onMessage
  rcases hc : handleTransportMessage p.store (loads m.content) with ⟨s, r⟩
  rw [hc] at hadds
  cases r with
  | notHandled =>
    obtain ⟨ms', hsave⟩ := adds_save hadds.sound m
    exact .adds (hadds.trans hsave)
  | recoverRequest | raised => exact .adds hadds
  | historyChunk isLast =>
    have hread : Adds p.store _ s.getLatestVectorClock.1 := hadds.trans (.getLatestVectorClock hadds.sound.unique)
    have hagain : Adds p.store _ s.getLatestVectorClock.1.getLatestVectorClock.1 :=
      hread.trans (.getLatestVectorClock hread.sound.unique)
    simp only
    split
    · exact .adds hagain
    · exact .adds hread

theorem keeps_foldl (loads : String → Content) : ∀ (ms : List Message) {p : PeerRuntime}, Sound p.store →
    Keeps p (ms.foldl (onMessage loads) p)
  | [], p, h => .later h (.refl p.node)
  | m :: ms, _, h => (keeps_onMessage loads h m).trans (keeps_foldl loads ms (keeps_onMessage loads h m).sound)

/-- A call of the node, and the messages it hands over. -/
theorem keeps_handed (loads : String → Content) {p : PeerRuntime} (h : Sound p.store) {n : BroadcastNode}
    (hn : Later p.node n) (syncs : List VectorClock) (handed : List Message) :
    Keeps p (handed.foldl (onMessage loads) { p with node := n, syncs }) :=
  (Keeps.later h hn).trans (keeps_foldl loads handed h)

/-- A chat message with a new id is stored. -/
theorem stored_onMessage {loads : String → Content} {p : PeerRuntime} (h : Sound p.store) {m : Message}
    (hchat : (loads m.content).isChat = true) (hid : m.id ∉ p.store.indexes.messageIds) :
    m ∈ (p.onMessage loads m).store.disk.stored := by
  have hnot : handleTransportMessage p.store (loads m.content) = (p.store, .notHandled) := by
    unfold handleTransportMessage
    cases hc : loads m.content with
    | notJson => rfl
    | notObject => simp [hc, Content.isChat] at hchat
    | object q =>
      rw [hc, Content.isChat, decide_eq_true_eq] at hchat
      obtain ⟨hchunk, hrequest⟩ := hchat
      simp only
      split
      · next htype => exact if_neg fun hr => hrequest ⟨htype, hr⟩
      · rfl
  unfold onMessage
  rw [hnot]
  exact ((Adds.save h hid).stored m).2 (.inr (by simp))

/-! ## Runs -/

/-- A call whose restart finds no gap, or no number of its own, and whose
broadcast is chat with an id of its own. -/
def CallOk (loads : String → Content) (p : PeerRuntime) : Call → Prop
  | .broadcast _ content id _ => (loads content).isChat = true ∧ id ∉ p.store.indexes.messageIds
  | .restart => Indexes.Gapless p.store.disk.readAllMessages ∨ NumbersBelow p.node.address p.store.disk 0
  | .receive _ _ _ _ | .applyVcSync _ _ | .holdbackDrain _ | .sendRecoverRequest | .beginCausalLog => True

def RunOk (loads : String → Content) (p : PeerRuntime) : List Call → Prop
  | [] => True
  | c :: cs => CallOk loads p c ∧ RunOk loads (p.step loads c) cs

/-- The numbers used so far increase, and none is above the node's clock
or above all that are stored. -/
structure Counts (address : String) (p : PeerRuntime) : Prop where
  own : p.node.address = address
  sound : Sound p.store
  nonneg : 0 ≤ p.node.vc.count address
  used : ∀ m ∈ p.sent, m.stamp address ≤ p.node.vc.count address
  stored : ∀ m ∈ p.sent, ∃ m' ∈ p.store.disk.stored, m'.sender = address ∧ m.stamp address ≤ m'.senderSeq
  increasing : p.sent.Pairwise fun m m' => m.stamp address < m'.stamp address

variable {loads : String → Content} {address : String} {p p' : PeerRuntime}

theorem Counts.keeps (h : Counts address p) (hk : Keeps p p') : Counts address p' where
  own := hk.node.address.trans h.own
  sound := hk.sound
  nonneg := h.nonneg.trans (hk.node.count address)
  used m hm := by
    rw [hk.sent] at hm
    exact (h.used m hm).trans (hk.node.count address)
  stored m hm := by
    rw [hk.sent] at hm
    obtain ⟨m', hm', hown⟩ := h.stored m hm
    exact ⟨m', hk.stored m' hm', hown⟩
  increasing := by
    rw [hk.sent]
    exact h.increasing

theorem start_eq (address : String) (timeout : Time) (d : Disk) (sent : List Message) :
    start address timeout d sent =
      ⟨seedSeenSet (wireNode (.new address timeout) d).1 (wireNode (.new address timeout) d).2,
        (init (some defaultSnapshotThreshold) d).getLatestVectorClock.1, [], sent⟩ := by
  have hstore : (wireNode (.new address timeout) d).2 =
      (init (some defaultSnapshotThreshold) d).getLatestVectorClock.1 := by
    unfold wireNode
    rcases (init (some defaultSnapshotThreshold) d).getLatestVectorClock with ⟨store, vc⟩
    rfl
  rw [← hstore]
  unfold start
  rcases wireNode (.new address timeout) d with ⟨node, store⟩
  rfl

/-- The node of a process that has just started. -/
theorem start_node (address : String) (timeout : Time) (d : Disk) (sent : List Message) :
    (start address timeout d sent).node.address = address ∧
    (start address timeout d sent).node.vc.count address =
      (init (some defaultSnapshotThreshold) d).getLatestVectorClock.2.count address := by
  have hseed := seedSeenSet_vc (wireNode (.new address timeout) d).1 (wireNode (.new address timeout) d).2
  have hwired : (wireNode (.new address timeout) d).1.address = address := by
    simp only [wireNode]
    split <;> rfl
  rw [start_eq]
  refine ⟨hseed.2.trans hwired, ?_⟩
  rw [← count_wireNode d address timeout]
  exact congrArg (VectorClock.count · address) hseed.1

/-- Its store. -/
theorem start_store (address : String) (timeout : Time) {d : Disk} (hd : d.UniqueIds) (sent : List Message) :
    Sound (start address timeout d sent).store ∧
    ∀ m, m ∈ (start address timeout d sent).store.disk.stored ↔ m ∈ d.stored := by
  have hopen : Sound (init (some defaultSnapshotThreshold) d) := .init _ hd
  have hread : Adds (init (some defaultSnapshotThreshold) d) [] (start address timeout d sent).store := by
    rw [start_eq]
    dsimp only
    exact .getLatestVectorClock hopen.unique
  refine ⟨hread.sound, fun m => ?_⟩
  rw [hread.stored m, stored_init]
  simp

theorem start_sent (address : String) (timeout : Time) (d : Disk) (sent : List Message) :
    (start address timeout d sent).sent = sent := by
  rw [start_eq]

theorem Counts.start (timeout : Time) {d : Disk} (hd : d.UniqueIds) {sent : List Message}
    (hok : Indexes.Gapless d.readAllMessages ∨ NumbersBelow address d 0)
    (hst : ∀ m ∈ sent, ∃ m' ∈ d.stored, m'.sender = address ∧ m.stamp address ≤ m'.senderSeq)
    (hinc : sent.Pairwise fun m m' => m.stamp address < m'.stamp address) :
    Counts address (start address timeout d sent) := by
  obtain ⟨hown, hcount⟩ := start_node address timeout d sent
  obtain ⟨hsound, hstored⟩ := start_store address timeout hd sent
  have hsent := start_sent address timeout d sent
  have hbelow := (numbersBelow_cursor (some defaultSnapshotThreshold) d address).2 hok
  generalize PeerRuntime.start address timeout d sent = p at *
  refine ⟨hown, hsound, ?_, fun m hm => ?_, fun m hm => ?_, hsent ▸ hinc⟩
  · rw [hcount]
    exact cursor_nonneg _ d address
  · obtain ⟨m', hm', hs, hle⟩ := hst m (hsent ▸ hm)
    rw [hcount]
    exact hle.trans (hbelow m' ((Disk.mem_readAllMessages_iff hd).2 hm') hs)
  · obtain ⟨m', hm', hs, hle⟩ := hst m (hsent ▸ hm)
    exact ⟨m', (hstored m').2 hm', hs, hle⟩

/-- A message and a process that `_do_broadcast` has just stamped it in. -/
structure Stamps (p : PeerRuntime) (content id : String) (p₁ : PeerRuntime) (out : Message) : Prop where
  store : p₁.store = p.store
  sent : p₁.sent = p.sent ++ [out]
  address : p₁.node.address = p.node.address
  clock : p₁.node.vc = p.node.vc.increment p.node.address
  stamp : out.vectorClock = p₁.node.vc
  sender : out.sender = p.node.address
  content : out.content = content
  id : out.id = id

/-- What `send` can do: drop the message, or stamp it and hand it over. -/
theorem broadcast_cases (loads : String → Content) (p : PeerRuntime) (env : NodeEnv) (content id : String)
    (timestamp : Time) (h : Sound p.store) :
    Keeps p (p.step loads (.broadcast env content id timestamp)) ∨
    ∃ p₁ out, p.step loads (.broadcast env content id timestamp) = p₁.onMessage loads out ∧
      Stamps p content id p₁ out := by
  rcases p.node.doBroadcast_cases env ⟨content, p.node.address, id, timestamp, "", 10, Dict.empty⟩ with
    ⟨-, he⟩ | ⟨-, -, he⟩ | ⟨-, signed, hsign, sent, he, -⟩
  · simp only [PeerRuntime.step, he]
    exact .inl (.later h (.refl _))
  · have hn : Later p.node { p.node with seen := insert id p.node.seen } := ⟨rfl, fun _ => le_rfl⟩
    simp only [PeerRuntime.step, he]
    exact .inl (.later h hn)
  · have hsame := BroadcastNode.signOutgoing_same hsign
    simp only [PeerRuntime.step, he, if_true, List.foldl_cons, List.foldl_nil]
    exact .inr ⟨_, _, rfl, rfl, rfl, rfl, rfl, rfl, congrArg Message.sender hsame,
      congrArg Message.content hsame, congrArg Message.id hsame⟩

theorem Counts.broadcast (h : Counts address p) {env : NodeEnv} {content id : String} {timestamp : Time}
    (hchat : (loads content).isChat = true) (hid : id ∉ p.store.indexes.messageIds) :
    Counts address (p.step loads (.broadcast env content id timestamp)) := by
  rcases broadcast_cases loads p env content id timestamp h.sound with hk | ⟨p₁, out, he, hs⟩
  · exact h.keeps hk
  rw [he]
  have hsound : Sound p₁.store := hs.store ▸ h.sound
  have hk := keeps_onMessage loads hsound out
  have hst : out ∈ (p₁.onMessage loads out).store.disk.stored := by
    refine stored_onMessage hsound ?_ ?_
    · rw [hs.content]
      exact hchat
    · rw [hs.id, hs.store]
      exact hid
  have hnonneg := h.nonneg
  have hnext : p₁.node.vc.count address = p.node.vc.count address + 1 := by
    rw [hs.clock, h.own, VectorClock.count_increment, if_pos rfl]
  have hstamp : out.stamp address = p₁.node.vc.count address := by rw [Message.stamp, hs.stamp]
  have hcount := hk.node.count address
  have hsender : out.sender = address := hs.sender.trans h.own
  have hsent := hk.sent.trans hs.sent
  refine ⟨hk.node.address.trans (hs.address.trans h.own), hk.sound, by omega, fun m hm => ?_, fun m hm => ?_, ?_⟩
  · rw [hsent] at hm
    rcases List.mem_append.1 hm with hm | hm
    · have := h.used m hm
      omega
    · cases List.mem_singleton.1 hm
      omega
  · rw [hsent] at hm
    rcases List.mem_append.1 hm with hm | hm
    · obtain ⟨m', hm', hown⟩ := h.stored m hm
      exact ⟨m', hk.stored m' (hs.store ▸ hm'), hown⟩
    · cases List.mem_singleton.1 hm
      exact ⟨out, hst, hsender, le_of_eq (by rw [Message.senderSeq, hsender]; rfl)⟩
  · rw [hsent]
    refine List.pairwise_append.2 ⟨h.increasing, List.pairwise_singleton _ _, fun m hm m' hm' => ?_⟩
    cases List.mem_singleton.1 hm'
    have := h.used m hm
    omega

/-- One call. -/
theorem Counts.step (h : Counts address p) {c : Call} (hok : CallOk loads p c) : Counts address (p.step loads c) := by
  cases c with
  | broadcast env content id timestamp => exact h.broadcast hok.1 hok.2
  | receive env addedAt now m => exact h.keeps (keeps_handed loads h.sound (later_receive env p.node addedAt now m) _ _)
  | applyVcSync env now =>
    simp only [PeerRuntime.step]
    split
    · exact h
    · next vc syncs _ => exact h.keeps (keeps_handed loads h.sound (later_applyVcSync env p.node now vc) syncs _)
  | holdbackDrain now => exact h.keeps (keeps_handed loads h.sound (later_holdbackDrain p.node now) _ _)
  | sendRecoverRequest => exact h.keeps (.adds (.getLatestVectorClock h.sound.unique))
  | beginCausalLog => exact h.keeps (.later h.sound (later_seedSeenSet p.node p.store))
  | restart =>
    cases h.own
    exact .start _ h.sound.unique hok h.stored h.increasing

/-- A whole run. -/
theorem Counts.run : ∀ {cs : List Call} {p : PeerRuntime}, Counts address p → RunOk loads p cs →
    Counts address (cs.foldl (PeerRuntime.step loads) p)
  | [], _, h, _ => h
  | _ :: _, _, h, hok => (h.step hok.1).run hok.2

/-- **Numbers across restarts.** `wire_node` puts a new node at or above
every number it has in its store exactly when no sender's stored numbers
have a gap, or none of its own is positive; in a run in which every restart
finds it so, and every broadcast is chat with an id of its own, no number is
used twice. -/
theorem own_numbers (loads : String → Content) (address : String) (timeout : Time) :
    (∀ d, NumbersBelow address d ((wireNode (.new address timeout) d).1.vc.count address) ↔
      Indexes.Gapless d.readAllMessages ∨ NumbersBelow address d 0) ∧
    ∀ cs, RunOk loads (start address timeout .empty []) cs →
      (cs.foldl (step loads) (start address timeout .empty [])).sent.Pairwise
        fun m m' => m.stamp address ≠ m'.stamp address := by
  refine ⟨fun d => ?_, fun cs hok => ?_⟩
  · rw [count_wireNode]
    exact numbersBelow_cursor _ d address
  · have hempty : Disk.empty.UniqueIds := fun m hm => absurd hm List.not_mem_nil
    have hstart : Counts address (start address timeout .empty []) :=
      .start timeout hempty (.inr fun m hm => absurd hm List.not_mem_nil) nofun .nil
    exact (hstart.run hok).increasing.imp fun h => ne_of_lt h

/-- No content is JSON, nothing is signed, and nobody is listed. -/
def plainText (_ : String) : Content := .notJson

def alone : NodeEnv := ⟨false, none, []⟩

/-- The `seq`th message of a node, with nothing before it. -/
def chat (sender id : String) (seq : Int) : Message :=
  ⟨"hi", sender, id, 0, "", 10, (Dict.empty : VectorClock).set sender seq⟩

/-- A node that sends a message, dies, and sends another. -/
def sendTwice : List Call := [.broadcast alone "hi" "m1" 0, .restart, .broadcast alone "hi" "m2" 7]

theorem own_numbers_sendTwice :
    (sendTwice.foldl (step plainText) (start "a:1" 5 .empty [])).sent.Pairwise
      fun m m' => m.stamp "a:1" ≠ m'.stamp "a:1" := by
  have hread : ((start "a:1" 5 .empty []).step plainText
      (.broadcast alone "hi" "m1" 0)).store.disk.readAllMessages = [chat "a:1" "m1" 1] := by decide
  refine (own_numbers plainText "a:1" 5).2 sendTwice ⟨⟨rfl, by decide⟩, .inl ?_, ⟨rfl, by decide⟩, trivial⟩
  rw [hread]
  intro m hm k h1 hk
  cases List.mem_singleton.1 hm
  have hseq : (chat "a:1" "m1" 1).senderSeq = 1 := by decide
  exact ⟨_, hm, rfl, by omega⟩

/-- The same, but the second message of another node comes before the crash
without its first, and the hold-back queue gives it up after its timeout. -/
def gapBetween : List Call :=
  [.broadcast alone "hi" "m1" 0, .receive alone 0 0 (chat "b:1" "x2" 2), .holdbackDrain 6, .restart,
    .broadcast alone "hi" "m2" 7]

/-- **A gap of another sender makes the node count from one again.** -/
theorem number_reused :
    ¬ (gapBetween.foldl (step plainText) (start "a:1" 5 .empty [])).sent.Pairwise
      (fun m m' => m.stamp "a:1" ≠ m'.stamp "a:1") ∧
    (gapBetween.foldl (step plainText) (start "a:1" 5 .empty [])).sent.map (fun m => (m.id, m.stamp "a:1")) =
      [("m1", 1), ("m2", 1)] := by
  decide

end PeerRuntime

end PeerChat.History
