/-
The clock of a node after a recovery: the chunk flagged last makes
`handle_storage_message` schedule one merge of the store's cursor
(`sync_vector_clock`), and the other chunks none.

Chunks are sent one by one and carry no clock, so they may come in any
order. `clock_after_recovery`: the merge brings the clock up to what was
recovered when the store has no gap once the chunk flagged last is in it;
messages that come after that chunk are not counted.
-/
import PeerChat.History.Recovery
import PeerChat.History.PeerRuntime

namespace PeerChat.History

open Lib LocalMessageStore

/-- The object `stream_missing_history` sends for a chunk. -/
def HistoryChunk.payload (c : HistoryChunk) : Payload :=
  ⟨some "history_chunk", false, some (c.messages.map some), c.isLast⟩

/-- The messages of a history chunk that is stored, and its `is_last`. -/
def Content.chunk? : Content → Option (List (Option Message) × Bool)
  | .object p => if p.type = some "history_chunk" then p.messages.map (·, p.isLast) else none
  | .notJson | .notObject => none

def Content.isLastChunk (c : Content) : Bool := c.chunk?.any Prod.snd

namespace PeerRuntime

/-- What happens during a recovery: a message reaches
`handle_storage_message`, or the event loop runs a merge that is due. -/
inductive Event
  | chunk (m : Message)
  | sync (env : NodeEnv) (now : Time)

def Event.message? : Event → Option Message
  | .chunk m => some m
  | .sync _ _ => none

def handle (loads : String → Content) (p : PeerRuntime) : Event → PeerRuntime
  | .chunk m => p.onMessage loads m
  | .sync env now => p.step loads (.applyVcSync env now)

/-- A node that asks for history, and what happens then. -/
def recover (loads : String → Content) (p : PeerRuntime) (es : List Event) : PeerRuntime :=
  es.foldl (handle loads) (p.step loads .sendRecoverRequest)

/-- The clock has reached every number that is stored; numbers start at one. -/
def Covered (p : PeerRuntime) : Prop :=
  ∀ m ∈ p.store.disk.readAllMessages, 0 < m.senderSeq → m.senderSeq ≤ p.node.vc.count m.sender

/-- A store without a gap that has this number of a sender, or a larger one. -/
def Reaches (s : LocalMessageStore) (u : String) (k : Int) : Prop :=
  Indexes.Gapless s.disk.readAllMessages ∧ ∃ m ∈ s.disk.readAllMessages, m.sender = u ∧ k ≤ m.senderSeq

/-- The clock had this number before, or a merge that was due then has it,
or the store has it once the chunk flagged last is in it. -/
def Caught (loads : String → Content) (p : PeerRuntime) (es : List Event) (u : String) (k : Int) : Prop :=
  k ≤ p.node.vc.count u ∨ (∃ vc ∈ p.syncs, k ≤ vc.count u) ∨
    ∃ before m, before ++ [.chunk m] <+: es ∧ (loads m.content).isLastChunk = true ∧
      Reaches (p.recover loads (before ++ [.chunk m])).store u k

/-! ## The clock -/

theorem le_count_foldl_of_mem {t : String} {k : Int} (hpos : 0 < k) {x : Message} (hk : k ≤ x.vectorClock.count t) :
    ∀ {ms : List Message} {vc : VectorClock}, x ∈ ms →
      k ≤ (ms.foldl (fun c m => VectorClock.merge c m.vectorClock) vc).count t
  | m :: ms, vc, hx => by
    rw [List.foldl_cons]
    rcases List.mem_cons.1 hx with rfl | hx
    · exact ((VectorClock.le_count_merge hpos).2 (.inr hk)).trans (le_count_foldl_merge t ms _)
    · exact le_count_foldl_of_mem hpos hk hx

/-- The clock has this number, or a merge that is due has it. -/
def Known (p : PeerRuntime) (u : String) (k : Int) : Prop :=
  k ≤ p.node.vc.count u ∨ ∃ vc ∈ p.syncs, k ≤ vc.count u

variable {loads : String → Content} {p : PeerRuntime} {u : String} {k : Int}

/-! ## One event -/

theorem handleTransportMessage_chunk (s : LocalMessageStore) {c : Content} {items : List (Option Message)}
    {isLast : Bool} (hc : c.chunk? = some (items, isLast)) :
    handleTransportMessage s c = (s.saveMany items, .historyChunk isLast) := by
  cases c with
  | notJson | notObject => cases hc
  | object q =>
    rw [Content.chunk?, Option.ite_none_right_eq_some] at hc
    obtain ⟨htype, hmap⟩ := hc
    obtain ⟨items', hitems, he⟩ := Option.map_eq_some_iff.1 hmap
    cases he
    have hrequest : ¬ q.type = some "recover_request" := by
      rw [htype]
      decide
    rw [handleTransportMessage, if_neg hrequest, if_pos htype, hitems]

theorem handleTransportMessage_other (s : LocalMessageStore) {c : Content} (hc : c.chunk? = none) :
    ∃ r, handleTransportMessage s c = (s, r) ∧ (r = .notHandled ∨ r = .recoverRequest ∨ r = .raised) := by
  cases c with
  | notJson => exact ⟨_, rfl, .inl rfl⟩
  | notObject => exact ⟨_, rfl, .inr (.inr rfl)⟩
  | object q =>
    unfold handleTransportMessage
    simp only
    split
    · split
      · exact ⟨_, rfl, .inr (.inl rfl)⟩
      · exact ⟨_, rfl, .inl rfl⟩
    · split
      · next htype =>
        rw [Content.chunk?, if_pos htype, Option.map_eq_none_iff] at hc
        rw [hc]
        exact ⟨_, rfl, .inr (.inr rfl)⟩
      · exact ⟨_, rfl, .inl rfl⟩

/-- What `_on_message` does with a history chunk. -/
theorem onMessage_chunk {m : Message} {items : List (Option Message)} {isLast : Bool}
    (hc : (loads m.content).chunk? = some (items, isLast)) :
    p.onMessage loads m =
      if isLast then
        { p with
          store := (p.store.saveMany items).getLatestVectorClock.1.getLatestVectorClock.1
          syncs := p.syncs ++ [(p.store.saveMany items).getLatestVectorClock.2] }
      else { p with store := (p.store.saveMany items).getLatestVectorClock.1 } := by
  rw [onMessage, handleTransportMessage_chunk p.store hc]

/-- What it does with any other message. -/
theorem onMessage_other {m : Message} (hc : (loads m.content).chunk? = none) :
    p.onMessage loads m = p ∨ p.onMessage loads m = { p with store := (p.store.save m).1 } := by
  obtain ⟨r, hr, rfl | rfl | rfl⟩ := handleTransportMessage_other p.store hc
  · rw [onMessage, hr]
    exact .inr rfl
  · rw [onMessage, hr]
    exact .inl rfl
  · rw [onMessage, hr]
    exact .inl rfl

theorem onMessage_node (loads : String → Content) (p : PeerRuntime) (m : Message) :
    (p.onMessage loads m).node = p.node := by
  cases hc : (loads m.content).chunk? with
  | none =>
    rcases onMessage_other (p := p) hc with h | h
    · rw [h]
    · rw [h]
  | some c =>
    rw [onMessage_chunk hc]
    split
    · rfl
    · rfl

/-- A message adds to what is known when it is the chunk flagged last, and
then what the store reaches. -/
theorem known_onMessage (hpos : 0 < k) (m : Message) : Known (p.onMessage loads m) u k ↔
    Known p u k ∨ (loads m.content).isLastChunk = true ∧ Reaches (p.onMessage loads m).store u k := by
  rw [Known, onMessage_node]
  cases hc : (loads m.content).chunk? with
  | none =>
    have hlast : (loads m.content).isLastChunk = false := by rw [Content.isLastChunk, hc, Option.any_none]
    have hsyncs : (p.onMessage loads m).syncs = p.syncs := by
      rcases onMessage_other (p := p) hc with h | h
      · rw [h]
      · rw [h]
    rw [hsyncs, hlast]
    simp [Known]
  | some c =>
    obtain ⟨items, isLast⟩ := c
    have hlast : (loads m.content).isLastChunk = isLast := by rw [Content.isLastChunk, hc, Option.any_some]
    rw [onMessage_chunk hc, hlast]
    cases isLast with
    | false => simp [Known]
    | true =>
      simp only [if_true, List.mem_append, List.mem_singleton, or_and_right, exists_or, exists_eq_left,
        le_cursor_iff _ u hpos, Reaches, readAllMessages_getLatestVectorClock, true_and, Known, or_assoc]

theorem known_foldl (hpos : 0 < k) : ∀ (ms : List Message) {p : PeerRuntime}, Known p u k →
    Known (ms.foldl (onMessage loads) p) u k
  | [], _, h => h
  | m :: ms, _, h => known_foldl hpos ms ((known_onMessage hpos m).2 (.inl h))

/-- A merge that is due. -/
theorem sync_cons {vc : VectorClock} {syncs : List VectorClock} (hs : p.syncs = vc :: syncs) (env : NodeEnv)
    (now : Time) : p.handle loads (.sync env now) =
      (p.node.applyVcSync env now vc).2.handed.foldl (onMessage loads)
        { p with node := (p.node.applyVcSync env now vc).1, syncs } := by
  rw [handle, step, hs]

theorem sync_nil (hs : p.syncs = []) (env : NodeEnv) (now : Time) : p.handle loads (.sync env now) = p := by
  rw [handle, step, hs]

/-- A merge makes nothing unknown. -/
theorem known_sync (hpos : 0 < k) (env : NodeEnv) (now : Time) (h : Known p u k) :
    Known (p.handle loads (.sync env now)) u k := by
  cases hs : p.syncs with
  | nil =>
    rw [sync_nil hs]
    exact h
  | cons vc syncs =>
    rw [sync_cons hs]
    refine known_foldl hpos _ ?_
    have hdrain : (p.node.vc.merge vc).count u ≤ (p.node.applyVcSync env now vc).1.vc.count u :=
      le_count_drain _ now _ u
    rw [Known, hs] at h
    rcases h with hle | ⟨vc', hvc', hle⟩
    · exact .inl (((VectorClock.le_count_merge hpos).2 (.inl hle)).trans hdrain)
    · rcases List.mem_cons.1 hvc' with rfl | hvc'
      · exact .inl (((VectorClock.le_count_merge hpos).2 (.inr hle)).trans hdrain)
      · exact .inr ⟨vc', hvc', hle⟩

/-- With nothing held back, a merge changes the clock only. -/
theorem sync_of_empty (hq : p.node.holdBack.queue = []) (env : NodeEnv) (now : Time) :
    p.handle loads (.sync env now) = match p.syncs with
      | [] => p
      | vc :: syncs => { p with node := { p.node with vc := p.node.vc.merge vc }, syncs } := by
  rw [handle, step]
  cases p.syncs with
  | nil => rfl
  | cons vc syncs =>
    have hdrain : p.node.holdBack.drain now (p.node.vc.merge vc) = ⟨p.node.vc.merge vc, [], []⟩ := by
      rw [HoldBackQueue.drain, hq]
      rfl
    have hsync : p.node.applyVcSync env now vc = ({ p.node with vc := p.node.vc.merge vc }, ⟨[], []⟩) := by
      rw [BroadcastNode.applyVcSync, hdrain, BroadcastNode.drained, ← hq]
      rfl
    simp only [hsync, List.foldl_nil]

theorem known_sync_of_empty (hpos : 0 < k) (hq : p.node.holdBack.queue = []) (env : NodeEnv) (now : Time) :
    Known (p.handle loads (.sync env now)) u k ↔ Known p u k := by
  rw [sync_of_empty hq, Known, Known]
  cases hs : p.syncs with
  | nil =>
    simp only
    rw [hs]
  | cons vc syncs =>
    simp only [VectorClock.le_count_merge hpos, List.mem_cons, exists_eq_or_imp, or_assoc]

/-! ## A recovery -/

theorem recover_concat (loads : String → Content) (p : PeerRuntime) (es : List Event) (e : Event) :
    p.recover loads (es ++ [e]) = (p.recover loads es).handle loads e := by
  rw [recover, List.foldl_append]
  rfl

theorem recover_nil (loads : String → Content) (p : PeerRuntime) :
    p.recover loads [] = { p with store := p.store.getLatestVectorClock.1 } := rfl

theorem known_recover_nil : Known (p.recover loads []) u k ↔ Caught loads p [] u k := by
  rw [recover_nil]
  simp [Caught, Known]

theorem caught_concat (es : List Event) (e : Event) : Caught loads p (es ++ [e]) u k ↔
    Caught loads p es u k ∨ ∃ m, e = .chunk m ∧ (loads m.content).isLastChunk = true ∧
      Reaches (p.recover loads (es ++ [e])).store u k := by
  have hlast (before : List Event) (m : Message) :
      before ++ [.chunk m] = es ++ [e] ↔ before = es ∧ Event.chunk m = e := List.append_singleton_inj
  simp only [Caught, List.prefix_concat_iff, hlast]
  constructor
  · rintro (hv | hs | ⟨before, m, ⟨rfl, rfl⟩ | hpre, hl, hr⟩)
    · exact .inl (.inl hv)
    · exact .inl (.inr (.inl hs))
    · exact .inr ⟨m, rfl, hl, hr⟩
    · exact .inl (.inr (.inr ⟨before, m, hpre, hl, hr⟩))
  · rintro ((hv | hs | ⟨before, m, hpre, hl, hr⟩) | ⟨m, rfl, hl, hr⟩)
    · exact .inl hv
    · exact .inr (.inl hs)
    · exact .inr (.inr ⟨before, m, .inr hpre, hl, hr⟩)
    · exact .inr (.inr ⟨es, m, .inl ⟨rfl, rfl⟩, hl, hr⟩)

/-- What was caught is known. -/
theorem Caught.known (hpos : 0 < k) {es : List Event} (h : Caught loads p es u k) : Known (p.recover loads es) u k := by
  induction es using List.reverseRecOn with
  | nil => exact known_recover_nil.2 h
  | append_singleton es e ih =>
    rw [recover_concat]
    rcases (caught_concat es e).1 h with hbefore | ⟨m, rfl, hlast, hreach⟩
    · cases e with
      | chunk m => exact (known_onMessage hpos m).2 (.inl (ih hbefore))
      | sync env now => exact known_sync hpos env now (ih hbefore)
    · rw [recover_concat] at hreach
      exact (known_onMessage hpos m).2 (.inr ⟨hlast, hreach⟩)

/-- With nothing held back it stays so, and nothing else is known. -/
theorem known_iff_caught (hpos : 0 < k) (hq : p.node.holdBack.queue = []) (es : List Event) :
    (p.recover loads es).node.holdBack.queue = [] ∧ (Known (p.recover loads es) u k ↔ Caught loads p es u k) := by
  induction es using List.reverseRecOn with
  | nil =>
    refine ⟨?_, known_recover_nil⟩
    rw [recover_nil]
    exact hq
  | append_singleton es e ih =>
    obtain ⟨hempty, hknown⟩ := ih
    rw [caught_concat, ← hknown, recover_concat]
    cases e with
    | chunk m =>
      refine ⟨?_, ?_⟩
      · rw [handle, onMessage_node]
        exact hempty
      · rw [handle, known_onMessage hpos]
        simp
    | sync env now =>
      refine ⟨?_, ?_⟩
      · rw [sync_of_empty hempty]
        split
        · exact hempty
        · exact hempty
      · rw [known_sync_of_empty hpos hempty]
        simp

/-! ## What is stored -/

theorem foldl_node (loads : String → Content) : ∀ (ms : List Message) (p : PeerRuntime),
    (ms.foldl (onMessage loads) p).node = p.node
  | [], _ => rfl
  | m :: ms, p => (foldl_node loads ms _).trans (onMessage_node loads p m)

/-- A chunk adds some of its messages, and the ids of all are there afterwards. -/
theorem adds_chunk (h : Sound p.store) {m : Message} {items : List (Option Message)} {isLast : Bool}
    (hc : (loads m.content).chunk? = some (items, isLast)) :
    ∃ ms, (∀ x ∈ ms, some x ∈ items) ∧ Adds p.store ms (p.onMessage loads m).store ∧
      ∀ x, some x ∈ items → ∃ x' ∈ (p.onMessage loads m).store.disk.stored, x'.id = x.id := by
  obtain ⟨ms, hms, hadds, hids⟩ := Adds.saveMany h items
  have hread : Adds (p.store.saveMany items) [] (p.onMessage loads m).store := by
    have honce := Adds.getLatestVectorClock hadds.sound.unique
    have htwice := honce.trans (.getLatestVectorClock honce.sound.unique)
    rw [onMessage_chunk hc]
    cases isLast with
    | true =>
      simp only [if_true]
      exact htwice
    | false =>
      simp only [Bool.false_eq_true, if_false]
      exact honce
  have hall := hadds.trans hread
  rw [List.append_nil] at hall
  refine ⟨ms, hms, hall, fun x hx => ?_⟩
  obtain ⟨x', hx', hid⟩ := hids x hx
  exact ⟨x', (hread.stored x').2 (.inl hx'), hid⟩

theorem stored_onMessage_other (h : Sound p.store) {m : Message} (hc : (loads m.content).chunk? = none) {x : Message}
    (hx : x ∈ (p.onMessage loads m).store.disk.stored) : x ∈ p.store.disk.stored ∨ x = m := by
  rcases onMessage_other (p := p) hc with he | he
  · rw [he] at hx
    exact .inl hx
  · rw [he] at hx
    by_cases hid : m.id ∈ p.store.indexes.messageIds
    · rw [save_known hid] at hx
      exact .inl hx
    · exact ((Adds.save h hid).stored x).1 hx |>.imp_right List.mem_singleton.1

/-- Of messages that are no chunks, each that is stored was there or is one of them. -/
theorem stored_foldl_other {x : Message} : ∀ {ms : List Message} {p : PeerRuntime}, Sound p.store →
    (∀ m ∈ ms, (loads m.content).chunk? = none) → x ∈ (ms.foldl (onMessage loads) p).store.disk.stored →
      x ∈ p.store.disk.stored ∨ x ∈ ms
  | [], _, _, _, hx => .inl hx
  | m :: ms, _, h, hc, hx => by
    have hms : ∀ m' ∈ ms, (loads m'.content).chunk? = none := fun m' hm' => hc m' (List.mem_cons_of_mem _ hm')
    rcases stored_foldl_other (keeps_onMessage loads h m).sound hms hx with hx | hx
    · rcases stored_onMessage_other h (hc m List.mem_cons_self) hx with hx | rfl
      · exact .inl hx
      · exact .inr List.mem_cons_self
    · exact .inr (List.mem_cons_of_mem _ hx)

/-- What a recovery leaves: held messages were held before, and a stored one
was stored before, or sent to this node, or the clock counts it. -/
structure Traced (p : PeerRuntime) (sent : Message → Prop) (p' : PeerRuntime) : Prop where
  sound : Sound p'.store
  kept : ∀ m ∈ p.store.disk.stored, m ∈ p'.store.disk.stored
  address : p'.node.address = p.node.address
  held : ∀ m ∈ p'.node.held, m ∈ p.node.held
  stored : ∀ m ∈ p'.store.disk.stored, m ∈ p.store.disk.stored ∨ sent m ∨
    (∃ x ∈ p.node.held, BroadcastNode.SameMessage m x) ∧
      (0 < m.senderSeq → m.senderSeq ≤ p'.node.vc.count m.sender)

variable {sent : Message → Prop} {p' : PeerRuntime}

theorem Traced.chunk (h : Traced p sent p') {m : Message} {items : List (Option Message)} {isLast : Bool}
    (hc : (loads m.content).chunk? = some (items, isLast)) (hsent : ∀ x, some x ∈ items → sent x) :
    Traced p sent (p'.onMessage loads m) := by
  have hnode := onMessage_node loads p' m
  obtain ⟨ms, hms, hadds, -⟩ := adds_chunk h.sound hc
  refine ⟨hadds.sound, fun x hx => (hadds.stored x).2 (.inl (h.kept x hx)), hnode ▸ h.address, hnode ▸ h.held,
    fun x hx => ?_⟩
  rw [hnode]
  rcases (hadds.stored x).1 hx with hx | hx
  · exact h.stored x hx
  · exact .inr (.inl (hsent x (hms x hx)))

/-- What a merge hands over was held, and the clock counts it; what is held
then was held. -/
theorem handed_sync {env : NodeEnv} {n n' : BroadcastNode} {now : Time} {vc : VectorClock} {eff : Effect}
    (h : n.applyVcSync env now vc = (n', eff)) :
    (∀ x ∈ eff.handed, (∃ y ∈ n.held, x = BroadcastNode.messageForUi env n y) ∧
      (0 < x.senderSeq → x.senderSeq ≤ n'.vc.count x.sender)) ∧
    ∀ m ∈ n'.held, m ∈ n.held := by
  cases h
  have hperm := HoldBackQueue.drain_perm n.holdBack now (n.vc.merge vc)
  refine ⟨fun x hx => ?_, fun m hm => hperm.subset (List.mem_append_right _ hm)⟩
  obtain ⟨y, hy, rfl⟩ := List.mem_map.1 hx
  refine ⟨⟨y, hperm.subset (List.mem_append_left _ hy), rfl⟩, fun hpos => ?_⟩
  have hsame := BroadcastNode.messageForUi_same env (n.drained (n.holdBack.drain now (n.vc.merge vc))) y
  rw [Message.senderSeq, hsame.vectorClock, hsame.sender] at hpos ⊢
  rw [BroadcastNode.drained_vc, HoldBackQueue.drain_vc]
  exact le_count_foldl_of_mem hpos le_rfl hy

/-- A merge hands over messages that were held, and counts them. -/
theorem Traced.sync (h : Traced p sent p') {env : NodeEnv} {now : Time}
    (hc : ∀ m ∈ p.node.held, (loads (BroadcastNode.messageForUi env p.node m).content).chunk? = none) :
    Traced p sent (p'.handle loads (.sync env now)) := by
  cases hs : p'.syncs with
  | nil =>
    rw [sync_nil hs]
    exact h
  | cons vc syncs =>
    have hlater := later_applyVcSync env p'.node now vc
    rw [sync_cons hs]
    rcases hsync : p'.node.applyVcSync env now vc with ⟨n, eff⟩
    rw [hsync] at hlater
    obtain ⟨hhanded, hheld⟩ := handed_sync hsync
    have hui (y : Message) : BroadcastNode.messageForUi env p'.node y = BroadcastNode.messageForUi env p.node y := by
      rw [BroadcastNode.messageForUi, BroadcastNode.messageForUi, h.address]
    have hnot : ∀ x ∈ eff.handed, (loads x.content).chunk? = none := by
      intro x hx
      obtain ⟨⟨y, hy, rfl⟩, -⟩ := hhanded x hx
      rw [hui]
      exact hc y (h.held y hy)
    have hkeeps := keeps_handed loads h.sound hlater syncs eff.handed
    have hnode := foldl_node loads eff.handed { p' with node := n, syncs }
    refine ⟨hkeeps.sound, fun m hm => hkeeps.stored m (h.kept m hm), hkeeps.node.address.trans h.address,
      fun m hm => ?_, fun m hm => ?_⟩
    · rw [hnode] at hm
      exact h.held m (hheld m hm)
    rw [hnode]
    have hsound : Sound ({ p' with node := n, syncs } : PeerRuntime).store := h.sound
    rcases stored_foldl_other hsound hnot hm with hm | hm
    · refine (h.stored m hm).imp_right (Or.imp_right fun hold => ⟨hold.1, fun hpos => ?_⟩)
      exact (hold.2 hpos).trans (hlater.count m.sender)
    · obtain ⟨⟨y, hy, rfl⟩, hcount⟩ := hhanded m hm
      exact .inr (.inr ⟨⟨y, h.held y hy, BroadcastNode.messageForUi_same env p'.node y⟩, hcount⟩)

/-- The chunks of one transfer have been handled, each once and in any
order, and every merge that was due has run. -/
structure Transferred (loads : String → Content) (p : PeerRuntime) (provider : LocalMessageStore)
    (transferId : String) (chunkSize : Int) (es : List Event) : Prop where
  chunks : ∃ chunks, provider.buildHistoryChunks p.store.getLatestVectorClock.2 transferId chunkSize = some chunks ∧
    ((es.filterMap Event.message?).map fun m => loads m.content).Perm (chunks.map fun c => .object c.payload)
  synced : (p.recover loads es).syncs = []

/-- Every message that was stored before, or that the provider sends, is
caught. -/
def CaughtUp (loads : String → Content) (p : PeerRuntime) (provider : LocalMessageStore) (es : List Event) : Prop :=
  ∀ m, m ∈ p.store.disk.readAllMessages ∨ m ∈ provider.getMissingSince p.store.getLatestVectorClock.2 →
    0 < m.senderSeq → Caught loads p es m.sender m.senderSeq

/-- No message that a merge may release is itself a history chunk; chunks
carry no clock and are never held back. -/
def HoldsNoChunk (loads : String → Content) (p : PeerRuntime) (es : List Event) : Prop :=
  ∀ env now, .sync env now ∈ es → ∀ m ∈ p.node.held,
    (loads (BroadcastNode.messageForUi env p.node m).content).chunk? = none

variable {provider : LocalMessageStore} {transferId : String} {chunkSize : Int} {es : List Event}

/-- The chunks that were handled, and what they hold. -/
theorem Transferred.handled (h : Transferred loads p provider transferId chunkSize es) :
    (∀ m, .chunk m ∈ es → ∃ items isLast, (loads m.content).chunk? = some (items, isLast) ∧
      ∀ x, some x ∈ items → x ∈ provider.getMissingSince p.store.getLatestVectorClock.2) ∧
    ∀ x ∈ provider.getMissingSince p.store.getLatestVectorClock.2, ∃ m items isLast, .chunk m ∈ es ∧
      (loads m.content).chunk? = some (items, isLast) ∧ some x ∈ items := by
  obtain ⟨chunks, hchunks, hperm⟩ := h.chunks
  have hsize : 0 < chunkSize := by
    rw [buildHistoryChunks] at hchunks
    split at hchunks
    · cases hchunks
    · omega
  obtain ⟨chunks', hchunks', hsent⟩ := exists_chunks (p := provider) p.store.getLatestVectorClock.2 transferId hsize
  cases hchunks.symm.trans hchunks'
  have hmem (m : Message) : .chunk m ∈ es ↔ m ∈ es.filterMap Event.message? := by
    rw [List.mem_filterMap]
    refine ⟨fun hm => ⟨_, hm, rfl⟩, fun hex => ?_⟩
    obtain ⟨e, he, hm⟩ := hex
    cases e with
    | chunk m' =>
      cases hm
      exact he
    | sync env now => cases hm
  refine ⟨fun m hm => ?_, fun x hx => ?_⟩
  · obtain ⟨c, hc, he⟩ := List.mem_map.1 (hperm.subset (List.mem_map.2 ⟨m, (hmem m).1 hm, rfl⟩))
    refine ⟨c.messages.map some, c.isLast, by rw [← he]; rfl, fun x hx => ?_⟩
    exact (hsent x).1 ⟨c, hc, by simpa using hx⟩
  · obtain ⟨c, hc, hx⟩ := (hsent x).2 hx
    obtain ⟨m, hm, he⟩ := List.mem_map.1 (hperm.symm.subset (List.mem_map.2 ⟨c, hc, rfl⟩))
    exact ⟨m, c.messages.map some, c.isLast, (hmem m).2 hm, by rw [he]; rfl, List.mem_map.2 ⟨x, hx, rfl⟩⟩

theorem keeps_handle (loads : String → Content) (h : Sound p.store) (e : Event) : Keeps p (p.handle loads e) := by
  cases e with
  | chunk m => exact keeps_onMessage loads h m
  | sync env now =>
    cases hs : p.syncs with
    | nil =>
      rw [sync_nil hs]
      exact .later h (.refl p.node)
    | cons vc syncs =>
      rw [sync_cons hs]
      exact keeps_handed loads h (later_applyVcSync env p.node now vc) syncs _

/-- A recovery in which no merge releases a chunk. -/
theorem Traced.recover (hids : p.store.disk.UniqueIds) (hsync : HoldsNoChunk loads p es)
    (hchunk : ∀ m, .chunk m ∈ es → ∃ items isLast, (loads m.content).chunk? = some (items, isLast) ∧
      ∀ x, some x ∈ items → sent x) : Traced p sent (p.recover loads es) := by
  induction es using List.reverseRecOn with
  | nil =>
    have hread := Adds.getLatestVectorClock hids
    rw [recover_nil]
    refine ⟨hread.sound, fun m hm => (hread.stored m).2 (.inl hm), rfl, fun m hm => hm, fun m hm => ?_⟩
    simp only [hread.stored] at hm
    exact .inl (hm.resolve_right List.not_mem_nil)
  | append_singleton es e ih =>
    have hbefore := ih (fun env now hm => hsync env now (List.mem_append_left _ hm))
      fun m hm => hchunk m (List.mem_append_left _ hm)
    rw [recover_concat]
    cases e with
    | chunk m =>
      obtain ⟨items, isLast, hc, hsent⟩ := hchunk m (by simp)
      exact hbefore.chunk hc hsent
    | sync env now => exact hbefore.sync (hsync env now (by simp))

/-- Afterwards the store has the id of every message of the chunks. -/
theorem taken_recover (hids : p.store.disk.UniqueIds) {m x : Message} {items : List (Option Message)} {isLast : Bool}
    (hc : (loads m.content).chunk? = some (items, isLast)) (hx : some x ∈ items) :
    Sound (p.recover loads es).store ∧
      (.chunk m ∈ es → ∃ x' ∈ (p.recover loads es).store.disk.stored, x'.id = x.id) := by
  induction es using List.reverseRecOn with
  | nil =>
    rw [recover_nil]
    exact ⟨(Adds.getLatestVectorClock hids).sound, nofun⟩
  | append_singleton es e ih =>
    obtain ⟨hsound, htaken⟩ := ih
    have hkeeps := keeps_handle loads hsound e
    rw [recover_concat]
    refine ⟨hkeeps.sound, fun hm => ?_⟩
    rcases List.mem_append.1 hm with hm | hm
    · obtain ⟨x', hx', hid⟩ := htaken hm
      exact ⟨x', hkeeps.stored x' hx', hid⟩
    · cases List.mem_singleton.1 hm
      obtain ⟨-, -, -, hthere⟩ := adds_chunk hsound hc
      exact hthere x hx

/-- With nothing held back, and ids that tell messages apart, everything the
provider sent is stored. -/
theorem Transferred.stored (h : Transferred loads p provider transferId chunkSize es) (hq : p.node.held = [])
    (hids : ∀ m ∈ p.store.disk.stored ++ provider.disk.stored, ∀ m' ∈ p.store.disk.stored ++ provider.disk.stored,
      m.id = m'.id → m = m') {x : Message}
    (hx : x ∈ p.store.disk.readAllMessages ∨ x ∈ provider.getMissingSince p.store.getLatestVectorClock.2) :
    x ∈ (p.recover loads es).store.disk.readAllMessages := by
  have hunique : p.store.disk.UniqueIds :=
    fun m hm m' hm' => hids m (List.mem_append_left _ hm) m' (List.mem_append_left _ hm')
  have hsent {m : Message} (hm : m ∈ provider.getMissingSince p.store.getLatestVectorClock.2) :
      m ∈ p.store.disk.stored ++ provider.disk.stored :=
    List.mem_append_right _ (Disk.mem_stored_of_mem_readAllMessages (mem_getMissingSince.1 hm).1)
  have hno : HoldsNoChunk loads p es := fun _ _ _ m hm => by
    rw [hq] at hm
    cases hm
  have htraced := Traced.recover hunique hno h.handled.1
  rw [Disk.mem_readAllMessages_iff htraced.sound.unique]
  rcases hx with hx | hx
  · exact htraced.kept x ((Disk.mem_readAllMessages_iff hunique).1 hx)
  · obtain ⟨m, items, isLast, hm, hc, hitem⟩ := h.handled.2 x hx
    obtain ⟨x', hx', hid⟩ := (taken_recover hunique hc hitem).2 hm
    have hfrom : x' ∈ p.store.disk.stored ++ provider.disk.stored := by
      rcases htraced.stored x' hx' with hold | hnew | ⟨⟨y, hy, -⟩, -⟩
      · exact List.mem_append_left _ hold
      · exact hsent hnew
      · rw [hq] at hy
        cases hy
    rw [← hids x' hfrom x (hsent hx) hid]
    exact hx'

/-- **The clock after a recovery.** It covers what is stored when every
message was caught, whatever is held back. With nothing held back, and ids
that tell messages apart, it does so in no other case. -/
theorem clock_after_recovery (hids : p.store.disk.UniqueIds) (hheld : HoldsNoChunk loads p es)
    (h : Transferred loads p provider transferId chunkSize es) :
    (CaughtUp loads p provider es → Covered (p.recover loads es)) ∧
    (p.node.held = [] →
      (∀ m ∈ p.store.disk.stored ++ provider.disk.stored, ∀ m' ∈ p.store.disk.stored ++ provider.disk.stored,
        m.id = m'.id → m = m') →
      Covered (p.recover loads es) → CaughtUp loads p provider es) := by
  have htraced := Traced.recover hids hheld h.handled.1
  have hclock {u : String} {k : Int} : Known (p.recover loads es) u k ↔ k ≤ (p.recover loads es).node.vc.count u := by
    rw [Known, h.synced]
    simp
  refine ⟨fun hall m hm hpos => ?_, fun hq hboth hcovered m hm hpos => ?_⟩
  · rcases htraced.stored m (Disk.mem_stored_of_mem_readAllMessages hm) with hold | hnew | ⟨-, hcount⟩
    · exact hclock.1 ((hall m (.inl ((Disk.mem_readAllMessages_iff hids).2 hold)) hpos).known hpos)
    · exact hclock.1 ((hall m (.inr hnew) hpos).known hpos)
    · exact hcount hpos
  · have hempty : p.node.holdBack.queue = [] := List.map_eq_nil_iff.1 hq
    rw [← (known_iff_caught hpos hempty es).2, hclock]
    exact hcovered m (h.stored hq hboth hm) hpos

/-- A node with an empty store. -/
def newcomer : PeerRuntime := start "c:1" 5 .empty []

/-- The two chunks of one message each that the provider sends it. -/
def firstChunk : HistoryChunk := ⟨"t", 1, false, [History.chat "a:1" 1 "x"]⟩

def lastChunk : HistoryChunk := ⟨"t", 2, true, [History.chat "a:1" 2 "y"]⟩

def frames (content : String) : Content :=
  if content = "first" then .object firstChunk.payload
  else if content = "last" then .object lastChunk.payload
  else .notJson

def frame (content : String) : Message := ⟨content, "b:1", content, 0, "", 10, Dict.empty⟩

def inOrder : List Event := [.chunk (frame "first"), .chunk (frame "last"), .sync alone 1]

theorem chunks_newcomer :
    History.provider.buildHistoryChunks newcomer.store.getLatestVectorClock.2 "t" 1 = some [firstChunk, lastChunk] := by
  rfl

theorem holdsNoChunk_newcomer (es : List Event) : HoldsNoChunk frames newcomer es :=
  fun _ _ _ _ hm => nomatch hm

/-- What the provider stores has no gap. -/
theorem gapless_provider : Indexes.Gapless History.provider.disk.readAllMessages := by
  have hread : History.provider.disk.readAllMessages = [History.chat "a:1" 1 "x", History.chat "a:1" 2 "y"] := by decide
  have hfirst : (History.chat "a:1" 1 "x").senderSeq = 1 := by decide
  have hsecond : (History.chat "a:1" 2 "y").senderSeq = 2 := by decide
  rw [hread]
  intro m hm k h1 hk
  have hsender : m.sender = "a:1" := by
    rcases List.mem_pair.1 hm with rfl | rfl
    · rfl
    · rfl
  have hle : k ≤ 2 := by
    rcases List.mem_pair.1 hm with rfl | rfl
    · omega
    · omega
  rw [hsender]
  obtain rfl | rfl : k = 1 ∨ k = 2 := by omega
  · exact ⟨_, by simp, rfl, hfirst⟩
  · exact ⟨History.chat "a:1" 2 "y", by simp, rfl, hsecond⟩

theorem clock_after_recovery_inOrder : Covered (newcomer.recover frames inOrder) := by
  have hids : newcomer.store.disk.UniqueIds := fun m hm => nomatch hm
  have htransfer : Transferred frames newcomer History.provider "t" 1 inOrder :=
    ⟨⟨_, chunks_newcomer, .refl _⟩, by decide⟩
  -- the chunk flagged last comes last, and the store then has what the provider has
  have hread : (newcomer.recover frames
      ([.chunk (frame "first")] ++ [.chunk (frame "last")])).store.disk.readAllMessages =
        History.provider.disk.readAllMessages := by decide
  refine (clock_after_recovery hids (holdsNoChunk_newcomer inOrder) htransfer).1 fun m hm hpos => ?_
  refine .inr (.inr ⟨[.chunk (frame "first")], frame "last", ⟨_, rfl⟩, rfl, ?_⟩)
  rw [Reaches, hread]
  refine ⟨gapless_provider, m, ?_, rfl, le_rfl⟩
  exact (mem_getMissingSince.1 (hm.resolve_left (nomatch ·))).1

/-- The same chunks, the last one first. -/
def lastFirst : List Event := [.chunk (frame "last"), .chunk (frame "first"), .sync alone 1]

/-- **A chunk that comes after the last one is not counted**, and neither is
the last one: the clock stays where it was, and the next message is held. -/
theorem last_chunk_first :
    Indexes.Gapless History.provider.disk.readAllMessages ∧
    Transferred frames newcomer History.provider "t" 1 lastFirst ∧
    ¬ Covered (newcomer.recover frames lastFirst) ∧
    (newcomer.recover frames lastFirst).store.disk.readAllMessages.map Message.senderSeq = [1, 2] ∧
    (newcomer.recover frames lastFirst).node.vc.count "a:1" = 0 ∧
    ((newcomer.recover frames lastFirst).node.receive alone 2 2 (History.chat "a:1" 3 "z")).2.1.handed = [] := by
  refine ⟨gapless_provider, ⟨⟨_, chunks_newcomer, .swap _ _ _⟩, by decide⟩, fun hcovered => ?_, by decide, by decide,
    by decide⟩
  have := hcovered (History.chat "a:1" 1 "x") (by decide) (by decide)
  exact absurd this (by decide)

end PeerRuntime

end PeerChat.History
