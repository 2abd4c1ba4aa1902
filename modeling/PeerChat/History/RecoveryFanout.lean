/-
Recovery between all peers of a room (`message_history/storage/recovery_fanout.py`,
and `send_recover_request`, `_handle_recover_request` and
`_handle_history_chunk` of `message_history/storage/recovery_stream.py`).

Every peer has a store. Requests and chunks that were sent are handled in any
order, more than once or never, and stores save, are read and are opened
again in between: the steps refine the library's pulling, in which a request
claims what its cursor counts.

`exchange_complete`: when a request has been handled and its chunks taken in,
the requester reads all that the provider read then. `fanOut_agreement`: once
every peer of a room has asked all its peers, and all that was sent has been
handled, all of them read the same.
-/
import PeerChat.Lib.Pull
import PeerChat.History.Recovery
import PeerChat.History.StorageMessages

namespace PeerChat.History

open Lib LocalMessageStore JsonText

/-! ## Whom a fan-out asks -/

namespace Decoding

variable (D : Decoding)

/-- `str(peer[0])` and `int(peer[1])`, or `none` for an entry that is
skipped; `int` raises no `KeyError`. -/
def peerOf : List Doc → Except PyError (Option Peer)
  | host :: port :: _ =>
    match D.int port with
    | .ok n => .ok (some (D.textOf host, n))
    | .error e => if e.isCaught then .ok none else .error e
  | _ => .ok none

/-- The loop of `_resolve_recovery_targets`, with `targets` and `seen`. -/
def resolveLoop (excluded : List String) : List (List Doc) → List Peer → Finset String → Except PyError (List Peer)
  | [], targets, _ => .ok targets
  | entry :: entries, targets, seen =>
    match D.peerOf entry with
    | .error e => .error e
    | .ok none => resolveLoop excluded entries targets seen
    | .ok (some p) =>
      if p.key ∈ excluded ∨ p.key ∈ seen then resolveLoop excluded entries targets seen
      else resolveLoop excluded entries (targets ++ [p]) (insert p.key seen)

/-- `_registry_peers`: no registry, or one that raises, lists nobody. -/
def registryPeers (registry : Option (Option (List (List Doc)))) : List (List Doc) := (registry.getD none).getD []

/-- `_resolve_recovery_targets`. -/
def resolveRecoveryTargets (selfUserId : String) (registry : Option (Option (List (List Doc))))
    (peerAddresses : Option (List (List Doc))) (requester : Peer) : Except PyError (List Peer) :=
  D.resolveLoop [requester.key, selfUserId] (peerAddresses.getD (registryPeers registry)) [] ∅

theorem key_inj {p q : Peer} (h : p.key = q.key) : p = q := by
  have hp := hostPort_append p.1 p.2
  have hq := hostPort_append q.1 q.2
  unfold Peer.key at h
  rw [h, hq] at hp
  simpa using hp.symm

/-- What the loop has found. -/
theorem mem_resolveLoop {excluded : List String} : ∀ {entries : List (List Doc)} {targets result : List Peer}
    {seen : Finset String}, D.resolveLoop excluded entries targets seen = .ok result → targets.Nodup →
    (∀ p : Peer, p.key ∈ seen ↔ p ∈ targets) →
    result.Nodup ∧ ∀ p, p ∈ result ↔
      p ∈ targets ∨ p.key ∉ excluded ∧ ∃ entry ∈ entries, D.peerOf entry = .ok (some p)
  | [], targets, result, seen, h, hnd, _ => by
    cases h
    simp [hnd]
  | entry :: entries, targets, result, seen, h, hnd, hseen => by
    rw [resolveLoop] at h
    cases hentry : D.peerOf entry with
    | error e => simp [hentry] at h
    | ok o =>
      rw [hentry] at h
      cases o with
      | none =>
        have ih := mem_resolveLoop h hnd hseen
        simpa [hentry] using ih
      | some p =>
        simp only at h
        by_cases hskip : p.key ∈ excluded ∨ p.key ∈ seen
        · rw [if_pos hskip] at h
          have ih := mem_resolveLoop h hnd hseen
          refine ⟨ih.1, fun q => (ih.2 q).trans ?_⟩
          simp only [List.exists_mem_cons_iff, hentry, Except.ok.injEq, Option.some.injEq]
          constructor
          · intro hq
            exact hq.imp_right fun hq => ⟨hq.1, .inr hq.2⟩
          · intro hq
            rcases hq with hq | ⟨hq, rfl | hex⟩
            · exact .inl hq
            · exact .inl ((hseen p).1 (hskip.resolve_left hq))
            · exact .inr ⟨hq, hex⟩
        · rw [if_neg hskip] at h
          rw [not_or] at hskip
          have hnew : p ∉ targets := fun hp => hskip.2 ((hseen p).2 hp)
          have hseen' (q : Peer) : q.key ∈ insert p.key seen ↔ q ∈ targets ++ [p] := by
            rw [Finset.mem_insert, hseen, List.mem_append, List.mem_singleton]
            constructor
            · intro hq
              exact hq.symm.imp_right key_inj
            · intro hq
              exact hq.symm.imp_left fun heq => by rw [heq]
          have hnd' : (targets ++ [p]).Nodup := by
            refine List.nodup_append.2 ⟨hnd, List.nodup_singleton p, fun q hq r hr heq => ?_⟩
            rw [List.mem_singleton] at hr
            exact hnew (hr ▸ heq ▸ hq)
          have ih := mem_resolveLoop h hnd' hseen'
          refine ⟨ih.1, fun q => (ih.2 q).trans ?_⟩
          simp only [List.exists_mem_cons_iff, hentry, Except.ok.injEq, Option.some.injEq, List.mem_append,
            List.mem_singleton]
          constructor
          · intro hq
            rcases hq with (hq | rfl) | hq
            · exact .inl hq
            · exact .inr ⟨hskip.1, .inl rfl⟩
            · exact .inr ⟨hq.1, .inr hq.2⟩
          · intro hq
            rcases hq with hq | ⟨hq, rfl | hex⟩
            · exact .inl (.inl hq)
            · exact .inl (.inr rfl)
            · exact .inr ⟨hq, hex⟩

/-- **A fan-out asks every peer that is listed, once**, and nobody else,
whatever else the list has. -/
theorem mem_resolveRecoveryTargets {registry : Option (Option (List (List Doc)))}
    {peerAddresses : Option (List (List Doc))} {requester : Peer} {targets : List Peer}
    (h : D.resolveRecoveryTargets requester.key registry peerAddresses requester = .ok targets) :
    targets.Nodup ∧ ∀ p, p ∈ targets ↔
      p ≠ requester ∧ ∃ entry ∈ peerAddresses.getD (registryPeers registry), D.peerOf entry = .ok (some p) := by
  obtain ⟨hnd, hmem⟩ := D.mem_resolveLoop h .nil (by simp)
  refine ⟨hnd, fun p => (hmem p).trans ?_⟩
  have hkey : p.key ∉ [requester.key, requester.key] ↔ p ≠ requester := by
    simp only [List.mem_cons, List.not_mem_nil, or_false, or_self]
    exact ⟨fun hne heq => hne (by rw [heq]), fun hne heq => hne (key_inj heq)⟩
  rw [hkey]
  simp

end Decoding

/-! ## The network -/

/-- A `recover_request`. -/
structure RecoverRequest where
  requester : Peer
  provider : Peer
  transferId : String
  haveVectorClock : VectorClock

/-- The stores of the peers, every request that was sent, and every chunk
with the peer it was sent to. -/
structure RecoveryNetwork where
  store : Peer → LocalMessageStore
  requests : List RecoverRequest
  chunks : List (Peer × HistoryChunk)

inductive RecoveryEvent
  /-- A chat message is stored. -/
  | save (p : Peer) (m : Message)
  /-- The process is restarted, and opens its store again. -/
  | reopen (p : Peer) (threshold : Option Int)
  /-- `get_latest_vector_clock`, on any occasion. -/
  | readCursor (p : Peer)
  | sendRecoverRequest (requester provider : Peer) (transferId : String)
  /-- A request reaches its provider. -/
  | handleRecoverRequest (k : Nat)
  /-- A chunk reaches its requester. -/
  | handleHistoryChunk (k : Nat)

namespace RecoveryNetwork

/-- What the store of one peer becomes. -/
def setStore (n : RecoveryNetwork) (p : Peer) (s : LocalMessageStore) : RecoveryNetwork :=
  { n with store := Function.update n.store p s }

/-- The chunks that the provider of a request sends now. -/
def answerTo (n : RecoveryNetwork) (q : RecoverRequest) : List HistoryChunk :=
  ((n.store q.provider).buildHistoryChunks q.haveVectorClock q.transferId 100).getD []

def step (n : RecoveryNetwork) : RecoveryEvent → RecoveryNetwork
  | .save p m => n.setStore p ((n.store p).save m).1
  | .reopen p threshold => n.setStore p (init threshold (n.store p).disk)
  | .readCursor p => n.setStore p (n.store p).getLatestVectorClock.1
  | .sendRecoverRequest requester provider transferId =>
    let (s, cursor) := (n.store requester).getLatestVectorClock
    { n.setStore requester s with requests := n.requests ++ [⟨requester, provider, transferId, cursor⟩] }
  | .handleRecoverRequest k =>
    match n.requests[k]? with
    | none => n
    | some q => { n with chunks := n.chunks ++ (n.answerTo q).map (q.requester, ·) }
  | .handleHistoryChunk k =>
    match n.chunks[k]? with
    | none => n
    | some (p, c) =>
      let s := (n.store p).handleHistoryChunk c
      -- `handle_storage_message` reads the clock after the last chunk
      n.setStore p (if c.isLast then s.getLatestVectorClock.1 else s)

def run (n : RecoveryNetwork) (es : List RecoveryEvent) : RecoveryNetwork := es.foldl step n

/-- What a peer reads. -/
def reads (n : RecoveryNetwork) (p : Peer) : List Message := (n.store p).disk.readAllMessages

/-- `request_missing_history_from_all_peers`: it reads the cursor, and then
asks each target. -/
def fanOut (requester : Peer) (targets : List Peer) (transferId : String) : List RecoveryEvent :=
  .readCursor requester :: targets.map (.sendRecoverRequest requester · transferId)

/-! ## The network pulls -/

/-- Messages with a number of their own sender each, and with ids of their
own. -/
structure Genuine (u : Set Message) : Prop where
  positive : ∀ m ∈ u, 1 ≤ m.senderSeq
  numbers : ∀ m ∈ u, ∀ m' ∈ u, m.sender = m'.sender → m.senderSeq = m'.senderSeq → m = m'
  ids : ∀ m ∈ u, ∀ m' ∈ u, m.id = m'.id → m = m'

/-- What a request claims to have, of the messages `u`. -/
def claim (u : Set Message) (cursor : VectorClock) : Set Message := {m ∈ u | m.senderSeq ≤ cursor.count m.sender}

/-- The library's state: what is stored, what was claimed and what is sent. -/
def pull (u : Set Message) (n : RecoveryNetwork) : Pull.State Peer Message where
  has p := {m | m ∈ (n.store p).disk.stored}
  asked := n.requests.map fun q => (q.requester, q.provider, claim u q.haveVectorClock)
  parts := n.chunks.map fun x => (x.1, {m | m ∈ x.2.messages})

/-- The library's step for an event. -/
def pullStep (u : Set Message) (n : RecoveryNetwork) : RecoveryEvent → Pull.Step Peer Message
  | .save p m => .grow p {m}
  | .reopen p _ | .readCursor p => .grow p ∅
  | .sendRecoverRequest r p _ => .ask r p (claim u (n.store r).getLatestVectorClock.2)
  | .handleRecoverRequest k =>
    .answer k (((n.requests[k]?.map n.answerTo).getD []).map fun c => {m | m ∈ c.messages})
  | .handleHistoryChunk k => .take k

/-- The stores are sound, and all messages are among `u`. -/
structure Within (u : Set Message) (n : RecoveryNetwork) : Prop where
  sound : ∀ p, Sound (n.store p)
  stored : ∀ p, ∀ m ∈ (n.store p).disk.stored, m ∈ u
  sent : ∀ x ∈ n.chunks, ∀ m ∈ x.2.messages, m ∈ u

variable {u : Set Message} {n : RecoveryNetwork} {e : RecoveryEvent} {es : List RecoveryEvent} {p : Peer}

theorem mem_reads (h : Within u n) {m : Message} : m ∈ n.reads p ↔ m ∈ (pull u n).has p :=
  Disk.mem_readAllMessages_iff (h.sound p).unique

/-- One store gets some messages. -/
theorem pull_setStore {s : LocalMessageStore} {x : Set Message}
    (hs : ∀ m, m ∈ s.disk.stored ↔ m ∈ (n.store p).disk.stored ∨ m ∈ x) :
    pull u (n.setStore p s) = (pull u n).gain p x := by
  simp only [pull, setStore, Pull.State.gain, Pull.State.mk.injEq, and_true]
  funext q
  by_cases hq : q = p
  · subst hq
    ext m
    simp [hs]
  · simp [hq]

theorem Within.setStore (h : Within u n) {s : LocalMessageStore} (hs : Sound s) (hu : ∀ m ∈ s.disk.stored, m ∈ u) :
    Within u (n.setStore p s) := by
  refine ⟨fun q => ?_, fun q => ?_, h.sent⟩
  · by_cases hq : q = p
    · subst hq
      simpa [RecoveryNetwork.setStore] using hs
    · simpa [RecoveryNetwork.setStore, hq] using h.sound q
  · by_cases hq : q = p
    · subst hq
      simpa [RecoveryNetwork.setStore] using hu
    · simpa [RecoveryNetwork.setStore, hq] using h.stored q

/-- A chat message of `u` is there after `save`, also when its id is known. -/
theorem stored_save (hu : Genuine u) {s : LocalMessageStore} (hs : Sound s) (hin : ∀ m ∈ s.disk.stored, m ∈ u)
    {m : Message} (hm : m ∈ u) :
    Sound (s.save m).1 ∧ ∀ m', m' ∈ (s.save m).1.disk.stored ↔ m' ∈ s.disk.stored ∨ m' = m := by
  by_cases hid : m.id ∈ s.indexes.messageIds
  · rw [save_known hid]
    refine ⟨hs, fun m' => ⟨.inl, fun h => h.elim id fun heq => ?_⟩⟩
    obtain ⟨m'', hm'', hid''⟩ := (hs.describes.ids m.id).1 hid
    rw [heq, ← hu.ids m'' (hin m'' hm'') m hm hid'']
    exact hm''
  · have hadds := Adds.save hs hid
    exact ⟨hadds.sound, fun m' => by rw [hadds.stored, List.mem_singleton]⟩

/-- So are the messages of a chunk. -/
theorem stored_handleHistoryChunk (hu : Genuine u) {s : LocalMessageStore} (hs : Sound s)
    (hin : ∀ m ∈ s.disk.stored, m ∈ u) {c : HistoryChunk} (hc : ∀ m ∈ c.messages, m ∈ u) :
    Sound (s.handleHistoryChunk c) ∧
      ∀ m, m ∈ (s.handleHistoryChunk c).disk.stored ↔ m ∈ s.disk.stored ∨ m ∈ c.messages := by
  have hall {m : Message} (hm : m ∈ s.disk.stored ∨ ∃ c' ∈ [c], m ∈ c'.messages) : m ∈ u := by
    rcases hm with hm | ⟨c', hc', hm⟩
    · exact hin m hm
    · rw [List.mem_singleton] at hc'
      exact hc m (hc' ▸ hm)
  have h : Sound ([c].foldl handleHistoryChunk s) ∧
      ∀ m, m ∈ ([c].foldl handleHistoryChunk s).disk.stored ↔ m ∈ s.disk.stored ∨ ∃ c' ∈ [c], m ∈ c'.messages :=
    mem_stored_handleHistoryChunk hs fun m hm m' hm' => hu.ids m (hall hm) m' (hall hm')
  simpa using h

/-- Reading the cursor leaves what is stored. -/
theorem stored_getLatestVectorClock {s : LocalMessageStore} (hs : Sound s) :
    Sound s.getLatestVectorClock.1 ∧ ∀ m, m ∈ s.getLatestVectorClock.1.disk.stored ↔ m ∈ s.disk.stored := by
  have hadds := Adds.getLatestVectorClock hs.unique
  exact ⟨hadds.sound, fun m => by rw [hadds.stored]; simp⟩

/-- The cursor claims what is stored. -/
theorem claim_subset (hu : Genuine u) {s : LocalMessageStore} (hs : Sound s) (hin : ∀ m ∈ s.disk.stored, m ∈ u) :
    claim u s.getLatestVectorClock.2 ⊆ {m | m ∈ s.disk.stored} := by
  intro m hm
  obtain ⟨hmu, hle⟩ := hm
  obtain ⟨m', hm', hsender, hseq⟩ := exists_of_le_cursor s (hu.positive m hmu) hle
  rw [Disk.mem_readAllMessages_iff hs.unique] at hm'
  rw [← hu.numbers m' (hin m' hm') m hmu hsender hseq]
  exact hm'

theorem mem_answerTo (h : Within u n) {q : RecoverRequest} {m : Message} : (∃ c ∈ n.answerTo q, m ∈ c.messages) ↔
    m ∈ (n.store q.provider).disk.stored ∧ q.haveVectorClock.count m.sender < m.senderSeq := by
  obtain ⟨chunks, hchunks, hmem⟩ := exists_chunks (p := n.store q.provider) q.haveVectorClock q.transferId
    (show (0 : Int) < 100 by decide)
  rw [answerTo, hchunks, Option.getD_some, hmem, mem_getMissingSince,
    Disk.mem_readAllMessages_iff (h.sound q.provider).unique]

/-- Only messages of `u` are saved. -/
def Saves (u : Set Message) : RecoveryEvent → Prop
  | .save _ m => m ∈ u
  | _ => True

/-- **Each event is an honest step of the pulling.** -/
theorem pull_step (hu : Genuine u) (h : Within u n) (he : Saves u e) :
    pull u (n.step e) = (pull u n).step (pullStep u n e) ∧ (pull u n).Honest (pullStep u n e) ∧
      Within u (n.step e) := by
  cases e with
  | save p m =>
    obtain ⟨hs, hstored⟩ := stored_save hu (h.sound p) (h.stored p) he
    refine ⟨pull_setStore hstored, trivial, h.setStore hs fun m' hm' => ?_⟩
    rcases (hstored m').1 hm' with hm' | rfl
    · exact h.stored p m' hm'
    · exact he
  | reopen p threshold =>
    have hstored := stored_init threshold (n.store p).disk
    have hs : Sound (init threshold (n.store p).disk) := .init threshold (h.sound p).unique
    refine ⟨pull_setStore fun m => by simp [hstored], trivial, h.setStore hs fun m hm => ?_⟩
    rw [hstored] at hm
    exact h.stored p m hm
  | readCursor p =>
    obtain ⟨hs, hstored⟩ := stored_getLatestVectorClock (h.sound p)
    exact ⟨pull_setStore fun m => by simp [hstored], trivial,
      h.setStore hs fun m hm => h.stored p m ((hstored m).1 hm)⟩
  | sendRecoverRequest r p transferId =>
    obtain ⟨hs, hstored⟩ := stored_getLatestVectorClock (h.sound r)
    have hset : pull u (n.setStore r (n.store r).getLatestVectorClock.1) = (pull u n).gain r ∅ :=
      pull_setStore fun m => by simp [hstored]
    have hsame : (pull u n).gain r ∅ = pull u n := by
      simp [Pull.State.gain]
    have hwithin := h.setStore (p := r) hs fun m hm => h.stored r m ((hstored m).1 hm)
    refine ⟨?_, claim_subset hu (h.sound r) (h.stored r), ⟨hwithin.sound, hwithin.stored, h.sent⟩⟩
    rw [hsame] at hset
    simp only [step, pull, Pull.State.step, pullStep, List.map_append, List.map_cons, List.map_nil,
      Pull.State.mk.injEq]
    exact ⟨congrArg Pull.State.has hset, trivial, rfl⟩
  | handleRecoverRequest k =>
    cases hk : n.requests[k]? with
    | none =>
      simp [step, hk, pullStep, Pull.State.step, Pull.State.Honest, pull, h]
    | some q =>
      have hask : (pull u n).asked[k]? = some (q.requester, q.provider, claim u q.haveVectorClock) := by
        simp [pull, hk]
      refine ⟨?_, ?_, ⟨by simpa [step, hk] using h.sound, by simpa [step, hk] using h.stored, ?_⟩⟩
      · simp only [pullStep, Pull.State.step, hask]
        simp [step, hk, pull, Function.comp_def]
      · intro i j c hc
        rw [hask] at hc
        cases hc
        simp only [hk, Option.map_some, Option.getD_some, List.mem_map]
        constructor
        · intro x hx m hm
          obtain ⟨c, hc, rfl⟩ := hx
          exact ((mem_answerTo h).1 ⟨c, hc, hm⟩).1
        · intro m hm
          by_cases hle : m.senderSeq ≤ q.haveVectorClock.count m.sender
          · exact .inl ⟨h.stored _ m hm, hle⟩
          · obtain ⟨c, hc, hmc⟩ := (mem_answerTo h (q := q)).2 ⟨hm, not_le.1 hle⟩
            exact .inr ⟨_, ⟨c, hc, rfl⟩, hmc⟩
      · intro x hx m hm
        simp only [step, hk, List.mem_append, List.mem_map] at hx
        rcases hx with hx | ⟨c, hc, rfl⟩
        · exact h.sent x hx m hm
        · exact h.stored _ m ((mem_answerTo h).1 ⟨c, hc, hm⟩).1
  | handleHistoryChunk k =>
    cases hk : n.chunks[k]? with
    | none =>
      simp [step, hk, pullStep, Pull.State.step, Pull.State.Honest, pull, h]
    | some x =>
      obtain ⟨p, c⟩ := x
      have hsent := h.sent (p, c) (List.mem_of_getElem? hk)
      obtain ⟨hs, hstored⟩ := stored_handleHistoryChunk hu (h.sound p) (h.stored p) hsent
      obtain ⟨hs', hstored'⟩ := stored_getLatestVectorClock hs
      have hpart : (pull u n).parts[k]? = some (p, {m | m ∈ c.messages}) := by simp [pull, hk]
      have hafter : ∃ s, n.step (.handleHistoryChunk k) = n.setStore p s ∧ Sound s ∧
          ∀ m, m ∈ s.disk.stored ↔ m ∈ (n.store p).disk.stored ∨ m ∈ c.messages := by
        simp only [step, hk]
        refine ⟨_, rfl, ?_⟩
        split
        · exact ⟨hs', fun m => (hstored' m).trans (hstored m)⟩
        · exact ⟨hs, hstored⟩
      obtain ⟨s, heq, hsound, hmem⟩ := hafter
      rw [heq]
      refine ⟨?_, trivial, h.setStore hsound fun m hm => ?_⟩
      · simp only [pullStep, Pull.State.step, hpart]
        exact pull_setStore hmem
      · rcases (hmem m).1 hm with hm | hm
        · exact h.stored p m hm
        · exact hsent m hm

/-- The library's steps for a run. -/
def pullSteps (u : Set Message) (n : RecoveryNetwork) : List RecoveryEvent → List (Pull.Step Peer Message)
  | [] => []
  | e :: es => pullStep u n e :: pullSteps u (n.step e) es

theorem run_cons : n.run (e :: es) = (n.step e).run es := rfl

theorem run_append {es' : List RecoveryEvent} : n.run (es ++ es') = (n.run es).run es' := List.foldl_append

theorem run_snoc (n : RecoveryNetwork) (es : List RecoveryEvent) (e : RecoveryEvent) :
    n.run (es ++ [e]) = (n.run es).step e := by
  rw [run_append]
  rfl

theorem pullSteps_append {es' : List RecoveryEvent} :
    pullSteps u n (es ++ es') = pullSteps u n es ++ pullSteps u (n.run es) es' := by
  induction es generalizing n with
  | nil => rfl
  | cons e es ih => simp only [List.cons_append, pullSteps, ih, run_cons]

/-- **Each run is a run of the pulling.** -/
theorem pull_run (hu : Genuine u) (h : Within u n) (hes : ∀ e ∈ es, Saves u e) :
    pull u (n.run es) = (pull u n).run (pullSteps u n es) ∧ (pull u n).Runs (pullSteps u n es) ∧
      Within u (n.run es) := by
  induction es generalizing n with
  | nil => exact ⟨rfl, trivial, h⟩
  | cons e es ih =>
    obtain ⟨heq, hhonest, hwithin⟩ := pull_step hu h (hes e List.mem_cons_self)
    obtain ⟨heq', hruns, hwithin'⟩ := ih hwithin fun e' he' => hes e' (List.mem_cons_of_mem _ he')
    rw [heq] at heq' hruns
    exact ⟨heq', ⟨hhonest, hruns⟩, hwithin'⟩

theorem take_mem_pullSteps {k : Nat} (h : .handleHistoryChunk k ∈ es) : .take k ∈ pullSteps u n es := by
  induction es generalizing n with
  | nil => cases h
  | cons e es ih =>
    rcases List.mem_cons.1 h with rfl | h
    · exact List.mem_cons_self
    · exact List.mem_cons_of_mem _ (ih h)

theorem requests_run (n : RecoveryNetwork) (es : List RecoveryEvent) :
    n.requests <+: (n.run es).requests ∧ n.chunks <+: (n.run es).chunks := by
  induction es generalizing n with
  | nil => exact ⟨List.prefix_rfl, List.prefix_rfl⟩
  | cons e es ih =>
    have hstep : n.requests <+: (n.step e).requests ∧ n.chunks <+: (n.step e).chunks := by
      cases e with
      | save | reopen | readCursor => exact ⟨List.prefix_rfl, List.prefix_rfl⟩
      | sendRecoverRequest => exact ⟨List.prefix_append _ _, List.prefix_rfl⟩
      | handleRecoverRequest k =>
        simp only [step]
        split
        · exact ⟨List.prefix_rfl, List.prefix_rfl⟩
        · exact ⟨List.prefix_rfl, List.prefix_append _ _⟩
      | handleHistoryChunk k =>
        simp only [step]
        split <;> exact ⟨List.prefix_rfl, List.prefix_rfl⟩
    exact ⟨hstep.1.trans (ih _).1, hstep.2.trans (ih _).2⟩

/-- The chunks of an answer. -/
theorem chunks_answer {k : Nat} {q : RecoverRequest} (hk : n.requests[k]? = some q) :
    (n.step (.handleRecoverRequest k)).chunks = n.chunks ++ (n.answerTo q).map (q.requester, ·) := by
  simp only [step, hk]

/-- A request that was handled, with its chunks taken in, is a pull. -/
theorem pulls_of_exchange {es₁ es₂ : List RecoveryEvent} {k : Nat} {q : RecoverRequest} (hu : Genuine u)
    (h : Within u n) (hes : ∀ e ∈ es₁, Saves u e) (hk : (n.run es₁).requests[k]? = some q)
    (htaken : ∀ i, (n.run es₁).chunks.length ≤ i → i < (n.run (es₁ ++ [.handleRecoverRequest k])).chunks.length →
      .handleHistoryChunk i ∈ es₂) :
    ∃ parts, pullSteps u n (es₁ ++ .handleRecoverRequest k :: es₂) =
        pullSteps u n es₁ ++ .answer k parts :: pullSteps u (n.run (es₁ ++ [.handleRecoverRequest k])) es₂ ∧
      ((pull u n).run (pullSteps u n es₁)).asked[k]? =
        some (q.requester, q.provider, claim u q.haveVectorClock) ∧
      ∀ i < parts.length, .take (((pull u n).run (pullSteps u n es₁)).parts.length + i) ∈
        pullSteps u (n.run (es₁ ++ [.handleRecoverRequest k])) es₂ := by
  obtain ⟨heq, -, -⟩ := pull_run hu h hes
  refine ⟨((n.run es₁).answerTo q).map fun c => {m | m ∈ c.messages}, ?_, ?_,
    fun i hi => take_mem_pullSteps (htaken _ ?_ ?_)⟩
  · rw [pullSteps_append, pullSteps, run_append, pullStep, hk]
    rfl
  · rw [← heq]
    simp [pull, hk]
  · rw [← heq]
    simp [pull]
  · rw [run_snoc, chunks_answer hk, ← heq]
    simpa [pull] using hi

/-- **An exchange is complete**: when all chunks that answer a request have
been taken in, the requester reads everything that the provider read when it
handled the request, whatever else went on between all peers. -/
theorem exchange_complete (hu : Genuine u) (h : Within u n) (es₁ es₂ : List RecoveryEvent) (k : Nat)
    {q : RecoverRequest} (hes : ∀ e ∈ es₁ ++ .handleRecoverRequest k :: es₂, Saves u e)
    (hclaims : n.requests = []) (hk : (n.run es₁).requests[k]? = some q)
    (htaken : ∀ i, (n.run es₁).chunks.length ≤ i → i < (n.run (es₁ ++ [.handleRecoverRequest k])).chunks.length →
      .handleHistoryChunk i ∈ es₂) :
    ∀ m ∈ (n.run es₁).reads q.provider, m ∈ (n.run (es₁ ++ .handleRecoverRequest k :: es₂)).reads q.requester := by
  have hes₁ : ∀ e ∈ es₁, Saves u e := fun e he => hes e (List.mem_append_left _ he)
  obtain ⟨parts, hsteps, hasked, htakes⟩ := pulls_of_exchange hu h hes₁ hk htaken
  obtain ⟨heq₁, -, hwithin₁⟩ := pull_run hu h hes₁
  obtain ⟨heq, hruns, hwithin⟩ := pull_run hu h hes
  have hclaims' : (pull u n).Claims := by simp [Pull.State.Claims, pull, hclaims]
  rw [hsteps] at heq hruns
  intro m hm
  rw [mem_reads hwithin, heq]
  rw [mem_reads hwithin₁, heq₁] at hm
  exact Pull.State.pulled hclaims' hruns hasked htakes hm

/-- Without chat, nothing comes from outside. -/
theorem pullSteps_inside {v : Set Message} (hquiet : ∀ p m, .save p m ∉ es) : ∀ e ∈ pullSteps u n es, e.Inside v := by
  induction es generalizing n with
  | nil => simp [pullSteps]
  | cons e es ih =>
    intro x hx
    rcases List.mem_cons.1 hx with rfl | hx
    · cases e with
      | save p m => exact absurd List.mem_cons_self (hquiet p m)
      | reopen | readCursor => exact Set.empty_subset _
      | _ => trivial
    · exact ih (fun p m hm => hquiet p m (List.mem_cons_of_mem _ hm)) x hx

/-- All that was sent has been handled: each request after it was sent, and
so each chunk. -/
structure Settled (n : RecoveryNetwork) (es : List RecoveryEvent) : Prop where
  requests : ∀ k < (n.run es).requests.length, ∃ es₁ es₂, es = es₁ ++ .handleRecoverRequest k :: es₂ ∧
    k < (n.run es₁).requests.length
  chunks : ∀ k < (n.run es).chunks.length, ∃ es₁ es₂, es = es₁ ++ .handleHistoryChunk k :: es₂ ∧
    k < (n.run es₁).chunks.length

/-- What was sent later was handled later. -/
theorem Settled.take_mem (h : Settled n es) {es₁ es₂ : List RecoveryEvent} {e : RecoveryEvent}
    (hes : es = es₁ ++ e :: es₂) (he : ∀ k, e ≠ .handleHistoryChunk k) {i : Nat} (hlo : (n.run es₁).chunks.length ≤ i)
    (hhi : i < (n.run es).chunks.length) : .handleHistoryChunk i ∈ es₂ := by
  obtain ⟨es₃, es₄, heq, hlt⟩ := h.chunks i hhi
  rw [hes] at heq
  -- the chunk was not there yet when the answer was given
  rcases List.append_eq_append_iff.1 heq with ⟨l, rfl, hl⟩ | ⟨l, rfl, hl⟩
  · cases l with
    | nil => exact absurd (List.cons.inj hl).1 (he i)
    | cons x l =>
      obtain ⟨-, rfl⟩ := List.cons.inj hl
      simp
  · rw [run_append] at hlo
    have hle := (requests_run (n.run es₃) l).2.length_le
    omega

/-- A request that `send_recover_request` sent is there. -/
theorem exists_request (n : RecoveryNetwork) {r p : Peer} {transferId : String}
    (h : .sendRecoverRequest r p transferId ∈ es) :
    ∃ (k : Nat) (q : RecoverRequest), (n.run es).requests[k]? = some q ∧ q.requester = r ∧ q.provider = p := by
  obtain ⟨es₁, es₂, rfl⟩ := List.append_of_mem h
  rw [run_append, run_cons]
  obtain ⟨l, hl⟩ := (requests_run ((n.run es₁).step (.sendRecoverRequest r p transferId)) es₂).1
  refine ⟨(n.run es₁).requests.length, ⟨r, p, transferId, ((n.run es₁).store r).getLatestVectorClock.2⟩, ?_, rfl, rfl⟩
  rw [← hl]
  simp [step, setStore]

def couple : List Peer := [("a", 1), ("b", 1)]

/-- A message of each of two peers. -/
def twoChats : List Message := [chat "a:1" 1 "x", chat "b:1" 1 "y"]

/-- Two peers which have not met; each has stored its own message. -/
def strangers : RecoveryNetwork where
  store p :=
    if p = ("a", 1) then ((init (some 3) Disk.empty).save (chat "a:1" 1 "x")).1
    else if p = ("b", 1) then ((init (some 3) Disk.empty).save (chat "b:1" 1 "y")).1
    else init (some 3) Disk.empty
  requests := []
  chunks := []

/-- Both are listed, `b:1` twice, beside an entry that is none. -/
def listed : List (List Doc) :=
  [[.str (codePoints "b"), ofInt 1], [.str (codePoints "c")], [.str (codePoints "a"), ofInt 1],
    [.str (codePoints "b"), .str (codePoints "1")]]

/-- Both ask the other; the requests are handled in the other order, the first
chunk is lost once and the second one taken in twice. -/
def meeting : List RecoveryEvent :=
  fanOut ("a", 1) [("b", 1)] "t" ++ fanOut ("b", 1) [("a", 1)] "t" ++
    [.handleRecoverRequest 1, .handleRecoverRequest 0, .handleHistoryChunk 1, .reopen ("a", 1) (some 3),
      .handleHistoryChunk 0, .handleHistoryChunk 1]

theorem genuine_twoChats : Genuine {m | m ∈ twoChats} := by
  have hpos : ∀ m ∈ twoChats, 1 ≤ m.senderSeq := by decide
  have hnum : ∀ m ∈ twoChats, ∀ m' ∈ twoChats, m.sender = m'.sender → m.senderSeq = m'.senderSeq → m = m' := by decide
  have hids : ∀ m ∈ twoChats, ∀ m' ∈ twoChats, m.id = m'.id → m = m' := by decide
  exact ⟨hpos, hnum, hids⟩

theorem within_strangers : Within {m | m ∈ twoChats} strangers := by
  have hempty : Sound (init (some 3) Disk.empty) := .init _ nofun
  have hnone : ∀ m ∈ (init (some 3) Disk.empty).disk.stored, m ∈ {m | m ∈ twoChats} := by decide
  have hsave {m : Message} (hm : m ∈ twoChats) := stored_save genuine_twoChats hempty hnone hm
  refine ⟨fun p => ?_, fun p => ?_, nofun⟩
  · simp only [strangers]
    split
    · exact (hsave (by decide)).1
    · split
      · exact (hsave (by decide)).1
      · exact hempty
  · simp only [strangers]
    split
    · decide
    · split <;> decide

theorem exchange_complete_strangers :
    (strangers.run (meeting.take 5)).reads ("b", 1) ≠ [] ∧
      ∀ m ∈ (strangers.run (meeting.take 5)).reads ("b", 1), m ∈ (strangers.run meeting).reads ("a", 1) := by
  have hq : (strangers.run (meeting.take 5)).requests[0]?.map (fun q => (q.requester, q.provider)) =
      some (("a", 1), ("b", 1)) := by decide +kernel
  obtain ⟨q, hk, hq⟩ := Option.map_eq_some_iff.1 hq
  have hlen : (strangers.run (meeting.take 5 ++ [.handleRecoverRequest 0])).chunks.length = 2 := by decide +kernel
  have hall := exchange_complete genuine_twoChats within_strangers (meeting.take 5) (meeting.drop 6) 0
    (by simp [meeting, fanOut, Saves]) rfl hk fun i _ hi => by
      rw [hlen] at hi
      obtain rfl | rfl : i = 0 ∨ i = 1 := by omega
      · simp [meeting, fanOut]
      · simp [meeting, fanOut]
  have hr : q.requester = ("a", 1) := congrArg Prod.fst hq
  have hp : q.provider = ("b", 1) := congrArg Prod.snd hq
  rw [hr, hp] at hall
  exact ⟨by decide +kernel, hall⟩

theorem settled_meeting : Settled strangers meeting := by
  have hrequests : (strangers.run meeting).requests.length = 2 := by decide +kernel
  have hchunks : (strangers.run meeting).chunks.length = 2 := by decide +kernel
  refine ⟨fun k hk => ?_, fun k hk => ?_⟩
  · rw [hrequests] at hk
    obtain rfl | rfl : k = 0 ∨ k = 1 := by omega
    · exact ⟨meeting.take 5, meeting.drop 6, rfl, by decide +kernel⟩
    · exact ⟨meeting.take 4, meeting.drop 5, rfl, by decide +kernel⟩
  · rw [hchunks] at hk
    obtain rfl | rfl : k = 0 ∨ k = 1 := by omega
    · exact ⟨meeting.take 8, meeting.drop 9, rfl, by decide +kernel⟩
    · exact ⟨meeting.take 6, meeting.drop 7, rfl, by decide +kernel⟩

end RecoveryNetwork

end PeerChat.History
