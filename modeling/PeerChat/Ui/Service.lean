/-
The chat service between membership and distribution (`Service` of
`ui/services/service.py`, `handle_membership_event` of its `connect`).

The service enters every member that joins in the registry of the
`BroadcastNode`, with the key of the join, and takes it out when it leaves;
the hook `lazy_register_pubkey` enters senders of discovery messages. The
first entry wins (`getPubKey_run`). `trust_on_first_use`: a node that
enforces signatures accepts a message under no key but one that was entered
for its sender, and under the first since the sender last left if that one
loads.
-/
import PeerChat.Distribution.FirstUse
import PeerChat.Lib.Pinned
import PeerChat.Membership.Models

namespace PeerChat.Ui

open Lib FirstUse PeerChat.Membership

/-- `UserRecord`. -/
structure UserRecord where
  name : String
  status : String
  ip : String
  deriving DecidableEq, Repr

/-- `Service`, with the node that it wires to the discovery. -/
structure Service (κ : Type) where
  receiver : Receiver κ
  users : List UserRecord
  chatPort : Int
  /-- `request_missing_history` returns when it is called for an event, or
  there is no history service. -/
  requestsHistory : MembershipEvent → Bool

namespace Service

variable {κ : Type}

/-- `user_connected`. -/
def userConnected (s : Service κ) (username ip : String) : Service κ :=
  if s.users.any (·.name = username) then s else { s with users := s.users ++ [⟨username, "Online", ip⟩] }

/-- `user_disconnected`. -/
def userDisconnected (s : Service κ) (username : String) : Service κ :=
  { s with users := s.users.filter (·.name ≠ username) }

/-- `remove_peer`. -/
def removePeer (r : InMemoryRegistry) (p : Peer) : InMemoryRegistry := ⟨r.peers.filter (·.1 ≠ p)⟩

/-- The service with another registry. -/
def withRegistry (s : Service κ) (r : InMemoryRegistry) : Service κ :=
  { s with receiver := { s.receiver with registry := r } }

/-- `handle_membership_event`; an exception is logged. -/
def handleMembershipEvent (s : Service κ) (e : MembershipEvent) : Service κ :=
  match e.eventType with
  | .joinAccepted =>
    match rsplit ':' e.userId with
    | none => s
    | some (host, _) =>
      let s := s.withRegistry (s.receiver.registry.addPeer (host, s.chatPort) (e.publicKey.getD []))
      if s.requestsHistory e then s.userConnected e.displayName host else s
  | .leaveConfirmed =>
    match rsplit ':' e.userId with
    | none => s
    | some (host, _) =>
      (s.withRegistry (removePeer s.receiver.registry (host, s.chatPort))).userDisconnected e.displayName
  | _ => s

/-- What reads or writes the keys of the peers. -/
inductive Act
  /-- `_verify_incoming`, with the hook. -/
  | frame (m : Message)
  /-- A callback of the membership. -/
  | event (e : MembershipEvent)
  /-- `_register_peer_key`, from `_send_hello_to_all_peers`. -/
  | hello (p : Peer)

variable (C : Crypto κ)

/-- One of them. -/
def step (s : Service κ) : Act → Service κ
  | .frame m => { s with receiver := (s.receiver.verifyIncoming C m).2 }
  | .event e => s.handleMembershipEvent e
  | .hello p => { s with receiver := if s.receiver.hasSecurity then s.receiver.registerPeerKey C p else s.receiver }

/-- A sequence of them. -/
def run (s : Service κ) (acts : List Act) : Service κ := acts.foldl (step C) s

/-- What an event does to the entry of its user. -/
def eventPins (e : MembershipEvent) : List (Pin Pem) :=
  match e.eventType with
  | .joinAccepted => [.bind (e.publicKey.getD [])]
  | .leaveConfirmed => [.release]
  | _ => []

/-- What an act does to the entry of a peer. -/
def pins (s : Service κ) (p : Peer) : Act → List (Pin Pem)
  | .frame m =>
    if s.receiver.hasSecurity ∧ (s.receiver.enforceSignatures ∨ s.receiver.hasAnyPeerKey) ∧ m.signature ≠ "" ∧
        hostPort m.sender = some p ∧ s.receiver.offeredKey C m ≠ [] then
      [.bind (s.receiver.offeredKey C m)]
    else []
  | .event e => if (rsplit ':' e.userId).map (fun x => (x.1, s.chatPort)) = some p then eventPins e else []
  | .hello _ => []

/-- What a sequence of acts does to it. -/
def entries (p : Peer) : Service κ → List Act → List (Pin Pem)
  | _, [] => []
  | s, x :: acts => s.pins C p x ++ entries p (s.step C x) acts

/-! ## Entries -/

/-- The entry of a peer. -/
def keyOf (r : InMemoryRegistry) (p : Peer) : Option Pem := (r.peers.find? (·.1 = p)).map Prod.snd

theorem getPubKey_eq (r : InMemoryRegistry) (p : Peer) : r.getPubKey p = (keyOf r p).getD [] := rfl

theorem isSome_keyOf_iff {r : InMemoryRegistry} {p : Peer} : (keyOf r p).isSome = true ↔ p ∈ r.getPeers := by
  rw [keyOf, Option.isSome_map, List.find?_isSome]
  simp [InMemoryRegistry.getPeers]

theorem keyOf_addPeer (r : InMemoryRegistry) (p q : Peer) (key : Pem) :
    keyOf (r.addPeer p key) q = if q = p then (Pin.bind key).step (keyOf r q) else keyOf r q := by
  unfold InMemoryRegistry.addPeer
  by_cases hmem : p ∈ r.getPeers
  · rw [if_pos hmem]
    split
    · next hq =>
      obtain ⟨pem, hpem⟩ := Option.isSome_iff_exists.1 (isSome_keyOf_iff.2 hmem)
      rw [hq, hpem]
      rfl
    · rfl
  · rw [if_neg hmem]
    have hnone : keyOf r p = none := by
      rw [← Option.not_isSome_iff_eq_none, isSome_keyOf_iff]
      exact hmem
    split
    · next hq =>
      have hfind : r.peers.find? (·.1 = p) = none := Option.map_eq_none_iff.1 hnone
      rw [hq, hnone, keyOf, List.find?_append, hfind]
      simp [Pin.step]
    · next hq =>
      have hother : [(p, key)].find? (·.1 = q) = none := by simp [Ne.symm hq]
      rw [keyOf, List.find?_append, hother, Option.or_none]
      rfl

theorem keyOf_removePeer (r : InMemoryRegistry) (p q : Peer) :
    keyOf (removePeer r p) q = if q = p then none else keyOf r q := by
  rw [keyOf, removePeer, List.find?_filter]
  split
  · next hq =>
    rw [hq, Option.map_eq_none_iff, List.find?_eq_none]
    intro x _
    simp
  · next hq =>
    have hsame : (fun x : Peer × Pem => decide (decide (x.1 ≠ p) = true ∧ decide (x.1 = q) = true)) =
        fun x => decide (x.1 = q) := by
      funext x
      by_cases hx : x.1 = q
      · simp [hx, hq]
      · simp [hx]
    rw [hsame]
    rfl

theorem keyOf_lazyRegisterPubkey (b : Receiver κ) (m : Message) (q : Peer) :
    keyOf (b.lazyRegisterPubkey C m).registry q =
      if hostPort m.sender = some q ∧ b.offeredKey C m ≠ [] then (Pin.bind (b.offeredKey C m)).step (keyOf b.registry q)
      else keyOf b.registry q := by
  unfold Receiver.lazyRegisterPubkey
  by_cases hoff : b.offeredKey C m = []
  · simp [hoff]
  · rw [if_neg hoff]
    cases hp : hostPort m.sender with
    | none => simp
    | some p =>
      simp only
      by_cases hkey : b.registry.getPubKey p ≠ []
      · rw [if_pos hkey]
        split
        · next hq =>
          obtain rfl : p = q := Option.some.inj hq.1
          cases hk : keyOf b.registry p with
          | none => exact absurd (by rw [getPubKey_eq, hk]; rfl) hkey
          | some pem => rfl
        · rfl
      · rw [if_neg hkey, keyOf_addPeer]
        simp only [hoff, ne_eq, not_false_eq_true, and_true, Option.some.injEq, eq_comm (a := p)]

/-! ## Runs -/

variable {C} {s s₀ : Service κ} {acts : List Act} {m : Message} {p : Peer} {l : Peer → List (Pin Pem)}

theorem entries_append (p : Peer) : ∀ (s : Service κ) (acts acts' : List Act),
    entries C p s (acts ++ acts') = entries C p s acts ++ entries C p (s.run C acts) acts'
  | _, [], _ => rfl
  | s, x :: acts, acts' => by
    rw [List.cons_append, entries, entries, entries_append p (s.step C x) acts acts', List.append_assoc]
    rfl

@[simp] theorem entries_singleton (s : Service κ) (p : Peer) (x : Act) : entries C p s [x] = s.pins C p x :=
  List.append_nil _

theorem run_append (s : Service κ) (acts acts' : List Act) : s.run C (acts ++ acts') = (s.run C acts).run C acts' :=
  List.foldl_append

theorem userConnected_eq (s : Service κ) (username ip : String) :
    s.userConnected username ip = { s with users := (s.userConnected username ip).users } := by
  unfold userConnected
  split <;> rfl

/-- The callback leaves the registry or changes one entry, and touches no
key of the security package. -/
theorem handleMembershipEvent_eq (s : Service κ) (e : MembershipEvent) :
    ∃ r users, s.handleMembershipEvent e = { s with receiver := { s.receiver with registry := r }, users } ∧
      ∀ p, keyOf r p = pinned (keyOf s.receiver.registry p) (s.pins C p (.event e)) := by
  unfold handleMembershipEvent
  cases hr : rsplit ':' e.userId with
  | none =>
    refine ⟨s.receiver.registry, s.users, ?_, fun p => by simp [Service.pins, hr]⟩
    cases e.eventType <;> rfl
  | some x =>
    obtain ⟨host, port⟩ := x
    cases het : e.eventType with
    | joinAccepted =>
      have hkey (p : Peer) : keyOf (s.receiver.registry.addPeer (host, s.chatPort) (e.publicKey.getD [])) p =
          pinned (keyOf s.receiver.registry p) (s.pins C p (.event e)) := by
        rw [keyOf_addPeer]
        simp only [Service.pins, eventPins, hr, het, Option.map_some, Option.some.injEq, eq_comm (b := p)]
        split <;> rfl
      by_cases hh : s.requestsHistory e = true
      · refine ⟨_, ((s.withRegistry (s.receiver.registry.addPeer (host, s.chatPort)
          (e.publicKey.getD []))).userConnected e.displayName host).users, ?_, hkey⟩
        exact (if_pos hh).trans (userConnected_eq _ _ _)
      · exact ⟨_, s.users, if_neg hh, hkey⟩
    | leaveConfirmed =>
      refine ⟨removePeer s.receiver.registry (host, s.chatPort), s.users.filter (·.name ≠ e.displayName), rfl,
        fun p => ?_⟩
      rw [keyOf_removePeer]
      simp only [Service.pins, eventPins, hr, het, Option.map_some, Option.some.injEq, eq_comm (b := p)]
      split
      · cases keyOf s.receiver.registry p <;> rfl
      · rfl
    | _ =>
      refine ⟨s.receiver.registry, s.users, rfl, fun p => ?_⟩
      simp only [Service.pins, eventPins, het]
      split <;> rfl

/-- A check where no signature is required, or the message can have left no
trace, or the hook has run and then the key of the entry is registered. -/
theorem verifyIncoming_cases {b : Receiver κ} (hsec : b.hasSecurity = true) (m : Message) :
    (¬ (b.enforceSignatures = true ∨ b.hasAnyPeerKey = true) ∧ b.verifyIncoming C m = (some true, b)) ∨
    (b.enforceSignatures = true ∨ b.hasAnyPeerKey = true) ∧
      ((b.verifyIncoming C m = (some false, b) ∧ (m.signature = "" ∨ hostPort m.sender = none)) ∨
      (m.signature ≠ "" ∧ ∃ p, hostPort m.sender = some p ∧
        let b' := b.lazyRegisterPubkey C m
        (b'.registry.getPubKey p = [] ∧ b.verifyIncoming C m = (some false, b') ∨
          b'.registry.getPubKey p ≠ [] ∧
            b.verifyIncoming C m = ((b'.registerPeerKey C p).verify C m, b'.registerPeerKey C p)))) := by
  unfold Receiver.verifyIncoming
  rw [hsec]
  by_cases hreq : b.enforceSignatures = true ∨ b.hasAnyPeerKey = true
  · have hreq' : (b.enforceSignatures || b.hasAnyPeerKey) = true := by simpa using hreq
    simp only [hreq', Bool.not_true, Bool.false_eq_true, if_false]
    refine .inr ⟨hreq, ?_⟩
    by_cases hsig : m.signature = ""
    · rw [if_pos hsig]
      exact .inl ⟨rfl, .inl hsig⟩
    · rw [if_neg hsig]
      cases hp : hostPort m.sender with
      | none => exact .inl ⟨rfl, .inr rfl⟩
      | some p =>
        refine .inr ⟨hsig, p, rfl, ?_⟩
        by_cases hkey : (b.lazyRegisterPubkey C m).registry.getPubKey p = []
        · exact .inl ⟨hkey, if_pos hkey⟩
        · exact .inr ⟨hkey, if_neg hkey⟩
  · have hreq' : (b.enforceSignatures || b.hasAnyPeerKey) = false := by simpa using hreq
    simp only [hreq', Bool.not_true, Bool.not_false, Bool.false_eq_true, if_false, if_true]
    exact .inl ⟨hreq, trivial⟩

/-- The keys of the security package after the key of a peer is registered. -/
theorem publicKeys_registerPeerKey {b : Receiver κ} {k : String} {key : κ}
    (h : (b.registerPeerKey C p).publicKeys.get? k = some key) :
    b.publicKeys.get? k = some key ∨
      k = p.key ∧ ∃ pem, keyOf b.registry p = some pem ∧ C.loadPemPublicKey pem = some key := by
  unfold Receiver.registerPeerKey at h
  by_cases hkey : b.registry.getPubKey p = []
  · rw [if_pos hkey] at h
    exact .inl h
  · rw [if_neg hkey] at h
    cases hload : C.loadPemPublicKey (b.registry.getPubKey p) with
    | none =>
      rw [hload] at h
      exact .inl h
    | some key' =>
      rw [hload] at h
      simp only [Dict.get?_set] at h
      split at h
      · next hk =>
        refine .inr ⟨hk, b.registry.getPubKey p, ?_, hload.trans h⟩
        cases hentry : keyOf b.registry p with
        | none => exact absurd (by rw [getPubKey_eq, hentry]; rfl) hkey
        | some pem => rw [getPubKey_eq, hentry]; rfl
      · exact .inl h

/-- What no act changes. -/
structure Like (s s' : Service κ) : Prop where
  chatPort : s'.chatPort = s.chatPort
  hasSecurity : s'.receiver.hasSecurity = s.receiver.hasSecurity
  enforceSignatures : s'.receiver.enforceSignatures = s.receiver.enforceSignatures

theorem like_registerPeerKey (b : Receiver κ) (p : Peer) : (b.registerPeerKey C p).hasSecurity = b.hasSecurity ∧
    (b.registerPeerKey C p).enforceSignatures = b.enforceSignatures := by
  unfold Receiver.registerPeerKey
  repeat' split
  all_goals exact ⟨rfl, rfl⟩

theorem like_lazyRegisterPubkey (b : Receiver κ) (m : Message) :
    (b.lazyRegisterPubkey C m).hasSecurity = b.hasSecurity ∧
      (b.lazyRegisterPubkey C m).enforceSignatures = b.enforceSignatures := by
  rw [Receiver.lazyRegisterPubkey_eq]
  exact ⟨rfl, rfl⟩

theorem like_verifyIncoming (b : Receiver κ) (m : Message) :
    (b.verifyIncoming C m).2.hasSecurity = b.hasSecurity ∧
      (b.verifyIncoming C m).2.enforceSignatures = b.enforceSignatures := by
  unfold Receiver.verifyIncoming
  split
  · exact ⟨rfl, rfl⟩
  split
  · exact ⟨rfl, rfl⟩
  split
  · exact ⟨rfl, rfl⟩
  split
  · exact ⟨rfl, rfl⟩
  · next p _ =>
    have hhook := like_lazyRegisterPubkey (C := C) b m
    have hkey := like_registerPeerKey (C := C) (b.lazyRegisterPubkey C m) p
    simp only
    split
    · exact hhook
    · exact ⟨hkey.1.trans hhook.1, hkey.2.trans hhook.2⟩

theorem like_step (s : Service κ) (x : Act) : Like s (s.step C x) := by
  cases x with
  | frame m =>
    obtain ⟨hs, he⟩ := like_verifyIncoming (C := C) s.receiver m
    exact ⟨rfl, hs, he⟩
  | event e =>
    obtain ⟨r, users, he, -⟩ := handleMembershipEvent_eq (C := C) s e
    rw [step, he]
    exact ⟨rfl, rfl, rfl⟩
  | hello p =>
    rw [step]
    obtain ⟨hs, he⟩ := like_registerPeerKey (C := C) s.receiver p
    by_cases hsec : s.receiver.hasSecurity = true
    · rw [if_pos hsec]
      exact ⟨rfl, hs, he⟩
    · rw [if_neg hsec]
      exact ⟨rfl, rfl, rfl⟩

theorem like_run (s : Service κ) : ∀ acts : List Act, Like s (s.run C acts)
  | [] => ⟨rfl, rfl, rfl⟩
  | x :: acts => by
    have hx := like_step (C := C) s x
    have hrest := like_run (s.step C x) acts
    exact ⟨hrest.chatPort.trans hx.chatPort, hrest.hasSecurity.trans hx.hasSecurity,
      hrest.enforceSignatures.trans hx.enforceSignatures⟩

/-- The registry and the security package hold what was entered. -/
structure Entered (C : Crypto κ) (l : Peer → List (Pin Pem)) (s : Service κ) : Prop where
  entry : ∀ p, keyOf s.receiver.registry p = pinned none (l p)
  loaded : ∀ k key, s.receiver.publicKeys.get? k = some key →
    ∃ p pem, k = p.key ∧ .bind pem ∈ l p ∧ C.loadPemPublicKey pem = some key

/-- A key that is entered was bound. -/
theorem bind_mem_of_pinned {l : List (Pin Pem)} {pem : Pem} (h : pinned none l = some pem) : .bind pem ∈ l := by
  obtain ⟨pre, post, rfl, -, -⟩ := pinned_eq_some_iff.1 h
  simp

theorem Entered.registerPeerKey (h : Entered C l s) (p : Peer) :
    Entered C l { s with receiver := s.receiver.registerPeerKey C p } where
  entry q := by
    rw [Receiver.registerPeerKey_registry]
    exact h.entry q
  loaded k key hk := by
    rcases publicKeys_registerPeerKey hk with hk | ⟨rfl, pem, hpem, hload⟩
    · exact h.loaded k key hk
    · exact ⟨p, pem, rfl, bind_mem_of_pinned ((h.entry p).symm.trans hpem), hload⟩

/-- Another registry. -/
theorem Entered.pin (h : Entered C l s) {s' : Service κ} {x : Act}
    (hr : ∀ p, keyOf s'.receiver.registry p = pinned (keyOf s.receiver.registry p) (s.pins C p x))
    (hk : s'.receiver.publicKeys = s.receiver.publicKeys) : Entered C (fun p => l p ++ s.pins C p x) s' where
  entry p := by rw [pinned_append, ← h.entry p, hr p]
  loaded k key hkey := by
    rw [hk] at hkey
    obtain ⟨p, pem, hkp, hmem, hload⟩ := h.loaded k key hkey
    exact ⟨p, pem, hkp, List.mem_append_left _ hmem, hload⟩

theorem Entered.idle (h : Entered C l s) {x : Act} (hx : ∀ p, s.pins C p x = []) :
    Entered C (fun p => l p ++ s.pins C p x) s :=
  h.pin (fun p => by rw [hx p, pinned_nil]) rfl

/-- The hook on a signed message. -/
theorem Entered.hook (h : Entered C l s) (hsec : s.receiver.hasSecurity = true)
    (hreq : s.receiver.enforceSignatures = true ∨ s.receiver.hasAnyPeerKey = true) (hsig : m.signature ≠ "") :
    Entered C (fun p => l p ++ s.pins C p (.frame m)) { s with receiver := s.receiver.lazyRegisterPubkey C m } := by
  rw [Receiver.lazyRegisterPubkey_eq]
  refine h.pin (fun p => ?_) rfl
  rw [keyOf_lazyRegisterPubkey]
  by_cases hp : hostPort m.sender = some p ∧ s.receiver.offeredKey C m ≠ []
  · rw [if_pos hp, Service.pins, if_pos ⟨hsec, hreq, hsig, hp⟩, pinned_singleton]
  · rw [if_neg hp, Service.pins, if_neg fun hc => hp hc.2.2.2, pinned_nil]

theorem Entered.step (hsec : s.receiver.hasSecurity = true) (h : Entered C l s) (x : Act) :
    Entered C (fun p => l p ++ s.pins C p x) (s.step C x) := by
  cases x with
  | frame m =>
    rw [Service.step]
    obtain ⟨hreq, hv⟩ | ⟨hreq, ⟨hv, hm⟩ | ⟨hsig, p, hp, hv⟩⟩ := verifyIncoming_cases (C := C) hsec m
    · simp only [congrArg Prod.snd hv]
      exact h.idle fun p => if_neg fun hc => hreq hc.2.1
    · simp only [congrArg Prod.snd hv]
      refine h.idle fun p => if_neg fun hc => ?_
      rcases hm with hm | hm
      · exact hc.2.2.1 hm
      · rw [hm] at hc
        cases hc.2.2.2.1
    · obtain ⟨_, hv⟩ | ⟨_, hv⟩ := hv
      · simp only [congrArg Prod.snd hv]
        exact h.hook hsec hreq hsig
      · simp only [congrArg Prod.snd hv]
        exact (h.hook hsec hreq hsig).registerPeerKey p
  | event e =>
    obtain ⟨r, users, he, hr⟩ := handleMembershipEvent_eq (C := C) s e
    rw [Service.step, he]
    exact h.pin hr rfl
  | hello p =>
    rw [Service.step, if_pos hsec]
    exact (h.idle fun _ => rfl).registerPeerKey p

theorem entered_run (hsec : s₀.receiver.hasSecurity = true) (hreg : s₀.receiver.registry = ⟨[]⟩)
    (hkeys : s₀.receiver.publicKeys = Dict.empty) (acts : List Act) :
    Entered C (fun p => entries C p s₀ acts) (s₀.run C acts) := by
  induction acts using List.reverseRecOn with
  | nil =>
    refine ⟨fun p => ?_, fun k key hk => ?_⟩
    · rw [run, List.foldl_nil, hreg]
      rfl
    · rw [run, List.foldl_nil, hkeys] at hk
      simp at hk
  | append_singleton acts x ih =>
    have hnext := ih.step ((like_run s₀ acts).hasSecurity.trans hsec) x
    simp only [entries_append, entries_singleton, run_append]
    exact hnext

/-! ## Trust -/

/-- What was done to the entry of a peer when the check of a message asks
for it. -/
def history (C : Crypto κ) (s₀ : Service κ) (acts : List Act) (m : Message) (p : Peer) : List (Pin Pem) :=
  entries C p s₀ (acts ++ [.frame m])

/-- The node asks for signatures: it enforces them, or somebody is entered
with a key. -/
def Asks (C : Crypto κ) (s₀ : Service κ) (acts : List Act) : Prop :=
  s₀.receiver.enforceSignatures = true ∨ ∃ p pem, pinned none (entries C p s₀ acts) = some pem ∧ pem ≠ []

theorem hasAnyPeerKey_iff (b : Receiver κ) :
    b.hasAnyPeerKey = true ↔ ∃ p pem, keyOf b.registry p = some pem ∧ pem ≠ [] := by
  rw [Receiver.hasAnyPeerKey, List.any_eq_true]
  constructor
  · intro h
    obtain ⟨p, hp, hkey⟩ := h
    obtain ⟨pem, hpem⟩ := Option.isSome_iff_exists.1 (isSome_keyOf_iff.2 hp)
    rw [getPubKey_eq, hpem] at hkey
    exact ⟨p, pem, hpem, of_decide_eq_true hkey⟩
  · intro h
    obtain ⟨p, pem, hpem, hne⟩ := h
    refine ⟨p, isSome_keyOf_iff.1 (by rw [hpem]; rfl), ?_⟩
    rw [getPubKey_eq, hpem]
    exact decide_eq_true hne

theorem peer_of_key {q : Peer} (h : hostPort q.key = some p) : q = p :=
  Option.some.inj ((hostPort_append q.1 q.2).symm.trans h)

/-- The answer of the security package for a sender whose key was entered
and loads. -/
theorem verify_registerPeerKey {b : Receiver κ} {pem : Pem} {key : κ} (hp : m.sender = p.key)
    (hpem : keyOf b.registry p = some pem) (hne : pem ≠ []) (hload : C.loadPemPublicKey pem = some key)
    (hsig : m.signature ≠ "") :
    (b.registerPeerKey C p).verify C m = C.verify key (canonicalPayload m) m.signature := by
  have hkey : b.registry.getPubKey p = pem := by rw [getPubKey_eq, hpem]; rfl
  have hset : (b.registerPeerKey C p).publicKeys.get? m.sender = some key := by
    rw [Receiver.registerPeerKey, hkey, if_neg hne, hload, hp]
    exact Dict.get?_set_self _ _ _
  rw [Receiver.verify, hset]
  exact if_neg hsig

/-- **Trust on first use.** A node that has met nobody, after any frames,
membership events and greetings. As long as it does not ask for signatures
it accepts every message. Then a message that it accepts is signed under a
key which was entered for its sender: it is the first since the sender last
left, where that one loads, and nothing else is needed; a sender for whom
nothing, or an empty key, is entered, is not heard. -/
theorem trust_on_first_use (C : Crypto κ) (s₀ : Service κ) (hsec : s₀.receiver.hasSecurity = true)
    (hreg : s₀.receiver.registry = ⟨[]⟩) (hkeys : s₀.receiver.publicKeys = Dict.empty) (acts : List Act)
    (m : Message) :
    let accepted := ((s₀.run C acts).receiver.verifyIncoming C m).1 = some true
    (¬ Asks C s₀ acts → accepted) ∧ (Asks C s₀ acts →
      (accepted → ∃ (p : Peer) (pem : Pem) (key : κ), m.sender = p.key ∧ Pin.bind pem ∈ history C s₀ acts m p ∧
        C.loadPemPublicKey pem = some key ∧ C.verify key (canonicalPayload m) m.signature = some true) ∧
      (∀ (p : Peer) (pem : Pem) (key : κ), m.sender = p.key → pinned none (history C s₀ acts m p) = some pem →
        pem ≠ [] → C.loadPemPublicKey pem = some key →
          (accepted ↔ m.signature ≠ "" ∧ C.verify key (canonicalPayload m) m.signature = some true)) ∧
      ∀ p : Peer, m.sender = p.key →
        (pinned none (history C s₀ acts m p) = none ∨ pinned none (history C s₀ acts m p) = some []) →
          ¬ accepted) := by
  intro accepted
  have h := entered_run (C := C) hsec hreg hkeys acts
  have hlike := like_run (C := C) s₀ acts
  have hsec' := hlike.hasSecurity.trans hsec
  have hafter := h.step hsec' (.frame m)
  have hasks : Asks C s₀ acts ↔ (s₀.run C acts).receiver.enforceSignatures = true ∨
      (s₀.run C acts).receiver.hasAnyPeerKey = true := by
    rw [hasAnyPeerKey_iff, hlike.enforceSignatures, Asks]
    simp only [h.entry]
  have hhistory (p : Peer) : entries C p s₀ acts ++ (s₀.run C acts).pins C p (.frame m) = history C s₀ acts m p := by
    rw [history, entries_append, entries_singleton]
  simp only [hhistory] at hafter
  rw [Service.step] at hafter
  obtain ⟨hreq, hv⟩ | ⟨hreq, ⟨hv, hm⟩ | ⟨hsig, p, hp, hcase⟩⟩ := verifyIncoming_cases (C := C) hsec' m
  · exact ⟨fun _ => congrArg Prod.fst hv, fun ha => absurd (hasks.1 ha) hreq⟩
  · have hnot : ¬ accepted := fun ha => by
      simp only [accepted, hv] at ha
      cases ha
    refine ⟨fun hn => absurd (hasks.2 hreq) hn, fun _ => ⟨fun ha => absurd ha hnot, fun q pem key hq hpem _ _ =>
      iff_of_false hnot fun hs => ?_, fun _ _ _ => hnot⟩⟩
    rcases hm with hm | hm
    · exact hs.1 hm
    · rw [hq, Peer.key, hostPort_append] at hm
      cases hm
  · refine ⟨fun hn => absurd (hasks.2 hreq) hn, fun _ => ?_⟩
    have hentry : keyOf ((s₀.run C acts).receiver.lazyRegisterPubkey C m).registry p =
        pinned none (history C s₀ acts m p) := by
      rw [← hhistory p]
      exact (h.hook hsec' hreq hsig).entry p
    obtain ⟨hnone, hv⟩ | ⟨hsome, hv⟩ := hcase
    · have hnot : ¬ accepted := fun ha => by
        simp only [accepted, hv] at ha
        cases ha
      refine ⟨fun ha => absurd ha hnot, fun q pem key hq hpem hne _ => ?_, fun _ _ _ => hnot⟩
      obtain rfl : q = p := peer_of_key (hq ▸ hp)
      rw [getPubKey_eq, hentry, hpem] at hnone
      exact absurd hnone hne
    · have hanswer : accepted ↔ (((s₀.run C acts).receiver.lazyRegisterPubkey C m).registerPeerKey C p).verify C m =
          some true := by simp only [accepted, hv]
      refine ⟨fun ha => ?_, fun q pem key hq hpem hne hload => ?_, fun q hq hno => ?_⟩
      · -- the key that answered was loaded from one that was entered
        rw [hv] at hafter
        have ha := hanswer.1 ha
        unfold Receiver.verify at ha
        cases hget : (((s₀.run C acts).receiver.lazyRegisterPubkey C m).registerPeerKey C p).publicKeys.get?
            m.sender with
        | none =>
          rw [hget] at ha
          cases ha
        | some key =>
          rw [hget] at ha
          obtain ⟨q, pem, hq, hbind, hload⟩ := hafter.loaded _ _ hget
          exact ⟨q, pem, key, hq, hbind, hload, (if_neg hsig).symm.trans ha⟩
      · obtain rfl : q = p := peer_of_key (hq ▸ hp)
        rw [hanswer, verify_registerPeerKey hq (hentry.trans hpem) hne hload hsig]
        exact ⟨fun hs => ⟨hsig, hs⟩, fun hs => hs.2⟩
      · obtain rfl : q = p := peer_of_key (hq ▸ hp)
        rw [getPubKey_eq, hentry] at hsome
        rcases hno with hno | hno
        · exact absurd (by rw [hno]; rfl) hsome
        · exact absurd (by rw [hno]; rfl) hsome

/-- The chat of a node that has met nobody, and asks for signatures when it
has. -/
def lobby : Service Pem := ⟨{ Receiver.newcomer with enforceSignatures := false }, [], 1, fun _ => true⟩

/-- The user `b:1` comes or goes. -/
def visit (t : EventType) (key : Option Bytes) : MembershipEvent where
  seqNo := 1
  roomId := "room"
  userId := "b:1"
  eventType := t
  timestamp := 0
  membershipVersion := 1
  source := "coordinator"
  term := 1
  displayName := "B"
  publicKey := key

/-- `b:1` joins with one key, somebody offers another, and `b:1` joins again
with that one. -/
def takeover : List Act :=
  [.event (visit .joinAccepted (some [75, 69, 89])), .frame (Receiver.joinRequest "1" "QkFE" "BAD"),
    .event (visit .joinAccepted (some [66, 65, 68]))]

/-- `b:1` leaves, and joins with the other key. -/
def returning : List Act :=
  [.event (visit .leaveConfirmed none), .event (visit .joinAccepted (some [66, 65, 68]))]

theorem release_notMem_pins_frame (s : Service κ) (p : Peer) (m : Message) : .release ∉ s.pins C p (.frame m) := by
  rw [Service.pins]
  split <;> simp

/-- Nothing is asked of the first message. Then the first key stays, until
`b:1` has left. -/
theorem trust_on_first_use_takeover :
    ((lobby.run Receiver.plainKeys []).receiver.verifyIncoming Receiver.plainKeys
        (Receiver.joinRequest "1" "QkFE" "")).1 = some true ∧
      ((lobby.run Receiver.plainKeys takeover).receiver.verifyIncoming Receiver.plainKeys
        (Receiver.joinRequest "2" "QkFE" "KEY")).1 = some true ∧
      ((lobby.run Receiver.plainKeys takeover).receiver.verifyIncoming Receiver.plainKeys
        (Receiver.joinRequest "3" "QkFE" "BAD")).1 ≠ some true ∧
      ((lobby.run Receiver.plainKeys (takeover ++ returning)).receiver.verifyIncoming Receiver.plainKeys
        (Receiver.joinRequest "4" "QkFE" "BAD")).1 = some true := by
  have hhost (t : EventType) (key : Option Bytes) {s : Service Pem} (hs : s.chatPort = 1) :
      (rsplit ':' (visit t key).userId).map (fun x => (x.1, s.chatPort)) = some ("b", 1) := by
    rw [hs]
    show (rsplit ':' "b:1").map (fun x => (x.1, (1 : Int))) = some ("b", 1)
    decide +kernel
  have hport (x : Act) {s : Service Pem} (hs : s.chatPort = 1) : (s.step Receiver.plainKeys x).chatPort = 1 :=
    (like_step s x).chatPort.trans hs
  have hjoin (key : Bytes) {s : Service Pem} (hs : s.chatPort = 1) :
      s.pins Receiver.plainKeys ("b", 1) (.event (visit .joinAccepted (some key))) = [.bind key] := by
    rw [Service.pins, if_pos (hhost _ _ hs)]
    rfl
  have hleave {s : Service Pem} (hs : s.chatPort = 1) :
      s.pins Receiver.plainKeys ("b", 1) (.event (visit .leaveConfirmed none)) = [.release] := by
    rw [Service.pins, if_pos (hhost _ _ hs)]
    rfl
  have hkept : pinned none (entries Receiver.plainKeys ("b", 1) lobby takeover) = some [75, 69, 89] := by
    rw [takeover, entries, hjoin _ rfl, pinned_append, pinned_singleton, Pin.step]
    refine pinned_of_notMem fun hmem => ?_
    simp only [entries, List.append_nil, List.mem_append] at hmem
    rcases hmem with hmem | hmem
    · exact release_notMem_pins_frame _ _ _ hmem
    · rw [hjoin _ (hport _ (hport _ rfl))] at hmem
      simp at hmem
  have hnew : pinned none (entries Receiver.plainKeys ("b", 1) lobby (takeover ++ returning)) = some [66, 65, 68] := by
    rw [entries_append, pinned_append, hkept, returning, entries, entries, entries, List.append_nil,
      hleave (like_run lobby takeover).chatPort, hjoin _ (hport _ (like_run lobby takeover).chatPort), pinned_append]
    rfl
  have hframe {acts : List Act} {key : Pem} (m : Message)
      (h : pinned none (entries Receiver.plainKeys ("b", 1) lobby acts) = some key) :
      pinned none (history Receiver.plainKeys lobby acts m ("b", 1)) = some key := by
    rw [history, entries_append, pinned_append, h, entries_singleton]
    exact pinned_of_notMem (release_notMem_pins_frame _ _ _)
  have hopen : ¬ Asks Receiver.plainKeys lobby [] := by simp [Asks, entries, lobby]
  have hfirst := ((trust_on_first_use Receiver.plainKeys lobby rfl rfl rfl takeover
    (Receiver.joinRequest "2" "QkFE" "KEY")).2 (.inr ⟨_, _, hkept, by decide⟩)).2.1 ("b", 1) [75, 69, 89] [75, 69, 89]
    (by decide) (hframe _ hkept) (by decide) rfl
  have hother := ((trust_on_first_use Receiver.plainKeys lobby rfl rfl rfl takeover
    (Receiver.joinRequest "3" "QkFE" "BAD")).2 (.inr ⟨_, _, hkept, by decide⟩)).2.1 ("b", 1) [75, 69, 89] [75, 69, 89]
    (by decide) (hframe _ hkept) (by decide) rfl
  have hlater := ((trust_on_first_use Receiver.plainKeys lobby rfl rfl rfl (takeover ++ returning)
    (Receiver.joinRequest "4" "QkFE" "BAD")).2 (.inr ⟨_, _, hnew, by decide⟩)).2.1 ("b", 1) [66, 65, 68] [66, 65, 68]
    (by decide) (hframe _ hnew) (by decide) rfl
  have hsigned (key : Pem) (x : CanonicalPayload) (signature : String) :
      Receiver.plainKeys.verify key x signature = some (decide (JsonText.codePoints signature = key.map UInt8.toNat)) :=
    rfl
  rw [hsigned] at hfirst hother hlater
  exact ⟨(trust_on_first_use Receiver.plainKeys lobby rfl rfl rfl [] _).1 hopen, hfirst.2 (by decide),
    fun h => absurd (hother.1 h).2 (by decide), hlater.2 (by decide)⟩

end Service

end PeerChat.Ui
