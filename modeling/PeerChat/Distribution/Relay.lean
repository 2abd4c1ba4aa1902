/-
Signatures along a relay (`_prepare_outgoing_for_peer`, `_encrypt_for_peer`,
`_verify_incoming` of `distribution/broadcast_node.py`, `sign` and `verify`
of `security/message_integrity.py`).

A copy is signed anew for each peer, with the key of the node that sends
it, and is checked against the key of the node that the message names as
its sender, which stays the originator. `accepted_iff_direct`: a node
accepts the copies the originator sends itself, and rejects every copy that
went through a relay.
-/
import PeerChat.Distribution.BroadcastNode
import PeerChat.Lib.Decimal

namespace PeerChat

open Lib

/-- `_canonical_payload`: the fields a signature covers. -/
structure CanonicalPayload where
  id : String
  sender : String
  timestamp : Time
  content : String
  deriving DecidableEq, Repr

def canonicalPayload (m : Message) : CanonicalPayload := ⟨m.id, m.sender, m.timestamp, m.content⟩

/-- The cryptography the node rests on, with keys as PEM texts. The number
stands for the random choices of a call. -/
structure Scheme where
  publicOf : String → String
  /-- `load_pem_public_key` accepts the text. -/
  isPublicKey : String → Bool
  sign : String → Nat → CanonicalPayload → String
  verify : String → CanonicalPayload → String → Bool
  isEncryptedContent : String → Bool
  /-- `encrypt_payload` for one recipient and key, or `none` when it raises. -/
  encryptPayload : String → String → String → Nat → Option String
  decryptPayload : String → String → String → Option String

/-- Ideal signatures: those over a payload are the ones made over it with
the private key of the public key at hand. -/
structure Scheme.Ideal (S : Scheme) : Prop where
  isPublicKey_publicOf : ∀ k, S.isPublicKey (S.publicOf k) = true
  publicOf_ne : ∀ k, S.publicOf k ≠ ""
  sign_ne : ∀ k r p, S.sign k r p ≠ ""
  verify_sign : ∀ k r p pub p', S.verify pub p' (S.sign k r p) = true ↔ S.publicOf k = pub ∧ p = p'

/-- The security package with this private key configured. -/
def Scheme.security (S : Scheme) (key : String) (random : Nat) : Security where
  sign m := some (S.sign key random (canonicalPayload m))
  isEncryptedContent := S.isEncryptedContent
  getPrivateKeyPem := some key
  decryptPayload := S.decryptPayload

/-- The peer registry of a node; `getPubKey` is `none` when the registry
has no such method, and answers `""` for a peer without a key. -/
structure KeyRegistry where
  peers : List Peer
  getPubKey : Option (Peer → String)

/-- A node with what it needs for signing and checking. -/
structure Party where
  node : BroadcastNode
  peer : Peer
  address : node.address = peer.key
  enforceSignatures : Bool
  /-- The private key. -/
  key : String
  registry : KeyRegistry
  /-- What `pre_verify_hook` does to the registry. -/
  preVerifyHook : Message → KeyRegistry → KeyRegistry
  /-- The keys registered with the security package. -/
  publicKeys : Dict String String

namespace Party

variable (S : Scheme)

/-- What a call finds around the node. -/
def env (b : Party) (random : Nat) : NodeEnv :=
  ⟨b.enforceSignatures, some (S.security b.key random), b.registry.peers⟩

/-- `get_pub_key`, where there is one. -/
def pubKey (r : KeyRegistry) (p : Peer) : String := (r.getPubKey.map (· p)).getD ""

/-- `_encrypt_for_peer`; without a key of the peer, or when encryption
fails, the content stays as it is. -/
def encryptForPeer (b : Party) (random : Nat) (m : Message) (p : Peer) : Message :=
  if S.isEncryptedContent m.content then m
  else if pubKey b.registry p = "" then m
  else
    match S.encryptPayload m.content p.key (pubKey b.registry p) random with
    | some content => { m with content }
    | none => m

/-- `_prepare_outgoing_for_peer`. -/
def prepareOutgoingForPeer (b : Party) (random : Nat) (template : Message) (p : Peer) : Option Message :=
  BroadcastNode.signOutgoing (b.env S random) (b.encryptForPeer S random template p)

/-- `_has_any_peer_key`. -/
def hasAnyPeerKey (b : Party) : Bool := b.registry.peers.any fun p => pubKey b.registry p ≠ ""

/-- `_register_peer_key`: the keys registered afterwards. -/
def registerPeerKey (publicKeys : Dict String String) (r : KeyRegistry) (p : Peer) : Dict String String :=
  if pubKey r p = "" then publicKeys
  else if S.isPublicKey (pubKey r p) then publicKeys.set p.key (pubKey r p)
  else publicKeys

/-- `verify`. -/
def verify (publicKeys : Dict String String) (m : Message) : Bool :=
  match publicKeys.get? m.sender with
  | none => false
  | some pub => m.signature ≠ "" && S.verify pub (canonicalPayload m) m.signature

/-- `_verify_incoming`. -/
def verifyIncoming (b : Party) (m : Message) : Bool :=
  if !(b.enforceSignatures || b.hasAnyPeerKey) then true
  else if m.signature = "" then false
  else
    match hostPort m.sender with
    | none => false
    | some p =>
      if b.registry.getPubKey.isNone then false
      else
        let registry := b.preVerifyHook m b.registry
        if pubKey registry p = "" then false
        else verify S (registerPeerKey S b.publicKeys registry p) m

/-- The node enforces signatures and has the public key of another one in
its registry. -/
structure Knows (c a : Party) : Prop where
  enforces : c.enforceSignatures = true
  registry : c.registry.getPubKey.isNone = false
  key : ∀ m, pubKey (c.preVerifyHook m c.registry) a.peer = S.publicOf a.key

end Party

/-- The copies of messages of `a` that are on the wire after a number of
relays, each with a key of its own. A relay need not have checked the copy
it got. -/
inductive OnWire (S : Scheme) (a : Party) : Nat → Message → Prop
  | direct (random random' : Nat) (m wire : Message) (s : Peer × Message) : m.sender = a.node.address →
      s ∈ (a.node.doBroadcast (a.env S random) m).2.1.sent →
      a.prepareOutgoingForPeer S random' s.2 s.1 = some wire → OnWire S a 0 wire
  | relay (b : Party) (random random' : Nat) (addedAt now : Time) (hops : Nat) (m wire : Message)
      (s : Peer × Message) : OnWire S a hops m → S.publicOf b.key ≠ S.publicOf a.key →
      s ∈ (b.node.receive (b.env S random) addedAt now m).2.1.sent →
      b.prepareOutgoingForPeer S random' s.2 s.1 = some wire → OnWire S a (hops + 1) wire

namespace Party

variable {S : Scheme}

theorem encryptForPeer_sender (b : Party) (random : Nat) (m : Message) (p : Peer) :
    (b.encryptForPeer S random m p).sender = m.sender := by
  unfold encryptForPeer
  repeat' split
  all_goals rfl

/-- A wire copy is signed over its own payload, with the key of the node
that sends it. -/
theorem prepareOutgoingForPeer_eq (b : Party) (random : Nat) (m : Message) (p : Peer) :
    ∃ wire, b.prepareOutgoingForPeer S random m p = some wire ∧ wire.sender = m.sender ∧
      wire.signature = S.sign b.key random (canonicalPayload wire) :=
  ⟨_, rfl, encryptForPeer_sender b random m p, rfl⟩

/-- A copy signed with some key, at a node that knows its originator. -/
theorem verifyIncoming_iff (h : S.Ideal) {a c : Party} (hc : c.Knows S a) {wire : Message} {key : String}
    {random : Nat} (hs : wire.sender = a.node.address)
    (hsig : wire.signature = S.sign key random (canonicalPayload wire)) :
    c.verifyIncoming S wire = true ↔ S.publicOf key = S.publicOf a.key := by
  have hpeer : hostPort wire.sender = some a.peer := by
    rw [hs, a.address]
    exact hostPort_append a.peer.1 a.peer.2
  have hkeys : (registerPeerKey S c.publicKeys (c.preVerifyHook wire c.registry) a.peer).get? wire.sender =
      some (S.publicOf a.key) := by
    rw [registerPeerKey, hc.key, if_neg (h.publicOf_ne _), if_pos (h.isPublicKey_publicOf _), hs, a.address,
      Dict.get?_set, if_pos rfl]
  have hne : wire.signature ≠ "" := by
    rw [hsig]
    exact h.sign_ne _ _ _
  have heq : c.verifyIncoming S wire = S.verify (S.publicOf a.key) (canonicalPayload wire) wire.signature := by
    simp only [verifyIncoming, hc.enforces, hne, hpeer, hc.registry, hc.key, h.publicOf_ne, verify, hkeys,
      Bool.true_or, Bool.not_true, Bool.false_eq_true, if_false, ne_eq, not_false_eq_true, decide_true, Bool.true_and]
  rw [heq, hsig, h.verify_sign]
  exact and_iff_left rfl

/-- What a relay sends on: the message with one hop less to go. -/
theorem sent_receive {b : Party} {env : NodeEnv} {addedAt now : Time} {m : Message} {s : Peer × Message}
    (hs : s ∈ (b.node.receive env addedAt now m).2.1.sent) : s.2 = { m with ttl := m.ttl - 1 } := by
  rcases b.node.receive_cases env addedAt now m with ⟨-, he⟩ | ⟨-, n₂, d, -, he⟩
  · rw [he] at hs
    cases hs
  · rw [he] at hs
    simp only [BroadcastNode.forwardReceived, BroadcastNode.forward] at hs
    split at hs
    · split at hs
      · cases hs
      · obtain ⟨p, -, rfl⟩ := List.mem_map.1 hs
        rfl
    · cases hs

/-- A message that may be forwarded is sent to every other peer. -/
theorem mem_sent_receive {b : Party} (env : NodeEnv) (addedAt now : Time) {m : Message} (hnew : m.id ∉ b.node.seen)
    (httl : 0 < m.ttl) (hplain : env.security.any (·.isEncryptedContent m.content) = false) {p : Peer}
    (hp : p ∈ env.peers) (hsender : p.key ≠ m.sender) (hself : p.key ≠ b.node.address) :
    (p, { m with ttl := m.ttl - 1 }) ∈ (b.node.receive env addedAt now m).2.1.sent := by
  rcases b.node.receive_cases env addedAt now m with ⟨hold, -⟩ | ⟨-, n₂, d, hacc, he⟩
  · exact absurd hold hnew
  · have haddr := BroadcastNode.accept_address ({ b.node with seen := insert m.id b.node.seen }) addedAt now m
    rw [hacc] at haddr
    rw [he]
    simp only [BroadcastNode.forwardReceived, BroadcastNode.forward, BroadcastNode.peersExcluding, httl, hplain,
      Bool.false_eq_true, if_true, if_false]
    refine List.mem_map.2 ⟨p, List.mem_filter.2 ⟨hp, decide_eq_true ⟨hsender, fun hk => hself ?_⟩⟩, rfl⟩
    exact hk.trans haddr

end Party

variable {S : Scheme} {a : Party}

/-- A copy names the originator, and is signed by the node that sent it
last. -/
theorem OnWire.signed {hops : Nat} {wire : Message} (h : OnWire S a hops wire) :
    wire.sender = a.node.address ∧ ∃ key random, wire.signature = S.sign key random (canonicalPayload wire) ∧
      (S.publicOf key = S.publicOf a.key ↔ hops = 0) := by
  induction h with
  | direct random random' m wire s hsender hs hwire =>
    obtain ⟨wire', hwire', hsend, hsig⟩ := a.prepareOutgoingForPeer_eq (S := S) random' s.2 s.1
    cases Option.some.inj (hwire.symm.trans hwire')
    refine ⟨?_, a.key, random', hsig, by simp⟩
    rw [hsend, ← hsender]
    rcases a.node.doBroadcast_cases (a.env S random) m with ⟨-, he⟩ | ⟨-, -, he⟩ | ⟨-, signed, hsign, sent, he, hall⟩
    · rw [he] at hs
      cases hs
    · rw [he] at hs
      cases hs
    · rw [he] at hs
      rw [hall s hs]
      have := congrArg Message.sender (BroadcastNode.signOutgoing_same hsign)
      exact this
  | relay b random random' addedAt now hops m wire s hm hkey hs hwire ih =>
    obtain ⟨wire', hwire', hsend, hsig⟩ := b.prepareOutgoingForPeer_eq (S := S) random' s.2 s.1
    cases Option.some.inj (hwire.symm.trans hwire')
    refine ⟨?_, b.key, random', hsig, by simp [hkey]⟩
    rw [hsend, Party.sent_receive hs]
    exact ih.1

/-- **A relayed copy is rejected**: of the copies on the wire, a node that
knows the originator accepts those of the originator itself and no other
one. And there are others: a relay sends a message that may be forwarded on
to all of its peers, and each of them rejects it. -/
theorem accepted_iff_direct (h : S.Ideal) (a : Party) :
    (∀ hops wire, OnWire S a hops wire → ∀ c : Party, c.Knows S a →
      (c.verifyIncoming S wire = true ↔ hops = 0)) ∧
    ∀ hops m, OnWire S a hops m → 0 < m.ttl → S.isEncryptedContent m.content = false →
      ∀ b : Party, S.publicOf b.key ≠ S.publicOf a.key → m.id ∉ b.node.seen →
        ∀ p ∈ b.registry.peers, p.key ≠ m.sender → p.key ≠ b.node.address → ∀ random,
          ∃ wire, b.prepareOutgoingForPeer S random { m with ttl := m.ttl - 1 } p = some wire ∧
            OnWire S a (hops + 1) wire ∧ ∀ c : Party, c.Knows S a → c.verifyIncoming S wire = false := by
  have hiff {hops : Nat} {wire : Message} (hw : OnWire S a hops wire) {c : Party} (hc : c.Knows S a) :
      c.verifyIncoming S wire = true ↔ hops = 0 := by
    obtain ⟨hs, key, random, hsig, hkey⟩ := hw.signed
    rw [Party.verifyIncoming_iff h hc hs hsig, hkey]
  refine ⟨fun hops wire hw c hc => hiff hw hc, fun hops m hm httl hplain b hkey hnew p hp hsender hself random => ?_⟩
  obtain ⟨wire, hwire, -, -⟩ := b.prepareOutgoingForPeer_eq (S := S) random { m with ttl := m.ttl - 1 } p
  have hs := Party.mem_sent_receive (b.env S 0) 0 0 hnew httl hplain hp hsender hself
  have hrelay : OnWire S a (hops + 1) wire := .relay b 0 random 0 0 hops m wire _ hm hkey hs hwire
  refine ⟨wire, hwire, hrelay, fun c hc => ?_⟩
  rw [← Bool.not_eq_true, hiff hrelay hc]
  omega

/-! ## Three nodes -/

/-- A text that ends itself. -/
def quoted : List Char → List Char
  | [] => [';']
  | c :: cs => if c = ';' ∨ c = '%' then '%' :: c :: quoted cs else c :: quoted cs

theorem quoted_append_inj : ∀ {a b x y : List Char}, quoted a ++ x = quoted b ++ y → a = b ∧ x = y
  | [], [], x, y, h => by simpa [quoted] using h
  | [], c :: b, x, y, h => by
    simp only [quoted] at h
    split at h
    · simp at h
    · next hc =>
      simp only [List.cons_append, List.nil_append, List.cons.injEq] at h
      exact absurd (.inl h.1.symm) hc
  | c :: a, [], x, y, h => by
    simp only [quoted] at h
    split at h
    · simp at h
    · next hc =>
      simp only [List.cons_append, List.nil_append, List.cons.injEq] at h
      exact absurd (.inl h.1) hc
  | c :: a, d :: b, x, y, h => by
    simp only [quoted] at h
    split at h <;> split at h
    · simp only [List.cons_append, List.cons.injEq, true_and] at h
      obtain ⟨rfl, h⟩ := h
      obtain ⟨rfl, rfl⟩ := quoted_append_inj h
      exact ⟨rfl, rfl⟩
    · next hd =>
      simp only [List.cons_append, List.cons.injEq] at h
      exact absurd (.inr h.1.symm) hd
    · next hc _ =>
      simp only [List.cons_append, List.cons.injEq] at h
      exact absurd (.inr h.1) hc
    · simp only [List.cons_append, List.cons.injEq] at h
      obtain ⟨rfl, h⟩ := h
      obtain ⟨rfl, rfl⟩ := quoted_append_inj h
      exact ⟨rfl, rfl⟩

/-- A signature that names the key and the payload. -/
def named (pub : String) (p : CanonicalPayload) : String :=
  String.ofList (quoted pub.toList ++ (quoted p.id.toList ++ (quoted p.sender.toList ++
    (quoted p.content.toList ++ (toString p.timestamp).toList))))

theorem named_inj {pub pub' : String} {p p' : CanonicalPayload} (h : named pub p = named pub' p') :
    pub = pub' ∧ p = p' := by
  obtain ⟨hpub, h⟩ := quoted_append_inj (String.ofList_injective h)
  obtain ⟨hid, h⟩ := quoted_append_inj h
  obtain ⟨hsender, h⟩ := quoted_append_inj h
  obtain ⟨hcontent, h⟩ := quoted_append_inj h
  have htime : some p.timestamp = some p'.timestamp := by
    rw [← parseInt_toString, ← parseInt_toString p'.timestamp, String.toList_injective h]
  refine ⟨String.toList_injective hpub, ?_⟩
  obtain ⟨id, sender, timestamp, content⟩ := p
  obtain ⟨id', sender', timestamp', content'⟩ := p'
  cases String.toList_injective hid
  cases String.toList_injective hsender
  cases String.toList_injective hcontent
  cases htime
  rfl

/-- Signatures that name the key. -/
def namedScheme : Scheme where
  publicOf key := "public " ++ key
  isPublicKey pem := pem ≠ ""
  sign key _ p := named ("public " ++ key) p
  verify pub p signature := signature = named pub p
  isEncryptedContent content := content.toList.head? = some '\x7b'
  encryptPayload _ _ _ _ := none
  decryptPayload _ _ _ := none

theorem namedScheme_ideal : namedScheme.Ideal where
  isPublicKey_publicOf k := by
    simp only [namedScheme, decide_eq_true_eq]
    intro he
    simpa using congrArg String.toList he
  publicOf_ne k := by
    intro he
    simpa [namedScheme] using congrArg String.toList he
  sign_ne k r p := by
    intro he
    have hchars := congrArg String.toList he
    simp only [namedScheme, named, String.toList_ofList] at hchars
    cases hq : ("public " ++ k).toList with
    | nil => rw [hq] at hchars; simp [quoted] at hchars
    | cons c cs =>
      rw [hq, quoted] at hchars
      split at hchars <;> simp at hchars
  verify_sign k r p pub p' := by
    simp only [namedScheme, decide_eq_true_eq]
    constructor
    · intro he
      exact named_inj he
    · intro he
      rw [he.1, he.2]

/-- A node with one letter for a key, that knows the peers and the keys in
the list. -/
def party (host key : String) (known : List (Peer × String)) : Party where
  node := .new (Peer.key (host, 1)) 5
  peer := (host, 1)
  address := rfl
  enforceSignatures := true
  key := key
  registry := ⟨known.map Prod.fst, some fun p => ((known.find? fun e => e.1 = p).map Prod.snd).getD ""⟩
  preVerifyHook _ r := r
  publicKeys := Dict.empty

def originator : Party := party "a" "A" [(("b", 1), "")]

def relayer : Party := party "b" "B" [(("a", 1), "public A"), (("c", 1), "")]

def receiver : Party := party "c" "C" [(("a", 1), "public A"), (("b", 1), "")]

/-- A message of the originator, and its copies on the way to `b` and from
there to `c`. -/
def greeting : Message := ⟨"hi", "a:1", "m", 0, "", 10, Dict.empty⟩

def directCopy : Message :=
  { greeting with
    signature := named "public A" (canonicalPayload greeting)
    vectorClock := (Dict.empty : VectorClock).set "a:1" 1 }

def relayedCopy : Message := { directCopy with ttl := 9, signature := named "public B" (canonicalPayload greeting) }

theorem directCopy_onWire : OnWire namedScheme originator 0 directCopy :=
  .direct 0 0 greeting directCopy (("b", 1), directCopy) (by decide) (by decide) (by decide)

theorem relayedCopy_onWire : OnWire namedScheme originator 1 relayedCopy :=
  .relay relayer 0 0 0 0 0 directCopy relayedCopy (("c", 1), { directCopy with ttl := 9 }) directCopy_onWire (by decide)
    (by decide) (by decide)

theorem receiver_knows : receiver.Knows namedScheme originator := by
  have hkey : Party.pubKey receiver.registry originator.peer = namedScheme.publicOf originator.key := by decide
  exact ⟨rfl, rfl, fun _ => hkey⟩

theorem relayer_knows : relayer.Knows namedScheme originator := by
  have hkey : Party.pubKey relayer.registry originator.peer = namedScheme.publicOf originator.key := by decide
  exact ⟨rfl, rfl, fun _ => hkey⟩

theorem accepted_iff_direct_receiver :
    receiver.verifyIncoming namedScheme directCopy = true ∧ receiver.verifyIncoming namedScheme relayedCopy = false ∧
      ∃ wire, relayer.prepareOutgoingForPeer namedScheme 0 { directCopy with ttl := 9 } ("c", 1) = some wire ∧
        OnWire namedScheme originator 1 wire ∧
        ∀ c : Party, c.Knows namedScheme originator → c.verifyIncoming namedScheme wire = false := by
  have h := accepted_iff_direct namedScheme_ideal originator
  refine ⟨(h.1 0 directCopy directCopy_onWire receiver receiver_knows).2 rfl, ?_, ?_⟩
  · rw [← Bool.not_eq_true, h.1 1 relayedCopy relayedCopy_onWire receiver receiver_knows]
    decide
  · exact h.2 0 directCopy directCopy_onWire (by decide) (by decide) relayer (by decide) (by decide) ("c", 1)
      (by decide) (by decide) (by decide) 0

/-- **A message accepted from its originator is rejected after one relay.** -/
theorem relayed_copy_rejected :
    namedScheme.Ideal ∧ namedScheme.isEncryptedContent greeting.content = false ∧ 0 < greeting.ttl ∧
      receiver.Knows namedScheme originator ∧ relayer.Knows namedScheme originator ∧
      relayer.verifyIncoming namedScheme directCopy = true ∧ receiver.verifyIncoming namedScheme directCopy = true ∧
      OnWire namedScheme originator 1 relayedCopy ∧ receiver.verifyIncoming namedScheme relayedCopy = false := by
  refine ⟨namedScheme_ideal, by decide, by decide, receiver_knows, relayer_knows, by decide, by decide,
    relayedCopy_onWire, by decide⟩

end PeerChat
