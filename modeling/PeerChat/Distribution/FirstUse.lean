/-
Trust on first use (`_verify_incoming` of `distribution/broadcast_node.py`
with its effects, `lazy_register_pubkey` of
`peer_discovery/network/discovery_node.py`, `InMemoryRegistry` of
`distribution/peer_registry.py`).

The hook plants the key that a discovery envelope carries, and the key of
the sender is registered with the security package, before the signature is
checked; neither is taken back when the check fails.
`verifyIncoming_untouched_iff`: a frame leaves no trace, also where it is
rejected, exactly when it has nothing to plant and the registered key is
already the one of the registry.
-/
import PeerChat.Distribution.Payload

namespace PeerChat.FirstUse

open Lib JsonText

/-- A key as the bytes of its PEM text. -/
abbrev Pem := List UInt8

/-! ## The envelope -/

/-- The value of a digit of base64. -/
def b64Value (c : Nat) : Option Nat :=
  if 65 ≤ c ∧ c ≤ 90 then some (c - 65)
  else if 97 ≤ c ∧ c ≤ 122 then some (c - 71)
  else if 48 ≤ c ∧ c ≤ 57 then some (c + 4)
  else if c = 43 then some 62
  else if c = 47 then some 63
  else none

/-- The loop of `binascii.a2b_base64`: what is no digit is passed over, and
the padding of a group ends the data. `left` are the bits of the group that
are not out yet. -/
def b64Loop : List Nat → (quad left pads : Nat) → List UInt8 → Option (List UInt8)
  | [], quad, _, _, out => if quad = 0 then some out else none
  | c :: cs, quad, left, pads, out =>
    if c = 61 then
      if 2 ≤ quad then
        if 4 ≤ quad + (pads + 1) then some out else b64Loop cs quad left (pads + 1) out
      else b64Loop cs quad left pads out
    else
      match b64Value c with
      | none => b64Loop cs quad left pads out
      | some v =>
        match quad with
        | 0 => b64Loop cs 1 v 0 out
        | 1 => b64Loop cs 2 (v % 16) 0 (out ++ [UInt8.ofNat (left * 4 + v / 16)])
        | 2 => b64Loop cs 3 (v % 4) 0 (out ++ [UInt8.ofNat (left * 16 + v / 4)])
        | _ => b64Loop cs 0 0 0 (out ++ [UInt8.ofNat (left * 64 + v)])

/-- `base64.b64decode` of a text, or `none` where it raises. -/
def b64decode (s : CodePoints) : Option (List UInt8) :=
  if s.all (· < 128) then b64Loop s 0 0 0 [] else none

/-- The digit of base64 with a value. -/
def b64Digit (v : Nat) : Nat :=
  if v < 26 then v + 65 else if v < 52 then v + 71 else if v < 62 then v - 4 else if v = 62 then 43 else 47

/-- `base64.b64encode`. -/
def b64encode : List UInt8 → CodePoints
  | [] => []
  | [a] => [b64Digit (a.toNat / 4), b64Digit (a.toNat % 4 * 16), 61, 61]
  | [a, b] =>
    [b64Digit (a.toNat / 4), b64Digit (a.toNat % 4 * 16 + b.toNat / 16), b64Digit (b.toNat % 16 * 4), 61]
  | a :: b :: c :: bs =>
    b64Digit (a.toNat / 4) :: b64Digit (a.toNat % 4 * 16 + b.toNat / 16) ::
      b64Digit (b.toNat % 16 * 4 + c.toNat / 64) :: b64Digit (c.toNat % 64) :: b64encode bs

theorem b64Value_b64Digit : ∀ v, v < 64 → b64Value (b64Digit v) = some v := by decide

theorem b64Digit_lt : ∀ v, v < 64 → b64Digit v < 128 := by decide

theorem b64Digit_ne : ∀ v, v < 64 → b64Digit v ≠ 61 := by decide

section

variable {v : Nat} {cs : List Nat} {left pads : Nat} {out : List UInt8}

/-- A digit at each place of a group. -/
theorem b64Loop_first (h : v < 64) : b64Loop (b64Digit v :: cs) 0 left pads out = b64Loop cs 1 v 0 out := by
  rw [b64Loop, if_neg (b64Digit_ne v h), b64Value_b64Digit v h]
  rfl

theorem b64Loop_second (h : v < 64) : b64Loop (b64Digit v :: cs) 1 left pads out =
    b64Loop cs 2 (v % 16) 0 (out ++ [UInt8.ofNat (left * 4 + v / 16)]) := by
  rw [b64Loop, if_neg (b64Digit_ne v h), b64Value_b64Digit v h]
  rfl

theorem b64Loop_third (h : v < 64) : b64Loop (b64Digit v :: cs) 2 left pads out =
    b64Loop cs 3 (v % 4) 0 (out ++ [UInt8.ofNat (left * 16 + v / 4)]) := by
  rw [b64Loop, if_neg (b64Digit_ne v h), b64Value_b64Digit v h]
  rfl

theorem b64Loop_fourth (h : v < 64) : b64Loop (b64Digit v :: cs) 3 left pads out =
    b64Loop cs 0 0 0 (out ++ [UInt8.ofNat (left * 64 + v)]) := by
  rw [b64Loop, if_neg (b64Digit_ne v h), b64Value_b64Digit v h]
  rfl

end

theorem ofNat_eq_of_toNat {n : Nat} {a : UInt8} (h : n = a.toNat) : UInt8.ofNat n = a := by
  rw [h, UInt8.ofNat_toNat]

/-- A group of the encoding is read as the bytes it is of. -/
theorem b64Loop_b64encode : ∀ (bs : List UInt8) (left pads : Nat) (out : List UInt8),
    b64Loop (b64encode bs) 0 left pads out = some (out ++ bs)
  | [], _, _, out => by simp [b64encode, b64Loop]
  | [a], _, _, out => by
    have ha := a.toNat_lt
    rw [b64encode, b64Loop_first (by omega), b64Loop_second (by omega), ofNat_eq_of_toNat (a := a) (by omega)]
    rfl
  | [a, b], _, _, out => by
    have ha := a.toNat_lt
    have hb := b.toNat_lt
    rw [b64encode, b64Loop_first (by omega), b64Loop_second (by omega), b64Loop_third (by omega),
      ofNat_eq_of_toNat (a := a) (by omega), ofNat_eq_of_toNat (a := b) (by omega), List.append_assoc]
    rfl
  | a :: b :: c :: bs, _, _, out => by
    have ha := a.toNat_lt
    have hb := b.toNat_lt
    have hc := c.toNat_lt
    rw [b64encode, b64Loop_first (by omega), b64Loop_second (by omega), b64Loop_third (by omega),
      b64Loop_fourth (by omega), b64Loop_b64encode bs, ofNat_eq_of_toNat (a := a) (by omega),
      ofNat_eq_of_toNat (a := b) (by omega), ofNat_eq_of_toNat (a := c) (by omega)]
    simp

theorem b64encode_lt : ∀ (bs : List UInt8), ∀ n ∈ b64encode bs, n < 128
  | [] => by simp [b64encode]
  | [a] => by
    have ha := a.toNat_lt
    simp only [b64encode, List.forall_mem_cons]
    exact ⟨b64Digit_lt _ (by omega), b64Digit_lt _ (by omega), by omega, by omega, by simp⟩
  | [a, b] => by
    have ha := a.toNat_lt
    have hb := b.toNat_lt
    simp only [b64encode, List.forall_mem_cons]
    exact ⟨b64Digit_lt _ (by omega), b64Digit_lt _ (by omega), b64Digit_lt _ (by omega), by omega, by simp⟩
  | a :: b :: c :: bs => by
    have ha := a.toNat_lt
    have hb := b.toNat_lt
    have hc := c.toNat_lt
    simp only [b64encode, List.forall_mem_cons]
    exact ⟨b64Digit_lt _ (by omega), b64Digit_lt _ (by omega), b64Digit_lt _ (by omega), b64Digit_lt _ (by omega),
      b64encode_lt bs⟩

/-- What is encoded is decoded. -/
theorem b64decode_b64encode (bs : List UInt8) : b64decode (b64encode bs) = some bs := by
  have hascii : (b64encode bs).all (· < 128) = true :=
    List.all_eq_true.2 fun n hn => decide_eq_true (b64encode_lt bs n hn)
  rw [b64decode, if_pos hascii, b64Loop_b64encode, List.nil_append]

/-- `DISCOVERY_TYPE_PREFIX`. -/
def discoveryTypePrefix : String := "discovery_"

/-- `is_discovery_message`. -/
def isDiscoveryMessage (content : String) : Bool :=
  decide (("\"type\": \"" ++ discoveryTypePrefix).toList <:+: content.toList) ||
    decide (("\"type\":\"" ++ discoveryTypePrefix).toList <:+: content.toList)

/-- `decode_discovery_envelope`, as far as the key goes. A key that is no
text is refused or read as empty, which is one to the hook. -/
def decodeDiscoveryEnvelope (content : String) : Option Pem :=
  match loads content.toList with
  | some (.obj l) =>
    match get? l (codePoints "type"), (get? l (codePoints "payload")).getD (.obj []) with
    | some (.str subtype), .obj _ =>
      if codePoints discoveryTypePrefix <+: subtype then
        match get? l (codePoints "sender_public_key_pem_b64") with
        | some (.str s) => b64decode s
        | _ => none
      else none
    | _, _ => none
  | _ => none

/-! ## The registry -/

/-- `InMemoryRegistry`. -/
structure InMemoryRegistry where
  peers : List (Peer × Pem)
  deriving DecidableEq

namespace InMemoryRegistry

/-- `get_peers`. -/
def getPeers (r : InMemoryRegistry) : List Peer := r.peers.map Prod.fst

/-- `add_peer`. -/
def addPeer (r : InMemoryRegistry) (p : Peer) (key : Pem) : InMemoryRegistry :=
  if p ∈ r.getPeers then r else ⟨r.peers ++ [(p, key)]⟩

/-- `get_pub_key`. -/
def getPubKey (r : InMemoryRegistry) (p : Peer) : Pem := ((r.peers.find? (·.1 = p)).map Prod.snd).getD []

theorem getPubKey_of_notMem {r : InMemoryRegistry} {p : Peer} (h : p ∉ r.getPeers) : r.getPubKey p = [] := by
  have hnone : r.peers.find? (·.1 = p) = none := by
    refine List.find?_eq_none.2 fun q hq => ?_
    simp only [decide_eq_true_eq]
    exact fun he => h (he ▸ List.mem_map_of_mem hq)
  rw [getPubKey, hnone]
  rfl

theorem addPeer_eq_self_iff {r : InMemoryRegistry} {p : Peer} (key : Pem) :
    r.addPeer p key = r ↔ p ∈ r.getPeers := by
  unfold addPeer
  split
  · next h => exact iff_of_true rfl h
  · next h =>
    refine iff_of_false (fun he => ?_) h
    have hlen := congrArg (fun r : InMemoryRegistry => r.peers.length) he
    simp at hlen

end InMemoryRegistry

/-! ## The check -/

/-- The cryptography of the receiver, with `κ` the loaded keys. -/
structure Crypto (κ : Type) where
  /-- `load_pem_public_key`, or `none` where it raises. -/
  loadPemPublicKey : Pem → Option κ
  /-- What `verify` of a loaded key says of a payload and a signature; `none`
  for an exception that is none of a failed check. -/
  verify : κ → CanonicalPayload → String → Option Bool
  cipher : Cipher

/-- The node with what a check reads and writes. -/
structure Receiver (κ : Type) where
  node : BroadcastNode
  enforceSignatures : Bool
  /-- The security package is there. -/
  hasSecurity : Bool
  privateKeyPem : Option String
  registry : InMemoryRegistry
  /-- `_public_keys`. -/
  publicKeys : Dict String κ

namespace Receiver

variable {κ : Type} (C : Crypto κ)

/-- The content that the hook parses: opened, where it is ciphertext for
this node. -/
def openedContent (b : Receiver κ) (m : Message) : String :=
  if isEncryptedContent m.content then
    match b.privateKeyPem with
    | none => m.content
    | some pem => (C.cipher.decryptPayload m.content b.node.address pem).getD m.content
  else m.content

/-- The key that a message brings along; empty where the hook returns
before it looks at the registry. -/
def offeredKey (b : Receiver κ) (m : Message) : Pem :=
  if isDiscoveryMessage (b.openedContent C m) then
    (decodeDiscoveryEnvelope (b.openedContent C m)).getD []
  else []

/-- `lazy_register_pubkey`. -/
def lazyRegisterPubkey (b : Receiver κ) (m : Message) : Receiver κ :=
  if b.offeredKey C m = [] then b
  else
    match hostPort m.sender with
    | none => b
    | some p =>
      if b.registry.getPubKey p ≠ [] then b
      else { b with registry := b.registry.addPeer p (b.offeredKey C m) }

/-- `_register_peer_key`. -/
def registerPeerKey (b : Receiver κ) (p : Peer) : Receiver κ :=
  if b.registry.getPubKey p = [] then b
  else
    match C.loadPemPublicKey (b.registry.getPubKey p) with
    | none => b
    | some key => { b with publicKeys := b.publicKeys.set p.key key }

/-- `verify` of the security package. -/
def verify (b : Receiver κ) (m : Message) : Option Bool :=
  match b.publicKeys.get? m.sender with
  | none => some false
  | some key => if m.signature = "" then some false else C.verify key (canonicalPayload m) m.signature

/-- `_has_any_peer_key`. -/
def hasAnyPeerKey (b : Receiver κ) : Bool := b.registry.getPeers.any fun p => b.registry.getPubKey p ≠ []

/-- `_verify_incoming` with `lazy_register_pubkey` as its hook: the answer,
or `none` when it raises, and the receiver afterwards. -/
def verifyIncoming (b : Receiver κ) (m : Message) : Option Bool × Receiver κ :=
  if !b.hasSecurity then (some (!b.enforceSignatures), b)
  else if !(b.enforceSignatures || b.hasAnyPeerKey) then (some true, b)
  else if m.signature = "" then (some false, b)
  else
    match hostPort m.sender with
    | none => (some false, b)
    | some p =>
      let b := b.lazyRegisterPubkey C m
      if b.registry.getPubKey p = [] then (some false, b)
      else
        let b := b.registerPeerKey C p
        (b.verify C m, b)

/-! ## Traces -/

/-- What decides about later messages is the same: the registry, the seen
ids, the clock and the held messages of the node, and the key that each
sender is checked against. -/
structure Untouched (b b' : Receiver κ) : Prop where
  registry : b'.registry = b.registry
  node : b'.node = b.node
  publicKeys : ∀ sender, b'.publicKeys.get? sender = b.publicKeys.get? sender

/-- The message brings no key for a peer without an entry, and the key of
the registry for its sender is none that loads, or the one registered. -/
def NothingToPlant (b : Receiver κ) (m : Message) : Prop :=
  b.hasSecurity = true → m.signature ≠ "" → ∀ p : Peer, hostPort m.sender = some p →
    (b.offeredKey C m = [] ∨ p ∈ b.registry.getPeers) ∧
    ∀ key, b.registry.getPubKey p ≠ [] → C.loadPemPublicKey (b.registry.getPubKey p) = some key →
      b.publicKeys.get? p.key = some key

variable {C} {b : Receiver κ} {m : Message} {p : Peer}

theorem Untouched.refl (b : Receiver κ) : Untouched b b := ⟨rfl, rfl, fun _ => rfl⟩

theorem lazyRegisterPubkey_eq (b : Receiver κ) (m : Message) :
    b.lazyRegisterPubkey C m = { b with registry := (b.lazyRegisterPubkey C m).registry } := by
  unfold lazyRegisterPubkey
  repeat' split
  all_goals rfl

/-- The hook changes nothing unless it adds an entry. -/
theorem lazyRegisterPubkey_eq_self_iff (hp : hostPort m.sender = some p) :
    b.lazyRegisterPubkey C m = b ↔ b.offeredKey C m = [] ∨ p ∈ b.registry.getPeers := by
  unfold lazyRegisterPubkey
  split
  · next hoff => exact iff_of_true rfl (.inl hoff)
  · next hoff =>
    simp only [hp, hoff, false_or]
    split
    · next hkey => exact iff_of_true rfl (by_contra fun hn => hkey (InMemoryRegistry.getPubKey_of_notMem hn))
    · rw [← InMemoryRegistry.addPeer_eq_self_iff (b.offeredKey C m)]
      exact ⟨fun he => congrArg Receiver.registry he, fun he => by rw [he]⟩

/-- A peer that has a key keeps it. -/
theorem lazyRegisterPubkey_of_key (hp : hostPort m.sender = some p) (hkey : b.registry.getPubKey p ≠ []) :
    b.lazyRegisterPubkey C m = b :=
  (lazyRegisterPubkey_eq_self_iff hp).2
    (.inr (by_contra fun hn => hkey (InMemoryRegistry.getPubKey_of_notMem hn)))

theorem Untouched.lazyRegisterPubkey {b' : Receiver κ} (h : Untouched b b')
    (hreg : b'.registry = (b.lazyRegisterPubkey C m).registry) : b.lazyRegisterPubkey C m = b := by
  rw [lazyRegisterPubkey_eq, ← hreg, h.registry]

@[simp] theorem registerPeerKey_registry (b : Receiver κ) (p : Peer) :
    (b.registerPeerKey C p).registry = b.registry := by
  unfold registerPeerKey
  repeat' split
  all_goals rfl

theorem untouched_registerPeerKey_iff :
    Untouched b (b.registerPeerKey C p) ↔ ∀ key, b.registry.getPubKey p ≠ [] →
      C.loadPemPublicKey (b.registry.getPubKey p) = some key → b.publicKeys.get? p.key = some key := by
  unfold registerPeerKey
  split
  · next hnone => exact iff_of_true (.refl b) fun key hne _ => absurd hnone hne
  · split
    · next hload =>
      refine iff_of_true (.refl b) fun key _ hkey => ?_
      rw [hload] at hkey
      cases hkey
    · next key hload =>
      constructor
      · intro h key' _ hkey'
        rw [hload] at hkey'
        cases hkey'
        rw [← h.publicKeys p.key]
        simp
      · intro h
        refine ⟨rfl, rfl, fun sender => ?_⟩
        rw [Dict.get?_set]
        split
        · next hs =>
          rw [hs]
          exact (h key ‹_› hload).symm
        · rfl

/-- The check of a message whose sender has a key once the hook has run. -/
theorem verifyIncoming_of_key {b' : Receiver κ} (henf : b.enforceSignatures = true) (hsec : b.hasSecurity = true)
    (hsig : m.signature ≠ "") (hp : hostPort m.sender = some p) (hhook : b.lazyRegisterPubkey C m = b')
    (hkey : b'.registry.getPubKey p ≠ []) :
    b.verifyIncoming C m = ((b'.registerPeerKey C p).verify C m, b'.registerPeerKey C p) := by
  unfold verifyIncoming
  simp only [henf, hsec, hp, hhook, Bool.true_or, Bool.not_true, Bool.false_eq_true, if_false, if_neg hsig,
    if_neg hkey]

/-! ## A forged first message -/

/-- Keys are their PEM texts, and a signature is the text of the key that
made it. -/
def plainKeys : Crypto Pem where
  loadPemPublicKey := some
  verify key _ signature := some (decide (codePoints signature = key.map UInt8.toNat))
  cipher := ⟨fun _ _ _ => none, fun _ _ => none⟩

/-- A join request of `b:1` that carries a key. -/
def joinRequest (id keyB64 signature : String) : Message where
  content := "\x7b\"type\": \"discovery_join_request\", \"sender_public_key_pem_b64\": \"" ++ keyB64 ++
    "\", \"payload\": \x7b\x7d\x7d"
  sender := "b:1"
  id := id
  timestamp := 0
  signature := signature
  ttl := 0
  vectorClock := Dict.empty

/-- A node that has met nobody. -/
def newcomer : Receiver Pem := ⟨.new "a:1" 5, true, true, none, ⟨[]⟩, Dict.empty⟩

/-- A node that has met `b:1`. -/
def acquainted : Receiver Pem :=
  ⟨.new "a:1" 5, true, true, none, ⟨[(("b", 1), [75, 69, 89])]⟩, Dict.empty.set "b:1" [75, 69, 89]⟩

/-- The node once `b:1` is entered with a key. -/
def introduced (key : Pem) : Receiver Pem := { newcomer with registry := ⟨[(("b", 1), key)]⟩ }

theorem newcomer_hook {key : Pem} (hne : key ≠ []) (hkey : newcomer.offeredKey plainKeys m = key)
    (hp : hostPort m.sender = some ("b", 1)) : newcomer.lazyRegisterPubkey plainKeys m = introduced key := by
  rw [lazyRegisterPubkey, hkey, if_neg hne, hp]
  rfl

theorem newcomer_check {key : Pem} (hne : key ≠ []) (hkey : newcomer.offeredKey plainKeys m = key)
    (hp : hostPort m.sender = some ("b", 1)) (hsig : m.signature ≠ "") :
    newcomer.verifyIncoming plainKeys m =
      (((introduced key).registerPeerKey plainKeys ("b", 1)).verify plainKeys m,
        (introduced key).registerPeerKey plainKeys ("b", 1)) :=
  verifyIncoming_of_key rfl rfl hsig hp (newcomer_hook hne hkey hp) hne

theorem hostPort_joinRequest (id keyB64 signature : String) :
    hostPort (joinRequest id keyB64 signature).sender = some ("b", 1) := by
  show hostPort "b:1" = some ("b", 1)
  decide +kernel

end Receiver

end PeerChat.FirstUse
