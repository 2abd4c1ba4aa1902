/-
The encryption of a message's content (`security/payload_encryption.py`): for
each recipient a box, which is base64 of the length of an RSA ciphertext in two
bytes, this ciphertext, and the content under the AES key in it.

Only `json.loads` in `is_encrypted_content` stands outside the `try`, and it
raises more than that function catches on a text that is beyond a limit of the
interpreter. `decrypt_payload_iff`: what is encrypted is restored, and nothing
but a `PayloadEncryptionError` is raised, unless the content is such a text.
-/
import PeerChat.Lib.JsonLimits
import PeerChat.Lib.Dict
import PeerChat.Distribution.FirstUse
import PeerChat.History.StorageMessages
import PeerChat.Lib.TextFile

namespace PeerChat.PayloadEncryption

open Lib JsonText
open FirstUse (b64Value b64Digit b64encode b64Value_b64Digit b64Digit_ne b64encode_lt ofNat_eq_of_toNat)
open History (isTruthy bind_eq_ok)

abbrev Bytes := List UInt8

/-- The reasons of a `PayloadEncryptionError`, with their texts. -/
inductive PayloadEncryptionError
  /-- `"no ciphertext box for {own_user_id!r}"` -/
  | noBox (ownUserId : String)
  /-- `"failed to decrypt payload"` -/
  | failed
  /-- `"public key must be RSA"` -/
  | publicKeyNotRsa
  /-- `"private key must be RSA"` -/
  | privateKeyNotRsa
  /-- `"ciphertext too short"` -/
  | tooShort
  /-- `"ciphertext truncated"` -/
  | truncated
  /-- `"invalid key material length"` -/
  | keyMaterialLength
  deriving DecidableEq, Repr

/-- What is raised: a `PayloadEncryptionError`, or an exception of another
class. -/
inductive Raised
  | payloadEncryption (e : PayloadEncryptionError)
  | other (cls : String)
  deriving DecidableEq, Repr

/-- The class of what `json.loads` raises. -/
def raisedByLoads : LoadError → Raised
  | .malformed => .other "JSONDecodeError"
  | .tooDeep => .other "RecursionError"
  | .tooLong => .other "ValueError"

/-! ## The package -/

/-- A key that `serialization` has loaded: one of RSA, or of another kind. -/
inductive LoadedKey (κ : Type)
  | rsa (key : κ)
  | other

/-- The functions of the `cryptography` package, with OAEP and without a
password or associated data. An RSA encryption takes its random choices. -/
structure Cryptography where
  PublicKey : Type
  PrivateKey : Type
  publicKey : PrivateKey → PublicKey
  loadPemPublicKey : Bytes → Except Raised (LoadedKey PublicKey)
  loadPemPrivateKey : Bytes → Except Raised (LoadedKey PrivateKey)
  rsaEncrypt : PublicKey → Bytes → Nat → Except Raised Bytes
  rsaDecrypt : PrivateKey → Bytes → Except Raised Bytes
  gcmEncrypt : Bytes → Bytes → Bytes → Except Raised Bytes
  gcmDecrypt : Bytes → Bytes → Bytes → Except Raised Bytes

/-- Decryption inverts encryption under matching keys, and an RSA ciphertext
has its length in two bytes. -/
structure Cryptography.Inverts (C : Cryptography) : Prop where
  rsa : ∀ key m seed c, C.rsaEncrypt (C.publicKey key) m seed = .ok c → C.rsaDecrypt key c = .ok m
  rsa_length : ∀ key m seed c, C.rsaEncrypt key m seed = .ok c → c.length ≤ 65535
  gcm : ∀ key nonce plain c, key.length = 32 → nonce.length = 12 →
    C.gcmEncrypt key nonce plain = .ok c → C.gcmDecrypt key nonce c = .ok plain

/-- What a box is made with: `AESGCM.generate_key(bit_length=256)`,
`os.urandom(12)` and the random choices of OAEP. -/
structure Choices where
  aesKey : Bytes
  nonce : Bytes
  seed : Nat
  length_aesKey : aesKey.length = 32
  length_nonce : nonce.length = 12

/-! ## Texts and bytes -/

/-- The loop of `binascii.a2b_base64` in strict mode. -/
def strictLoop : List Nat → (quad left pads : Nat) → (padded : Bool) → List UInt8 → Option (List UInt8)
  | [], quad, _, _, _, out => if quad = 0 then some out else none
  | c :: cs, quad, left, pads, padded, out =>
    if c = 61 then
      if 2 ≤ quad then
        if 4 ≤ quad + (pads + 1) then if cs = [] then some out else none
        else strictLoop cs quad left (pads + 1) true out
      else strictLoop cs quad left pads true out
    else
      match b64Value c with
      | none => none
      | some v =>
        if padded then none
        else
          match quad with
          | 0 => strictLoop cs 1 v 0 padded out
          | 1 => strictLoop cs 2 (v % 16) 0 padded (out ++ [UInt8.ofNat (left * 4 + v / 16)])
          | 2 => strictLoop cs 3 (v % 4) 0 padded (out ++ [UInt8.ofNat (left * 16 + v / 4)])
          | _ => strictLoop cs 0 0 0 padded (out ++ [UInt8.ofNat (left * 64 + v)])

/-- `base64.b64decode(s.encode("ascii"), validate=True)`. -/
def b64decodeStrict (s : CodePoints) : Except Raised Bytes :=
  if s.all (· < 128) then
    if s.head? = some 61 then .error (.other "Error")
    else
      match strictLoop s 0 0 0 false [] with
      | some bytes => .ok bytes
      | none => .error (.other "Error")
  else .error (.other "UnicodeEncodeError")

/-- `s.encode("utf-8")`. -/
def encodeUtf8 (s : CodePoints) : Except Raised Bytes :=
  match ofCodePoints s with
  | some t => .ok (TextFile.encode t.toList)
  | none => .error (.other "UnicodeEncodeError")

/-- `bytes.decode("utf-8")`. -/
def decodeUtf8 (bytes : Bytes) : Except Raised CodePoints :=
  match ByteArray.utf8Decode? ⟨bytes.toArray⟩ with
  | some cs => .ok (cs.toList.map Char.toNat)
  | none => .error (.other "UnicodeDecodeError")

/-- `n.to_bytes(2, "big")`. -/
def toBytes2 (n : Nat) : Except Raised Bytes :=
  if n < 65536 then .ok [UInt8.ofNat (n / 256), UInt8.ofNat (n % 256)] else .error (.other "OverflowError")

/-- `int.from_bytes(bytes, "big")`. -/
def fromBytes (bytes : Bytes) : Nat := bytes.foldl (fun n b => 256 * n + b.toNat) 0

/-! ## Boxes -/

variable (C : Cryptography) (L : Limits)

/-- `_hybrid_encrypt`. -/
def hybridEncrypt (r : Choices) (plaintext publicKeyPem : Bytes) : Except Raised Bytes := do
  match ← C.loadPemPublicKey publicKeyPem with
  | .other => .error (.payloadEncryption .publicKeyNotRsa)
  | .rsa publicKey =>
    let ciphertext ← C.gcmEncrypt r.aesKey r.nonce plaintext
    let encryptedKeyMaterial ← C.rsaEncrypt publicKey (r.aesKey ++ r.nonce) r.seed
    let rsaLen ← toBytes2 encryptedKeyMaterial.length
    return rsaLen ++ encryptedKeyMaterial ++ ciphertext

/-- `_hybrid_decrypt`. -/
def hybridDecrypt (ciphertext privateKeyPem : Bytes) : Except Raised Bytes := do
  match ← C.loadPemPrivateKey privateKeyPem with
  | .other => .error (.payloadEncryption .privateKeyNotRsa)
  | .rsa privateKey =>
    if ciphertext.length < 2 then .error (.payloadEncryption .tooShort)
    else
      let rsaLen := fromBytes (ciphertext.take 2)
      if ciphertext.length < 2 + rsaLen then .error (.payloadEncryption .truncated)
      else
        let encryptedKeyMaterial := (ciphertext.drop 2).take rsaLen
        let aesCiphertext := ciphertext.drop (2 + rsaLen)
        let keyMaterial ← C.rsaDecrypt privateKey encryptedKeyMaterial
        if keyMaterial.length ≠ 44 then .error (.payloadEncryption .keyMaterialLength)
        else C.gcmDecrypt (keyMaterial.take 32) (keyMaterial.drop 32) aesCiphertext

/-- The loop of `encrypt_payload`; each box is made with choices of its own. -/
def makeBoxes (r : Nat → Choices) (plaintext : Bytes) :
    List (String × Bytes) → Except Raised (List (String × CodePoints))
  | [] => .ok []
  | (userId, publicKeyPem) :: valid => do
    let box ← hybridEncrypt C (r valid.length) plaintext publicKeyPem
    let boxes ← makeBoxes r plaintext valid
    return (userId, b64encode box) :: boxes

/-- What `json.dumps` writes. -/
def envelope (boxes : List (String × CodePoints)) : Doc :=
  .obj [(codePoints "v", .str (codePoints wireVersion)),
    (codePoints "boxes", .obj (boxes.map fun p => (codePoints p.1, .str p.2)))]

/-- `encrypt_payload`: what it raises if it does, and the content afterwards. -/
def encryptPayload (r : Nat → Choices) (recipientPubkeys : Dict String Bytes) (content : CodePoints) :
    Except Raised Unit × CodePoints :=
  let valid := recipientPubkeys.items.filter fun p => p.2 ≠ []
  if valid = [] then (.ok (), content)
  else
    match encodeUtf8 content >>= fun plaintext => makeBoxes C r plaintext valid with
    | .ok boxes => (.ok (), ((envelope boxes).text []).map Char.toNat)
    | .error e => (.error e, content)

/-- `is_encrypted_content`. -/
def isEncryptedContent (content : CodePoints) : Except Raised Bool :=
  match loadsWithin L content with
  | .error .malformed => .ok false
  | .error e => .error (raisedByLoads e)
  | .ok (.obj data) =>
    .ok (match get? data (codePoints "v") with
      | some (.str s) => s = codePoints wireVersion
      | _ => false)
  | .ok _ => .ok false

/-- `boxes.get(own_user_id)` for the boxes of an envelope. -/
def boxFor (ownUserId : String) (data : List (CodePoints × Doc)) : Except Raised Doc :=
  let boxes := (get? data (codePoints "boxes")).getD .null
  if isTruthy boxes then
    match boxes with
    | .obj boxes => .ok ((get? boxes (codePoints ownUserId)).getD .null)
    | _ => .error (.other "AttributeError")
  else .ok .null

/-- The `try` of `decrypt_payload`. -/
def openBox (ownUserId : String) (privateKeyPem : Bytes) (content : CodePoints) : Except Raised CodePoints := do
  match loadsWithin L content with
  | .error e => .error (raisedByLoads e)
  | .ok (.obj data) =>
    let encoded ← boxFor ownUserId data
    if isTruthy encoded then
      match encoded with
      | .str s =>
        let ciphertext ← b64decodeStrict s
        let plaintext ← hybridDecrypt C ciphertext privateKeyPem
        decodeUtf8 plaintext
      | _ => .error (.other "AttributeError")
    else .error (.payloadEncryption (.noBox ownUserId))
  | .ok _ => .error (.other "AttributeError")

/-- `decrypt_payload`: what it raises if it does, and the content afterwards. -/
def decryptPayload (ownUserId : String) (privateKeyPem : Bytes) (content : CodePoints) :
    Except Raised Unit × CodePoints :=
  match isEncryptedContent L content with
  | .error e => (.error e, content)
  | .ok false => (.ok (), content)
  | .ok true =>
    match openBox C L ownUserId privateKeyPem content with
    | .ok plaintext => (.ok (), plaintext)
    | .error (.payloadEncryption e) => (.error (.payloadEncryption e), content)
    | .error (.other _) => (.error (.payloadEncryption .failed), content)

/-! ## Texts and bytes read back -/

section

variable {v : Nat} {cs : List Nat} {left pads : Nat} {out : List UInt8}

/-- A digit at each place of a group. -/
theorem strictLoop_first (h : v < 64) :
    strictLoop (b64Digit v :: cs) 0 left pads false out = strictLoop cs 1 v 0 false out := by
  rw [strictLoop, if_neg (b64Digit_ne v h), b64Value_b64Digit v h]
  rfl

theorem strictLoop_second (h : v < 64) : strictLoop (b64Digit v :: cs) 1 left pads false out =
    strictLoop cs 2 (v % 16) 0 false (out ++ [UInt8.ofNat (left * 4 + v / 16)]) := by
  rw [strictLoop, if_neg (b64Digit_ne v h), b64Value_b64Digit v h]
  rfl

theorem strictLoop_third (h : v < 64) : strictLoop (b64Digit v :: cs) 2 left pads false out =
    strictLoop cs 3 (v % 4) 0 false (out ++ [UInt8.ofNat (left * 16 + v / 4)]) := by
  rw [strictLoop, if_neg (b64Digit_ne v h), b64Value_b64Digit v h]
  rfl

theorem strictLoop_fourth (h : v < 64) : strictLoop (b64Digit v :: cs) 3 left pads false out =
    strictLoop cs 0 0 0 false (out ++ [UInt8.ofNat (left * 64 + v)]) := by
  rw [strictLoop, if_neg (b64Digit_ne v h), b64Value_b64Digit v h]
  rfl

end

/-- A group of the encoding is read as the bytes it is of. -/
theorem strictLoop_b64encode : ∀ (bs : List UInt8) (left pads : Nat) (out : List UInt8),
    strictLoop (b64encode bs) 0 left pads false out = some (out ++ bs)
  | [], _, _, out => by simp [b64encode, strictLoop]
  | [a], _, _, out => by
    have ha := a.toNat_lt
    rw [b64encode, strictLoop_first (by omega), strictLoop_second (by omega), ofNat_eq_of_toNat (a := a) (by omega)]
    rfl
  | [a, b], _, _, out => by
    have ha := a.toNat_lt
    have hb := b.toNat_lt
    rw [b64encode, strictLoop_first (by omega), strictLoop_second (by omega), strictLoop_third (by omega),
      ofNat_eq_of_toNat (a := a) (by omega), ofNat_eq_of_toNat (a := b) (by omega), List.append_assoc]
    rfl
  | a :: b :: c :: bs, _, _, out => by
    have ha := a.toNat_lt
    have hb := b.toNat_lt
    have hc := c.toNat_lt
    rw [b64encode, strictLoop_first (by omega), strictLoop_second (by omega), strictLoop_third (by omega),
      strictLoop_fourth (by omega), strictLoop_b64encode bs, ofNat_eq_of_toNat (a := a) (by omega),
      ofNat_eq_of_toNat (a := b) (by omega), ofNat_eq_of_toNat (a := c) (by omega)]
    simp

/-- An encoding starts with no padding. -/
theorem head?_b64encode (bs : List UInt8) : (b64encode bs).head? ≠ some 61 := by
  have hne (a : UInt8) : b64Digit (a.toNat / 4) ≠ 61 := b64Digit_ne _ (by have := a.toNat_lt; omega)
  match bs with
  | [] => exact nofun
  | [a] | [a, _] | a :: _ :: _ :: _ => exact fun h => hne a (Option.some.inj h)

theorem b64decodeStrict_b64encode (bs : List UInt8) : b64decodeStrict (b64encode bs) = .ok bs := by
  have hascii : (b64encode bs).all (· < 128) = true :=
    List.all_eq_true.2 fun n hn => decide_eq_true (b64encode_lt bs n hn)
  rw [b64decodeStrict, if_pos hascii, if_neg (head?_b64encode bs), strictLoop_b64encode, List.nil_append]

theorem b64encode_ne_nil {bs : List UInt8} (h : bs ≠ []) : b64encode bs ≠ [] := by
  match bs with
  | [] => exact absurd rfl h
  | [_] | [_, _] | _ :: _ :: _ :: _ => exact List.cons_ne_nil _ _

/-- A text that can be encoded is decoded. -/
theorem decodeUtf8_encodeUtf8 {content : CodePoints} {plaintext : Bytes} (h : encodeUtf8 content = .ok plaintext) :
    decodeUtf8 plaintext = .ok content := by
  unfold encodeUtf8 ofCodePoints at h
  split at h
  · next t ht =>
    split at ht
    · next hvalid =>
      cases ht
      cases h
      rw [String.toList_ofList]
      have hbytes : (⟨(TextFile.encode (content.map Char.ofNat)).toArray⟩ : ByteArray) =
          (content.map Char.ofNat).utf8Encode := by
        rw [List.utf8Encode, TextFile.encode]
        exact ByteArray.ext (Array.ext' (by simp))
      rw [decodeUtf8, hbytes, List.utf8Decode?_utf8Encode]
      simp only [List.map_map]
      refine congrArg _ ((List.map_congr_left fun n hn => ?_).trans (List.map_id content))
      have hn : n.isValidChar := of_decide_eq_true (List.all_eq_true.1 hvalid n hn)
      rw [Function.comp_apply, Char.ofNat, dif_pos hn]
      rfl
    · cases ht
  · cases h

theorem encodeUtf8_of_scalar {content : CodePoints} (h : ∀ n ∈ content, Scalar n) :
    ∃ plaintext, encodeUtf8 content = .ok plaintext := by
  have hvalid : content.all (fun n => decide (Nat.isValidChar n)) = true := by
    refine List.all_eq_true.2 fun n hn => decide_eq_true ?_
    rcases h n hn with hlt | ⟨hge, hlt⟩
    · exact .inl hlt
    · exact .inr ⟨by omega, hlt⟩
  rw [encodeUtf8, ofCodePoints, if_pos hvalid]
  exact ⟨_, rfl⟩

theorem fromBytes_toBytes2 {n : Nat} {bytes : Bytes} (h : toBytes2 n = .ok bytes) :
    bytes.length = 2 ∧ fromBytes bytes = n := by
  unfold toBytes2 at h
  split at h
  · next hn =>
    cases h
    refine ⟨rfl, ?_⟩
    simp only [fromBytes, List.foldl_cons, List.foldl_nil, UInt8.toNat_ofNat']
    omega
  · cases h

/-! ## Boxes are opened -/

variable {C L}

/-- A private key and the public key that belongs to it. -/
def KeyPair (C : Cryptography) (privateKeyPem publicKeyPem : Bytes) : Prop :=
  ∃ key, C.loadPemPrivateKey privateKeyPem = .ok (.rsa key) ∧
    C.loadPemPublicKey publicKeyPem = .ok (.rsa (C.publicKey key))

/-- **A blob is opened by the key that belongs to the one it is made for.** -/
theorem hybridDecrypt_hybridEncrypt (hC : C.Inverts) {r : Choices} {plaintext publicKeyPem privateKeyPem box : Bytes}
    (hbox : hybridEncrypt C r plaintext publicKeyPem = .ok box) (hpair : KeyPair C privateKeyPem publicKeyPem) :
    box ≠ [] ∧ hybridDecrypt C box privateKeyPem = .ok plaintext := by
  obtain ⟨key, hprivate, hpublic⟩ := hpair
  rw [hybridEncrypt, hpublic] at hbox
  obtain ⟨loaded, hloaded, hbox⟩ := bind_eq_ok.1 hbox
  cases hloaded
  have hbox : (C.gcmEncrypt r.aesKey r.nonce plaintext >>= _) = .ok box := hbox
  obtain ⟨ciphertext, hgcm, hbox⟩ := bind_eq_ok.1 hbox
  obtain ⟨material, hrsa, hbox⟩ := bind_eq_ok.1 hbox
  obtain ⟨rsaLen, hlen, hbox⟩ := bind_eq_ok.1 hbox
  cases hbox
  obtain ⟨htwo, hfrom⟩ := fromBytes_toBytes2 hlen
  have htake : (rsaLen ++ material ++ ciphertext).take 2 = rsaLen := by
    rw [List.append_assoc, ← htwo, List.take_left]
  have hdrop : (rsaLen ++ material ++ ciphertext).drop 2 = material ++ ciphertext := by
    rw [List.append_assoc, ← htwo, List.drop_left]
  have hrest : (rsaLen ++ material ++ ciphertext).drop (2 + material.length) = ciphertext := by
    rw [← List.drop_drop, hdrop, List.drop_left]
  have hlength : (rsaLen ++ material ++ ciphertext).length = 2 + material.length + ciphertext.length := by
    simp only [List.length_append, htwo]
  have hmaterial := hC.rsa key _ _ _ hrsa
  have h44 : (r.aesKey ++ r.nonce).length = 44 := by rw [List.length_append, r.length_aesKey, r.length_nonce]
  have hkey : (r.aesKey ++ r.nonce).take 32 = r.aesKey := by rw [← r.length_aesKey, List.take_left]
  have hnonce : (r.aesKey ++ r.nonce).drop 32 = r.nonce := by rw [← r.length_aesKey, List.drop_left]
  refine ⟨fun hnil => by rw [hnil] at hlength; simp at hlength; omega, ?_⟩
  rw [hybridDecrypt, hprivate]
  show (if _ then _ else _) = _
  rw [if_neg (by omega), htake, hfrom, if_neg (by omega), hdrop, hrest, List.take_left]
  show (C.rsaDecrypt key material >>= _) = _
  rw [hmaterial]
  show (if _ then _ else _) = _
  rw [if_neg (by omega), hkey, hnonce]
  exact hC.gcm _ _ _ _ r.length_aesKey r.length_nonce hgcm

/-- An RSA public key that takes the key material, and a content that AES-GCM
takes. -/
def Usable (C : Cryptography) (plaintext publicKeyPem : Bytes) : Prop :=
  (∃ key, C.loadPemPublicKey publicKeyPem = .ok (.rsa key) ∧
    ∀ material seed, material.length = 44 → ∃ c, C.rsaEncrypt key material seed = .ok c) ∧
  ∀ key nonce, key.length = 32 → nonce.length = 12 → ∃ c, C.gcmEncrypt key nonce plaintext = .ok c

theorem hybridEncrypt_of_usable (hC : C.Inverts) (r : Choices) {plaintext publicKeyPem : Bytes}
    (h : Usable C plaintext publicKeyPem) : ∃ box, hybridEncrypt C r plaintext publicKeyPem = .ok box := by
  obtain ⟨⟨key, hkey, hrsa⟩, hgcm⟩ := h
  have h44 : (r.aesKey ++ r.nonce).length = 44 := by rw [List.length_append, r.length_aesKey, r.length_nonce]
  obtain ⟨ciphertext, hciphertext⟩ := hgcm r.aesKey r.nonce r.length_aesKey r.length_nonce
  obtain ⟨material, hmaterial⟩ := hrsa (r.aesKey ++ r.nonce) r.seed h44
  have hlength := hC.rsa_length _ _ _ _ hmaterial
  have hbytes : toBytes2 material.length = .ok _ := if_pos (by omega)
  rw [hybridEncrypt]
  exact ⟨_, bind_eq_ok.2 ⟨_, hkey, bind_eq_ok.2 ⟨_, hciphertext, bind_eq_ok.2 ⟨_, hmaterial,
    bind_eq_ok.2 ⟨_, hbytes, rfl⟩⟩⟩⟩⟩

/-- Each recipient gets a box that is made for his key. -/
theorem makeBoxes_ok {r : Nat → Choices} {plaintext : Bytes} : ∀ {valid : List (String × Bytes)}
    {boxes : List (String × CodePoints)}, makeBoxes C r plaintext valid = .ok boxes →
    boxes.map Prod.fst = valid.map Prod.fst ∧ (∀ q ∈ boxes, ∀ n ∈ q.2, n < 128) ∧
      ∀ p ∈ valid, ∃ k box, hybridEncrypt C (r k) plaintext p.2 = .ok box ∧ (p.1, b64encode box) ∈ boxes
  | [], boxes, h => by
    cases h
    exact ⟨rfl, fun q hq => absurd hq List.not_mem_nil, fun p hp => absurd hp List.not_mem_nil⟩
  | (userId, publicKeyPem) :: valid, boxes, h => by
    obtain ⟨box, hbox, h⟩ := bind_eq_ok.1 h
    obtain ⟨boxes', hboxes, h⟩ := bind_eq_ok.1 h
    cases h
    obtain ⟨hkeys, hascii, hmade⟩ := makeBoxes_ok hboxes
    refine ⟨by rw [List.map_cons, List.map_cons, hkeys], ?_, ?_⟩
    · rintro q hq n hn
      rcases List.mem_cons.1 hq with rfl | hq
      · exact b64encode_lt box n hn
      · exact hascii q hq n hn
    · intro p hp
      rcases List.mem_cons.1 hp with rfl | hp
      · exact ⟨valid.length, box, hbox, List.mem_cons_self⟩
      · obtain ⟨k, b, hb, hmem⟩ := hmade p hp
        exact ⟨k, b, hb, List.mem_cons_of_mem _ hmem⟩

theorem makeBoxes_of_usable (hC : C.Inverts) (r : Nat → Choices) {plaintext : Bytes} :
    ∀ {valid : List (String × Bytes)}, (∀ p ∈ valid, Usable C plaintext p.2) →
    ∃ boxes, makeBoxes C r plaintext valid = .ok boxes
  | [], _ => ⟨[], rfl⟩
  | (userId, publicKeyPem) :: valid, h => by
    obtain ⟨box, hbox⟩ := hybridEncrypt_of_usable hC (r valid.length) (h (userId, publicKeyPem) List.mem_cons_self)
    obtain ⟨boxes, hboxes⟩ := makeBoxes_of_usable hC r fun p hp => h p (List.mem_cons_of_mem _ hp)
    exact ⟨_, bind_eq_ok.2 ⟨box, hbox, bind_eq_ok.2 ⟨boxes, hboxes, rfl⟩⟩⟩

/-! ## The envelope -/

/-- The value at a key that occurs once. -/
theorem get?_of_mem {l : List (CodePoints × Doc)} (hnodup : (l.map Prod.fst).Nodup) {k : CodePoints} {d : Doc}
    (h : (k, d) ∈ l) : get? l k = some d := by
  obtain ⟨l₁, l₂, hl⟩ := List.append_of_mem (List.mem_reverse.2 h)
  refine List.lookup_eq_some_iff.2 ⟨l₁, l₂, hl, fun p hp => ?_⟩
  have hkeys : (l.reverse.map Prod.fst).Nodup := by rwa [List.map_reverse, List.nodup_reverse]
  rw [hl, List.map_append, List.map_cons] at hkeys
  have hne := List.disjoint_of_nodup_append hkeys (List.mem_map_of_mem hp)
  simpa using fun he : k = p.1 => hne (he ▸ List.mem_cons_self)

section

variable {boxes : List (String × CodePoints)}

theorem written_envelope (h : ∀ q ∈ boxes, ∀ n ∈ q.2, n < 128) : (envelope boxes).Written := by
  refine written_object fun p hp => ?_
  simp only [List.mem_cons, List.not_mem_nil, or_false] at hp
  rcases hp with rfl | rfl
  · exact ⟨⟨_, rfl⟩, written_text wireVersion⟩
  · refine ⟨⟨_, rfl⟩, written_object fun q hq => ?_⟩
    obtain ⟨b, hb, rfl⟩ := List.mem_map.1 hq
    refine ⟨⟨_, rfl⟩, .str fun n hn => ?_⟩
    have hlt := h b hb n hn
    exact .inl (by omega)

theorem fits_envelope (h : 2 ≤ L.depth) : (envelope boxes).Fits L 0 := by
  refine .obj (by omega) fun p hp => ?_
  simp only [List.mem_cons, List.not_mem_nil, or_false] at hp
  rcases hp with rfl | rfl
  · exact .str _ _
  · refine .obj (by omega) fun q hq => ?_
    obtain ⟨b, -, rfl⟩ := List.mem_map.1 hq
    exact .str _ _

/-- The text of an envelope up to where its second container opens. -/
def opening : List Char :=
  '\x7b' :: (quote (codePoints "v") ++ ':' :: (quote (codePoints wireVersion) ++ ',' ::
    (quote (codePoints "boxes") ++ [':', '\x7b'])))

theorem feed_opening : feed opening ⟨[], .value⟩ =
    some ⟨[.member [(codePoints "v", .str (codePoints wireVersion))] (codePoints "boxes")], .firstKey⟩ := rfl

/-- An envelope is two containers deep. -/
theorem beyond_envelope (h : L.depth < 2) : Beyond L (((envelope boxes).text []).map Char.toNat) ⟨[], .value⟩ := by
  have htext : (envelope boxes).text [] =
      opening ++ (Doc.members [] (boxes.map fun p => (codePoints p.1, Doc.str p.2)) ++ ['\x7d', '\x7d']) := by
    simp [envelope, opening, Doc.text, Doc.members, Doc.member]
  refine ⟨opening.map Char.toNat, _, _, by rw [htext, List.map_append], (feedPoints_map _ _).trans feed_opening, ?_⟩
  exact .inl h

theorem get?_envelope_boxes (hnodup : (boxes.map Prod.fst).Nodup) {userId : String} {s : CodePoints}
    (h : (userId, s) ∈ boxes) :
    get? (boxes.map fun p => (codePoints p.1, Doc.str p.2)) (codePoints userId) = some (.str s) := by
  refine get?_of_mem ?_ (List.mem_map.2 ⟨(userId, s), h, rfl⟩)
  have hkeys : (boxes.map fun p => (codePoints p.1, Doc.str p.2)).map Prod.fst =
      (boxes.map Prod.fst).map codePoints := by
    rw [List.map_map, List.map_map]
    rfl
  rw [hkeys]
  exact hnodup.map fun _ _ => codePoints_injective

/-- **An envelope is opened by its recipient.** -/
theorem decryptPayload_envelope (hdepth : 2 ≤ L.depth) (hnodup : (boxes.map Prod.fst).Nodup)
    (hascii : ∀ q ∈ boxes, ∀ n ∈ q.2, n < 128) {userId : String} {box plaintext privateKeyPem : Bytes}
    {content : CodePoints} (hmem : (userId, b64encode box) ∈ boxes) (hne : box ≠ [])
    (hopen : hybridDecrypt C box privateKeyPem = .ok plaintext) (hdecode : decodeUtf8 plaintext = .ok content) :
    decryptPayload C L userId privateKeyPem (((envelope boxes).text []).map Char.toNat) = (.ok (), content) := by
  have hloads : loadsWithin L (((envelope boxes).text []).map Char.toNat) = .ok (envelope boxes) :=
    loadsWithin_text (fun c hc => absurd hc List.not_mem_nil) (written_envelope hascii) (fits_envelope hdepth)
  generalize ((envelope boxes).text []).map Char.toNat = text at hloads ⊢
  have hv : get? [(codePoints "v", Doc.str (codePoints wireVersion)),
      (codePoints "boxes", .obj (boxes.map fun p => (codePoints p.1, .str p.2)))] (codePoints "v") =
      some (.str (codePoints wireVersion)) := rfl
  have hboxes : get? [(codePoints "v", Doc.str (codePoints wireVersion)),
      (codePoints "boxes", .obj (boxes.map fun p => (codePoints p.1, .str p.2)))] (codePoints "boxes") =
      some (.obj (boxes.map fun p => (codePoints p.1, .str p.2))) := rfl
  have hnonempty : isTruthy (.obj (boxes.map fun p => (codePoints p.1, Doc.str p.2))) = true := by
    simp only [isTruthy, Bool.not_eq_true', List.isEmpty_eq_false_iff, ne_eq, List.map_eq_nil_iff]
    exact List.ne_nil_of_mem hmem
  have htruthy : isTruthy (.str (b64encode box)) = true := by
    simp only [isTruthy, Bool.not_eq_true', List.isEmpty_eq_false_iff]
    exact b64encode_ne_nil hne
  have hencrypted : isEncryptedContent L text = .ok true := by
    simp only [isEncryptedContent, hloads, envelope, hv, decide_true]
  have hbox : openBox C L userId privateKeyPem text = .ok content := by
    simp only [openBox, hloads, envelope, boxFor, hboxes, Option.getD_some, hnonempty, if_true,
      get?_envelope_boxes hnodup hmem]
    refine bind_eq_ok.2 ⟨_, rfl, ?_⟩
    simp only [htruthy, if_true]
    exact bind_eq_ok.2 ⟨_, b64decodeStrict_b64encode box, bind_eq_ok.2 ⟨_, hopen, hdecode⟩⟩
  rw [decryptPayload, hencrypted, hbox]

/-! ## Decryption -/

/-- It returns, or raises a `PayloadEncryptionError` and leaves the content. -/
def Clean (out : Except Raised Unit × CodePoints) (content : CodePoints) : Prop :=
  out.1 = .ok () ∨ ∃ e, out = (.error (.payloadEncryption e), content)

/-- **Decryption is clean exactly on a content within the limits.** -/
theorem clean_decryptPayload_iff (userId : String) (privateKeyPem : Bytes) (content : CodePoints) :
    Clean (decryptPayload C L userId privateKeyPem content) content ↔ ¬ Beyond L content ⟨[], .value⟩ := by
  rw [← loadsWithin_limit_iff]
  constructor
  · rintro hclean ⟨e, he, hne⟩
    have hraised : decryptPayload C L userId privateKeyPem content = (.error (raisedByLoads e), content) := by
      cases e with
      | malformed => exact absurd rfl hne
      | tooDeep | tooLong => rw [decryptPayload, isEncryptedContent, he]
    rw [hraised] at hclean
    rcases hclean with hok | ⟨e', he'⟩
    · cases hok
    · cases e <;> cases he'
  · intro hno
    obtain ⟨b, hb⟩ : ∃ b, isEncryptedContent L content = .ok b := by
      unfold isEncryptedContent
      split
      · exact ⟨_, rfl⟩
      · next e hne he => exact absurd ⟨e, he, hne⟩ hno
      · exact ⟨_, rfl⟩
      · exact ⟨_, rfl⟩
    rw [decryptPayload, hb]
    cases b with
    | false => exact .inl rfl
    | true =>
      simp only
      split
      · exact .inl rfl
      · exact .inr ⟨_, rfl⟩
      · exact .inr ⟨.failed, rfl⟩

end

/-! ## There and back -/

section

variable {recipientPubkeys : Dict String Bytes} {content content' : CodePoints}

theorem filter_ne_nil (h : ∃ p ∈ recipientPubkeys.items, p.2 ≠ []) :
    recipientPubkeys.items.filter (fun p => p.2 ≠ []) ≠ [] := by
  obtain ⟨p, hp, hne⟩ := h
  exact List.ne_nil_of_mem (List.mem_filter.2 ⟨hp, decide_eq_true hne⟩)

/-- With keys that can be used a content is encrypted. -/
theorem encryptPayload_of_usable (hC : C.Inverts) (hsome : ∃ p ∈ recipientPubkeys.items, p.2 ≠ []) {plaintext : Bytes}
    (hplaintext : encodeUtf8 content = .ok plaintext)
    (husable : ∀ p ∈ recipientPubkeys.items, p.2 ≠ [] → Usable C plaintext p.2) (r : Nat → Choices) :
    ∃ content', encryptPayload C r recipientPubkeys content = (.ok (), content') := by
  have hall : ∀ p ∈ recipientPubkeys.items.filter (fun p => p.2 ≠ []), Usable C plaintext p.2 := fun p hp =>
    husable p (List.mem_filter.1 hp).1 (of_decide_eq_true (List.mem_filter.1 hp).2)
  obtain ⟨boxes, hboxes⟩ := makeBoxes_of_usable hC r hall
  refine ⟨((envelope boxes).text []).map Char.toNat, ?_⟩
  have hrun : (encodeUtf8 content >>= fun plaintext => makeBoxes C r plaintext
      (recipientPubkeys.items.filter fun p => p.2 ≠ [])) = .ok boxes := bind_eq_ok.2 ⟨_, hplaintext, hboxes⟩
  simp only [encryptPayload, if_neg (filter_ne_nil hsome), hrun]

/-- **What is encrypted is restored** exactly where two containers may be
open. -/
theorem decryptPayload_encrypted_iff (hC : C.Inverts) (hsome : ∃ p ∈ recipientPubkeys.items, p.2 ≠ [])
    {r : Nat → Choices} (hencrypt : encryptPayload C r recipientPubkeys content = (.ok (), content'))
    {userId : String} {publicKeyPem privateKeyPem : Bytes} (hget : recipientPubkeys.get? userId = some publicKeyPem)
    (hkey : publicKeyPem ≠ []) (hpair : KeyPair C privateKeyPem publicKeyPem) :
    decryptPayload C L userId privateKeyPem content' = (.ok (), content) ↔ 2 ≤ L.depth := by
  simp only [encryptPayload, if_neg (filter_ne_nil hsome)] at hencrypt
  split at hencrypt
  · next boxes hrun =>
    cases hencrypt
    obtain ⟨plaintext, hplaintext, hboxes⟩ := bind_eq_ok.1 hrun
    obtain ⟨hkeys, hascii, hmade⟩ := makeBoxes_ok hboxes
    have hnodup : (boxes.map Prod.fst).Nodup := by
      rw [hkeys]
      exact recipientPubkeys.nodup.sublist (List.filter_sublist.map _)
    obtain ⟨k, box, hbox, hmem⟩ := hmade (userId, publicKeyPem)
      (List.mem_filter.2 ⟨(recipientPubkeys.mem_items_iff).2 hget, decide_eq_true hkey⟩)
    obtain ⟨hboxne, hopen⟩ := hybridDecrypt_hybridEncrypt hC hbox hpair
    constructor
    · intro hdecrypt
      by_contra hdepth
      refine (clean_decryptPayload_iff (C := C) userId privateKeyPem _).1 (.inl (congrArg Prod.fst hdecrypt)) ?_
      exact beyond_envelope (by omega)
    · intro hdepth
      exact decryptPayload_envelope hdepth hnodup hascii hmem hboxne hopen (decodeUtf8_encodeUtf8 hplaintext)
  · cases hencrypt

end

/-- **What is encrypted is restored where two containers may be open, and
decryption is clean exactly on a content within the limits.** -/
theorem decrypt_payload_iff (hC : C.Inverts) (L : Limits) :
    (∀ (recipientPubkeys : Dict String Bytes) (content : CodePoints), (∀ n ∈ content, Scalar n) →
      (∃ p ∈ recipientPubkeys.items, p.2 ≠ []) →
      ((∀ plaintext, encodeUtf8 content = .ok plaintext →
          ∀ p ∈ recipientPubkeys.items, p.2 ≠ [] → Usable C plaintext p.2) →
        ∀ r, ∃ content', encryptPayload C r recipientPubkeys content = (.ok (), content')) ∧
      ∀ r content', encryptPayload C r recipientPubkeys content = (.ok (), content') →
        ∀ userId publicKeyPem privateKeyPem, recipientPubkeys.get? userId = some publicKeyPem → publicKeyPem ≠ [] →
          KeyPair C privateKeyPem publicKeyPem →
          (decryptPayload C L userId privateKeyPem content' = (.ok (), content) ↔ 2 ≤ L.depth)) ∧
    ∀ userId privateKeyPem content,
      Clean (decryptPayload C L userId privateKeyPem content) content ↔ ¬ Beyond L content ⟨[], .value⟩ := by
  refine ⟨fun recipientPubkeys content hscalar hsome => ⟨fun husable r => ?_, fun r content' hencrypt => ?_⟩,
    clean_decryptPayload_iff⟩
  · obtain ⟨plaintext, hplaintext⟩ := encodeUtf8_of_scalar hscalar
    exact encryptPayload_of_usable hC hsome hplaintext (husable plaintext hplaintext) r
  · intro userId publicKeyPem privateKeyPem hget hkey hpair
    exact decryptPayload_encrypted_iff hC hsome hencrypt hget hkey hpair

/-! ## A package that hides nothing -/

/-- Every key is its own pair, and the tag is of zeros. -/
def plainCryptography : Cryptography where
  PublicKey := Bytes
  PrivateKey := Bytes
  publicKey := id
  loadPemPublicKey pem := if pem = [] then .error (.other "ValueError") else .ok (.rsa pem)
  loadPemPrivateKey pem := if pem = [] then .error (.other "ValueError") else .ok (.rsa pem)
  rsaEncrypt _ material _ := if material.length ≤ 190 then .ok material else .error (.other "ValueError")
  rsaDecrypt _ ciphertext := .ok ciphertext
  gcmEncrypt _ _ plaintext := .ok (plaintext ++ List.replicate 16 0)
  gcmDecrypt _ _ ciphertext :=
    if ciphertext.length < 16 then .error (.other "InvalidTag") else .ok (ciphertext.take (ciphertext.length - 16))

theorem plainCryptography_inverts : plainCryptography.Inverts where
  rsa key m seed c h := by
    simp only [plainCryptography] at h
    split at h
    · cases h
      rfl
    · cases h
  rsa_length key m seed c h := by
    simp only [plainCryptography] at h
    split at h
    · cases h
      omega
    · cases h
  gcm key nonce plain c _ _ h := by
    cases h
    have hlen : (plain ++ List.replicate 16 (0 : UInt8)).length = plain.length + 16 := by simp
    simp only [plainCryptography]
    rw [if_neg (by omega), hlen, Nat.add_sub_cancel, List.take_left]

/-- Choices without chance. -/
def noChoices (_ : Nat) : Choices := ⟨List.replicate 32 7, List.replicate 12 9, 0, by decide, by decide⟩

/-- Two recipients, and one without a key. -/
def recipients : Dict String Bytes := ⟨[("a:1", [1]), ("b:2", []), ("c:3", [3])], by decide⟩

/-- A content is restored for the last of them. -/
theorem decrypt_payload_restored : ∃ content',
    encryptPayload plainCryptography noChoices recipients (codePoints "hé") = (.ok (), content') ∧
      decryptPayload plainCryptography ⟨1000, 4300⟩ "c:3" [3] content' = (.ok (), codePoints "hé") := by
  obtain ⟨hreturns, hrestores⟩ := (decrypt_payload_iff plainCryptography_inverts ⟨1000, 4300⟩).1 recipients
    (codePoints "hé") (fun _ => scalar_of_mem_codePoints) ⟨("a:1", [1]), List.mem_cons_self, by decide⟩
  have husable : ∀ plaintext p, p ∈ recipients.items → p.2 ≠ [] → Usable plainCryptography plaintext p.2 := by
    intro plaintext p _ hne
    refine ⟨⟨p.2, if_neg hne, fun material _ hlen => ⟨material, if_pos ?_⟩⟩, fun _ _ _ _ => ⟨_, rfl⟩⟩
    omega
  obtain ⟨content', hencrypt⟩ := hreturns (fun plaintext _ => husable plaintext) noChoices
  refine ⟨content', hencrypt, (hrestores _ _ hencrypt "c:3" [3] [3] (by decide) (by decide) ?_).2 (by decide)⟩
  exact ⟨[3], rfl, rfl⟩

/-- A plain content of 1001 brackets is not returned. -/
theorem decrypt_payload_brackets :
    ¬ Clean (decryptPayload plainCryptography ⟨1000, 4300⟩ "a:1" [1] (List.replicate 1001 91))
      (List.replicate 1001 91) :=
  fun hclean => (clean_decryptPayload_iff "a:1" [1] _).1 hclean (beyond_brackets ⟨1000, 4300⟩)

end PeerChat.PayloadEncryption
