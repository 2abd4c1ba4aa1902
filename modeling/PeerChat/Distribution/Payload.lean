/-
The content of a message on its way (`security/payload_encryption.py`,
`_encrypt_for_peer` and `_message_for_ui` of
`distribution/broadcast_node.py`).

Whether a content is ciphertext is read off the content itself, by the
sender and by the receiver. A content that looks like an envelope is sent
as it is, and the receiver opens it. `content_unchanged_iff`: a message is
handed over with the content it was broadcast with exactly when that looks
like no envelope, unless a periodic round hands it over, which opens none.
-/
import PeerChat.Distribution.Wire
import PeerChat.Distribution.Relay
import PeerChat.Distribution.HandOver

namespace PeerChat

open Lib JsonText

/-- `WIRE_VERSION`. -/
def wireVersion : String := "pcenc-h1"

/-- `is_encrypted_content`. -/
def isEncryptedContent (content : String) : Bool :=
  match loads content.toList with
  | some (.obj l) =>
    match get? l (codePoints "v") with
    | some (.str s) => s = codePoints wireVersion
    | _ => false
  | _ => false

/-- The hybrid encryption, on texts: `_hybrid_encrypt` with the base64 of
what it returns, for a public key and the random choices of the call, and
the way back with a private key. `none` where they raise. -/
structure Cipher where
  hybridEncrypt : String → String → Nat → Option String
  hybridDecrypt : String → String → Option String

/-- A box is opened by the key it is made for, and is longer than its
plaintext: it has the key material and the tag as well. -/
structure Cipher.Ideal (C : Cipher) (S : Scheme) : Prop where
  opens : ∀ plain key random, ∃ box, C.hybridEncrypt plain (S.publicOf key) random = some box ∧
    C.hybridDecrypt box key = some plain
  longer : ∀ box key plain, C.hybridDecrypt box key = some plain → plain.length < box.length

namespace Cipher

variable (C : Cipher)

/-- The members of an envelope with one box. -/
def envelope (recipient box : String) : List (CodePoints × Doc) :=
  [(codePoints "v", .str (codePoints wireVersion)),
    (codePoints "boxes", .obj [(codePoints recipient, .str (codePoints box))])]

/-- `encrypt_payload` for one recipient. -/
def encryptPayload (content recipient publicKeyPem : String) (random : Nat) : Option String :=
  if publicKeyPem = "" then some content
  else (C.hybridEncrypt content publicKeyPem random).map fun box =>
    String.ofList ((Doc.obj (envelope recipient box)).text [])

/-- The box for a user; everything but a text raises. -/
def boxFor (l : List (CodePoints × Doc)) (user : String) : Option String :=
  match get? l (codePoints "boxes") with
  | some (.obj boxes) =>
    match get? boxes (codePoints user) with
    | some (.str s) => if s.isEmpty then none else ofCodePoints s
    | _ => none
  | _ => none

/-- `decrypt_payload`; `none` is the `PayloadEncryptionError`. -/
def decryptPayload (content ownUserId privateKeyPem : String) : Option String :=
  if isEncryptedContent content then
    match loads content.toList with
    | some (.obj l) => (boxFor l ownUserId).bind fun box => C.hybridDecrypt box privateKeyPem
    | _ => none
  else some content

end Cipher

/-- The scheme with these functions for the content. -/
def Scheme.withPayload (S : Scheme) (C : Cipher) : Scheme :=
  { S with
    isEncryptedContent := PeerChat.isEncryptedContent
    encryptPayload := C.encryptPayload
    decryptPayload := C.decryptPayload }

theorem Scheme.Ideal.withPayload {S : Scheme} (h : S.Ideal) (C : Cipher) : (S.withPayload C).Ideal :=
  ⟨h.isPublicKey_publicOf, h.publicOf_ne, h.sign_ne, h.verify_sign⟩

/-! ## Envelopes -/

section Envelope

variable {S : Scheme} {C : Cipher}

theorem loads_envelope (recipient box : String) :
    loads (String.ofList ((Doc.obj (Cipher.envelope recipient box)).text [])).toList =
      some (.obj (Cipher.envelope recipient box)) := by
  rw [String.toList_ofList]
  refine loads_text (by simp) (written_object fun p hp => ?_)
  simp only [Cipher.envelope, List.mem_cons, List.not_mem_nil, or_false] at hp
  rcases hp with rfl | rfl
  · exact ⟨⟨_, rfl⟩, written_text wireVersion⟩
  · refine ⟨⟨_, rfl⟩, written_object fun q hq => ?_⟩
    cases List.mem_singleton.1 hq
    exact ⟨⟨_, rfl⟩, written_text box⟩

theorem isEncryptedContent_envelope (recipient box : String) :
    isEncryptedContent (String.ofList ((Doc.obj (Cipher.envelope recipient box)).text [])) = true := by
  have hv : get? (Cipher.envelope recipient box) (codePoints "v") = some (.str (codePoints wireVersion)) := rfl
  simp only [isEncryptedContent, loads_envelope, hv, decide_true]

/-- An envelope is opened by its recipient. -/
theorem decryptPayload_envelope {recipient box key plain : String} (hne : box ≠ "")
    (h : C.hybridDecrypt box key = some plain) :
    C.decryptPayload (String.ofList ((Doc.obj (Cipher.envelope recipient box)).text [])) recipient key =
      some plain := by
  have hboxes : get? (Cipher.envelope recipient box) (codePoints "boxes") =
      some (.obj [(codePoints recipient, .str (codePoints box))]) := rfl
  have hbox : get? [(codePoints recipient, Doc.str (codePoints box))] (codePoints recipient) =
      some (.str (codePoints box)) := by simp [get?]
  have hchars : (codePoints box).isEmpty = false := by
    rw [List.isEmpty_eq_false_iff]
    intro he
    exact hne (codePoints_injective he)
  simp only [Cipher.decryptPayload, isEncryptedContent_envelope, loads_envelope, Cipher.boxFor, hboxes, hbox, hchars,
    if_true, Bool.false_eq_true, if_false, ofCodePoints_codePoints, Option.bind_some, h]

/-- A content is not what it is opened to. -/
theorem decryptPayload_ne (hC : C.Ideal S) {content user key : String} (h : isEncryptedContent content = true) :
    C.decryptPayload content user key ≠ some content := by
  intro hd
  rw [Cipher.decryptPayload, if_pos h] at hd
  split at hd
  · next l hl =>
    obtain ⟨box, hbox, hopen⟩ := Option.bind_eq_some_iff.1 hd
    have hlonger := hC.longer box key content hopen
    have hwithin := within_loads hl
    unfold Cipher.boxFor at hbox
    split at hbox
    · next boxes hboxes =>
      split at hbox
      · next s hs =>
        split at hbox
        · cases hbox
        · have hlen := length_ofCodePoints hbox
          cases hwithin with
          | obj hl' =>
            have hin := hl' _ (mem_of_get? hboxes)
            cases hin with
            | obj hb' =>
              have hstr := hb' _ (mem_of_get? hs)
              cases hstr with
              | str hle =>
                rw [String.length_toList] at hle
                omega
      · cases hbox
    · cases hbox
  · cases hd

theorem isEncryptedContent_placeholder : isEncryptedContent "[encrypted]" = false := by decide +kernel

end Envelope

/-! ## Runs of the receiver -/

namespace BroadcastNode

/-- A round of the periodic drain. -/
def Call.isDrain : Call → Bool
  | .holdbackDrain _ => true
  | .receive _ _ _ _ | .doBroadcast _ _ | .applyVcSync _ _ _ => false

/-- A call of the run, a periodic round or not, releases a message with
this id. -/
def Run.HandsOver (id : String) (drain : Bool) (r : Run) : List Call → Prop
  | [] => False
  | c :: calls => (c.isDrain = drain ∧ ∃ x ∈ c.batch r.node, x.id = id) ∨ (r.step c).HandsOver id drain calls

/-- The calls on a node that has this security package and sends nothing
under the id; what it receives under it is one of the copies. -/
def Call.Meets (sec : Nat → Security) (id : String) (Copy : Message → Prop) : Call → Prop
  | .receive env _ _ x => (∃ random, env.security = some (sec random)) ∧ (x.id = id → Copy x)
  | .applyVcSync env _ _ => ∃ random, env.security = some (sec random)
  | .doBroadcast _ m => m.id ≠ id
  | .holdbackDrain _ => True

section

variable {sec : Nat → Security} {id content : String} {Copy : Message → Prop} {e : Bool} {r : Run} {c : Call}
  {address : String} {received : List Message}

theorem handOver_quiet : ∀ ms : List Message, (handOver (fun _ => false) ms).1 = ms := fun ms =>
  (handOver_all ms).2 fun _ _ => rfl

/-- What a call adds to the messages handed over. -/
theorem handed_step (r : Run) (c : Call) (hc : ∀ env m, c ≠ .doBroadcast env m) :
    (r.step c).handed = r.handed ++ c.batch r.node := by
  have hstep := (EventLoop.step_of_quiet r c).2
  have hdoes : c.Does (fun _ => false) r.node ((EventLoop.mk r.node true).step (fun _ => false) c) := by
    cases c with
    | receive env addedAt now m => exact receive_does _ _ env addedAt now m
    | doBroadcast env m => exact absurd rfl (hc env m)
    | applyVcSync env now vc => exact applyVcSync_does _ _ env now vc
    | holdbackDrain now => exact holdbackDrain_does _ _ now
  rw [hstep, hdoes.handed, handOver_quiet]

/-- The messages of a batch are copies of what the node holds or receives,
opened by every call but the periodic one. -/
theorem mem_batch (h : r.Holds address received) (hc : c.Meets sec id Copy) {x : Message} (hx : x ∈ c.batch r.node) :
    ∃ y ∈ received ++ r.receivedBy c, (c.isDrain = true ∧ x = y) ∨
      (c.isDrain = false ∧ ∃ env random, env.security = some (sec random) ∧ x = messageForUi env r.node y) := by
  cases c with
  | receive env addedAt now m =>
    simp only [Call.batch] at hx
    split at hx
    · cases hx
    · next hm =>
      obtain ⟨y, hy, rfl⟩ := List.mem_map.1 hx
      have hmem := (accept_perm r.node addedAt now m).subset (List.mem_append_left _ hy)
      obtain ⟨random, hsec⟩ := hc.1
      refine ⟨y, ?_, .inr ⟨rfl, env, random, hsec, rfl⟩⟩
      rcases List.mem_cons.1 hmem with rfl | hmem
      · refine List.mem_append_right _ ?_
        rcases r.node.receive_cases env addedAt now y with ⟨hin, -⟩ | ⟨-, n₂, d, -, he⟩
        · exact absurd hin hm
        · simp [Run.receivedBy, he]
      · exact List.mem_append_left _ (h.held y hmem)
  | doBroadcast env m => cases hx
  | applyVcSync env now vc =>
    obtain ⟨y, hy, rfl⟩ := List.mem_map.1 hx
    have hmem := (HoldBackQueue.drain_perm r.node.holdBack now _).subset (List.mem_append_left _ hy)
    obtain ⟨random, hsec⟩ := hc
    exact ⟨y, List.mem_append_left _ (h.held y hmem), .inr ⟨rfl, env, random, hsec, rfl⟩⟩
  | holdbackDrain now =>
    simp only [Call.batch] at hx
    split at hx
    · cases hx
    · have hmem := (HoldBackQueue.drain_perm r.node.holdBack now _).subset (List.mem_append_left _ hx)
      exact ⟨x, List.mem_append_left _ (h.held x hmem), .inl ⟨rfl, rfl⟩⟩

/-- A content that is left as it is by one of the ways to hand over, and
changed by the other. -/
structure Kept (sec : Nat → Security) (address content : String) (e : Bool) (x : Message) : Prop where
  shown : ∀ {env : NodeEnv} {n : BroadcastNode} {random : Nat}, env.security = some (sec random) →
    n.address = address → ((messageForUi env n x).content = content ↔ e = false)
  raw : x.content = content ↔ e = true

/-- What the node has received under the id stays one of the copies. -/
theorem received_step (hr : ∀ x ∈ received, x.id = id → Copy x) (hc : c.Meets sec id Copy) :
    ∀ x ∈ received ++ r.receivedBy c, x.id = id → Copy x := by
  intro x hx hid
  rcases List.mem_append.1 hx with hx | hx
  · exact hr x hx hid
  · cases c with
    | receive env addedAt now m =>
      simp only [Run.receivedBy] at hx
      split at hx
      · cases List.mem_singleton.1 hx
        exact hc.2 hid
      · cases hx
    | doBroadcast | applyVcSync | holdbackDrain => cases hx

theorem batch_content (h : r.Holds address received) (hr : ∀ x ∈ received, x.id = id → Kept sec address content e x)
    (hc : c.Meets sec id (Kept sec address content e)) {x : Message} (hx : x ∈ c.batch r.node) (hid : x.id = id) :
    x.content = content ↔ e = c.isDrain := by
  obtain ⟨y, hy, hxy⟩ := mem_batch h hc hx
  have hidy : y.id = id := by
    rcases hxy with ⟨-, rfl⟩ | ⟨-, env, -, -, rfl⟩
    · exact hid
    · exact (messageForUi_same env r.node y).id.symm.trans hid
  have hkept : Kept sec address content e y := received_step hr hc y hy hidy
  rcases hxy with ⟨hd, rfl⟩ | ⟨hd, env, random, hsec, rfl⟩
  · rw [hd]
    exact hkept.raw
  · rw [hd]
    exact hkept.shown hsec h.address

/-- One call. -/
theorem handed_step_iff (h : r.Holds address received)
    (hr : ∀ x ∈ received, x.id = id → Kept sec address content e x) (hc : c.Meets sec id (Kept sec address content e)) :
    (∀ x ∈ (r.step c).handed, x.id = id → x.content = content) ↔
      (∀ x ∈ r.handed, x.id = id → x.content = content) ∧ ((∃ x ∈ c.batch r.node, x.id = id) → e = c.isDrain) := by
  by_cases hb : ∃ env m, c = .doBroadcast env m
  · obtain ⟨env, m, rfl⟩ := hb
    have hown : ∀ x ∈ (r.node.doBroadcast env m).2.1.handed, x.id ≠ id := by
      intro x hx
      rcases r.node.doBroadcast_cases env m with ⟨-, he⟩ | ⟨-, -, he⟩ | ⟨-, signed, hsign, sent, he, -⟩
      · rw [he] at hx; cases hx
      · rw [he] at hx; cases hx
      · rw [he] at hx
        cases List.mem_singleton.1 hx
        have hid := congrArg Message.id (signOutgoing_same hsign)
        exact fun he => hc (hid.symm.trans he)
    have hhanded : (r.step (.doBroadcast env m)).handed = r.handed ++ (r.node.doBroadcast env m).2.1.handed := rfl
    rw [hhanded]
    constructor
    · intro hall
      exact ⟨fun x hx => hall x (List.mem_append_left _ hx), fun hex => by
        obtain ⟨x, hx, -⟩ := hex
        cases hx⟩
    · intro hall x hx hid
      rcases List.mem_append.1 hx with hx | hx
      · exact hall.1 x hx hid
      · exact absurd hid (hown x hx)
  · rw [handed_step r c fun env m he => hb ⟨env, m, he⟩]
    constructor
    · intro hall
      refine ⟨fun x hx => hall x (List.mem_append_left _ hx), fun hex => ?_⟩
      obtain ⟨x, hx, hid⟩ := hex
      exact (batch_content h hr hc hx hid).1 (hall x (List.mem_append_right _ hx) hid)
    · intro hall x hx hid
      rcases List.mem_append.1 hx with hx | hx
      · exact hall.1 x hx hid
      · exact (batch_content h hr hc hx hid).2 (hall.2 ⟨x, hx, hid⟩)

/-- The whole run. -/
theorem handed_run_iff : ∀ {calls : List Call} {r : Run} {received : List Message}, r.Holds address received →
    (∀ x ∈ received, x.id = id → Kept sec address content e x) →
    (∀ c ∈ calls, c.Meets sec id (Kept sec address content e)) →
    ((∀ x ∈ (calls.foldl Run.step r).handed, x.id = id → x.content = content) ↔
      (∀ x ∈ r.handed, x.id = id → x.content = content) ∧ ∀ drain, r.HandsOver id drain calls → e = drain)
  | [], r, received, _, _, _ => by simp [Run.HandsOver]
  | c :: calls, r, received, h, hr, hcalls => by
    have hc := hcalls c (by simp)
    rw [List.foldl_cons, handed_run_iff (h.step c) (received_step hr hc) fun c' hc' => hcalls c' (by simp [hc']),
      handed_step_iff h hr hc]
    simp only [Run.HandsOver, or_imp, forall_and, and_assoc]
    refine and_congr_right fun _ => and_congr_left fun _ => ?_
    constructor
    · intro hone drain hex
      rw [← hex.1]
      exact hone hex.2
    · intro hone hex
      exact hone c.isDrain ⟨rfl, hex⟩

end

end BroadcastNode

/-! ## From one node to another -/

/-- What `b` takes off the wire of a broadcast of `a`. -/
def Party.Copies (S : Scheme) (F : FloatText) (a b : Party) (m x : Message) : Prop :=
  ∃ random random' out wire uuid now, (b.peer, out) ∈ (a.node.doBroadcast (a.env S random) m).2.1.sent ∧
    a.prepareOutgoingForPeer S random' out b.peer = some wire ∧ Message.fromJson F uuid now (wire.toJson F) = some x

section Journey

variable {S : Scheme} {C : Cipher} {F : FloatText} {a b : Party} {m x : Message}

/-- The template of a broadcast has the content of the message. -/
theorem content_of_mem_sent {n : BroadcastNode} {env : NodeEnv} {s : Peer × Message}
    (h : s ∈ (n.doBroadcast env m).2.1.sent) : s.2.content = m.content ∧ s.2.sender = m.sender := by
  rcases n.doBroadcast_cases env m with ⟨-, he⟩ | ⟨-, -, he⟩ | ⟨-, signed, hsign, sent, he, hall⟩
  · rw [he] at h; cases h
  · rw [he] at h; cases h
  · rw [he] at h
    rw [hall s h]
    have hcontent := congrArg Message.content (BroadcastNode.signOutgoing_same hsign)
    have hsender := congrArg Message.sender (BroadcastNode.signOutgoing_same hsign)
    exact ⟨hcontent, hsender⟩

/-- A copy has the content itself, where that looks like an envelope, and
an envelope for the peer otherwise. -/
theorem Party.Copies.content (hC : C.Ideal S) (hS : S.Ideal) (hkey : pubKey a.registry b.peer = S.publicOf b.key)
    (h : a.Copies (S.withPayload C) F b m x) :
    (isEncryptedContent m.content = true ∧ x.content = m.content) ∨
      (isEncryptedContent m.content = false ∧ ∃ box, C.hybridDecrypt box b.key = some m.content ∧
        x.content = String.ofList ((Doc.obj (Cipher.envelope b.peer.key box)).text [])) := by
  obtain ⟨random, random', out, wire, uuid, now, hsent, hwire, hx⟩ := h
  rw [Message.fromJson_toJson] at hx
  cases hx
  have hout := (content_of_mem_sent hsent).1
  have hsame : x.content = (a.encryptForPeer (S.withPayload C) random' out b.peer).content := by
    cases hwire
    rfl
  rw [hsame, Party.encryptForPeer]
  have henc : (S.withPayload C).isEncryptedContent = isEncryptedContent := rfl
  rw [henc, hout, hkey]
  cases he : isEncryptedContent m.content with
  | true => exact .inl ⟨rfl, by rw [if_pos rfl, hout]⟩
  | false =>
    obtain ⟨box, hbox, hopen⟩ := hC.opens m.content b.key random'
    refine .inr ⟨rfl, box, hopen, ?_⟩
    have hseal : (S.withPayload C).encryptPayload m.content b.peer.key (S.publicOf b.key) random' =
        some (String.ofList ((Doc.obj (Cipher.envelope b.peer.key box)).text [])) := by
      change C.encryptPayload m.content b.peer.key (S.publicOf b.key) random' = _
      rw [Cipher.encryptPayload, if_neg (hS.publicOf_ne _), hbox, Option.map_some]
    rw [if_neg Bool.false_ne_true, if_neg (hS.publicOf_ne _), hseal]

theorem Party.Copies.verified (hS : S.Ideal) (hb : b.Knows (S.withPayload C) a) (hm : m.sender = a.node.address)
    (h : a.Copies (S.withPayload C) F b m x) : b.verifyIncoming (S.withPayload C) x = true := by
  obtain ⟨random, random', out, wire, uuid, now, hsent, hwire, hx⟩ := h
  rw [Message.fromJson_toJson] at hx
  cases hx
  obtain ⟨wire', hwire', hsender, hsig⟩ := a.prepareOutgoingForPeer_eq (S := S.withPayload C) random' out b.peer
  cases Option.some.inj (hwire.symm.trans hwire')
  have hfrom : x.sender = a.node.address := by
    rw [hsender, (content_of_mem_sent hsent).2, hm]
  exact (verifyIncoming_iff (hS.withPayload C) hb hfrom hsig).2 rfl

open BroadcastNode in
/-- What becomes of a copy: an envelope is opened, and so is a content that
looks like one; a message that is handed over as it came is still sealed. -/
theorem Party.Copies.kept (hC : C.Ideal S) (hS : S.Ideal) (hkey : pubKey a.registry b.peer = S.publicOf b.key)
    (h : a.Copies (S.withPayload C) F b m x) :
    Kept ((S.withPayload C).security b.key) b.node.address m.content (isEncryptedContent m.content) x := by
  have henc : ∀ random, ((S.withPayload C).security b.key random).isEncryptedContent = isEncryptedContent :=
    fun _ => rfl
  have hdec : ∀ random, ((S.withPayload C).security b.key random).decryptPayload = C.decryptPayload := fun _ => rfl
  have hpem : ∀ random, ((S.withPayload C).security b.key random).getPrivateKeyPem = some b.key := fun _ => rfl
  rcases h.content hC hS hkey with ⟨he, hx⟩ | ⟨he, box, hopen, hx⟩
  · refine ⟨fun {env n random} hsec _ => ?_, by simp [he, hx]⟩
    rw [he]
    refine iff_of_false ?_ (by simp)
    simp only [messageForUi, decryptInto, hsec, henc, hpem, hdec, hx, he, if_true]
    split
    · next plain hplain =>
      intro hsame
      exact decryptPayload_ne hC he (hplain.trans (congrArg some hsame))
    · intro hsame
      rw [← show "[encrypted]" = m.content from hsame, isEncryptedContent_placeholder] at he
      cases he
  · have hlonger := hC.longer box b.key m.content hopen
    have hne : box ≠ "" := by
      intro hnil
      rw [hnil] at hlonger
      exact absurd hlonger (Nat.not_lt_zero _)
    refine ⟨fun {env n random} hsec haddr => ?_, ?_⟩
    · rw [he]
      refine iff_of_true ?_ rfl
      have haddr' : n.address = b.peer.key := haddr.trans b.address
      simp only [messageForUi, decryptInto, hsec, henc, hpem, hdec, hx, isEncryptedContent_envelope, if_true, haddr',
        decryptPayload_envelope hne hopen]
    · rw [he]
      refine iff_of_false (fun hsame => ?_) (by simp)
      have htrue := isEncryptedContent_envelope b.peer.key box
      rw [← hx, hsame, he] at htrue
      cases htrue

end Journey

/-- Boxes that name the key. -/
def namedCipher : Cipher where
  hybridEncrypt plain pub _ :=
    some (String.ofList ('B' :: (Doc.arr [.str (codePoints pub), .str (codePoints plain)]).text []))
  hybridDecrypt box key :=
    match box.toList with
    | 'B' :: cs =>
      match loads cs with
      | some (.arr [.str pub, .str plain]) =>
        if pub = codePoints (namedScheme.publicOf key) then ofCodePoints plain else none
      | _ => none
    | _ => none

theorem namedCipher_ideal : namedCipher.Ideal namedScheme where
  opens plain key random := by
    refine ⟨_, rfl, ?_⟩
    let box : Doc := .arr [.str (codePoints (namedScheme.publicOf key)), .str (codePoints plain)]
    have hwritten : box.Written := by
      refine .arr fun d hd => ?_
      simp only [List.mem_cons, List.not_mem_nil, or_false] at hd
      rcases hd with rfl | rfl
      · exact written_text _
      · exact written_text _
    have hloads : loads (box.text []) = some box := loads_text (by simp) hwritten
    simp only [namedCipher, String.toList_ofList, box, hloads, if_true, ofCodePoints_codePoints]
  longer box key plain h := by
    simp only [namedCipher] at h
    split at h
    · next cs hcs =>
      split at h
      · next pub s hs =>
        split at h
        · have hlen := length_ofCodePoints h
          have hbox : box.length = cs.length + 1 := by rw [← String.length_toList, hcs, List.length_cons]
          cases within_loads hs with
          | arr hl =>
            cases hl (.str s) (by simp) with
            | str hle => omega
        · cases h
      · cases h
    · cases h

def alice : Party := party "a" "A" [(("b", 1), "public B")]

def bob : Party := party "b" "B" [(("a", 1), "public A")]

theorem bob_knows : bob.Knows (namedScheme.withPayload namedCipher) alice := by
  have hkey : Party.pubKey bob.registry alice.peer = namedScheme.publicOf alice.key := by decide
  exact ⟨rfl, rfl, fun _ => hkey⟩

/-- A message of the first node. -/
def chat (content : String) : Message := ⟨content, "a:1", "m", 0, "", 10, Dict.empty⟩

/-- The template of its broadcast. -/
def chatOut (content : String) : Message :=
  { chat content with
    signature := named "public A" (canonicalPayload (chat content))
    vectorClock := (Dict.empty : VectorClock).set "a:1" 1 }

/-- Its copy for the second node. -/
def chatCopy (content : String) : Option Message :=
  alice.prepareOutgoingForPeer (namedScheme.withPayload namedCipher) 0 (chatOut content) bob.peer

theorem chatOut_sent (content : String) :
    (alice.node.doBroadcast (alice.env (namedScheme.withPayload namedCipher) 0) (chat content)).2.1.sent =
      [(bob.peer, chatOut content)] := rfl

theorem chatCopy_copies {content : String} {x : Message} (h : chatCopy content = some x) :
    alice.Copies (namedScheme.withPayload namedCipher) .whole bob (chat content) x :=
  ⟨0, 0, chatOut content, x, "", 0, by rw [chatOut_sent]; simp, h, Message.fromJson_toJson _ _ _ x⟩

open BroadcastNode in
/-- The second node receives the copy. -/
def arrival (x : Message) : List Call := [.receive (bob.env (namedScheme.withPayload namedCipher) 0) 0 0 x]

open BroadcastNode in
theorem arrival_meets {content : String} {x : Message} (h : chatCopy content = some x) : ∀ c ∈ arrival x,
    c.Meets ((namedScheme.withPayload namedCipher).security bob.key) (chat content).id
      (alice.Copies (namedScheme.withPayload namedCipher) .whole bob (chat content)) := by
  intro c hc
  cases List.mem_singleton.1 hc
  exact ⟨⟨0, rfl⟩, fun _ => chatCopy_copies h⟩

def helloCopy : Message := (chatCopy "hello").getD (chat "hello")

theorem helloCopy_eq : chatCopy "hello" = some helloCopy := rfl

/-- A text of a user that looks like an envelope. -/
def typed : String := "\x7b\"v\": \"pcenc-h1\"\x7d"

def typedCopy : Message := (chatCopy typed).getD (chat typed)

theorem typedCopy_eq : chatCopy typed = some typedCopy := rfl

end PeerChat
