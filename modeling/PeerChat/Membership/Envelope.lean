/-
The events and envelopes of peer discovery as JSON
(`MembershipEvent.from_dict` and `to_dict` of
`peer_discovery/membership/models.py`, `encode_discovery_envelope` and
`decode_discovery_envelope` of `peer_discovery/network/protocol.py`).

`from_dict` does not look at types: what it takes of another type than the
declared one is kept as what stands for it. Such a value is compared with
nothing, but for the term and the user. `eventFromDict_toDict` and
`received_encodeEnvelope`: what a node sends is decoded as it was sent.
-/
import PeerChat.Distribution.FirstUse
import PeerChat.History.ChunkEntries
import PeerChat.History.StorageMessages
import PeerChat.Membership.Gossip

namespace PeerChat.Membership

open Lib JsonText
open FirstUse (b64decode b64encode b64decode_b64encode b64encode_lt isDiscoveryMessage discoveryTypePrefix)
open History (PyError Decoding item itemD isTruthy isHashable bind_eq_ok item_eq_ok)

/-! ## Events as they come in -/

def EventType.all : List EventType :=
  [.joinRequested, .joinAccepted, .joinRejected, .leaveRequested, .leaveConfirmed, .heartbeat, .disconnectSuspected,
    .disconnectTimeout, .reconnected, .historyBackfillStarted, .historyBackfillComplete]

/-- `EventType(value)`. -/
def typeOf : Doc → Except PyError EventType
  | .str s =>
    match EventType.all.find? fun t => codePoints t.value = s with
    | some t => .ok t
    | none => .error .valueError
  | _ => .error .valueError

/-- `base64.b64decode(x) if x else None`. -/
def decodeKey (x : Doc) : Except PyError (Option Bytes) :=
  if isTruthy x then
    match x with
    | .str s =>
      match b64decode s with
      | some key => .ok (some key)
      | none => .error .valueError
    | _ => .error .typeError
  else .ok none

/-- It can be compared with a number. -/
def isOrdered : Doc → Bool
  | .num _ | .bool _ => true
  | .null | .str _ | .arr _ | .obj _ => false

/-- A `MembershipEvent` that `from_dict` has made. -/
structure RemoteEvent where
  event : MembershipEvent
  /-- The id that gossip is deduplicated by. -/
  id : String
  termOrdered : Bool
  userHashes : Bool
  deriving DecidableEq

section

variable (D : Decoding)

/-- A field that is declared an integer. -/
def intOf : Doc → Int
  | .bool b => if b then 1 else 0
  | x => (int? x).getD (D.time x)

/-- A field that is declared a text or `None`. -/
def optionOf : Doc → Option String
  | .null => none
  | x => some (D.textOf x)

/-- A value in an f-string. -/
def formatted (x : Doc) : String :=
  match int? x with
  | some n => toString n
  | none => D.textOf x

/-- The id of the event with these fields. -/
def dedupId (l : List (CodePoints × Doc)) (t : EventType) : String :=
  let originator := itemD l "originator" .null
  let user := itemD l "user_id" .null
  formatted D (if isTruthy originator then originator else user) ++ ":" ++ formatted D (itemD l "seq_no" .null) ++
    ":" ++ t.value ++ ":" ++ formatted D user

/-- `MembershipEvent.from_dict`. -/
def eventFromDict : Doc → Except PyError RemoteEvent
  | .obj l => do
    let publicKey ← decodeKey (itemD l "public_key_b64" .null)
    let seqNo ← item l "seq_no"
    let roomId ← item l "room_id"
    let userId ← item l "user_id"
    let eventType ← typeOf (← item l "event_type")
    let timestamp ← item l "timestamp"
    let membershipVersion ← item l "membership_version"
    let source ← item l "source"
    let term ← item l "term"
    .ok {
      event := {
        seqNo := intOf D seqNo
        roomId := D.textOf roomId
        userId := D.textOf userId
        eventType
        timestamp := (D.floats.float timestamp).getD (D.time timestamp)
        membershipVersion := intOf D membershipVersion
        source := D.textOf source
        term := intOf D term
        traceId := optionOf D (itemD l "trace_id" .null)
        displayName := D.textOf (itemD l "display_name" (.str []))
        originator := optionOf D (itemD l "originator" .null)
        publicKey }
      id := dedupId D l eventType
      termOrdered := isOrdered term
      userHashes := isHashable userId }
  | _ => .error .attributeError

/-- `[MembershipEvent.from_dict(d) for d in …]`. -/
def eventsFromDicts : List Doc → Except PyError (List RemoteEvent)
  | [] => .ok []
  | d :: ds => do
    let r ← eventFromDict D d
    let rs ← eventsFromDicts ds
    .ok (r :: rs)

end

/-- What a loop over it goes over. -/
def iterate : Doc → Except PyError (List Doc)
  | .arr ds => .ok ds
  | .str s => .ok (s.map fun c => .str [c])
  | .obj l => .ok ((History.mapping l).keys.map .str)
  | .null | .bool _ | .num _ => .error .typeError

/-! ## Envelopes -/

/-- The subtypes of the envelopes. -/
inductive Kind
  | joinRequest
  | joinResponse
  | gossip
  | heartbeat
  deriving DecidableEq, Repr

def Kind.subtype : Kind → String
  | .joinRequest => "discovery_join_request"
  | .joinResponse => "discovery_join_response"
  | .gossip => "discovery_gossip"
  | .heartbeat => "discovery_heartbeat"

/-- The handler that a subtype is dispatched to. -/
def kindOf (s : CodePoints) : Option Kind :=
  [Kind.joinRequest, .joinResponse, .gossip, .heartbeat].find? fun k => codePoints k.subtype = s

/-- What `decode_discovery_envelope` returns. -/
structure Envelope where
  subtype : CodePoints
  publicKey : Bytes
  payload : List (CodePoints × Doc)

/-- `decode_discovery_envelope`; `none` for a `ProtocolError`. -/
def decodeEnvelope (D : Decoding) (content : String) : Option Envelope :=
  match D.limit content.toList, loads content.toList with
  | none, some (.obj l) =>
    match get? l (codePoints "type"), itemD l "payload" (.obj []) with
    | some (.str subtype), .obj payload =>
      if codePoints discoveryTypePrefix <+: subtype then
        match decodeKey (itemD l "sender_public_key_pem_b64" (.str [])) with
        | .ok key => some ⟨subtype, key.getD [], payload⟩
        | .error _ => none
      else none
    | _, _ => none
  | _, _ => none

/-- A text is decoded as it is, and what else is accepted is no key. -/
theorem getD_of_decodeKey {x : Doc} {key : Option Bytes} (h : decodeKey x = .ok key) :
    (match some x with | some (.str s) => b64decode s | _ => none).getD [] = key.getD [] := by
  unfold decodeKey at h
  cases x with
  | str s =>
    cases s with
    | nil =>
      cases h
      rfl
    | cons n s =>
      simp only [isTruthy, List.isEmpty_cons, Bool.not_false, if_true] at h
      dsimp only
      split at h
      · next heq =>
        cases h
        rw [heq]
      · cases h
  | null | bool _ | num _ | arr _ | obj _ =>
    split at h <;> cases h
    rfl

/-- The hook that registers a key on first use reads the same key. -/
theorem publicKey_decodeEnvelope {D : Decoding} {content : String} {env : Envelope}
    (h : decodeEnvelope D content = some env) : (FirstUse.decodeDiscoveryEnvelope content).getD [] = env.publicKey := by
  unfold decodeEnvelope at h
  split at h
  · next l _ hloads =>
    split at h
    · next subtype payload htype hpayload =>
      split at h
      · next hprefix =>
        have hpayload' : (get? l (codePoints "payload")).getD (.obj []) = .obj payload := hpayload
        simp only [FirstUse.decodeDiscoveryEnvelope, hloads, htype, hpayload', if_pos hprefix]
        split at h
        · next key hkey =>
          cases h
          unfold itemD at hkey
          cases hget : get? l (codePoints "sender_public_key_pem_b64") with
          | none =>
            rw [hget] at hkey
            cases hkey
            rfl
          | some x =>
            rw [hget] at hkey
            exact getD_of_decodeKey hkey
        · cases h
      · cases h
    · cases h
  · cases h

/-- The envelope of a discovery message. -/
def received (D : Decoding) (content : String) : Option Envelope :=
  if isDiscoveryMessage content then decodeEnvelope D content else none

/-! ## Well-typed events -/

def isText : Doc → Bool
  | .str _ => true
  | .null | .bool _ | .num _ | .arr _ | .obj _ => false

def isNumeral : Doc → Bool
  | .num _ => true
  | .null | .bool _ | .str _ | .arr _ | .obj _ => false

/-- `None` or a text. -/
def isOptional : Doc → Bool
  | .null | .str _ => true
  | .bool _ | .num _ | .arr _ | .obj _ => false

/-- The fields that `from_dict` takes by their name alone. -/
def requiredFields : List String :=
  ["seq_no", "room_id", "user_id", "event_type", "timestamp", "membership_version", "source", "term"]

/-- `from_dict` makes an event of it: an object with every field that is
required, a known type, and a key that is falsy or base64. -/
def decodes : Doc → Bool
  | .obj l =>
    (decodeKey (itemD l "public_key_b64" .null)).isOk &&
      (requiredFields.all fun name => (get? l (codePoints name)).isSome) &&
      (typeOf (itemD l "event_type" .null)).isOk
  | _ => false

/-- The fields have the types that `MembershipEvent` declares. -/
def hasTypes (l : List (CodePoints × Doc)) : Bool :=
  (["seq_no", "membership_version", "term"].all fun name => (int? (itemD l name .null)).isSome) &&
    (["room_id", "user_id", "source"].all fun name => isText (itemD l name .null)) &&
    isNumeral (itemD l "timestamp" .null) && isText (itemD l "display_name" (.str [])) &&
    (["trace_id", "originator", "public_key_b64"].all fun name => isOptional (itemD l name .null))

/-- An event as it should come in. -/
def wellTyped : Doc → Bool
  | .obj l => decodes (.obj l) && hasTypes l
  | _ => false

/-- Its term can be compared with a number. -/
def termOrdered : Doc → Bool
  | .obj l => isOrdered (itemD l "term" .null)
  | _ => false

/-! ## Decoding -/

section

variable {D : Decoding} {l : List (CodePoints × Doc)} {d : Doc} {r : RemoteEvent}

theorem itemD_of_get? {name : String} {x : Doc} (h : get? l (codePoints name) = some x) (y : Doc) :
    itemD l name y = x := by
  rw [itemD, h]
  rfl

theorem exists_of_isOk {α : Type} {x : Except PyError α} (h : x.isOk = true) : ∃ a, x = .ok a := by
  cases x with
  | ok a => exact ⟨a, rfl⟩
  | error e => cases h

/-- What `from_dict` makes of an object. -/
theorem eventFromDict_eq_ok (h : eventFromDict D d = .ok r) : decodes d = true ∧ termOrdered d = r.termOrdered ∧
    ∃ l, d = .obj l ∧ typeOf (itemD l "event_type" .null) = .ok r.event.eventType ∧
      r.id = dedupId D l r.event.eventType ∧ r.userHashes = isHashable (itemD l "user_id" .null) := by
  cases d with
  | obj l =>
    simp only [eventFromDict, bind_eq_ok, item_eq_ok] at h
    obtain ⟨key, hkey, seqNo, hseq, room, hroom, user, huser, type, htype, t, ht, time, htime, version, hversion,
      source, hsource, term, hterm, h⟩ := h
    cases h
    have htype' : typeOf (itemD l "event_type" .null) = .ok t := by rw [itemD_of_get? htype, ht]
    refine ⟨?_, ?_, l, rfl, htype', rfl, ?_⟩
    · simp [decodes, requiredFields, hkey, hseq, hroom, huser, htype, htime, hversion, hsource, hterm, htype',
        Except.isOk, Except.toBool]
    · rw [termOrdered, itemD_of_get? hterm]
    · rw [itemD_of_get? huser]
  | null | bool _ | num _ | str _ | arr _ => cases h

/-- `from_dict` raises on nothing else. -/
theorem eventFromDict_of_decodes (h : decodes d = true) : ∃ r, eventFromDict D d = .ok r := by
  cases d with
  | obj l =>
    simp only [decodes, requiredFields, Bool.and_eq_true, List.all_cons, List.all_nil, Option.isSome_iff_exists,
      and_true] at h
    obtain ⟨⟨hkey, ⟨_, hseq⟩, ⟨_, hroom⟩, ⟨_, huser⟩, ⟨type, htype⟩, ⟨_, htime⟩, ⟨_, hversion⟩, ⟨_, hsource⟩,
      _, hterm⟩, ht⟩ := h
    rw [itemD_of_get? htype] at ht
    obtain ⟨key, hkey⟩ := exists_of_isOk hkey
    obtain ⟨t, ht⟩ := exists_of_isOk ht
    simp [eventFromDict, bind_eq_ok, item_eq_ok, hkey, hseq, hroom, huser, htype, ht, htime, hversion, hsource, hterm]
  | null | bool _ | num _ | str _ | arr _ => cases h

/-- An event of the right types is applied. -/
theorem eventFromDict_wellTyped (h : wellTyped d = true) (hr : eventFromDict D d = .ok r) :
    r.termOrdered = true ∧ r.userHashes = true := by
  obtain ⟨-, hterm, l, rfl, -, -, huser⟩ := eventFromDict_eq_ok hr
  simp only [wellTyped, hasTypes, Bool.and_eq_true, List.all_cons, List.all_nil] at h
  obtain ⟨-, ⟨⟨⟨⟨-, -, hint, -⟩, -, htext, -⟩, -⟩, -⟩, -⟩ := h
  rw [← hterm, huser, termOrdered]
  constructor
  · cases hx : itemD l "term" .null with
    | num literal => rfl
    | null | bool _ | str _ | arr _ | obj _ =>
      rw [hx] at hint
      cases hint
  · cases hx : itemD l "user_id" .null with
    | str s => rfl
    | null | bool _ | num _ | arr _ | obj _ =>
      rw [hx] at htext
      cases htext

theorem eventsFromDicts_isOk : ∀ {ds : List Doc}, (∃ rs, eventsFromDicts D ds = .ok rs) ↔ ∀ d ∈ ds, decodes d = true
  | [] => by simp [eventsFromDicts]
  | d :: ds => by
    have ih : (∃ rs, eventsFromDicts D ds = .ok rs) ↔ ∀ d ∈ ds, decodes d = true := eventsFromDicts_isOk
    rw [List.forall_mem_cons, ← ih]
    simp only [eventsFromDicts, bind_eq_ok, Except.ok.injEq]
    constructor
    · rintro ⟨rs, r, hr, rs', hrs, -⟩
      exact ⟨(eventFromDict_eq_ok hr).1, rs', hrs⟩
    · rintro ⟨hd, rs, hrs⟩
      obtain ⟨r, hr⟩ := eventFromDict_of_decodes hd
      exact ⟨r :: rs, r, hr, rs, hrs, rfl⟩

/-- What is no list has nothing in it that is decoded. -/
theorem iterate_of_decodes {x : Doc} (h : iterate x = .ok (d :: ds)) (hd : decodes d = true) : x = .arr (d :: ds) := by
  cases x with
  | arr l =>
    cases h
    rfl
  | str s =>
    cases s with
    | nil => cases h
    | cons c s =>
      cases h
      cases hd
  | obj l =>
    simp only [iterate, Except.ok.injEq] at h
    cases hk : (History.mapping l).keys with
    | nil => simp [hk] at h
    | cons k ks =>
      rw [hk] at h
      cases h
      cases hd
  | null | bool _ | num _ => cases h

end

/-! ## What a node sends -/

def optionDoc : Option String → Doc
  | none => .null
  | some s => .str (codePoints s)

/-- The fields that `to_dict` always writes. -/
def MembershipEvent.fields (F : FloatText) (e : MembershipEvent) : List (String × Doc) :=
  [("seq_no", ofInt e.seqNo), ("room_id", .str (codePoints e.roomId)), ("user_id", .str (codePoints e.userId)),
    ("event_type", .str (codePoints e.eventType.value)), ("timestamp", .num (F.repr e.timestamp)),
    ("membership_version", ofInt e.membershipVersion), ("source", .str (codePoints e.source)),
    ("term", ofInt e.term), ("trace_id", optionDoc e.traceId), ("display_name", .str (codePoints e.displayName)),
    ("originator", optionDoc e.originator)]

/-- `to_dict`. -/
def MembershipEvent.toDict (F : FloatText) (e : MembershipEvent) : List (CodePoints × Doc) :=
  ((e.fields F).map fun p => (codePoints p.1, p.2)) ++
    (e.publicKey.map fun key => (codePoints "public_key_b64", .str (b64encode key))).toList

/-- The members of an envelope. -/
def envelopeMembers (subtype : String) (publicKey : Bytes) (payload : List (CodePoints × Doc)) :
    List (CodePoints × Doc) :=
  [(codePoints "type", .str (codePoints subtype)),
    (codePoints "sender_public_key_pem_b64", .str (b64encode publicKey)), (codePoints "payload", .obj payload)]

/-- `encode_discovery_envelope`, for a subtype with the prefix. -/
def encodeEnvelope (subtype : String) (publicKey : Bytes) (payload : List (CodePoints × Doc)) : String :=
  String.ofList ((Doc.obj (envelopeMembers subtype publicKey payload)).text [' '])

/-- The content that `_gossip` broadcasts. -/
def gossipContent (F : FloatText) (publicKey : Bytes) (e : MembershipEvent) : String :=
  encodeEnvelope Kind.gossip.subtype publicKey [(codePoints "event", .obj (e.toDict F))]

theorem typeOf_value (t : EventType) : typeOf (.str (codePoints t.value)) = .ok t := by
  cases t <;> decide +kernel

theorem decodeKey_b64encode (key : Bytes) :
    decodeKey (.str (b64encode key)) = .ok ((some key).filter (!·.isEmpty)) := by
  cases key with
  | nil => rfl
  | cons b key =>
    have hne : (b64encode (b :: key)).isEmpty = false := by
      rcases key with _ | ⟨c, _ | ⟨d, key⟩⟩ <;> rfl
    simp [decodeKey, isTruthy, hne, b64decode_b64encode, Option.filter]

theorem textOf_codePoints (D : Decoding) (s : String) : D.textOf (.str (codePoints s)) = s := by
  rw [Decoding.textOf, string?_codePoints]
  rfl

theorem optionOf_optionDoc (D : Decoding) (o : Option String) : optionOf D (optionDoc o) = o := by
  cases o with
  | none => rfl
  | some s => exact congrArg some (textOf_codePoints D s)

theorem intOf_ofInt (D : Decoding) (n : Int) : intOf D (ofInt n) = n := by
  have hnum : intOf D (ofInt n) = (int? (ofInt n)).getD (D.time (ofInt n)) := rfl
  rw [hnum, int?_ofInt, Option.getD_some]

theorem formatted_codePoints (D : Decoding) (s : String) : formatted D (.str (codePoints s)) = s :=
  textOf_codePoints D s

theorem formatted_ofInt (D : Decoding) (n : Int) : formatted D (ofInt n) = toString n := by
  rw [formatted, int?_ofInt]

/-- The user stands in for an originator that is missing or empty. -/
theorem formatted_origin (D : Decoding) (e : MembershipEvent) :
    formatted D (if isTruthy (optionDoc e.originator) then optionDoc e.originator else .str (codePoints e.userId)) =
      e.origin := by
  unfold MembershipEvent.origin
  cases e.originator with
  | none => exact formatted_codePoints D e.userId
  | some o =>
    by_cases ho : o = ""
    · subst ho
      exact formatted_codePoints D e.userId
    · have hne : (codePoints o).isEmpty = false := by
        rw [← Bool.not_eq_true, List.isEmpty_iff]
        exact fun h => ho (codePoints_injective h)
      simp only [optionDoc, isTruthy, hne, Bool.not_false, if_true, if_neg ho]
      exact formatted_codePoints D o

theorem get?_toDict {F : FloatText} {e : MembershipEvent} {name : String} {x : Doc} (h : (name, x) ∈ e.fields F) :
    get? (e.toDict F) (codePoints name) = some x := by
  simp only [MembershipEvent.fields, List.mem_cons, List.not_mem_nil, or_false, Prod.mk.injEq] at h
  simp only [MembershipEvent.toDict, MembershipEvent.fields, List.map_cons, List.map_nil]
  cases e.publicKey <;>
    rcases h with ⟨rfl, rfl⟩ | ⟨rfl, rfl⟩ | ⟨rfl, rfl⟩ | ⟨rfl, rfl⟩ | ⟨rfl, rfl⟩ | ⟨rfl, rfl⟩ | ⟨rfl, rfl⟩ |
      ⟨rfl, rfl⟩ | ⟨rfl, rfl⟩ | ⟨rfl, rfl⟩ | ⟨rfl, rfl⟩ <;> rfl

theorem itemD_toDict {F : FloatText} {e : MembershipEvent} {name : String} {x y : Doc} (h : (name, x) ∈ e.fields F) :
    itemD (e.toDict F) name y = x :=
  itemD_of_get? (get?_toDict h) y

theorem decodeKey_toDict (F : FloatText) (e : MembershipEvent) :
    decodeKey (itemD (e.toDict F) "public_key_b64" .null) = .ok (e.publicKey.filter (!·.isEmpty)) := by
  simp only [MembershipEvent.toDict, MembershipEvent.fields, List.map_cons, List.map_nil]
  cases e.publicKey with
  | none => rfl
  | some key => exact decodeKey_b64encode key

/-- **An event is decoded as it was sent**, but for an empty key. -/
theorem eventFromDict_toDict (D : Decoding) (e : MembershipEvent) :
    eventFromDict D (.obj (e.toDict D.floats)) = .ok ⟨e.reread, eventId e, true, true⟩ := by
  have hitem : ∀ {name x}, (name, x) ∈ e.fields D.floats → item (e.toDict D.floats) name = .ok x :=
    fun h => item_eq_ok.2 (get?_toDict h)
  have htrace : itemD (e.toDict D.floats) "trace_id" .null = optionDoc e.traceId :=
    itemD_toDict (by simp [MembershipEvent.fields])
  have hname : itemD (e.toDict D.floats) "display_name" (.str []) = .str (codePoints e.displayName) :=
    itemD_toDict (by simp [MembershipEvent.fields])
  have horiginator : itemD (e.toDict D.floats) "originator" .null = optionDoc e.originator :=
    itemD_toDict (by simp [MembershipEvent.fields])
  have huser : itemD (e.toDict D.floats) "user_id" .null = .str (codePoints e.userId) :=
    itemD_toDict (by simp [MembershipEvent.fields])
  have hseq : itemD (e.toDict D.floats) "seq_no" .null = ofInt e.seqNo :=
    itemD_toDict (by simp [MembershipEvent.fields])
  have hid : dedupId D (e.toDict D.floats) e.eventType = eventId e := by
    simp only [dedupId, horiginator, huser, hseq, formatted_origin, formatted_ofInt, formatted_codePoints, eventId]
  simp only [eventFromDict, bind_eq_ok]
  refine ⟨_, decodeKey_toDict _ e, ofInt e.seqNo, hitem (by simp [MembershipEvent.fields]), .str (codePoints e.roomId),
    hitem (by simp [MembershipEvent.fields]), .str (codePoints e.userId), hitem (by simp [MembershipEvent.fields]),
    .str (codePoints e.eventType.value), hitem (by simp [MembershipEvent.fields]), _, typeOf_value e.eventType,
    .num (D.floats.repr e.timestamp), hitem (by simp [MembershipEvent.fields]), ofInt e.membershipVersion,
    hitem (by simp [MembershipEvent.fields]), .str (codePoints e.source), hitem (by simp [MembershipEvent.fields]),
    ofInt e.term, hitem (by simp [MembershipEvent.fields]), ?_⟩
  simp only [htrace, hname, horiginator, hid, intOf_ofInt, textOf_codePoints, optionOf_optionDoc, D.floats.float_repr,
    Option.getD_some]
  rfl

theorem quote_type : quote (codePoints "type") = "\"type\"".toList := by decide +kernel

/-- A subtype is written with the prefix. -/
theorem quote_subtype (k : Kind) :
    ∃ rest, quote (codePoints k.subtype) = '"' :: (discoveryTypePrefix.toList ++ rest) := by
  cases k
  · exact ⟨"join_request\"".toList, by decide +kernel⟩
  · exact ⟨"join_response\"".toList, by decide +kernel⟩
  · exact ⟨"gossip\"".toList, by decide +kernel⟩
  · exact ⟨"heartbeat\"".toList, by decide +kernel⟩

/-- The text of an envelope begins with its subtype. -/
theorem toList_encodeEnvelope (subtype : String) (publicKey : Bytes) (payload : List (CodePoints × Doc)) :
    ∃ rest, (encodeEnvelope subtype publicKey payload).toList =
      '\x7b' :: (quote (codePoints "type") ++ ':' :: ' ' :: (quote (codePoints subtype) ++ rest)) := by
  rw [encodeEnvelope, String.toList_ofList]
  simp only [envelopeMembers, Doc.text, Doc.members, Doc.member, List.cons_append, List.nil_append, List.append_assoc]
  exact ⟨_, rfl⟩

theorem isDiscoveryMessage_encodeEnvelope (k : Kind) (publicKey : Bytes) (payload : List (CodePoints × Doc)) :
    isDiscoveryMessage (encodeEnvelope k.subtype publicKey payload) = true := by
  have hinfix : ("\"type\": \"" ++ discoveryTypePrefix).toList <:+:
      (encodeEnvelope k.subtype publicKey payload).toList := by
    obtain ⟨rest, hrest⟩ := toList_encodeEnvelope k.subtype publicKey payload
    obtain ⟨rest', hrest'⟩ := quote_subtype k
    have hhead : ("\"type\": \"" ++ discoveryTypePrefix).toList =
        "\"type\"".toList ++ ':' :: ' ' :: '"' :: discoveryTypePrefix.toList := by decide +kernel
    rw [hrest, quote_type, hrest', hhead]
    generalize "\"type\"".toList = name
    generalize discoveryTypePrefix.toList = stem
    exact ⟨['\x7b'], rest' ++ rest, by simp⟩
  generalize encodeEnvelope k.subtype publicKey payload = content at hinfix ⊢
  unfold isDiscoveryMessage
  rw [decide_eq_true hinfix, Bool.true_or]

/-- An envelope is decoded as it was sent. -/
theorem received_encodeEnvelope (D : Decoding) (k : Kind) (publicKey : Bytes) {payload : List (CodePoints × Doc)}
    (h : (Doc.obj payload).Written) (hlimit : D.limit (encodeEnvelope k.subtype publicKey payload).toList = none) :
    received D (encodeEnvelope k.subtype publicKey payload) =
      some ⟨codePoints k.subtype, publicKey, payload⟩ := by
  have hwritten : (Doc.obj (envelopeMembers k.subtype publicKey payload)).Written := by
    refine written_object fun p hp => ?_
    simp only [envelopeMembers, List.mem_cons, List.not_mem_nil, or_false] at hp
    rcases hp with rfl | rfl | rfl
    · exact ⟨⟨_, rfl⟩, written_text _⟩
    · exact ⟨⟨_, rfl⟩, .str fun n hn => .inl ((b64encode_lt publicKey n hn).trans (by omega))⟩
    · exact ⟨⟨_, rfl⟩, h⟩
  have hloads : loads (encodeEnvelope k.subtype publicKey payload).toList =
      some (.obj (envelopeMembers k.subtype publicKey payload)) := by
    rw [encodeEnvelope, String.toList_ofList]
    exact loads_text (by simp [isBlank]) hwritten
  have htype : get? (envelopeMembers k.subtype publicKey payload) (codePoints "type") =
      some (.str (codePoints k.subtype)) := rfl
  have hpayload : itemD (envelopeMembers k.subtype publicKey payload) "payload" (.obj []) = .obj payload := rfl
  have hkey : itemD (envelopeMembers k.subtype publicKey payload) "sender_public_key_pem_b64" (.str []) =
      .str (b64encode publicKey) := rfl
  have hprefix : codePoints discoveryTypePrefix <+: codePoints k.subtype := by cases k <;> decide
  have hsame : ((some publicKey).filter fun key : Bytes => !key.isEmpty).getD [] = publicKey := by
    cases publicKey <;> rfl
  simp only [received, isDiscoveryMessage_encodeEnvelope, if_true, decodeEnvelope, hlimit, hloads, htype,
    hpayload, hprefix, hkey, decodeKey_b64encode, hsame]

theorem written_toDict (F : FloatText) (e : MembershipEvent) : (Doc.obj (e.toDict F)).Written := by
  have hoption : ∀ o, (optionDoc o).Written := by
    rintro (_ | s)
    · exact .null
    · exact written_text s
  refine written_object fun q hq => ?_
  rcases List.mem_append.1 hq with hq | hq
  · obtain ⟨f, hf, rfl⟩ := List.mem_map.1 hq
    refine ⟨⟨f.1, rfl⟩, ?_⟩
    simp only [MembershipEvent.fields, List.mem_cons, List.not_mem_nil, or_false] at hf
    rcases hf with rfl | rfl | rfl | rfl | rfl | rfl | rfl | rfl | rfl | rfl | rfl
    · exact written_ofInt e.seqNo
    · exact written_text e.roomId
    · exact written_text e.userId
    · exact written_text e.eventType.value
    · exact .num (F.isNumber_repr e.timestamp)
    · exact written_ofInt e.membershipVersion
    · exact written_text e.source
    · exact written_ofInt e.term
    · exact hoption e.traceId
    · exact written_text e.displayName
    · exact hoption e.originator
  · obtain ⟨key, -, rfl⟩ := Option.map_eq_some_iff.1 (Option.mem_toList.1 hq)
    exact ⟨⟨_, rfl⟩, .str fun n hn => .inl ((b64encode_lt key n hn).trans (by omega))⟩

/-- What a node sends is not malformed. -/
theorem wellTyped_toDict (D : Decoding) (e : MembershipEvent) : wellTyped (.obj (e.toDict D.floats)) = true := by
  have hdecodes : decodes (.obj (e.toDict D.floats)) = true := (eventFromDict_eq_ok (eventFromDict_toDict D e)).1
  have hint : ∀ {name n}, (name, ofInt n) ∈ e.fields D.floats →
      (int? (itemD (e.toDict D.floats) name .null)).isSome = true := fun h => by
    rw [itemD_toDict h, int?_ofInt]
    rfl
  have htext : ∀ {name s y}, (name, .str s) ∈ e.fields D.floats → isText (itemD (e.toDict D.floats) name y) = true :=
    fun h => by
      rw [itemD_toDict h]
      rfl
  have hoption : ∀ {name o}, (name, optionDoc o) ∈ e.fields D.floats →
      isOptional (itemD (e.toDict D.floats) name .null) = true := @fun _ o h => by
    rw [itemD_toDict h]
    cases o <;> rfl
  have htime : isNumeral (itemD (e.toDict D.floats) "timestamp" .null) = true := by
    rw [itemD_toDict (x := .num (D.floats.repr e.timestamp)) (by simp [MembershipEvent.fields])]
    rfl
  have hkey : isOptional (itemD (e.toDict D.floats) "public_key_b64" .null) = true := by
    simp only [MembershipEvent.toDict, MembershipEvent.fields, List.map_cons, List.map_nil]
    cases e.publicKey <;> rfl
  simp only [wellTyped, hdecodes, hasTypes, htime, hkey, List.all_cons, List.all_nil, Bool.and_true, Bool.true_and,
    Bool.and_eq_true]
  refine ⟨⟨⟨⟨hint (n := e.seqNo) ?_, hint (n := e.membershipVersion) ?_, hint (n := e.term) ?_⟩,
    htext (s := codePoints e.roomId) ?_, htext (s := codePoints e.userId) ?_, htext (s := codePoints e.source) ?_⟩,
    htext (s := codePoints e.displayName) ?_⟩, hoption (o := e.traceId) ?_, hoption (o := e.originator) ?_⟩
  all_goals simp [MembershipEvent.fields]

end PeerChat.Membership
