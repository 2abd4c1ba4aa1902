/-
The dictionaries of events, members and snapshots (`to_dict` and `from_dict`
of `peer_discovery/membership/models.py`, `serialize` and `deserialize` of
`peer_discovery/membership/snapshot.py`).

`from_dict` does not look at types, so that what it makes has any value in
most of its fields. The encoder writes a key that is not `None`, and the
decoder takes one that is not empty: `codecs_roundtrip_iff`, what is decoded
is what was encoded exactly when no key is empty.
-/
import PeerChat.Membership.Envelope

namespace PeerChat.Membership

open Lib JsonText
open FirstUse (b64encode)
open History (PyError Decoding item itemD mapping isHashable bind_eq_ok item_eq_ok)

/-! ## What the decoders make -/

/-- A `MembershipEvent` with whatever its fields were given. -/
structure RawEvent where
  seqNo : Doc
  roomId : Doc
  userId : Doc
  eventType : EventType
  timestamp : Doc
  membershipVersion : Doc
  source : Doc
  term : Doc
  traceId : Doc
  displayName : Doc
  originator : Doc
  publicKey : Option Bytes

/-- A `MemberInfo` with whatever its fields were given. -/
structure RawMember where
  userId : Doc
  displayName : Doc
  state : MemberState
  joinedAt : Doc
  lastHeartbeat : Doc
  membershipVersion : Doc
  publicKey : Option Bytes

/-- A `MembershipSnapshot` with whatever its fields were given. The keys of
the members can be what the events have for a user. -/
structure RawSnapshot where
  roomId : Doc
  members : List (Doc × RawMember)
  version : Doc
  asOfSeqNo : Doc

/-- `MembershipEvent.from_dict`. -/
def RawEvent.fromDict : Doc → Except PyError RawEvent
  | .obj l => do
    let publicKey ← decodeKey (itemD l "public_key_b64" .null)
    let seqNo ← item l "seq_no"
    let roomId ← item l "room_id"
    let userId ← item l "user_id"
    let eventType ← typeOf (← item l "event_type")
    let timestamp ← item l "timestamp"
    let membershipVersion ← item l "membership_version"
    let source ← item l "source"
    let term ← item l "term"
    .ok {
      seqNo, roomId, userId, eventType, timestamp, membershipVersion, source, term
      traceId := itemD l "trace_id" .null
      displayName := itemD l "display_name" (.str [])
      originator := itemD l "originator" .null
      publicKey }
  | _ => .error .attributeError

def MemberState.all : List MemberState :=
  [.joining, .backfilling, .active, .suspected, .disconnected, .leaving, .left]

/-- `MemberState.value`. -/
def MemberState.value : MemberState → String
  | .joining => "JOINING"
  | .backfilling => "BACKFILLING"
  | .active => "ACTIVE"
  | .suspected => "SUSPECTED"
  | .disconnected => "DISCONNECTED"
  | .leaving => "LEAVING"
  | .left => "LEFT"

/-- `MemberState(value)`. -/
def memberStateOf : Doc → Except PyError MemberState
  | .str s =>
    match MemberState.all.find? fun t => codePoints t.value = s with
    | some t => .ok t
    | none => .error .valueError
  | _ => .error .valueError

/-- `MemberInfo.from_dict`. -/
def RawMember.fromDict : Doc → Except PyError RawMember
  | .obj l => do
    let publicKey ← decodeKey (itemD l "public_key_b64" .null)
    let userId ← item l "user_id"
    let displayName ← item l "display_name"
    let state ← memberStateOf (← item l "state")
    let joinedAt ← item l "joined_at"
    let lastHeartbeat ← item l "last_heartbeat"
    let membershipVersion ← item l "membership_version"
    .ok { userId, displayName, state, joinedAt, lastHeartbeat, membershipVersion, publicKey }
  | _ => .error .attributeError

/-- `data[name]`. -/
def subscript : Doc → String → Except PyError Doc
  | .obj l, name => item l name
  | _, _ => .error .typeError

/-- `data.items()`. -/
def itemsOf : Doc → Except PyError (List (CodePoints × Doc))
  | .obj l => .ok (mapping l).items
  | _ => .error .attributeError

/-- The members of `deserialize`. -/
def membersFromDicts : List (CodePoints × Doc) → Except PyError (List (Doc × RawMember))
  | [] => .ok []
  | (uid, d) :: l => do
    let m ← RawMember.fromDict d
    let ms ← membersFromDicts l
    .ok ((.str uid, m) :: ms)

/-- `deserialize`. -/
def RawSnapshot.deserialize (data : Doc) : Except PyError RawSnapshot := do
  let roomId ← subscript data "room_id"
  let version ← subscript data "version"
  let asOfSeqNo ← subscript data "as_of_seq_no"
  let members ← membersFromDicts (← itemsOf (← subscript data "members"))
  .ok { roomId, members, version, asOfSeqNo }

/-! ## The encoders -/

section

variable (F : FloatText)

/-- The fields that `MemberInfo.to_dict` always writes. -/
def MemberInfo.fields (m : MemberInfo) : List (String × Doc) :=
  [("user_id", .str (codePoints m.userId)), ("display_name", .str (codePoints m.displayName)),
    ("state", .str (codePoints m.state.value)), ("joined_at", .num (F.repr m.joinedAt)),
    ("last_heartbeat", .num (F.repr m.lastHeartbeat)), ("membership_version", ofInt m.membershipVersion)]

/-- `MemberInfo.to_dict`. -/
def MemberInfo.toDict (m : MemberInfo) : List (CodePoints × Doc) :=
  ((m.fields F).map fun p => (codePoints p.1, p.2)) ++
    (m.publicKey.map fun key => (codePoints "public_key_b64", .str (b64encode key))).toList

/-- `serialize`. -/
def Snapshot.serialize (s : Snapshot) : List (CodePoints × Doc) :=
  [(codePoints "room_id", .str (codePoints s.roomId)), (codePoints "version", ofInt s.version),
    (codePoints "as_of_seq_no", ofInt s.asOfSeqNo),
    (codePoints "members", .obj (s.members.items.map fun p => (codePoints p.1, .obj (p.2.toDict F))))]

/-! ## Values of the declared types -/

/-- An event, its fields as the values that they are. -/
def MembershipEvent.raw (e : MembershipEvent) : RawEvent where
  seqNo := ofInt e.seqNo
  roomId := .str (codePoints e.roomId)
  userId := .str (codePoints e.userId)
  eventType := e.eventType
  timestamp := .num (F.repr e.timestamp)
  membershipVersion := ofInt e.membershipVersion
  source := .str (codePoints e.source)
  term := ofInt e.term
  traceId := optionDoc e.traceId
  displayName := .str (codePoints e.displayName)
  originator := optionDoc e.originator
  publicKey := e.publicKey

def MemberInfo.raw (m : MemberInfo) : RawMember where
  userId := .str (codePoints m.userId)
  displayName := .str (codePoints m.displayName)
  state := m.state
  joinedAt := .num (F.repr m.joinedAt)
  lastHeartbeat := .num (F.repr m.lastHeartbeat)
  membershipVersion := ofInt m.membershipVersion
  publicKey := m.publicKey

def Snapshot.raw (s : Snapshot) : RawSnapshot where
  roomId := .str (codePoints s.roomId)
  members := s.members.items.map fun p => (.str (codePoints p.1), p.2.raw F)
  version := ofInt s.version
  asOfSeqNo := ofInt s.asOfSeqNo

end

variable {F : FloatText} {e e' : MembershipEvent} {m m' : MemberInfo} {s s' : Snapshot}

/-- The event that the handlers of gossip and of join responses go on with. -/
def RawEvent.remote (D : Decoding) (r : RawEvent) : RemoteEvent where
  event := {
    seqNo := intOf D r.seqNo
    roomId := D.textOf r.roomId
    userId := D.textOf r.userId
    eventType := r.eventType
    timestamp := (D.floats.float r.timestamp).getD (D.time r.timestamp)
    membershipVersion := intOf D r.membershipVersion
    source := D.textOf r.source
    term := intOf D r.term
    traceId := optionOf D r.traceId
    displayName := D.textOf r.displayName
    originator := optionOf D r.originator
    publicKey := r.publicKey }
  id := formatted D (if History.isTruthy r.originator then r.originator else r.userId) ++ ":" ++ formatted D r.seqNo ++
    ":" ++ r.eventType.value ++ ":" ++ formatted D r.userId
  termOrdered := isOrdered r.term
  userHashes := isHashable r.userId

/-- Both are made by one `from_dict`. -/
theorem eventFromDict_eq_raw (D : Decoding) (d : Doc) :
    eventFromDict D d = (RawEvent.fromDict d).map (RawEvent.remote D) := by
  have map_bind {α β γ : Type} (x : Except PyError α) (f : α → Except PyError β) (g : β → γ) :
      (x >>= f).map g = x >>= fun a => (f a).map g := by
    cases x <;> rfl
  have congr_bind {α β : Type} {x : Except PyError α} {f g : α → Except PyError β} (h : ∀ a, x = .ok a → f a = g a) :
      x >>= f = x >>= g := by
    cases x with
    | error e => rfl
    | ok a => exact h a rfl
  cases d with
  | obj l =>
    simp only [eventFromDict, RawEvent.fromDict, map_bind]
    refine congr_bind fun key _ => congr_bind fun seqNo hseq => congr_bind fun room _ => congr_bind fun user huser =>
      congr_bind fun type _ => congr_bind fun t _ => congr_bind fun time _ => congr_bind fun version _ =>
      congr_bind fun source _ => congr_bind fun term _ => ?_
    rw [dedupId, itemD_of_get? (item_eq_ok.1 hseq), itemD_of_get? (item_eq_ok.1 huser)]
    rfl
  | null | bool _ | num _ | str _ | arr _ => rfl

/-! ## Round trips -/

theorem RawEvent.fromDict_toDict (F : FloatText) (e : MembershipEvent) :
    RawEvent.fromDict (.obj (e.toDict F)) = .ok (e.reread.raw F) := by
  have hitem : ∀ {name x}, (name, x) ∈ e.fields F → item (e.toDict F) name = .ok x :=
    fun h => item_eq_ok.2 (get?_toDict h)
  have htrace : itemD (e.toDict F) "trace_id" .null = optionDoc e.traceId :=
    itemD_toDict (by simp [MembershipEvent.fields])
  have hname : itemD (e.toDict F) "display_name" (.str []) = .str (codePoints e.displayName) :=
    itemD_toDict (by simp [MembershipEvent.fields])
  have horiginator : itemD (e.toDict F) "originator" .null = optionDoc e.originator :=
    itemD_toDict (by simp [MembershipEvent.fields])
  simp only [RawEvent.fromDict, bind_eq_ok]
  refine ⟨_, decodeKey_toDict _ e, ofInt e.seqNo, hitem (by simp [MembershipEvent.fields]), .str (codePoints e.roomId),
    hitem (by simp [MembershipEvent.fields]), .str (codePoints e.userId), hitem (by simp [MembershipEvent.fields]),
    .str (codePoints e.eventType.value), hitem (by simp [MembershipEvent.fields]), _, typeOf_value e.eventType,
    .num (F.repr e.timestamp), hitem (by simp [MembershipEvent.fields]), ofInt e.membershipVersion,
    hitem (by simp [MembershipEvent.fields]), .str (codePoints e.source), hitem (by simp [MembershipEvent.fields]),
    ofInt e.term, hitem (by simp [MembershipEvent.fields]), ?_⟩
  rw [htrace, hname, horiginator]
  rfl

theorem memberStateOf_value (t : MemberState) : memberStateOf (.str (codePoints t.value)) = .ok t := by
  cases t <;> decide +kernel

theorem get?_memberToDict {name : String} {x : Doc} (h : (name, x) ∈ m.fields F) :
    get? (m.toDict F) (codePoints name) = some x := by
  simp only [MemberInfo.fields, List.mem_cons, List.not_mem_nil, or_false, Prod.mk.injEq] at h
  simp only [MemberInfo.toDict, MemberInfo.fields, List.map_cons, List.map_nil]
  cases m.publicKey <;>
    rcases h with ⟨rfl, rfl⟩ | ⟨rfl, rfl⟩ | ⟨rfl, rfl⟩ | ⟨rfl, rfl⟩ | ⟨rfl, rfl⟩ | ⟨rfl, rfl⟩ <;> rfl

theorem RawMember.fromDict_toDict (F : FloatText) (m : MemberInfo) :
    RawMember.fromDict (.obj (m.toDict F)) = .ok (m.reread.raw F) := by
  have hitem : ∀ {name x}, (name, x) ∈ m.fields F → item (m.toDict F) name = .ok x :=
    fun h => item_eq_ok.2 (get?_memberToDict h)
  have hkey : decodeKey (itemD (m.toDict F) "public_key_b64" .null) = .ok (m.publicKey.filter (!·.isEmpty)) := by
    simp only [MemberInfo.toDict, MemberInfo.fields, List.map_cons, List.map_nil]
    cases m.publicKey with
    | none => rfl
    | some key => exact decodeKey_b64encode key
  simp only [RawMember.fromDict, bind_eq_ok]
  refine ⟨_, hkey, .str (codePoints m.userId), hitem (by simp [MemberInfo.fields]), .str (codePoints m.displayName),
    hitem (by simp [MemberInfo.fields]), .str (codePoints m.state.value), hitem (by simp [MemberInfo.fields]), _,
    memberStateOf_value m.state, .num (F.repr m.joinedAt), hitem (by simp [MemberInfo.fields]),
    .num (F.repr m.lastHeartbeat), hitem (by simp [MemberInfo.fields]), ofInt m.membershipVersion,
    hitem (by simp [MemberInfo.fields]), rfl⟩

theorem membersFromDicts_toDict (F : FloatText) (l : List (String × MemberInfo)) :
    membersFromDicts (l.map fun p => (codePoints p.1, .obj (p.2.toDict F))) =
      .ok (l.map fun p => (.str (codePoints p.1), p.2.reread.raw F)) := by
  induction l with
  | nil => rfl
  | cons p l ih =>
    simp only [List.map_cons, membersFromDicts, bind_eq_ok]
    exact ⟨_, RawMember.fromDict_toDict F p.2, _, ih, rfl⟩

/-- The keys of the members are the users. -/
theorem items_mapping_members (F : FloatText) (d : Dict String MemberInfo) :
    (mapping (d.items.map fun p => (codePoints p.1, .obj (p.2.toDict F)))).items =
      d.items.map fun p => (codePoints p.1, .obj (p.2.toDict F)) := by
  have hnodup : ((d.items.map fun p => (codePoints p.1, Doc.obj (p.2.toDict F))).map Prod.fst).Nodup := by
    have hkeys := d.nodup.map fun _ _ h => codePoints_injective h
    rw [List.map_map] at hkeys ⊢
    exact hkeys
  have hitems := Dict.items_rekey Function.injective_id
    (⟨d.items.map fun p => (codePoints p.1, Doc.obj (p.2.toDict F)), hnodup⟩ : Dict CodePoints Doc)
  exact hitems.trans (List.map_id _)

/-- **A snapshot is read as it was written**, but for empty keys. -/
theorem RawSnapshot.deserialize_serialize (F : FloatText) (s : Snapshot) :
    deserialize (.obj (s.serialize F)) = .ok (s.reread.raw F) := by
  have hmembers : itemsOf (.obj (s.members.items.map fun p => (codePoints p.1, .obj (p.2.toDict F)))) =
      .ok (s.members.items.map fun p => (codePoints p.1, .obj (p.2.toDict F))) :=
    congrArg Except.ok (items_mapping_members F s.members)
  simp only [deserialize, bind_eq_ok]
  refine ⟨.str (codePoints s.roomId), rfl, ofInt s.version, rfl, ofInt s.asOfSeqNo, rfl, _, rfl, _, hmembers, _,
    membersFromDicts_toDict F s.members.items, ?_⟩
  simp only [Snapshot.raw, Snapshot.reread, Dict.mapValues, List.map_map]
  rfl

/-! ## Empty keys -/

theorem filter_nonempty_eq_self {k : Option Bytes} : k.filter (!·.isEmpty) = k ↔ k ≠ some [] := by
  rcases k with _ | _ | ⟨b, k⟩ <;> simp [Option.filter]

theorem MembershipEvent.raw_reread_eq : e.reread.raw F = e.raw F ↔ e.publicKey ≠ some [] := by
  rw [← filter_nonempty_eq_self]
  exact ⟨fun h => congrArg RawEvent.publicKey h, fun h => by rw [show e.reread = e from by rw [reread, h]]⟩

theorem MemberInfo.raw_reread_eq : m.reread.raw F = m.raw F ↔ m.publicKey ≠ some [] := by
  rw [← filter_nonempty_eq_self]
  exact ⟨fun h => congrArg RawMember.publicKey h, fun h => by rw [show m.reread = m from by rw [reread, h]]⟩

theorem Snapshot.raw_reread_eq :
    s.reread.raw F = s.raw F ↔ ∀ u m, s.members.get? u = some m → m.publicKey ≠ some [] := by
  have hmembers : (s.reread.raw F).members =
      s.members.items.map fun p => (.str (codePoints p.1), p.2.reread.raw F) := by
    simp only [raw, reread, Dict.mapValues, List.map_map]
    rfl
  constructor
  · intro h u m hm
    have heq := hmembers.symm.trans (congrArg RawSnapshot.members h)
    have hpair := List.map_inj_left.1 heq (u, m) ((Dict.mem_items_iff _).2 hm)
    exact MemberInfo.raw_reread_eq.1 (Prod.mk.inj hpair).2
  · intro h
    have heq : (s.reread.raw F).members = (s.raw F).members := by
      rw [hmembers]
      refine List.map_congr_left fun p hp => ?_
      rw [MemberInfo.raw_reread_eq.2 (h p.1 p.2 ((Dict.mem_items_iff _).1 hp))]
    exact (RawSnapshot.mk.injEq ..).mpr ⟨rfl, heq, rfl, rfl⟩

/-- **The codecs lose an empty key and nothing else.** -/
theorem codecs_roundtrip_iff (F : FloatText) (e : MembershipEvent) (m : MemberInfo) (s : Snapshot) :
    (RawEvent.fromDict (.obj (e.toDict F)) = .ok (e.raw F) ↔ e.publicKey ≠ some []) ∧
    (RawMember.fromDict (.obj (m.toDict F)) = .ok (m.raw F) ↔ m.publicKey ≠ some []) ∧
    (RawSnapshot.deserialize (.obj (s.serialize F)) = .ok (s.raw F) ↔
      ∀ u m, s.members.get? u = some m → m.publicKey ≠ some []) := by
  rw [RawEvent.fromDict_toDict, RawMember.fromDict_toDict, RawSnapshot.deserialize_serialize, Except.ok.injEq,
    Except.ok.injEq, Except.ok.injEq]
  exact ⟨MembershipEvent.raw_reread_eq, MemberInfo.raw_reread_eq, Snapshot.raw_reread_eq⟩

/-- A join with an empty key. -/
def keylessJoin : MembershipEvent :=
  ⟨1, "room", "b:1", .joinAccepted, 0, 1, "coordinator", 1, none, "B", none, some []⟩

/-- The empty key of a member is read back as no key, in the event and in the
snapshot that it leads to. -/
theorem empty_key_is_lost :
    RawEvent.fromDict (.obj (keylessJoin.toDict .whole)) ≠ .ok (keylessJoin.raw .whole) ∧
    RawSnapshot.deserialize (.obj (((Snapshot.new "room").applyEvent keylessJoin).1.serialize .whole)) ≠
      .ok (((Snapshot.new "room").applyEvent keylessJoin).1.raw .whole) := by
  rw [RawEvent.fromDict_toDict, RawSnapshot.deserialize_serialize]
  constructor
  · intro h
    exact MembershipEvent.raw_reread_eq.1 (Except.ok.inj h) rfl
  · intro h
    exact Snapshot.raw_reread_eq.1 (Except.ok.inj h) "b:1" ⟨"b:1", "B", .joining, 0, 0, 1, some []⟩ (by decide) rfl

end PeerChat.Membership
