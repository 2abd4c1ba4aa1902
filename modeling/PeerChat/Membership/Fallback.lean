/-
Recovery from checkpoint files with any content (`recover` and
`_reconstruct`, `peer_discovery/membership/durability.py`).

A file that is no JSON, or lacks a field, is passed over for an older one.
One whose values have another shape raises a `TypeError` or an
`AttributeError`, which `recover` does not catch: `recover_falls_back_iff`, it
ends with the newest file that can be reconstructed exactly when no newer
one has such a value at the place where reconstructing it stops (`Misshapen`).
-/
import PeerChat.Lib.Json
import PeerChat.Membership.CheckpointFiles
import PeerChat.Membership.Codec
import Mathlib.Data.List.Lex

namespace PeerChat.Membership

open Lib JsonText
open FirstUse (b64encode_lt)
open History (PyError Limit item itemD mapping isHashable isTruthy bind_eq_ok item_eq_ok)

/-! ## Comparisons -/

/-- What reading a checkpoint depends on besides the files: floats, and the
limits of the interpreter that a text is beyond. -/
structure Interpreter where
  float64 : List Char → Float
  limit : List Char → Option Limit

/-- `<`, `<=` and `>`. -/
inductive Order
  | lt
  | le
  | gt
  deriving DecidableEq, Repr

def Order.numbers : Order → Number → Number → Bool
  | lt, x, y => x.lt y
  | le, x, y => x.le y
  | gt, x, y => y.lt x

def Order.texts : Order → CodePoints → CodePoints → Bool
  | lt, s, t => s < t
  | le, s, t => s ≤ t
  | gt, s, t => t < s

/-- Two lists of which one is the beginning of the other. -/
def Order.lengths : Order → Nat → Nat → Bool
  | lt, m, n => m < n
  | le, m, n => m ≤ n
  | gt, m, n => n < m

namespace Interpreter

variable (I : Interpreter)

def number? : Doc → Option Number
  | .bool b => some (.int (if b then 1 else 0))
  | .num literal =>
    some (match parseInt (String.ofList literal) with
      | some n => .int n
      | none => .float (I.float64 literal))
  | .null | .str _ | .arr _ | .obj _ => none

/-- The decoder has one object for every `NaN`. -/
def isNaN : Doc → Bool
  | .num literal => literal = Word.nan.chars
  | _ => false

mutual

/-- `a == b`. -/
def equal : Doc → Doc → Bool
  | .null, .null => true
  | .str s, .str t => s = t
  | .arr l, .arr m => equalItems l m
  | .obj l, .obj m => equalMembers l m && m.all fun p => (l.lookup p.1).isSome
  | a, b =>
    match I.number? a, I.number? b with
    | some x, some y => x.eq y
    | _, _ => false

def equalItems : List Doc → List Doc → Bool
  | [], [] => true
  | a :: l, b :: m => ((isNaN a && isNaN b) || equal a b) && equalItems l m
  | _, _ => false

/-- Of several members with one key the last counts. -/
def equalMembers : List (CodePoints × Doc) → List (CodePoints × Doc) → Bool
  | [], _ => true
  | (k, a) :: l, m =>
    ((l.lookup k).isSome || match get? m k with
      | some b => (isNaN a && isNaN b) || equal a b
      | none => false) && equalMembers l m

end

/-- `a is b or a == b`, as items of a list and keys are compared. -/
def same (a b : Doc) : Bool := (isNaN a && isNaN b) || I.equal a b

mutual

/-- A comparison of two values. -/
def compare (o : Order) : Doc → Doc → Except PyError Bool
  | .str s, .str t => .ok (o.texts s t)
  | .arr l, .arr m => compareItems o l m
  | a, b =>
    match I.number? a, I.number? b with
    | some x, some y => .ok (o.numbers x y)
    | _, _ => .error .typeError

def compareItems (o : Order) : List Doc → List Doc → Except PyError Bool
  | a :: l, b :: m => if I.same a b then compareItems o l m else compare o a b
  | l, m => .ok (o.lengths l.length m.length)

end

end Interpreter

/-! ## Reconstructing -/

/-- A `MembershipEventLog` with whatever its fields were given. -/
structure RawLog where
  roomId : String
  log : List RawEvent
  nextSeqNo : Doc
  currentTerm : Doc

namespace RawSnapshot

variable (I : Interpreter)

/-- `_members.get(user_id)`. -/
def memberOf (s : RawSnapshot) (userId : Doc) : Option RawMember :=
  (s.members.find? fun p => I.same p.1 userId).map Prod.snd

/-- `_members[user_id] = m`. -/
def setMember (s : RawSnapshot) (userId : Doc) (m : RawMember) : RawSnapshot :=
  if s.members.any fun p => I.same p.1 userId then
    { s with members := s.members.map fun p => if I.same p.1 userId then (p.1, m) else p }
  else { s with members := s.members ++ [(userId, m)] }

/-- An assignment to fields of `current`. -/
def update (s : RawSnapshot) (userId : Doc) (f : RawMember → RawMember) : RawSnapshot :=
  match s.memberOf I userId with
  | some m => s.setMember I userId (f m)
  | none => s

/-- `_dispatch`. -/
def dispatch (s : RawSnapshot) (event : RawEvent) : RawSnapshot :=
  let uid := event.userId
  let moved (state : MemberState) :=
    s.update I uid fun m => { m with state, membershipVersion := event.membershipVersion }
  match event.eventType with
  | .joinRequested | .joinRejected => s
  | .joinAccepted =>
    s.setMember I uid {
      userId := uid
      displayName := event.displayName
      state := .joining
      joinedAt := event.timestamp
      lastHeartbeat := event.timestamp
      membershipVersion := event.membershipVersion
      publicKey := event.publicKey }
  | .historyBackfillStarted => moved .backfilling
  | .historyBackfillComplete => moved .active
  | .leaveRequested => moved .leaving
  | .leaveConfirmed => moved .left
  | .heartbeat => s.update I uid fun m => { m with lastHeartbeat := event.timestamp }
  | .disconnectSuspected => moved .suspected
  | .disconnectTimeout => moved .disconnected
  | .reconnected =>
    s.update I uid fun m =>
      { m with state := .active, lastHeartbeat := event.timestamp, membershipVersion := event.membershipVersion }

/-- `apply_event`. -/
def applyEvent (s : RawSnapshot) (event : RawEvent) : Except PyError RawSnapshot := do
  if ← I.compare .le event.seqNo s.asOfSeqNo then .ok s
  else if !isHashable event.userId then .error .typeError
  else if !isTransitionValid event.eventType ((s.memberOf I event.userId).map (·.state)) then .ok s
  else .ok { s.dispatch I event with version := event.membershipVersion, asOfSeqNo := event.seqNo }

/-- The replay of `_reconstruct`. -/
def replay : List RawEvent → RawSnapshot → Except PyError RawSnapshot
  | [], s => .ok s
  | e :: es, s => do
    if ← I.compare .gt e.seqNo s.asOfSeqNo then replay es (← s.applyEvent I e) else replay es s

end RawSnapshot

section

variable (I : Interpreter)

/-- `[MembershipEvent.from_dict(d) for d in …]`. -/
def rawEvents : List Doc → Except PyError (List RawEvent)
  | [] => .ok []
  | d :: ds => do
    let r ← RawEvent.fromDict d
    let rs ← rawEvents ds
    .ok (r :: rs)

/-- In front of the first event that is not smaller. -/
def insertBySeqNo (e : RawEvent) : List RawEvent → Except PyError (List RawEvent)
  | [] => .ok [e]
  | x :: xs => do
    if ← I.compare .lt x.seqNo e.seqNo then
      let xs ← insertBySeqNo e xs
      .ok (x :: xs)
    else .ok (e :: x :: xs)

/-- `tail_events.sort(key=lambda e: e.seq_no)`. -/
def sortBySeqNo : List RawEvent → Except PyError (List RawEvent)
  | [] => .ok []
  | e :: es => do insertBySeqNo I e (← sortBySeqNo es)

/-- `_reconstruct`. -/
def reconstructDoc (roomId : String) (payload : Doc) : Except PyError (RawLog × RawSnapshot) := do
  let snap ← RawSnapshot.deserialize (← subscript payload "snapshot")
  let events ← rawEvents (← iterate (← subscript payload "log_tail"))
  let tailEvents ← sortBySeqNo I events
  let nextSeqNo ← subscript payload "next_seq_no"
  let currentTerm ← subscript payload "current_term"
  let snap ← snap.replay I tailEvents
  .ok (⟨roomId, tailEvents, nextSeqNo, currentTerm⟩, snap)

/-- The content of a file; `none` is one that does not decode as text. -/
abbrev Content := Option (List Char)

/-- `json.load`. -/
def loadContent : Content → Except PyError Doc
  | none => .error .valueError
  | some text =>
    match I.limit text, loads text with
    | some x, _ => .error x.error
    | none, some d => .ok d
    | none, none => .error .valueError

/-- The body of the `try` of `recover`. -/
def readCheckpoint (roomId : String) (c : Content) : Except PyError (RawLog × RawSnapshot) := do
  reconstructDoc I roomId (← loadContent I c)

end

/-- `except (json.JSONDecodeError, KeyError, ValueError)`. -/
def fallsBack : PyError → Bool
  | .keyError | .valueError => true
  | .typeError | .attributeError | .overflowError | .recursionError => false

/-- The loop of `recover`, over the contents of the files. -/
def recoverContents (I : Interpreter) (roomId : String) : List Content → Except PyError (Option (RawLog × RawSnapshot))
  | [] => .ok none
  | c :: cs =>
    match readCheckpoint I roomId c with
    | .ok state => .ok (some state)
    | .error e => if fallsBack e then recoverContents I roomId cs else .error e

/-- The contents of the checkpoints of a room, newest first. -/
def contentsOf (U : Digits) (dir : Dict String Content) (roomId : String) : List Content :=
  (listFiles U dir roomId).filterMap fun p => dir.get? p.2

/-- `recover`. -/
def recoverDir (U : Digits) (I : Interpreter) (dir : Dict String Content) (roomId : String) :
    Except PyError (Option (RawLog × RawSnapshot)) :=
  recoverContents I roomId (contentsOf U dir roomId)

/-- What recovery is for: the state of the newest file from which a log and a
snapshot can be reconstructed. -/
def newestState (U : Digits) (I : Interpreter) (dir : Dict String Content) (roomId : String) :
    Option (RawLog × RawSnapshot) :=
  (contentsOf U dir roomId).findSome? fun c => (readCheckpoint I roomId c).toOption

/-! ## Values of the wrong shape -/

/-- `from_dict` of an event or a member stops at its first field: it is no
object, or its key is neither falsy nor a text. -/
def isMisshapen : Doc → Bool
  | .obj l => isTruthy (itemD l "public_key_b64" .null) && !isText (itemD l "public_key_b64" .null)
  | _ => true

/-- The fields that `MemberInfo.from_dict` takes by their name alone. -/
def memberFields : List String :=
  ["user_id", "display_name", "state", "joined_at", "last_heartbeat", "membership_version"]

/-- `MemberInfo.from_dict` makes a member of it. -/
def decodesMember : Doc → Bool
  | .obj l =>
    (decodeKey (itemD l "public_key_b64" .null)).isOk &&
      (memberFields.all fun name => (get? l (codePoints name)).isSome) &&
      (memberStateOf (itemD l "state" .null)).isOk
  | _ => false

/-- Of the values that are not decoded the first one is misshapen. -/
def FirstMisshapen (decodes : Doc → Bool) (ds : List Doc) : Prop :=
  ∃ ds₁ d ds₂, ds = ds₁ ++ d :: ds₂ ∧ (∀ x ∈ ds₁, decodes x = true) ∧ isMisshapen d = true

/-- The value of `snapshot` is no object; or it has all its fields, and the
members are no object, or the first member that is not decoded is
misshapen. -/
def MisshapenSnapshot : Doc → Prop
  | .obj l => (∀ name ∈ ["room_id", "version", "as_of_seq_no"], (get? l (codePoints name)).isSome = true) ∧
    ∃ members, get? l (codePoints "members") = some members ∧
      ∀ ms, members = .obj ms → FirstMisshapen decodesMember ((mapping ms).items.map Prod.snd)
  | _ => True

/-- The value of `log_tail` is no list, text or object, or the first entry
that is not decoded is misshapen. -/
def MisshapenTail (tail : Doc) : Prop := ∀ ds, iterate tail = .ok ds → FirstMisshapen decodes ds

/-- An event whose number is greater than that of the snapshot cannot be
applied: its user is no key. Or the numbers cannot be compared. -/
def Inapplicable (I : Interpreter) (s : RawSnapshot) (e : RawEvent) : Prop :=
  I.compare .gt e.seqNo s.asOfSeqNo = .error .typeError ∨
    I.compare .gt e.seqNo s.asOfSeqNo = .ok true ∧ I.compare .le e.seqNo s.asOfSeqNo = .ok false ∧
      isHashable e.userId = false

/-- Payloads at which reconstructing stops with an error that `recover` does
not catch. -/
inductive Misshapen (I : Interpreter) : Doc → Prop
  /-- It is no object. -/
  | payload {d : Doc} : (∀ l, d ≠ .obj l) → Misshapen I d
  | snapshot {l : List (CodePoints × Doc)} {s : Doc} :
    get? l (codePoints "snapshot") = some s → MisshapenSnapshot s → Misshapen I (.obj l)
  | tail {l : List (CodePoints × Doc)} {s t : Doc} {snap : RawSnapshot} :
    get? l (codePoints "snapshot") = some s → RawSnapshot.deserialize s = .ok snap →
    get? l (codePoints "log_tail") = some t → MisshapenTail t → Misshapen I (.obj l)
  /-- The numbers of the events cannot be sorted. -/
  | order {l : List (CodePoints × Doc)} {s t : Doc} {snap : RawSnapshot} {ds : List Doc} {es : List RawEvent} :
    get? l (codePoints "snapshot") = some s → RawSnapshot.deserialize s = .ok snap →
    get? l (codePoints "log_tail") = some t → iterate t = .ok ds → rawEvents ds = .ok es →
    sortBySeqNo I es = .error .typeError → Misshapen I (.obj l)
  /-- All fields are there, and the event that comes after some others cannot
  be applied. -/
  | event {l : List (CodePoints × Doc)} {s t n c : Doc} {snap snap' : RawSnapshot} {ds : List Doc}
    {es es₁ es₂ : List RawEvent} {e : RawEvent} :
    get? l (codePoints "snapshot") = some s → RawSnapshot.deserialize s = .ok snap →
    get? l (codePoints "log_tail") = some t → iterate t = .ok ds → rawEvents ds = .ok es →
    sortBySeqNo I es = .ok (es₁ ++ e :: es₂) →
    get? l (codePoints "next_seq_no") = some n → get? l (codePoints "current_term") = some c →
    snap.replay I es₁ = .ok snap' → Inapplicable I snap' e → Misshapen I (.obj l)

/-- Files at which `recover` stops: JSON that is nested beyond the limit of
the interpreter, or a misshapen payload. -/
def MisshapenFile (I : Interpreter) (c : Content) : Prop :=
  ∃ text, c = some text ∧ (I.limit text = some .depth ∨
    I.limit text = none ∧ ∃ d, loads text = some d ∧ Misshapen I d)

/-! ## What escapes the handler -/

/-- It raises what `recover` does not catch. -/
def Escapes {α : Type} (x : Except PyError α) : Prop := ∃ e, x = .error e ∧ fallsBack e = false

section

variable {α β : Type} {I : Interpreter} {l : List (CodePoints × Doc)} {d : Doc}

@[simp] theorem escapes_ok (a : α) : ¬ Escapes (.ok a : Except PyError α) := by
  rintro ⟨e, he, -⟩
  cases he

@[simp] theorem escapes_error (e : PyError) : Escapes (.error e : Except PyError α) ↔ fallsBack e = false := by
  simp [Escapes]

theorem escapes_bind {x : Except PyError α} {f : α → Except PyError β} :
    Escapes (x >>= f) ↔ Escapes x ∨ ∃ a, x = .ok a ∧ Escapes (f a) := by
  cases x with
  | ok a => simp [Bind.bind, Except.bind]
  | error e => simp [Bind.bind, Except.bind]

@[simp] theorem escapes_item (l : List (CodePoints × Doc)) (name : String) : ¬ Escapes (item l name) := by
  unfold item
  split <;> simp [fallsBack]

@[simp] theorem escapes_typeOf (d : Doc) : ¬ Escapes (typeOf d) := by
  unfold typeOf
  repeat' split
  all_goals simp [fallsBack]

@[simp] theorem escapes_memberStateOf (d : Doc) : ¬ Escapes (memberStateOf d) := by
  unfold memberStateOf
  repeat' split
  all_goals simp [fallsBack]

theorem escapes_decodeKey : Escapes (decodeKey d) ↔ isTruthy d = true ∧ isText d = false := by
  unfold decodeKey
  split
  · next ht =>
    cases d with
    | str s =>
      simp only [isText]
      split <;> simp [fallsBack]
    | null | bool _ | num _ | arr _ | obj _ => simp [isText, ht, fallsBack]
  · next ht => simp [ht]

theorem escapes_fromDict : Escapes (RawEvent.fromDict d) ↔ isMisshapen d = true := by
  cases d with
  | obj l => simp [RawEvent.fromDict, escapes_bind, escapes_decodeKey, isMisshapen]
  | null | bool _ | num _ | str _ | arr _ => simp [RawEvent.fromDict, isMisshapen, fallsBack]

theorem escapes_memberFromDict : Escapes (RawMember.fromDict d) ↔ isMisshapen d = true := by
  cases d with
  | obj l => simp [RawMember.fromDict, escapes_bind, escapes_decodeKey, isMisshapen]
  | null | bool _ | num _ | str _ | arr _ => simp [RawMember.fromDict, isMisshapen, fallsBack]

theorem exists_item {name : String} : (∃ x, item l name = .ok x) ↔ (get? l (codePoints name)).isSome = true := by
  simp only [item_eq_ok, Option.isSome_iff_exists]

theorem isOk_iff {x : Except PyError α} : x.isOk = true ↔ ∃ a, x = .ok a := by
  cases x with
  | ok a => simp [Except.isOk, Except.toBool]
  | error e => simp [Except.isOk, Except.toBool]

theorem fromDict_isOk : (∃ r, RawEvent.fromDict d = .ok r) ↔ decodes d = true := by
  let D : History.Decoding := ⟨.whole, fun _ => false, fun _ => "", fun _ => 0, fun _ => none⟩
  have hraw : (∃ r, RawEvent.fromDict d = .ok r) ↔ ∃ r, eventFromDict D d = .ok r := by
    rw [eventFromDict_eq_raw]
    cases RawEvent.fromDict d <;> simp [Except.map]
  rw [hraw]
  constructor
  · rintro ⟨r, hr⟩
    exact (eventFromDict_eq_ok hr).1
  · exact eventFromDict_of_decodes

theorem memberFromDict_isOk : (∃ r, RawMember.fromDict d = .ok r) ↔ decodesMember d = true := by
  cases d with
  | obj l =>
    simp only [RawMember.fromDict, bind_eq_ok, item_eq_ok, decodesMember, memberFields, Bool.and_eq_true, List.all_cons,
      List.all_nil, and_true, Option.isSome_iff_exists, isOk_iff, Except.ok.injEq]
    constructor
    · rintro ⟨_, key, hkey, user, huser, name, hname, state, hstate, st, hst, joined, hjoined, beat, hbeat, version,
        hversion, -⟩
      exact ⟨⟨⟨key, hkey⟩, ⟨user, huser⟩, ⟨name, hname⟩, ⟨state, hstate⟩, ⟨joined, hjoined⟩, ⟨beat, hbeat⟩,
        version, hversion⟩, st, by rw [itemD_of_get? hstate, hst]⟩
    · rintro ⟨⟨⟨key, hkey⟩, ⟨user, huser⟩, ⟨name, hname⟩, ⟨state, hstate⟩, ⟨joined, hjoined⟩, ⟨beat, hbeat⟩,
        version, hversion⟩, st, hst⟩
      rw [itemD_of_get? hstate] at hst
      exact ⟨_, key, hkey, user, huser, name, hname, state, hstate, st, hst, joined, hjoined, beat, hbeat, version,
        hversion, rfl⟩
  | null | bool _ | num _ | str _ | arr _ => simp [RawMember.fromDict, decodesMember]

theorem firstMisshapen_cons {decodes : Doc → Bool} {ds : List Doc} :
    FirstMisshapen decodes (d :: ds) ↔ isMisshapen d = true ∨ decodes d = true ∧ FirstMisshapen decodes ds := by
  constructor
  · rintro ⟨_ | ⟨x, ds₁⟩, y, ds₂, heq, hall, hmis⟩
    · cases heq
      exact .inl hmis
    · cases heq
      exact .inr ⟨hall _ List.mem_cons_self, ds₁, y, ds₂, rfl, fun x hx => hall x (List.mem_cons_of_mem _ hx), hmis⟩
  · rintro (hmis | ⟨hd, ds₁, y, ds₂, rfl, hall, hmis⟩)
    · exact ⟨[], d, ds, rfl, nofun, hmis⟩
    · exact ⟨d :: ds₁, y, ds₂, rfl, List.forall_mem_cons.2 ⟨hd, hall⟩, hmis⟩

theorem not_firstMisshapen_nil {decodes : Doc → Bool} : ¬ FirstMisshapen decodes [] := by
  rintro ⟨ds₁, y, ds₂, heq, -⟩
  simp at heq

theorem escapes_rawEvents (ds : List Doc) : Escapes (rawEvents ds) ↔ FirstMisshapen decodes ds := by
  induction ds with
  | nil => exact iff_of_false (escapes_ok _) not_firstMisshapen_nil
  | cons d ds ih =>
    rw [firstMisshapen_cons, ← ih, ← fromDict_isOk, rawEvents, escapes_bind, escapes_fromDict]
    simp [escapes_bind]

theorem escapes_membersFromDicts (l : List (CodePoints × Doc)) :
    Escapes (membersFromDicts l) ↔ FirstMisshapen decodesMember (l.map Prod.snd) := by
  induction l with
  | nil => exact iff_of_false (escapes_ok _) not_firstMisshapen_nil
  | cons p l ih =>
    rw [List.map_cons, firstMisshapen_cons, ← ih, ← memberFromDict_isOk, membersFromDicts, escapes_bind,
      escapes_memberFromDict]
    simp [escapes_bind]

theorem escapes_members (x : Doc) :
    (Escapes (itemsOf x) ∨ ∃ ms, itemsOf x = .ok ms ∧ Escapes (membersFromDicts ms)) ↔
      ∀ ms, x = .obj ms → FirstMisshapen decodesMember ((mapping ms).items.map Prod.snd) := by
  cases x with
  | obj ms => simp [itemsOf, escapes_membersFromDicts]
  | null | bool _ | num _ | str _ | arr _ => simp [itemsOf, fallsBack]

theorem escapes_deserialize : Escapes (RawSnapshot.deserialize d) ↔ MisshapenSnapshot d := by
  cases d with
  | obj l =>
    simp only [RawSnapshot.deserialize, subscript, escapes_bind, escapes_item, false_or, MisshapenSnapshot,
      escapes_ok, and_false, exists_false, or_false, escapes_members, ← exists_item, List.forall_mem_cons,
      List.not_mem_nil, false_imp_iff, forall_const, and_true, item_eq_ok]
    constructor
    · rintro ⟨room, hroom, version, hversion, asOf, hasOf, members, hmembers, hmis⟩
      exact ⟨⟨⟨room, hroom⟩, ⟨version, hversion⟩, asOf, hasOf⟩, members, hmembers, hmis⟩
    · rintro ⟨⟨⟨room, hroom⟩, ⟨version, hversion⟩, asOf, hasOf⟩, members, hmembers, hmis⟩
      exact ⟨room, hroom, version, hversion, asOf, hasOf, members, hmembers, hmis⟩
  | null | bool _ | num _ | str _ | arr _ =>
    simp [RawSnapshot.deserialize, subscript, escapes_bind, MisshapenSnapshot, fallsBack]

theorem escapes_iterate {t : Doc} :
    (Escapes (iterate t) ∨ ∃ ds, iterate t = .ok ds ∧ Escapes (rawEvents ds)) ↔ MisshapenTail t := by
  cases t with
  | null | bool _ | num _ => simp [iterate, MisshapenTail, fallsBack]
  | str _ | arr _ | obj _ => simp [iterate, MisshapenTail, escapes_rawEvents]

/-! ## Order -/

mutual

theorem compare_error (o o' : Order) : ∀ {a b : Doc} {e : PyError}, I.compare o a b = .error e →
    e = .typeError ∧ I.compare o' a b = .error .typeError
  | .arr l, .arr m, e, h => by
    simp only [Interpreter.compare] at h ⊢
    exact compareItems_error o o' h
  | .str _, .str _, _, h => by
    simp [Interpreter.compare] at h
  | .arr l, .null, _, h | .arr l, .bool _, _, h | .arr l, .num _, _, h | .arr l, .str _, _, h | .arr l, .obj _, _, h
  | .str _, .null, _, h | .str _, .bool _, _, h | .str _, .num _, _, h | .str _, .arr _, _, h
  | .str _, .obj _, _, h => by
    cases h
    exact ⟨rfl, rfl⟩
  | .null, b, _, h | .bool _, b, _, h | .num _, b, _, h | .obj _, b, _, h => by
    cases b <;> cases h <;> exact ⟨rfl, rfl⟩

theorem compareItems_error (o o' : Order) : ∀ {l m : List Doc} {e : PyError}, I.compareItems o l m = .error e →
    e = .typeError ∧ I.compareItems o' l m = .error .typeError
  | a :: l, b :: m, e, h => by
    simp only [Interpreter.compareItems] at h ⊢
    split at h
    · next hsame =>
      rw [if_pos hsame]
      exact compareItems_error o o' h
    · next hsame =>
      rw [if_neg hsame]
      exact compare_error o o' h
  | [], _, _, h => by simp [Interpreter.compareItems] at h
  | _ :: _, [], _, h => by simp [Interpreter.compareItems] at h

end

theorem bind_eq_error {x : Except PyError α} {f : α → Except PyError β} {e : PyError} :
    x >>= f = .error e ↔ x = .error e ∨ ∃ a, x = .ok a ∧ f a = .error e := by
  cases x with
  | ok a => simp [Bind.bind, Except.bind]
  | error e' => simp [Bind.bind, Except.bind]

theorem insertBySeqNo_error {r : RawEvent} {e : PyError} : ∀ {xs : List RawEvent},
    insertBySeqNo I r xs = .error e → e = .typeError
  | [], h => by cases h
  | x :: xs, h => by
    rw [insertBySeqNo, bind_eq_error] at h
    rcases h with h | ⟨b, -, h⟩
    · exact (compare_error .lt .lt h).1
    · split at h
      · rw [bind_eq_error] at h
        rcases h with h | ⟨_, -, h⟩
        · exact insertBySeqNo_error h
        · cases h
      · cases h

theorem sortBySeqNo_error {e : PyError} : ∀ {es : List RawEvent}, sortBySeqNo I es = .error e → e = .typeError
  | [], h => by cases h
  | r :: es, h => by
    rw [sortBySeqNo, bind_eq_error] at h
    rcases h with h | ⟨_, -, h⟩
    · exact sortBySeqNo_error h
    · exact insertBySeqNo_error h

theorem escapes_sort {es : List RawEvent} : Escapes (sortBySeqNo I es) ↔ sortBySeqNo I es = .error .typeError := by
  constructor
  · rintro ⟨e, he, -⟩
    rw [he, sortBySeqNo_error he]
  · intro h
    exact ⟨_, h, rfl⟩

/-- An event that is not passed over raises when it is inapplicable. -/
theorem escapes_applyEvent {s : RawSnapshot} {e : RawEvent} (h : I.compare .gt e.seqNo s.asOfSeqNo = .ok true) :
    Escapes (s.applyEvent I e) ↔ Inapplicable I s e := by
  rw [Inapplicable, h, RawSnapshot.applyEvent, escapes_bind]
  have hle : ¬ Escapes (I.compare .le e.seqNo s.asOfSeqNo) := by
    rintro ⟨err, herr, -⟩
    rw [(compare_error .le .gt herr).2] at h
    cases h
  cases hc : I.compare .le e.seqNo s.asOfSeqNo with
  | error err => exact absurd (compare_error .le .gt hc).2 (by rw [h]; nofun)
  | ok b =>
    cases b with
    | true => simp
    | false =>
      cases hh : isHashable e.userId with
      | true =>
        simp only [escapes_ok, false_or, Except.ok.injEq, exists_eq_left', Bool.false_eq_true, if_false, Bool.not_true,
          reduceCtorEq, and_false, or_false, iff_false]
        split <;> exact escapes_ok _
      | false => simp [fallsBack]

theorem escapes_replay : ∀ (es : List RawEvent) (s : RawSnapshot), Escapes (s.replay I es) ↔
    ∃ es₁ e es₂ s', es = es₁ ++ e :: es₂ ∧ s.replay I es₁ = .ok s' ∧ Inapplicable I s' e
  | [], s => by simp [RawSnapshot.replay]
  | e :: es, s => by
    have hcons : (∃ es₁ x es₂ s', e :: es = es₁ ++ x :: es₂ ∧ s.replay I es₁ = .ok s' ∧ Inapplicable I s' x) ↔
        Inapplicable I s e ∨ ∃ es₁ x es₂ s', es = es₁ ++ x :: es₂ ∧ s.replay I (e :: es₁) = .ok s' ∧
          Inapplicable I s' x := by
      constructor
      · rintro ⟨_ | ⟨y, es₁⟩, x, es₂, s', heq, hrep, hinap⟩
        · cases heq
          cases hrep
          exact .inl hinap
        · cases heq
          exact .inr ⟨es₁, x, es₂, s', rfl, hrep, hinap⟩
      · rintro (hinap | ⟨es₁, x, es₂, s', rfl, hrep, hinap⟩)
        · exact ⟨[], e, es, s, rfl, rfl, hinap⟩
        · exact ⟨e :: es₁, x, es₂, s', rfl, hrep, hinap⟩
    rw [hcons]
    simp only [RawSnapshot.replay]
    cases hc : I.compare .gt e.seqNo s.asOfSeqNo with
    | error err =>
      have herr := (compare_error .gt .gt hc).1
      subst herr
      exact iff_of_true ⟨_, rfl, rfl⟩ (.inl (.inl hc))
    | ok b =>
      cases b with
      | false =>
        have hno : ¬ Inapplicable I s e := by
          rw [Inapplicable, hc]
          simp
        rw [or_iff_right hno]
        exact escapes_replay es s
      | true =>
        have happly := escapes_applyEvent hc
        rw [← happly]
        show Escapes (s.applyEvent I e >>= fun s' => s'.replay I es) ↔ _
        rw [escapes_bind]
        refine or_congr_right ?_
        show _ ↔ ∃ es₁ x es₂ s', es = es₁ ++ x :: es₂ ∧ (s.applyEvent I e >>= fun s' => s'.replay I es₁) = .ok s' ∧
          Inapplicable I s' x
        simp only [bind_eq_ok, escapes_replay es]
        constructor
        · rintro ⟨s₁, hs₁, es₁, x, es₂, s', heq, hrep, hinap⟩
          exact ⟨es₁, x, es₂, s', heq, ⟨s₁, hs₁, hrep⟩, hinap⟩
        · rintro ⟨es₁, x, es₂, s', heq, ⟨s₁, hs₁, hrep⟩, hinap⟩
          exact ⟨s₁, hs₁, es₁, x, es₂, s', heq, hrep, hinap⟩

theorem escapes_subscript (name : String) (h : ∀ l, d ≠ .obj l) : subscript d name = .error .typeError := by
  cases d with
  | obj l => exact absurd rfl (h l)
  | null | bool _ | num _ | str _ | arr _ => rfl

/-- Reconstructing raises what `recover` does not catch on misshapen payloads,
and on no others. -/
theorem escapes_reconstruct (roomId : String) : Escapes (reconstructDoc I roomId d) ↔ Misshapen I d := by
  by_cases hd : ∀ l, d ≠ .obj l
  · have hsub := escapes_subscript "snapshot" hd
    refine iff_of_true ⟨.typeError, ?_, rfl⟩ (.payload hd)
    rw [reconstructDoc, hsub]
    rfl
  · simp only [not_forall, not_not] at hd
    obtain ⟨l, rfl⟩ := hd
    simp only [reconstructDoc, subscript, escapes_bind, escapes_item, false_or, escapes_ok, and_false, exists_false,
      or_false, item_eq_ok, escapes_deserialize, escapes_sort, escapes_replay]
    constructor
    · rintro ⟨s, hs, hmis | ⟨snap, hsnap, t, ht, h⟩⟩
      · exact .snapshot hs hmis
      · rcases h with h | ⟨ds, hds, h | ⟨es, hes, h | ⟨sorted, hsort, n, hn, c, hc, es₁, e, es₂, s', rfl, hrep, hinap⟩⟩⟩
        · exact .tail hs hsnap ht (escapes_iterate.1 (.inl h))
        · exact .tail hs hsnap ht (escapes_iterate.1 (.inr ⟨ds, hds, h⟩))
        · exact .order hs hsnap ht hds hes h
        · exact .event hs hsnap ht hds hes hsort hn hc hrep hinap
    · intro h
      cases h with
      | payload hd => exact absurd rfl (hd l)
      | @snapshot _ s hs hmis => exact ⟨s, hs, .inl hmis⟩
      | @tail _ s t snap hs hsnap ht hmis =>
        refine ⟨s, hs, .inr ⟨snap, hsnap, t, ht, ?_⟩⟩
        exact (escapes_iterate.2 hmis).imp_right fun ⟨ds, hds, h⟩ => ⟨ds, hds, .inl h⟩
      | @order _ s t snap ds es hs hsnap ht hds hes hsort =>
        exact ⟨s, hs, .inr ⟨snap, hsnap, t, ht, .inr ⟨ds, hds, .inr ⟨es, hes, .inl hsort⟩⟩⟩⟩
      | @event _ s t n c snap s' ds es es₁ es₂ e hs hsnap ht hds hes hsort hn hc hrep hinap =>
        exact ⟨s, hs, .inr ⟨snap, hsnap, t, ht, .inr ⟨ds, hds, .inr ⟨es, hes, .inr ⟨_, hsort, n, hn, c, hc, es₁, e,
          es₂, s', rfl, hrep, hinap⟩⟩⟩⟩⟩

/-- Reading a file raises what `recover` does not catch on misshapen files. -/
theorem escapes_readCheckpoint (roomId : String) (c : Content) :
    Escapes (readCheckpoint I roomId c) ↔ MisshapenFile I c := by
  rw [readCheckpoint, escapes_bind]
  simp only [escapes_reconstruct]
  cases c with
  | none => simp [loadContent, MisshapenFile, fallsBack]
  | some text =>
    simp only [loadContent, MisshapenFile, Option.some.injEq, exists_eq_left']
    cases I.limit text with
    | some x => cases x <;> simp [fallsBack, History.Limit.error]
    | none => cases loads text <;> simp [fallsBack]

/-! ## Falling back -/

theorem recoverContents_cons {roomId : String} {c : Content} {cs : List Content} (h : ¬ MisshapenFile I c) :
    recoverContents I roomId (c :: cs) =
      match readCheckpoint I roomId c with
      | .ok state => .ok (some state)
      | .error _ => recoverContents I roomId cs := by
  rw [← escapes_readCheckpoint roomId] at h
  cases hread : readCheckpoint I roomId c with
  | ok state => rw [recoverContents, hread]
  | error e =>
    have he : fallsBack e = true := by
      rw [hread, escapes_error] at h
      exact eq_true_of_ne_false h
    rw [recoverContents, hread]
    exact if_pos he

/-- A file that stops recovery is the one that it comes to first. -/
theorem recoverContents_of_misshapen (roomId : String) {c : Content} (cs : List Content) (h : MisshapenFile I c) :
    ∃ e, recoverContents I roomId (c :: cs) = .error e := by
  obtain ⟨e, he, hfalls⟩ := (escapes_readCheckpoint roomId c).2 h
  refine ⟨e, ?_⟩
  rw [recoverContents, he]
  exact if_neg (by rw [hfalls]; exact Bool.false_ne_true)

theorem recoverContents_eq_iff (roomId : String) (cs : List Content) :
    recoverContents I roomId cs = .ok (cs.findSome? fun c => (readCheckpoint I roomId c).toOption) ↔
      ∀ newer c older, cs = newer ++ c :: older → (∀ b ∈ newer, ∀ state, readCheckpoint I roomId b ≠ .ok state) →
        ¬ MisshapenFile I c := by
  induction cs with
  | nil => simp [recoverContents]
  | cons c cs ih =>
    by_cases hmis : MisshapenFile I c
    · obtain ⟨e, he⟩ := recoverContents_of_misshapen roomId cs hmis
      refine iff_of_false (by simp [he]) fun h => ?_
      exact h [] c cs rfl (fun b hb => absurd hb List.not_mem_nil) hmis
    · rw [recoverContents_cons hmis]
      cases hread : readCheckpoint I roomId c with
      | ok state =>
        refine iff_of_true (by simp [hread, Except.toOption]) fun newer d older heq hnewer => ?_
        cases newer with
        | nil =>
          cases heq
          exact hmis
        | cons b newer =>
          cases heq
          exact absurd hread (hnewer _ List.mem_cons_self state)
      | error e =>
        simp only [List.findSome?_cons, hread]
        refine ih.trans ?_
        constructor
        · intro h newer d older heq hnewer
          cases newer with
          | nil =>
            cases heq
            exact hmis
          | cons b newer =>
            cases heq
            exact h newer d older rfl fun x hx => hnewer x (List.mem_cons_of_mem _ hx)
        · rintro h newer d older rfl hnewer
          refine h (c :: newer) d older rfl (List.forall_mem_cons.2 ⟨fun state => ?_, hnewer⟩)
          simp [hread]

end

/-! ## What can be sorted -/

section

variable {I : Interpreter} {a b : Doc} {o : Order} {e : RawEvent} {es xs ys : List RawEvent}

def isReal : Doc → Bool
  | .bool _ | .num _ => true
  | .null | .str _ | .arr _ | .obj _ => false

/-- Two numbers or two texts. -/
def Alike (a b : Doc) : Prop := (isReal a = true ∧ isReal b = true) ∨ (isText a = true ∧ isText b = true)

theorem compare_of_alike (h : Alike a b) : ∃ r, I.compare o a b = .ok r := by
  rcases h with ⟨ha, hb⟩ | ⟨ha, hb⟩
  · cases a <;> cases b <;>
      first | exact ⟨_, rfl⟩ | exact absurd ha Bool.false_ne_true | exact absurd hb Bool.false_ne_true
  · cases a <;> cases b <;>
      first | exact ⟨_, rfl⟩ | exact absurd ha Bool.false_ne_true | exact absurd hb Bool.false_ne_true

/-- Lists are compared item by item. All other values that can be compared
are alike. -/
theorem alike_of_compare (ha : ∀ l, a ≠ .arr l) {r : Bool} (h : I.compare o a b = .ok r) : Alike a b := by
  cases a with
  | arr l => exact absurd rfl (ha l)
  | null | obj _ => cases b <;> cases h
  | bool _ | num _ => cases b <;> first | exact .inl ⟨rfl, rfl⟩ | cases h
  | str _ => cases b <;> first | exact .inr ⟨rfl, rfl⟩ | cases h

theorem insertBySeqNo_of_alike (e : RawEvent) (xs : List RawEvent) (h : ∀ x ∈ xs, Alike x.seqNo e.seqNo) :
    ∃ ys, insertBySeqNo I e xs = .ok ys := by
  induction xs with
  | nil => exact ⟨[e], rfl⟩
  | cons x xs ih =>
    obtain ⟨ys, hys⟩ := ih fun y hy => h y (List.mem_cons_of_mem _ hy)
    obtain ⟨r, hr⟩ := compare_of_alike (I := I) (o := .lt) (h x List.mem_cons_self)
    cases r with
    | true => exact ⟨x :: ys, bind_eq_ok.2 ⟨true, hr, bind_eq_ok.2 ⟨ys, hys, rfl⟩⟩⟩
    | false => exact ⟨e :: x :: xs, bind_eq_ok.2 ⟨false, hr, rfl⟩⟩

theorem perm_insertBySeqNo (h : insertBySeqNo I e xs = .ok ys) : ys.Perm (e :: xs) := by
  induction xs generalizing ys with
  | nil =>
    cases h
    exact .refl _
  | cons x xs ih =>
    obtain ⟨r, -, h⟩ := bind_eq_ok.1 h
    cases r with
    | true =>
      obtain ⟨zs, hzs, h⟩ := bind_eq_ok.1 h
      cases h
      exact ((ih hzs).cons x).trans (.swap e x xs)
    | false =>
      cases h
      exact .refl _

theorem perm_sortBySeqNo (h : sortBySeqNo I es = .ok ys) : ys.Perm es := by
  induction es generalizing ys with
  | nil =>
    cases h
    exact .refl _
  | cons e es ih =>
    obtain ⟨zs, hzs, h⟩ := bind_eq_ok.1 h
    exact (perm_insertBySeqNo h).trans ((ih hzs).cons e)

theorem sortBySeqNo_of_alike (h : ∀ x ∈ es, ∀ y ∈ es, Alike x.seqNo y.seqNo) : ∃ ys, sortBySeqNo I es = .ok ys := by
  induction es with
  | nil => exact ⟨[], rfl⟩
  | cons e es ih =>
    obtain ⟨zs, hzs⟩ := ih fun x hx y hy => h x (List.mem_cons_of_mem _ hx) y (List.mem_cons_of_mem _ hy)
    obtain ⟨ys, hys⟩ := insertBySeqNo_of_alike (I := I) e zs fun x hx =>
      h x (List.mem_cons_of_mem _ ((perm_sortBySeqNo hzs).subset hx)) e List.mem_cons_self
    exact ⟨ys, bind_eq_ok.2 ⟨zs, hzs, hys⟩⟩

theorem isReal_ne_isText (d : Doc) (h : isReal d = true) : isText d = false := by
  cases d <;> first | rfl | cases h

/-- Numbers that are no lists are sorted when there is one at most, or all are
numbers, or all are texts. -/
theorem sortBySeqNo_ok_iff (hes : ∀ x ∈ es, ∀ l, x.seqNo ≠ .arr l) :
    (∃ ys, sortBySeqNo I es = .ok ys) ↔
      es.length ≤ 1 ∨ (∀ x ∈ es, isReal x.seqNo = true) ∨ ∀ x ∈ es, isText x.seqNo = true := by
  constructor
  · rintro ⟨ys, h⟩
    induction es generalizing ys with
    | nil => exact .inl (Nat.zero_le 1)
    | cons e es ih =>
      obtain ⟨zs, hzs, h⟩ := bind_eq_ok.1 h
      have hperm := perm_sortBySeqNo hzs
      cases zs with
      | nil =>
        rw [← hperm.nil_eq]
        exact .inl (Nat.le_refl 1)
      | cons z zs =>
        have hz : z ∈ es := hperm.subset List.mem_cons_self
        obtain ⟨r, hr, -⟩ := bind_eq_ok.1 h
        have halike := alike_of_compare (hes z (List.mem_cons_of_mem _ hz)) hr
        -- The kind of the one event that was there is the kind of all.
        have hsame : (∀ x ∈ es, isReal x.seqNo = true) ∨ ∀ x ∈ es, isText x.seqNo = true := by
          rcases ih (fun x hx => hes x (List.mem_cons_of_mem _ hx)) _ hzs with hone | hsame
          · have hall : ∀ x ∈ es, x = z := by
              match es, hone, hz with
              | [y], _, hz => exact fun x hx => (List.mem_singleton.1 hx).trans (List.mem_singleton.1 hz).symm
            exact halike.imp (fun h x hx => hall x hx ▸ h.1) fun h x hx => hall x hx ▸ h.1
          · exact hsame
        refine .inr ?_
        rcases hsame with hreal | htext
        · refine .inl (List.forall_mem_cons.2 ⟨?_, hreal⟩)
          rcases halike with h | h
          · exact h.2
          · rw [isReal_ne_isText _ (hreal z hz)] at h
            cases h.1
        · refine .inr (List.forall_mem_cons.2 ⟨?_, htext⟩)
          rcases halike with h | h
          · have := isReal_ne_isText _ h.1
            rw [htext z hz] at this
            cases this
          · exact h.2
  · rintro (hone | hreal | htext)
    · match es, hone with
      | [], _ => exact ⟨[], rfl⟩
      | [e], _ => exact ⟨[e], rfl⟩
    · exact sortBySeqNo_of_alike fun x hx y hy => .inl ⟨hreal x hx, hreal y hy⟩
    · exact sortBySeqNo_of_alike fun x hx y hy => .inr ⟨htext x hx, htext y hy⟩

theorem replay_of_isReal : ∀ (es : List RawEvent) (s : RawSnapshot), isReal s.asOfSeqNo = true →
    (∀ x ∈ es, isReal x.seqNo = true ∧ isHashable x.userId = true) → ∃ s', s.replay I es = .ok s'
  | [], s, _, _ => ⟨s, rfl⟩
  | e :: es, s, hs, hes => by
    obtain ⟨⟨hseq, huser⟩, hes⟩ := List.forall_mem_cons.1 hes
    have hcompare : ∀ o, ∃ r, I.compare o e.seqNo s.asOfSeqNo = .ok r :=
      fun o => compare_of_alike (.inl ⟨hseq, hs⟩)
    have happly : ∃ s', s.applyEvent I e = .ok s' ∧ isReal s'.asOfSeqNo = true := by
      obtain ⟨r, hr⟩ := hcompare .le
      simp only [RawSnapshot.applyEvent, bind_eq_ok, huser]
      cases r with
      | true => exact ⟨s, ⟨true, hr, rfl⟩, hs⟩
      | false =>
        by_cases hvalid : isTransitionValid e.eventType ((s.memberOf I e.userId).map (·.state)) = true
        · exact ⟨_, ⟨false, hr, by simp [hvalid]; rfl⟩, hseq⟩
        · exact ⟨s, ⟨false, hr, by simp [hvalid]⟩, hs⟩
    obtain ⟨r, hr⟩ := hcompare .gt
    cases r with
    | true =>
      obtain ⟨s₁, hs₁, hasOf⟩ := happly
      obtain ⟨s', hs'⟩ := replay_of_isReal es s₁ hasOf hes
      exact ⟨s', bind_eq_ok.2 ⟨true, hr, bind_eq_ok.2 ⟨s₁, hs₁, hs'⟩⟩⟩
    | false =>
      obtain ⟨s', hs'⟩ := replay_of_isReal es s hs hes
      exact ⟨s', bind_eq_ok.2 ⟨false, hr, hs'⟩⟩

end

/-! ## Files that were written -/

section

variable (F : FloatText) (log : EventLog) (snapshot : Snapshot)

/-- The payload of `_write_checkpoint`. -/
def checkpointDoc : List (CodePoints × Doc) :=
  [(codePoints "room_id", .str (codePoints log.roomId)), (codePoints "as_of_seq_no", ofInt snapshot.asOfSeqNo),
    (codePoints "snapshot", .obj (snapshot.serialize F)),
    (codePoints "log_tail", .arr ((log.getEventsSince snapshot.asOfSeqNo).map fun e => .obj (e.toDict F))),
    (codePoints "current_term", ofInt log.currentTerm), (codePoints "next_seq_no", ofInt (log.getLatestSeqNo + 1))]

/-- What `_write_checkpoint` writes. -/
def checkpointText : List Char := (Doc.obj (checkpointDoc F log snapshot)).text [' ']

theorem written_memberToDict (m : MemberInfo) : (Doc.obj (m.toDict F)).Written := by
  refine written_object fun q hq => ?_
  rcases List.mem_append.1 hq with hq | hq
  · obtain ⟨f, hf, rfl⟩ := List.mem_map.1 hq
    refine ⟨⟨f.1, rfl⟩, ?_⟩
    simp only [MemberInfo.fields, List.mem_cons, List.not_mem_nil, or_false] at hf
    rcases hf with rfl | rfl | rfl | rfl | rfl | rfl
    · exact written_text m.userId
    · exact written_text m.displayName
    · exact written_text m.state.value
    · exact .num (F.isNumber_repr m.joinedAt)
    · exact .num (F.isNumber_repr m.lastHeartbeat)
    · exact written_ofInt m.membershipVersion
  · obtain ⟨key, -, rfl⟩ := Option.map_eq_some_iff.1 (Option.mem_toList.1 hq)
    exact ⟨⟨_, rfl⟩, .str fun n hn => .inl ((b64encode_lt key n hn).trans (by omega))⟩

theorem written_serialize : (Doc.obj (snapshot.serialize F)).Written := by
  refine written_object fun p hp => ?_
  simp only [Snapshot.serialize, List.mem_cons, List.not_mem_nil, or_false] at hp
  rcases hp with rfl | rfl | rfl | rfl
  · exact ⟨⟨_, rfl⟩, written_text snapshot.roomId⟩
  · exact ⟨⟨_, rfl⟩, written_ofInt snapshot.version⟩
  · exact ⟨⟨_, rfl⟩, written_ofInt snapshot.asOfSeqNo⟩
  · refine ⟨⟨_, rfl⟩, written_object fun q hq => ?_⟩
    obtain ⟨m, -, rfl⟩ := List.mem_map.1 hq
    exact ⟨⟨m.1, rfl⟩, written_memberToDict F m.2⟩

theorem written_checkpointDoc : (Doc.obj (checkpointDoc F log snapshot)).Written := by
  refine written_object fun p hp => ?_
  simp only [checkpointDoc, List.mem_cons, List.not_mem_nil, or_false] at hp
  rcases hp with rfl | rfl | rfl | rfl | rfl | rfl
  · exact ⟨⟨_, rfl⟩, written_text log.roomId⟩
  · exact ⟨⟨_, rfl⟩, written_ofInt snapshot.asOfSeqNo⟩
  · exact ⟨⟨_, rfl⟩, written_serialize F snapshot⟩
  · refine ⟨⟨_, rfl⟩, .arr fun d hd => ?_⟩
    obtain ⟨e, -, rfl⟩ := List.mem_map.1 hd
    exact written_toDict F e
  · exact ⟨⟨_, rfl⟩, written_ofInt log.currentTerm⟩
  · exact ⟨⟨_, rfl⟩, written_ofInt (log.getLatestSeqNo + 1)⟩

theorem rawEvents_toDict (es : List MembershipEvent) :
    rawEvents (es.map fun e => .obj (e.toDict F)) = .ok (es.map fun e => e.reread.raw F) := by
  induction es with
  | nil => rfl
  | cons e es ih => exact bind_eq_ok.2 ⟨_, RawEvent.fromDict_toDict F e, bind_eq_ok.2 ⟨_, ih, rfl⟩⟩

/-- **A file that was written can be reconstructed.** -/
theorem readCheckpoint_checkpointText {I : Interpreter} (roomId : String)
    (hlimit : I.limit (checkpointText F log snapshot) = none) :
    ∃ state, readCheckpoint I roomId (some (checkpointText F log snapshot)) = .ok state := by
  have hload : loadContent I (some (checkpointText F log snapshot)) = .ok (.obj (checkpointDoc F log snapshot)) := by
    simp only [loadContent, hlimit]
    rw [checkpointText, loads_text (by simp [isBlank]) (written_checkpointDoc F log snapshot)]
  have hreal : ∀ x ∈ (log.getEventsSince snapshot.asOfSeqNo).map fun e => e.reread.raw F,
      isReal x.seqNo = true ∧ isHashable x.userId = true := by
    intro x hx
    obtain ⟨e, -, rfl⟩ := List.mem_map.1 hx
    exact ⟨rfl, rfl⟩
  obtain ⟨sorted, hsorted⟩ := sortBySeqNo_of_alike (I := I) fun x hx y hy => .inl ⟨(hreal x hx).1, (hreal y hy).1⟩
  obtain ⟨snap, hsnap⟩ := replay_of_isReal (I := I) sorted (snapshot.reread.raw F) rfl
    fun x hx => hreal x ((perm_sortBySeqNo hsorted).subset hx)
  refine ⟨(⟨roomId, sorted, ofInt (log.getLatestSeqNo + 1), ofInt log.currentTerm⟩, snap), ?_⟩
  simp only [readCheckpoint, reconstructDoc, hload, bind_eq_ok]
  exact ⟨_, rfl, _, rfl, _, RawSnapshot.deserialize_serialize F snapshot, _, rfl, _, rfl, _, rawEvents_toDict F _,
    sorted, hsorted, _, rfl, _, rfl, snap, hsnap, rfl⟩

end

/-- **Recovery falls back to the newest file that can be reconstructed exactly
when no file that it comes to before is misshapen.** -/
theorem recover_falls_back_iff (U : Digits) (I : Interpreter) (dir : Dict String Content) (roomId : String) :
    recoverDir U I dir roomId = .ok (newestState U I dir roomId) ↔
      ∀ newer c older, contentsOf U dir roomId = newer ++ c :: older →
        (∀ b ∈ newer, ∀ state, readCheckpoint I roomId b ≠ .ok state) → ¬ MisshapenFile I c :=
  recoverContents_eq_iff roomId _

/-- A room with the checkpoint of its first moment and a newer file that holds
an empty list. -/
def damagedDir : Dict String Content :=
  (Dict.empty.set (fileName "room" 0) (some (checkpointText .whole (.new "room") (.new "room")))).set
    (fileName "room" 1) (some "[]".toList)

def plainRoom : RoomId := ⟨"room", by decide, by simp⟩

theorem contentsOf_damagedDir (U : Digits) : contentsOf U damagedDir "room" =
    [some "[]".toList, some (checkpointText .whole (.new "room") (.new "room"))] := by
  have hne : fileName "room" 0 ≠ fileName "room" 1 := by decide
  have hmatch : ∀ n : Nat, matchCheckpoint U (fileName "room" n) = some ("room", (n : Int)) :=
    matchCheckpoint_fileName U plainRoom
  have h0 : matchCheckpoint U (fileName "room" 0) = some ("room", 0) := hmatch 0
  have h1 : matchCheckpoint U (fileName "room" 1) = some ("room", 1) := hmatch 1
  have hkeys : damagedDir.keys = [fileName "room" 0, fileName "room" 1] := by decide
  have hfiles : listFiles U damagedDir "room" = [(1, fileName "room" 1), (0, fileName "room" 0)] := by
    rw [listFiles, hkeys]
    simp [h0, h1, List.mergeSort]
  rw [contentsOf, hfiles]
  rfl

/-- An interpreter, where no text is beyond a limit. -/
def Interpreter.unlimited : Interpreter := ⟨fun _ => 0, fun _ => none⟩

/-- An empty list stops recovery, though the file before was written by
`_write_checkpoint` and can be reconstructed. -/
theorem list_stops_recovery :
    damagedDir.get? (fileName "room" (EventLog.new "room").getLatestSeqNo) =
      some (some (checkpointText .whole (.new "room") (.new "room"))) ∧
    (newestState (fun _ => none) .unlimited damagedDir "room").isSome = true ∧
    recoverDir (fun _ => none) .unlimited damagedDir "room" = .error .typeError := by
  have hlist : readCheckpoint .unlimited "room" (some "[]".toList) = .error .typeError := rfl
  obtain ⟨state, hstate⟩ := readCheckpoint_checkpointText .whole (.new "room") (.new "room") (I := .unlimited)
    "room" rfl
  refine ⟨rfl, ?_, ?_⟩
  · rw [newestState, contentsOf_damagedDir]
    simp [hstate, Except.toOption]
  · rw [recoverDir, contentsOf_damagedDir, recoverContents, hlist]
    rfl

end PeerChat.Membership
