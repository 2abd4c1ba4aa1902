/-
Messages as JSON texts (`Message.to_json` and `Message.from_json` of
`distribution/message.py`). `fromJson_toJson`: a message arrives as it was
sent.

Timestamps are floats. What a float looks like and what is made of it is
left open (`FloatText`), but for that it reads back.
-/
import PeerChat.Lib.JsonText
import PeerChat.Distribution.VectorClock

namespace PeerChat

open Lib JsonText

/-- Floats in JSON texts: how a time is written, `float(x)` of a decoded
value, and `int(x)` of a literal with a fraction or an exponent. -/
structure FloatText where
  repr : Time → List Char
  isNumber_repr : ∀ t, isNumber (repr t) = true
  float : Doc → Option Time
  float_repr : ∀ t, float (.num (repr t)) = some t
  trunc : List Char → Option Int

/-- Times that are written as integers. -/
def FloatText.whole : FloatText where
  repr t := (toString t).toList
  isNumber_repr := isNumber_toString
  float
    | .num literal => parseInt (String.ofList literal)
    | _ => none
  float_repr t := by
    change parseInt (String.ofList (toString t).toList) = some t
    rw [String.ofList_toList, parseInt_toString]
  trunc _ := none

/-- The text of a string value. -/
def string? : Doc → Option String
  | .str s => ofCodePoints s
  | _ => none

/-- The integer of an integer literal. -/
def int? : Doc → Option Int
  | .num literal => parseInt (String.ofList literal)
  | _ => none

/-- A clock, read with `count` for its counts. -/
def clockOf (count : Doc → Option Int) : List (CodePoints × Doc) → VectorClock → Option VectorClock
  | [], vc => some vc
  | (k, d) :: l, vc =>
    match ofCodePoints k, count d with
    | some k, some n => clockOf count l (vc.set k n)
    | _, _ => none

/-- The clock of an object. -/
def clock? (count : Doc → Option Int) : Doc → Option VectorClock
  | .obj l => clockOf count l Dict.empty
  | _ => none

/-- A clock as a document. -/
def clockDoc (vc : VectorClock) : Doc := .obj (vc.items.map fun p => (codePoints p.1, ofInt p.2))

/-- An argument of the constructor, or its default. -/
def argument {α : Type} (l : List (CodePoints × Doc)) (name : String) (read : Doc → Option α) (default : Option α) :
    Option α :=
  match get? l (codePoints name) with
  | some d => read d
  | none => default

namespace Message

/-- `asdict`. -/
def members (F : FloatText) (m : Message) : List (CodePoints × Doc) :=
  [(codePoints "content", .str (codePoints m.content)), (codePoints "sender", .str (codePoints m.sender)),
    (codePoints "id", .str (codePoints m.id)), (codePoints "timestamp", .num (F.repr m.timestamp)),
    (codePoints "signature", .str (codePoints m.signature)), (codePoints "ttl", ofInt m.ttl),
    (codePoints "vector_clock", clockDoc m.vectorClock)]

/-- `to_json`. -/
def toJson (F : FloatText) (m : Message) : List Char := (Doc.obj (m.members F)).text [' ']

/-- The names of the fields. -/
def fields : List String := ["content", "sender", "id", "timestamp", "signature", "ttl", "vector_clock"]

/-- `from_json`, with the id and the time that are the defaults at the
call; `none` where it raises, and for a field of a type that no node
sends. -/
def fromJson (F : FloatText) (uuid : String) (now : Time) (raw : List Char) : Option Message :=
  match loads raw with
  | some (.obj l) =>
    if l.all fun p => fields.any fun f => codePoints f = p.1 then do
      let content ← argument l "content" string? none
      let sender ← argument l "sender" string? none
      let id ← argument l "id" string? (some uuid)
      let timestamp ← argument l "timestamp" F.float (some now)
      let signature ← argument l "signature" string? (some "")
      let ttl ← argument l "ttl" int? (some 10)
      let vectorClock ← argument l "vector_clock" (clock? int?) (some Dict.empty)
      some ⟨content, sender, id, timestamp, signature, ttl, vectorClock⟩
    else none
  | _ => none

end Message

/-! ## The round trip -/

theorem int?_ofInt (n : Int) : int? (ofInt n) = some n := by
  change parseInt (String.ofList (toString n).toList) = some n
  rw [String.ofList_toList, parseInt_toString]

theorem string?_codePoints (s : String) : string? (.str (codePoints s)) = some s := ofCodePoints_codePoints s

/-- The items of a clock are read back behind those that are there. -/
theorem clockOf_items {count : Doc → Option Int} (hcount : ∀ n, count (ofInt n) = some n) :
    ∀ (items : List (String × Int)) (vc : VectorClock), ((vc.items ++ items).map Prod.fst).Nodup →
    ∃ vc' : VectorClock, clockOf count (items.map fun p => (codePoints p.1, ofInt p.2)) vc = some vc' ∧
      vc'.items = vc.items ++ items
  | [], vc, _ => ⟨vc, rfl, by simp⟩
  | (k, n) :: items, vc, h => by
    have hk : k ∉ vc.items.map Prod.fst := by
      rw [List.map_append, List.nodup_append] at h
      exact fun hin => h.2.2 k hin k (by simp) rfl
    have hitems : (vc.set k n).items = vc.items ++ [(k, n)] := Dict.items_set_of_notMem hk n
    have hn : (((vc.set k n).items ++ items).map Prod.fst).Nodup := by
      rw [hitems]
      simpa using h
    obtain ⟨vc', hvc', he⟩ := clockOf_items hcount items (vc.set k n) hn
    refine ⟨vc', ?_, by rw [he, hitems]; simp⟩
    simp only [List.map_cons, clockOf, ofCodePoints_codePoints, hcount]
    exact hvc'

/-- A clock reads back. -/
theorem clockOf_clock {count : Doc → Option Int} (hcount : ∀ n, count (ofInt n) = some n) (vc : VectorClock) :
    clockOf count (vc.items.map fun p => (codePoints p.1, ofInt p.2)) Dict.empty = some vc := by
  obtain ⟨vc', h, he⟩ := clockOf_items hcount vc.items Dict.empty vc.nodup
  rw [h]
  obtain ⟨items, hn⟩ := vc
  obtain ⟨items', hn'⟩ := vc'
  cases he
  rfl

theorem written_clockDoc (vc : VectorClock) : (clockDoc vc).Written := by
  refine written_object fun p hp => ?_
  obtain ⟨q, -, rfl⟩ := List.mem_map.1 hp
  exact ⟨⟨q.1, rfl⟩, written_ofInt q.2⟩

theorem Message.written_members (F : FloatText) (m : Message) : (Doc.obj (m.members F)).Written := by
  refine written_object fun p hp => ?_
  simp only [members, List.mem_cons, List.not_mem_nil, or_false] at hp
  rcases hp with rfl | rfl | rfl | rfl | rfl | rfl | rfl
  · exact ⟨⟨_, rfl⟩, written_text m.content⟩
  · exact ⟨⟨_, rfl⟩, written_text m.sender⟩
  · exact ⟨⟨_, rfl⟩, written_text m.id⟩
  · exact ⟨⟨_, rfl⟩, .num (F.isNumber_repr m.timestamp)⟩
  · exact ⟨⟨_, rfl⟩, written_text m.signature⟩
  · exact ⟨⟨_, rfl⟩, written_ofInt m.ttl⟩
  · exact ⟨⟨_, rfl⟩, written_clockDoc m.vectorClock⟩

/-- **A message arrives as it was sent.** -/
theorem Message.fromJson_toJson (F : FloatText) (uuid : String) (now : Time) (m : Message) :
    fromJson F uuid now (m.toJson F) = some m := by
  have hloads : loads (m.toJson F) = some (.obj (m.members F)) :=
    loads_text (by simp [isBlank]) (m.written_members F)
  have hnames : ((m.members F).all fun p => fields.any fun f => codePoints f = p.1) = true := by
    simp [members, fields]
  have hcontent : argument (m.members F) "content" string? none = some m.content := string?_codePoints m.content
  have hsender : argument (m.members F) "sender" string? none = some m.sender := string?_codePoints m.sender
  have hid : argument (m.members F) "id" string? (some uuid) = some m.id := string?_codePoints m.id
  have htime : argument (m.members F) "timestamp" F.float (some now) = some m.timestamp := F.float_repr m.timestamp
  have hsig : argument (m.members F) "signature" string? (some "") = some m.signature :=
    string?_codePoints m.signature
  have httl : argument (m.members F) "ttl" int? (some 10) = some m.ttl := int?_ofInt m.ttl
  have hclock : argument (m.members F) "vector_clock" (clock? int?) (some Dict.empty) = some m.vectorClock :=
    clockOf_clock int?_ofInt m.vectorClock
  simp only [fromJson, hloads, hnames, if_true, hcontent, hsender, hid, htime, hsig, httl, hclock,
    Option.bind_eq_bind, Option.bind_some]

end PeerChat
