/-
The active log as a file (`active.log.jsonl`): `Message.to_json` and
`from_dict` of `message_history/storage/models.py`, `_append_to_log` and
`_read_active_messages_with_offsets_unlocked`.

`messages_append`: a message that is appended is read when what follows the
last line ending is blank. `messages_append_torn`: otherwise it is not, and
nothing comes up that was not read before.
-/
import Mathlib.Data.List.TakeWhile
import PeerChat.Lib.TextFile
import PeerChat.Distribution.Wire
import PeerChat.History.Disk

namespace PeerChat.History

open Lib JsonText TextFile

/-! ## Messages -/

/-- `int(x)` of a decoded value. -/
def intOf (F : FloatText) : Doc → Option Int
  | .num literal => (parseInt (String.ofList literal)).or (F.trunc literal)
  | .bool b => some (if b then 1 else 0)
  | .str s => (ofCodePoints s).bind parseInt
  | .null | .arr _ | .obj _ => none

/-- The members that `to_json` writes. -/
def members (F : FloatText) (m : Message) : List (CodePoints × Doc) :=
  [(codePoints "id", .str (codePoints m.id)), (codePoints "content", .str (codePoints m.content)),
    (codePoints "sender", .str (codePoints m.sender)), (codePoints "timestamp", .num (F.repr m.timestamp)),
    (codePoints "signature", .str (codePoints m.signature)), (codePoints "ttl", ofInt m.ttl),
    (codePoints "vector_clock", clockDoc m.vectorClock)]

/-- `to_json`. -/
def toJson (F : FloatText) (m : Message) : List Char := (Doc.obj (members F m)).text []

/-- `from_dict`, where it makes a message with values of the declared
types. -/
def fromDict (F : FloatText) : Doc → Option Message
  | .obj l => do
    let id ← argument l "id" string? none
    let content ← argument l "content" string? none
    let sender ← argument l "sender" string? none
    let timestamp ← argument l "timestamp" F.float none
    let signature ← argument l "signature" string? (some "")
    let ttl ← argument l "ttl" (intOf F) (some 0)
    let vectorClock ← argument l "vector_clock" (clock? (intOf F)) (some Dict.empty)
    some ⟨content, sender, id, timestamp, signature, ttl, vectorClock⟩
  | _ => none

theorem intOf_ofInt (F : FloatText) (n : Int) : intOf F (ofInt n) = some n := by
  simp only [ofInt, intOf, String.ofList_toList, parseInt_toString, Option.some_or]

theorem written_members (F : FloatText) (m : Message) : (Doc.obj (members F m)).Written := by
  refine written_object fun p hp => ?_
  simp only [members, List.mem_cons, List.not_mem_nil, or_false] at hp
  rcases hp with rfl | rfl | rfl | rfl | rfl | rfl | rfl
  · exact ⟨⟨_, rfl⟩, written_text m.id⟩
  · exact ⟨⟨_, rfl⟩, written_text m.content⟩
  · exact ⟨⟨_, rfl⟩, written_text m.sender⟩
  · exact ⟨⟨_, rfl⟩, .num (F.isNumber_repr m.timestamp)⟩
  · exact ⟨⟨_, rfl⟩, written_text m.signature⟩
  · exact ⟨⟨_, rfl⟩, written_ofInt m.ttl⟩
  · exact ⟨⟨_, rfl⟩, written_clockDoc m.vectorClock⟩

theorem loads_toJson (F : FloatText) (m : Message) : loads (toJson F m) = some (.obj (members F m)) :=
  loads_text (by simp) (written_members F m)

/-- A message is read as it was written. -/
theorem fromDict_members (F : FloatText) (m : Message) : fromDict F (.obj (members F m)) = some m := by
  have hid : argument (members F m) "id" string? none = some m.id := string?_codePoints m.id
  have hcontent : argument (members F m) "content" string? none = some m.content := string?_codePoints m.content
  have hsender : argument (members F m) "sender" string? none = some m.sender := string?_codePoints m.sender
  have htime : argument (members F m) "timestamp" F.float none = some m.timestamp := F.float_repr m.timestamp
  have hsig : argument (members F m) "signature" string? (some "") = some m.signature :=
    string?_codePoints m.signature
  have httl : argument (members F m) "ttl" (intOf F) (some 0) = some m.ttl := intOf_ofInt F m.ttl
  have hclock : argument (members F m) "vector_clock" (clock? (intOf F)) (some Dict.empty) = some m.vectorClock :=
    clockOf_clock (intOf_ofInt F) m.vectorClock
  simp only [fromDict, hid, hcontent, hsender, htime, hsig, httl, hclock, Option.bind_eq_bind, Option.bind_some]

/-! ## The lines -/

/-- The white space that `str.strip` takes away. -/
def isStripped (c : Char) : Bool :=
  isSpace c || c.toNat = 0x85 || c.toNat = 0xA0 || c.toNat = 0x1680 || (0x2000 ≤ c.toNat && c.toNat ≤ 0x200A) ||
    c.toNat = 0x2028 || c.toNat = 0x2029 || c.toNat = 0x202F || c.toNat = 0x205F || c.toNat = 0x3000

/-- `str.strip`. -/
def strip (line : List Char) : List Char := ((line.dropWhile isStripped).reverse.dropWhile isStripped).reverse

/-- What the reading of a log depends on besides its bytes: how floats are
written, the size of the reader's buffer, and what becomes of a JSON text
of which `from_dict` makes no message with values of the declared types. It
raises on most of them, and the line is invalid; since it does not look at
the types, it keeps a few, with other values in their fields. -/
structure LogReader where
  floats : FloatText
  foreign : Doc → LogLine
  chunk : Nat
  chunk_pos : 0 < chunk

namespace LogReader

variable (R : LogReader)

/-- A line of the log. -/
def readLine (line : List Char) : LogLine :=
  let text := strip line
  if text.isEmpty then .blank
  else
    match loads text with
    | none => .invalid (String.ofList text)
    | some d =>
      match fromDict R.floats d with
      | some m => .message m
      | none => R.foreign d

/-- The log as it is read. Bytes that do not decode end the reading like an
invalid line. -/
def readLog (bytes : List UInt8) : List LogLine :=
  (readLines R.chunk bytes).1.map R.readLine ++ if (readLines R.chunk bytes).2 then [] else [.invalid ""]

/-- What `_append_to_log` writes. -/
def line (m : Message) : List UInt8 := encode (toJson R.floats m ++ ['\n'])

end LogReader

/-- The bytes decode, and what follows the last line ending is blank. -/
def endsCleanly (bytes : List UInt8) : Bool :=
  match decode bytes with
  | some text => (tail text).all isStripped
  | none => false

/-! ## Appending -/

theorem isStripped_of_isBlank {c : Char} (h : isBlank c = true) : isStripped c = true := by
  simp only [isBlank, Bool.or_eq_true, decide_eq_true_eq] at h
  rcases h with ((rfl | rfl) | rfl) | rfl <;> decide

theorem toJson_cons (F : FloatText) (m : Message) : ∃ cs, toJson F m = '\x7b' :: '"' :: 'i' :: cs := ⟨_, rfl⟩

theorem toJson_concat (F : FloatText) (m : Message) : ∃ cs, toJson F m = cs ++ ['\x7d'] := by
  refine ⟨'\x7b' :: Doc.members [] (members F m), ?_⟩
  rw [toJson, Doc.text, List.cons_append]

theorem plain_toJson (F : FloatText) (m : Message) : Plain (toJson F m) := by
  intro c hc
  have hp : Printable c := printable_text (by simp) (written_members F m) c hc
  refine ⟨by have := hp.2; omega, ?_, ?_⟩
  · intro he
    rw [he] at hp
    revert hp
    decide
  · intro he
    rw [he] at hp
    revert hp
    decide

theorem strip_append_toJson (F : FloatText) (m : Message) (junk : List Char) :
    strip (junk ++ toJson F m) = junk.dropWhile isStripped ++ toJson F m := by
  have hright (cs : List Char) : ((cs ++ toJson F m).reverse.dropWhile isStripped).reverse = cs ++ toJson F m := by
    obtain ⟨l, hl⟩ := toJson_concat F m
    rw [hl, ← List.append_assoc, List.reverse_concat, List.dropWhile_cons_of_neg (by decide)]
    simp
  have hleft : (junk ++ toJson F m).dropWhile isStripped = junk.dropWhile isStripped ++ toJson F m := by
    rw [List.dropWhile_append]
    split
    · next he =>
      obtain ⟨l, hl⟩ := toJson_cons F m
      rw [List.isEmpty_iff.1 he, hl, List.dropWhile_cons_of_neg (by decide), List.nil_append]
    · rfl
  rw [strip, hleft, hright]

namespace LogReader

variable {R : LogReader} {m : Message}

/-- Behind blanks a message is read. -/
theorem readLine_blank {junk : List Char} (h : junk.all isStripped = true) :
    R.readLine (junk ++ toJson R.floats m) = .message m := by
  have hdrop : junk.dropWhile isStripped = [] := List.dropWhile_eq_nil_iff.2 (List.all_eq_true.1 h)
  have hne : (toJson R.floats m).isEmpty = false := by
    obtain ⟨l, hl⟩ := toJson_cons R.floats m
    rw [hl]
    rfl
  simp only [readLine, strip_append_toJson, hdrop, List.nil_append, hne, Bool.false_eq_true, if_false, loads_toJson,
    fromDict_members]

theorem readLine_toJson (R : LogReader) (m : Message) : R.readLine (toJson R.floats m) = .message m := by
  have hblank : ([] : List Char).all isStripped = true := rfl
  simpa only [List.nil_append] using readLine_blank (R := R) (m := m) hblank

/-- Behind anything else it is not. -/
theorem readLine_junk {junk : List Char} (h : junk.all isStripped = false) :
    (R.readLine (junk ++ toJson R.floats m)).message? = none := by
  have hne : (junk.dropWhile isStripped ++ toJson R.floats m).isEmpty = false := by
    obtain ⟨l, hl⟩ := toJson_cons R.floats m
    rw [hl]
    simp
  obtain ⟨x, hx, hxs⟩ : ∃ x ∈ junk.dropWhile isStripped, isStripped x = false := by
    cases hd : junk.dropWhile isStripped with
    | nil =>
      rw [List.all_eq_true.2 (List.dropWhile_eq_nil_iff.1 hd)] at h
      cases h
    | cons x l =>
      have hhead := List.head?_dropWhile_not isStripped junk
      rw [hd] at hhead
      exact ⟨x, by simp, by simpa using hhead⟩
  have hblank : isBlank x = false := Bool.eq_false_iff.2 fun hb => by
    rw [isStripped_of_isBlank hb] at hxs
    cases hxs
  obtain ⟨l, hl⟩ := toJson_cons R.floats m
  have hnone : loads (junk.dropWhile isStripped ++ toJson R.floats m) = none :=
    loads_append (by simp) (written_members R.floats m) (by unfold Ordinary; decide) hl ⟨x, hx, hblank⟩
  simp only [readLine, strip_append_toJson, hne, Bool.false_eq_true, if_false, hnone]
  rfl

/-- The messages of the log. -/
def messages (R : LogReader) (bytes : List UInt8) : List Message := (R.readLog bytes).filterMap LogLine.message?

theorem messages_of_readLines {bytes : List UInt8} {lines : List (List Char)} {whole : Bool}
    (h : readLines R.chunk bytes = (lines, whole)) :
    R.messages bytes = (lines.map R.readLine).filterMap LogLine.message? := by
  rw [messages, readLog, h, List.filterMap_append]
  cases whole <;> simp [LogLine.message?]

theorem exists_toJson_eq_cons (F : FloatText) (m : Message) : ∃ c cs, toJson F m = c :: cs ∧ c.toNat < 128 := by
  obtain ⟨cs, hcs⟩ := toJson_cons F m
  exact ⟨_, _, hcs, by decide⟩

theorem readLines_line (R : LogReader) (m : Message) {bytes : List UInt8} {text : List Char}
    (h : decode bytes = some text) : ∃ ended,
    readLines R.chunk bytes = (if (tail text).isEmpty then ended else ended ++ [tail text], true) ∧
      readLines R.chunk (bytes ++ R.line m) = (ended ++ [tail text ++ toJson R.floats m], true) := by
  obtain ⟨c, cs, hcs, -⟩ := exists_toJson_eq_cons R.floats m
  rw [line, hcs]
  exact readLines_append R.chunk h (hcs ▸ plain_toJson R.floats m)

/-- **A message appended behind a line ending, or behind blanks, is read.** -/
theorem messages_append {bytes : List UInt8} (h : endsCleanly bytes = true) :
    R.messages (bytes ++ R.line m) = R.messages bytes ++ [m] := by
  unfold endsCleanly at h
  split at h
  · next text htext =>
    obtain ⟨ended, hold, hnew⟩ := R.readLines_line m htext
    rw [messages_of_readLines hnew, messages_of_readLines hold]
    have htail : R.readLine (tail text) = .blank := by
      have hdrop : (tail text).dropWhile isStripped = [] := List.dropWhile_eq_nil_iff.2 (List.all_eq_true.1 h)
      simp only [readLine, strip, hdrop]
      rfl
    have hlines : ((if (tail text).isEmpty then ended else ended ++ [tail text]).map R.readLine).filterMap
        LogLine.message? = (ended.map R.readLine).filterMap LogLine.message? := by
      split
      · rfl
      · simp [htail, LogLine.message?]
    rw [hlines, List.map_append, List.filterMap_append]
    simp [readLine_blank h, LogLine.message?]
  · cases h

/-- **Behind anything else it is not read**, and nothing else comes up. -/
theorem messages_append_torn {bytes : List UInt8} (h : endsCleanly bytes = false) {m' : Message}
    (hm' : m' ∈ R.messages (bytes ++ R.line m)) : m' ∈ R.messages bytes := by
  unfold endsCleanly at h
  split at h
  · next text htext =>
    obtain ⟨ended, hold, hnew⟩ := R.readLines_line m htext
    rw [messages_of_readLines hnew, List.map_append, List.filterMap_append] at hm'
    simp only [List.map_cons, List.map_nil, List.filterMap_cons, readLine_junk h, List.filterMap_nil,
      List.append_nil] at hm'
    rw [messages_of_readLines hold]
    split
    · exact hm'
    · rw [List.map_append, List.filterMap_append]
      exact List.mem_append_left _ hm'
  · next hnone =>
    obtain ⟨c, cs, hcs, hc⟩ := exists_toJson_eq_cons R.floats m
    obtain ⟨hold, hnew, hinit⟩ := mem_readLines_append R.chunk_pos hnone hc (cs ++ ['\n'])
    have hline : encode (c :: (cs ++ ['\n'])) = R.line m := by rw [line, hcs]; rfl
    rw [hline] at hnew hinit
    rw [messages_of_readLines (Prod.ext rfl rfl)] at hm' ⊢
    exact ((hinit.map R.readLine).filterMap LogLine.message?).subset hm'

/-- The messages that are written are read. -/
theorem readLog_lines (ms : List Message) : R.readLog (ms.flatMap R.line) = ms.map .message := by
  have hbytes : ms.flatMap R.line = (ms.map (toJson R.floats)).flatMap fun l => encode (l ++ ['\n']) := by
    rw [List.flatMap_map]
    rfl
  have hread : readLines R.chunk (ms.flatMap R.line) = (ms.map (toJson R.floats), true) := by
    rw [hbytes]
    refine readLines_lines R.chunk fun l hl => ?_
    obtain ⟨m, -, rfl⟩ := List.mem_map.1 hl
    exact plain_toJson R.floats m
  rw [readLog, hread]
  simp [readLine_toJson]

/-- Behind a line ending the log gets one line more. -/
theorem readLog_append {bytes : List UInt8} {text : List Char} (h : decode bytes = some text) (ht : tail text = []) :
    R.readLog (bytes ++ R.line m) = R.readLog bytes ++ [.message m] := by
  obtain ⟨ended, hold, hnew⟩ := R.readLines_line m h
  rw [ht] at hold hnew
  simp only [List.isEmpty_nil, if_true, List.nil_append] at hold hnew
  rw [readLog, readLog, hold, hnew, List.map_append, List.map_singleton, readLine_toJson]
  simp

end LogReader

end PeerChat.History
