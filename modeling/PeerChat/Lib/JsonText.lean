/-
JSON texts as a scripting language reads and writes them. `loads` is a
pushdown machine that takes the text a character at a time, `Doc.text`
writes a document with everything outside printable ASCII escaped.

`loads_text`: what is written is read back. `loads_append`: a text that
begins like a written object is not read behind anything but blanks.
`within_loads`: a string of the document is no longer than the text.

A string is the list of its code points, since an escape may name half of
a surrogate pair. A number is kept as it is written.
-/
import PeerChat.Lib.Decimal
import Mathlib.Data.List.Basic

namespace Lib.JsonText

abbrev CodePoints := List Nat

def codePoints (s : String) : CodePoints := s.toList.map Char.toNat

/-- The text with these code points, where none is half of a pair. -/
def ofCodePoints (s : CodePoints) : Option String :=
  if s.all fun n => decide (Nat.isValidChar n) then some (String.ofList (s.map Char.ofNat)) else none

/-- A decoded document. The members of an object are as they are written,
the last one of a key counts. -/
inductive Doc
  | null
  | bool (b : Bool)
  | num (literal : List Char)
  | str (s : CodePoints)
  | arr (l : List Doc)
  | obj (l : List (CodePoints × Doc))
  deriving Repr

/-- The value at a key. -/
def get? (l : List (CodePoints × Doc)) (k : CodePoints) : Option Doc := l.reverse.lookup k

/-! ## Reading -/

/-- The blanks between tokens. -/
def isBlank (c : Char) : Bool := c = ' ' || c = '\t' || c = '\n' || c = '\r'

def isDigit (c : Char) : Bool := '0' ≤ c && c ≤ '9'

def hexVal (c : Char) : Option Nat :=
  if '0' ≤ c && c ≤ '9' then some (c.toNat - 48)
  else if 'a' ≤ c && c ≤ 'f' then some (c.toNat - 87)
  else if 'A' ≤ c && c ≤ 'F' then some (c.toNat - 55)
  else none

/-- Where in a number the reader is. -/
inductive Num
  | minus
  | zero
  | int
  | point
  | frac
  | exp
  | expSign
  | expDigits
  deriving DecidableEq, Repr

namespace Num

def start (c : Char) : Option Num :=
  if c = '-' then some minus else if c = '0' then some zero else if isDigit c then some int else none

def next : Num → Char → Option Num
  | minus, c => if c = '0' then some zero else if isDigit c then some int else none
  | zero, c => if c = '.' then some point else if c = 'e' ∨ c = 'E' then some exp else none
  | int, c =>
    if isDigit c then some int else if c = '.' then some point else if c = 'e' ∨ c = 'E' then some exp else none
  | point, c => if isDigit c then some frac else none
  | frac, c => if isDigit c then some frac else if c = 'e' ∨ c = 'E' then some exp else none
  | exp, c => if isDigit c then some expDigits else if c = '+' ∨ c = '-' then some expSign else none
  | expSign, c => if isDigit c then some expDigits else none
  | expDigits, c => if isDigit c then some expDigits else none

/-- A number may end here. -/
def ends : Num → Bool
  | zero | int | frac | expDigits => true
  | minus | point | exp | expSign => false

def feed : List Char → Num → Option Num
  | [], a => some a
  | c :: cs, a => (a.next c).bind (feed cs)

end Num

/-- The literal of a number. -/
def isNumber : List Char → Bool
  | [] => false
  | c :: cs => ((Num.start c).bind (Num.feed cs)).any Num.ends

/-- The words of the language, with those for the floats that are none. -/
inductive Word
  | null
  | true
  | false
  | nan
  | infinity
  | minusInfinity
  deriving DecidableEq, Repr

namespace Word

def chars : Word → List Char
  | null => "null".toList
  | true => "true".toList
  | false => "false".toList
  | nan => "NaN".toList
  | infinity => "Infinity".toList
  | minusInfinity => "-Infinity".toList

def doc : Word → Doc
  | null => .null
  | true => .bool Bool.true
  | false => .bool Bool.false
  | w => .num w.chars

end Word

/-- A container in which a value is due, with what it holds so far, the
last first. -/
inductive Frame
  | item (items : List Doc)
  | member (members : List (CodePoints × Doc)) (key : CodePoints)

/-- What the reader is at. A string is a key when the members before it are
given; what has been read of it is the last first. -/
inductive Mode
  | value
  | first
  | firstKey
  | key (members : List (CodePoints × Doc))
  | colon (members : List (CodePoints × Doc)) (key : CodePoints)
  | nextItem (items : List Doc)
  | nextMember (members : List (CodePoints × Doc))
  | top (d : Doc)
  | str (members : Option (List (CodePoints × Doc))) (s : CodePoints)
  | escape (members : Option (List (CodePoints × Doc))) (s : CodePoints)
  | hex (members : Option (List (CodePoints × Doc))) (s : CodePoints) (n left : Nat)
  | num (a : Num) (literal : List Char)
  | word (w : Word) (i : Nat)

structure State where
  stack : List Frame
  mode : Mode

/-- The reader has a whole value. -/
def complete : List Frame → Doc → State
  | [], d => ⟨[], .top d⟩
  | .item items :: stack, d => ⟨stack, .nextItem (d :: items)⟩
  | .member members key :: stack, d => ⟨stack, .nextMember ((key, d) :: members)⟩

/-- The first character of a value. -/
def begin (stack : List Frame) (c : Char) : Option State :=
  if c = '"' then some ⟨stack, .str none []⟩
  else if c = '[' then some ⟨stack, .first⟩
  else if c = '\x7b' then some ⟨stack, .firstKey⟩
  else if c = 'n' then some ⟨stack, .word .null 1⟩
  else if c = 't' then some ⟨stack, .word .true 1⟩
  else if c = 'f' then some ⟨stack, .word .false 1⟩
  else if c = 'N' then some ⟨stack, .word .nan 1⟩
  else if c = 'I' then some ⟨stack, .word .infinity 1⟩
  else (Num.start c).map fun a => ⟨stack, .num a [c]⟩

/-- The character after a value. -/
def follow (σ : State) (c : Char) : Option State :=
  match σ.mode with
  | .nextItem items =>
    if isBlank c then some σ
    else if c = ',' then some ⟨.item items :: σ.stack, .value⟩
    else if c = ']' then some (complete σ.stack (.arr items.reverse))
    else none
  | .nextMember members =>
    if isBlank c then some σ
    else if c = ',' then some ⟨σ.stack, .key members⟩
    else if c = '\x7d' then some (complete σ.stack (.obj members.reverse))
    else none
  | .top _ => if isBlank c then some σ else none
  | _ => none

/-- An escape for half of a surrogate pair joins with the other half. -/
def pushUnit (s : CodePoints) (u : Nat) : CodePoints :=
  match s with
  | h :: t =>
    if 0xd800 ≤ h ∧ h < 0xdc00 ∧ 0xdc00 ≤ u ∧ u < 0xe000 then (0x10000 + (h - 0xd800) * 0x400 + (u - 0xdc00)) :: t
    else u :: s
  | [] => [u]

def unescape (c : Char) : Option Nat :=
  if c = '"' then some 34
  else if c = '\\' then some 92
  else if c = '/' then some 47
  else if c = 'b' then some 8
  else if c = 'f' then some 12
  else if c = 'n' then some 10
  else if c = 'r' then some 13
  else if c = 't' then some 9
  else none

/-- The end of a string. -/
def endString (stack : List Frame) (members : Option (List (CodePoints × Doc))) (s : CodePoints) : State :=
  match members with
  | some members => ⟨stack, .colon members s.reverse⟩
  | none => complete stack (.str s.reverse)

/-- One character; `none` where the text is no JSON. -/
def step (σ : State) (c : Char) : Option State :=
  match σ.mode with
  | .value => if isBlank c then some σ else begin σ.stack c
  | .first =>
    if isBlank c then some σ
    else if c = ']' then some (complete σ.stack (.arr []))
    else begin (.item [] :: σ.stack) c
  | .firstKey =>
    if isBlank c then some σ
    else if c = '"' then some ⟨σ.stack, .str (some []) []⟩
    else if c = '\x7d' then some (complete σ.stack (.obj []))
    else none
  | .key members =>
    if isBlank c then some σ
    else if c = '"' then some ⟨σ.stack, .str (some members) []⟩
    else none
  | .colon members key =>
    if isBlank c then some σ
    else if c = ':' then some ⟨.member members key :: σ.stack, .value⟩
    else none
  | .nextItem _ | .nextMember _ | .top _ => follow σ c
  | .str members s =>
    if c = '"' then some (endString σ.stack members s)
    else if c = '\\' then some ⟨σ.stack, .escape members s⟩
    else if c.toNat < 32 then none
    else some ⟨σ.stack, .str members (c.toNat :: s)⟩
  | .escape members s =>
    if c = 'u' then some ⟨σ.stack, .hex members s 0 3⟩
    else (unescape c).map fun n => ⟨σ.stack, .str members (n :: s)⟩
  | .hex members s n left =>
    (hexVal c).map fun v =>
      match left with
      | 0 => ⟨σ.stack, .str members (pushUnit s (16 * n + v))⟩
      | left + 1 => ⟨σ.stack, .hex members s (16 * n + v) left⟩
  | .num a literal =>
    match a.next c with
    | some b => some ⟨σ.stack, .num b (c :: literal)⟩
    | none =>
      if a.ends then follow (complete σ.stack (.num literal.reverse)) c
      else if a = .minus ∧ c = 'I' then some ⟨σ.stack, .word .minusInfinity 2⟩
      else none
  | .word w i =>
    if w.chars[i]? = some c then
      if i + 1 = w.chars.length then some (complete σ.stack w.doc) else some ⟨σ.stack, .word w (i + 1)⟩
    else none

def feed : List Char → State → Option State
  | [], σ => some σ
  | c :: cs, σ => (step σ c).bind (feed cs)

/-- The document that has been read at the end of the text. -/
def finish (σ : State) : Option Doc :=
  match σ.mode with
  | .top d => some d
  | .num a literal => if σ.stack.isEmpty && a.ends then some (.num literal.reverse) else none
  | _ => none

/-- `json.loads`, `none` for a `JSONDecodeError`. -/
def loads (text : List Char) : Option Doc := (feed text ⟨[], .value⟩).bind finish

/-! ## Writing -/

def hexDigit (n : Nat) : Char := Char.ofNat (if n < 10 then 48 + n else 87 + n)

/-- `\uXXXX`. -/
def unit (u : Nat) : List Char :=
  ['\\', 'u', hexDigit (u / 4096 % 16), hexDigit (u / 256 % 16), hexDigit (u / 16 % 16), hexDigit (u % 16)]

/-- One code point of a string. -/
def quoteChar (n : Nat) : List Char :=
  if n = 34 then ['\\', '"']
  else if n = 92 then ['\\', '\\']
  else if n = 10 then ['\\', 'n']
  else if n = 13 then ['\\', 'r']
  else if n = 9 then ['\\', 't']
  else if n = 8 then ['\\', 'b']
  else if n = 12 then ['\\', 'f']
  else if 32 ≤ n ∧ n ≤ 126 then [Char.ofNat n]
  else if n < 0x10000 then unit n
  else unit (0xd800 + (n - 0x10000) / 0x400) ++ unit (0xdc00 + (n - 0x10000) % 0x400)

/-- The code points with an escape of two characters. -/
def escaped : List Nat := [34, 92, 10, 13, 9, 8, 12]

theorem quoteChar_of_notMem {n : Nat} (h : n ∉ escaped) :
    quoteChar n = if 32 ≤ n ∧ n ≤ 126 then [Char.ofNat n] else if n < 0x10000 then unit n
      else unit (0xd800 + (n - 0x10000) / 0x400) ++ unit (0xdc00 + (n - 0x10000) % 0x400) := by
  simp only [escaped, List.mem_cons, List.not_mem_nil, or_false, not_or] at h
  obtain ⟨h34, h92, h10, h13, h9, h8, h12⟩ := h
  rw [quoteChar, if_neg h34, if_neg h92, if_neg h10, if_neg h13, if_neg h9, if_neg h8, if_neg h12]

def quote (s : CodePoints) : List Char := '"' :: (s.flatMap quoteChar ++ ['"'])

section Text

variable (pad : List Char)

mutual

/-- `json.dumps`, with `pad` behind each comma and colon. -/
def Doc.text : Doc → List Char
  | .null => Word.null.chars
  | .bool b => if b then Word.true.chars else Word.false.chars
  | .num literal => literal
  | .str s => quote s
  | .arr l => '[' :: (Doc.items l ++ [']'])
  | .obj l => '\x7b' :: (Doc.members l ++ ['\x7d'])

def Doc.items : List Doc → List Char
  | [] => []
  | [d] => d.text
  | d :: l => d.text ++ ',' :: (pad ++ Doc.items l)

def Doc.members : List (CodePoints × Doc) → List Char
  | [] => []
  | [p] => Doc.member p
  | p :: l => Doc.member p ++ ',' :: (pad ++ Doc.members l)

def Doc.member : CodePoints × Doc → List Char
  | (k, d) => quote k ++ ':' :: (pad ++ d.text)

end

end Text

/-! ## Reading what was written -/

theorem feed_append : ∀ (a b : List Char) (σ : State), feed (a ++ b) σ = (feed a σ).bind (feed b)
  | [], _, _ => rfl
  | c :: a, b, σ => by
    simp only [List.cons_append, feed]
    cases step σ c with
    | none => rfl
    | some σ' => exact feed_append a b σ'

theorem feed_cons_of {σ σ' : State} {c : Char} (h : step σ c = some σ') (cs : List Char) :
    feed (c :: cs) σ = feed cs σ' := by
  simp [feed, h]

/-- Blanks change nothing before a value or a key. -/
theorem feed_blanks {σ : State} (h : ∀ c, isBlank c = true → step σ c = some σ) : ∀ {pad : List Char},
    (∀ c ∈ pad, isBlank c = true) → feed pad σ = some σ
  | [], _ => rfl
  | c :: pad, hp => by
    rw [feed_cons_of (h c (hp c (by simp)))]
    exact feed_blanks h fun x hx => hp x (by simp [hx])

theorem toNat_ofNat_ascii : ∀ n, n < 127 → (Char.ofNat n).toNat = n := by decide

theorem hexVal_hexDigit : ∀ n, n < 16 → hexVal (hexDigit n) = some n := by decide

section Strings

variable (stack : List Frame) (members : Option (List (CodePoints × Doc))) (s : CodePoints)

variable {stack members s} in
theorem step_hex {c : Char} {v : Nat} (hc : hexVal c = some v) (n left : Nat) :
    step ⟨stack, .hex members s n (left + 1)⟩ c = some ⟨stack, .hex members s (16 * n + v) left⟩ := by
  simp [step, hc]

variable {stack members s} in
theorem step_hex_last {c : Char} {v : Nat} (hc : hexVal c = some v) (n : Nat) :
    step ⟨stack, .hex members s n 0⟩ c = some ⟨stack, .str members (pushUnit s (16 * n + v))⟩ := by
  simp [step, hc]

theorem feed_unit {u : Nat} (hu : u < 0x10000) :
    feed (unit u) ⟨stack, .str members s⟩ = some ⟨stack, .str members (pushUnit s u)⟩ := by
  have h3 := hexVal_hexDigit (u / 4096 % 16) (by omega)
  have h2 := hexVal_hexDigit (u / 256 % 16) (by omega)
  have h1 := hexVal_hexDigit (u / 16 % 16) (by omega)
  have h0 := hexVal_hexDigit (u % 16) (by omega)
  have hsum : 16 * (16 * (16 * (16 * 0 + u / 4096 % 16) + u / 256 % 16) + u / 16 % 16) + u % 16 = u := by omega
  have hu' : step ⟨stack, .escape members s⟩ 'u' = some ⟨stack, .hex members s 0 3⟩ := rfl
  rw [unit, feed_cons_of rfl, feed_cons_of hu', feed_cons_of (step_hex h3 0 2), feed_cons_of (step_hex h2 _ 1),
    feed_cons_of (step_hex h1 _ 0), feed_cons_of (step_hex_last h0 _), hsum, feed]

/-- A code point that a text can hold as a character. -/
def Scalar (n : Nat) : Prop := n < 0xd800 ∨ 0xe000 ≤ n ∧ n < 0x110000

theorem pushUnit_of_not_low {u : Nat} (h : ¬ (0xdc00 ≤ u ∧ u < 0xe000)) : pushUnit s u = u :: s := by
  unfold pushUnit
  cases s with
  | nil => rfl
  | cons x t => exact if_neg fun hx => h hx.2.2

theorem feed_quoteChar {n : Nat} (hn : Scalar n) :
    feed (quoteChar n) ⟨stack, .str members s⟩ = some ⟨stack, .str members (n :: s)⟩ := by
  by_cases hshort : n ∈ escaped
  · simp only [escaped, List.mem_cons, List.not_mem_nil, or_false] at hshort
    rcases hshort with rfl | rfl | rfl | rfl | rfl | rfl | rfl <;> rfl
  rw [quoteChar_of_notMem hshort]
  split
  · next hascii =>
    have hval := toNat_ofNat_ascii n (by omega)
    have hq : Char.ofNat n ≠ '"' := fun he => hshort (by rw [← hval, he]; decide)
    have hb : Char.ofNat n ≠ '\\' := fun he => hshort (by rw [← hval, he]; decide)
    simp only [feed, step, hq, hb, hval, if_false]
    rw [if_neg (by omega)]
    rfl
  split
  · next hsmall =>
    rw [feed_unit stack members s hsmall, pushUnit_of_not_low s (by unfold Scalar at hn; omega)]
  · next hbig =>
    have hlt : n < 0x110000 := by unfold Scalar at hn; omega
    rw [feed_append, feed_unit stack members s (by omega), Option.bind_some, pushUnit_of_not_low s (by omega),
      feed_unit stack members _ (by omega), pushUnit, if_pos (by omega)]
    have : 0x10000 + (0xd800 + (n - 0x10000) / 0x400 - 0xd800) * 0x400 +
        (0xdc00 + (n - 0x10000) % 0x400 - 0xdc00) = n := by omega
    rw [this]

theorem feed_chars : ∀ {k : CodePoints} (s : CodePoints), (∀ n ∈ k, Scalar n) →
    feed (k.flatMap quoteChar) ⟨stack, .str members s⟩ = some ⟨stack, .str members (k.reverse ++ s)⟩
  | [], _, _ => rfl
  | n :: k, s, h => by
    rw [List.flatMap_cons, feed_append, feed_quoteChar stack members s (h n (by simp)), Option.bind_some,
      feed_chars (n :: s) fun x hx => h x (by simp [hx])]
    simp

theorem feed_quoted {k : CodePoints} (h : ∀ n ∈ k, Scalar n) :
    feed (k.flatMap quoteChar ++ ['"']) ⟨stack, .str members []⟩ = some (endString stack members k.reverse) := by
  rw [feed_append, feed_chars stack members [] h, Option.bind_some, feed_cons_of rfl]
  simp [feed]

end Strings

section Values

/-- A document whose text is one: its strings can be written and its
numbers are numbers. -/
inductive Doc.Written : Doc → Prop
  | null : Written .null
  | bool (b : Bool) : Written (.bool b)
  | num {literal : List Char} : isNumber literal = true → Written (.num literal)
  | str {s : CodePoints} : (∀ n ∈ s, Scalar n) → Written (.str s)
  | arr {l : List Doc} : (∀ d ∈ l, Written d) → Written (.arr l)
  | obj {l : List (CodePoints × Doc)} : (∀ p ∈ l, ∀ n ∈ p.1, Scalar n) → (∀ p ∈ l, Written p.2) → Written (.obj l)

/-- The reader has taken the whole of a value; of a number, it sees that at
the next character only. -/
def Taken (stack : List Frame) (d : Doc) (σ : State) : Prop :=
  σ = complete stack d ∨ ∃ a literal, a.ends = true ∧ d = .num literal.reverse ∧ σ = ⟨stack, .num a literal⟩

theorem Taken.finish {d : Doc} {σ : State} (h : Taken [] d σ) : finish σ = some d := by
  rcases h with rfl | ⟨a, literal, ha, rfl, rfl⟩
  · rfl
  · simp [JsonText.finish, ha]

theorem step_complete (stack : List Frame) (d : Doc) (c : Char) :
    step (complete stack d) c = follow (complete stack d) c := by
  cases stack with
  | nil => rfl
  | cons f stack => cases f <;> rfl

/-- No number goes on with this character. -/
def Delimits (c : Char) : Prop := ∀ a : Num, a.next c = none

theorem delimits_of {c : Char} (hd : isDigit c = false) (hp : c ≠ '.') (he : c ≠ 'e') (hE : c ≠ 'E') (hs : c ≠ '+')
    (hm : c ≠ '-') : Delimits c := by
  have h0 : c ≠ '0' := fun h => by rw [h] at hd; exact absurd hd (by decide)
  intro a
  cases a <;> simp [Num.next, hd, hp, he, hE, hs, hm, h0]

theorem Taken.step {stack : List Frame} {d : Doc} {σ : State} (h : Taken stack d σ) {c : Char} (hc : Delimits c) :
    JsonText.step σ c = follow (complete stack d) c := by
  rcases h with rfl | ⟨a, literal, ha, rfl, rfl⟩
  · exact step_complete stack d c
  · simp [JsonText.step, hc a, ha]

theorem feed_word (stack : List Frame) (w : Word) : ∀ {i : Nat} {cs : List Char}, w.chars.drop i = cs → cs ≠ [] →
    feed cs ⟨stack, .word w i⟩ = some (complete stack w.doc)
  | i, [], _, h => absurd rfl h
  | i, [c], h, _ => by
    have hget : w.chars[i]? = some c := by rw [← List.head?_drop, h]; rfl
    have hlen : i + 1 = w.chars.length := by
      have := congrArg List.length h
      simp only [List.length_drop, List.length_cons, List.length_nil] at this
      omega
    simp [feed, step, hget, hlen]
  | i, c :: c' :: cs, h, _ => by
    have hget : w.chars[i]? = some c := by rw [← List.head?_drop, h]; rfl
    have hlen : i + 1 ≠ w.chars.length := by
      have := congrArg List.length h
      simp only [List.length_drop, List.length_cons] at this
      omega
    have hdrop : w.chars.drop (i + 1) = c' :: cs := by rw [← List.tail_drop, h]; rfl
    have hstep : step ⟨stack, .word w i⟩ c = some ⟨stack, .word w (i + 1)⟩ := by simp [step, hget, hlen]
    rw [feed_cons_of hstep]
    exact feed_word stack w hdrop (by simp)

theorem feed_num (stack : List Frame) : ∀ {cs : List Char} {a b : Num} (literal : List Char),
    Num.feed cs a = some b → feed cs ⟨stack, .num a literal⟩ = some ⟨stack, .num b (cs.reverse ++ literal)⟩
  | [], a, b, literal, h => by cases h; rfl
  | c :: cs, a, b, literal, h => by
    cases hn : a.next c with
    | none => simp [Num.feed, hn] at h
    | some a' =>
      have h' : Num.feed cs a' = some b := by simpa [Num.feed, hn] using h
      have hstep : step ⟨stack, .num a literal⟩ c = some ⟨stack, .num a' (c :: literal)⟩ := by simp [step, hn]
      rw [feed_cons_of hstep, feed_num stack (c :: literal) h']
      simp

theorem isNumber_cons {literal : List Char} (h : isNumber literal = true) : ∃ c cs a b, literal = c :: cs ∧
    Num.start c = some a ∧ Num.feed cs a = some b ∧ b.ends = true := by
  cases literal with
  | nil => cases h
  | cons c cs =>
    cases ha : Num.start c with
    | none => simp [isNumber, ha] at h
    | some a =>
      cases hb : Num.feed cs a with
      | none => simp [isNumber, ha, hb] at h
      | some b => exact ⟨c, cs, a, b, rfl, ha, hb, by simpa [isNumber, ha, hb] using h⟩

/-- A number begins with a sign or a digit. -/
theorem begin_of_start {c : Char} {a : Num} (h : Num.start c = some a) (stack : List Frame) :
    isBlank c = false ∧ c ≠ ']' ∧ begin stack c = some ⟨stack, .num a [c]⟩ := by
  have hne {x : Char} (hx : Num.start x = none) : c ≠ x := fun he => by rw [he, hx] at h; cases h
  refine ⟨?_, hne (by decide), ?_⟩
  · simp [isBlank, hne (x := ' ') (by decide), hne (x := '\t') (by decide), hne (x := '\n') (by decide),
      hne (x := '\r') (by decide)]
  · simp only [begin, hne (x := '"') (by decide), hne (x := '[') (by decide), hne (x := '\x7b') (by decide),
      hne (x := 'n') (by decide), hne (x := 't') (by decide), hne (x := 'f') (by decide), hne (x := 'N') (by decide),
      hne (x := 'I') (by decide), if_false, h, Option.map_some]

variable {pad : List Char}

/-- A text begins with a character at which a value begins. -/
theorem text_cons {d : Doc} (h : d.Written) : ∃ c cs, d.text pad = c :: cs ∧ isBlank c = false ∧ c ≠ ']' := by
  cases h with
  | null => exact ⟨'n', _, rfl, by decide, by decide⟩
  | bool b =>
    cases b with
    | true => exact ⟨'t', _, rfl, by decide, by decide⟩
    | false => exact ⟨'f', _, rfl, by decide, by decide⟩
  | num hn =>
    obtain ⟨c, cs, a, b, rfl, ha, -, -⟩ := isNumber_cons hn
    obtain ⟨hb, hne, -⟩ := begin_of_start ha []
    exact ⟨c, cs, by rw [Doc.text], hb, hne⟩
  | str hs => exact ⟨'"', _, by rw [Doc.text, quote], by decide, by decide⟩
  | arr hl => exact ⟨'[', _, by rw [Doc.text], by decide, by decide⟩
  | obj hk hl => exact ⟨'\x7b', _, by rw [Doc.text], by decide, by decide⟩

theorem feed_num_text (stack : List Frame) {literal : List Char} (h : isNumber literal = true) :
    ∃ σ, feed literal ⟨stack, .value⟩ = some σ ∧ Taken stack (.num literal) σ := by
  obtain ⟨c, cs, a, b, rfl, ha, hfeed, hb⟩ := isNumber_cons h
  obtain ⟨hblank, -, hbegin⟩ := begin_of_start ha stack
  have hstep : step ⟨stack, .value⟩ c = some ⟨stack, .num a [c]⟩ := by simp [step, hblank, hbegin]
  refine ⟨⟨stack, .num b (cs.reverse ++ [c])⟩, ?_, .inr ⟨b, cs.reverse ++ [c], hb, by simp, rfl⟩⟩
  rw [feed_cons_of hstep, feed_num stack [c] hfeed]

theorem feed_key {stack : List Frame} {members : List (CodePoints × Doc)} {k : CodePoints} (h : ∀ n ∈ k, Scalar n)
    (hpad : ∀ c ∈ pad, isBlank c = true) (cs : List Char) :
    feed (quote k ++ ':' :: (pad ++ cs)) ⟨stack, .key members⟩ = feed cs ⟨.member members k :: stack, .value⟩ := by
  have hq : step ⟨stack, .key members⟩ '"' = some ⟨stack, .str (some members) []⟩ := rfl
  have hc : step ⟨stack, .colon members k⟩ ':' = some ⟨.member members k :: stack, .value⟩ := rfl
  have hb : feed pad ⟨.member members k :: stack, .value⟩ = some ⟨.member members k :: stack, .value⟩ :=
    feed_blanks (fun c hc => by simp [step, hc]) hpad
  rw [quote, List.cons_append, feed_cons_of hq, feed_append, feed_quoted stack _ h, Option.bind_some, endString,
    List.reverse_reverse, feed_cons_of hc, feed_append, hb, Option.bind_some]

mutual

/-- The text of a document is taken as a value. -/
theorem feed_text (hpad : ∀ c ∈ pad, isBlank c = true) : ∀ (d : Doc), d.Written → ∀ stack : List Frame,
    ∃ σ, feed (d.text pad) ⟨stack, .value⟩ = some σ ∧ Taken stack d σ
  | .null, _, stack => ⟨_, feed_word stack .null (i := 1) rfl (by decide), .inl rfl⟩
  | .bool true, _, stack => ⟨_, feed_word stack .true (i := 1) rfl (by decide), .inl rfl⟩
  | .bool false, _, stack => ⟨_, feed_word stack .false (i := 1) rfl (by decide), .inl rfl⟩
  | .num literal, .num h, stack => by
    rw [Doc.text]
    exact feed_num_text stack h
  | .str s, .str h, stack => by
    have hq : step ⟨stack, .value⟩ '"' = some ⟨stack, .str none []⟩ := rfl
    refine ⟨complete stack (.str s), ?_, .inl rfl⟩
    rw [Doc.text, quote, feed_cons_of hq, feed_quoted stack none h, endString, List.reverse_reverse]
  | .arr [], _, stack => ⟨complete stack (.arr []), rfl, .inl rfl⟩
  | .arr (d :: l), .arr h, stack => by
    have hopen : step ⟨stack, .value⟩ '[' = some ⟨stack, .first⟩ := rfl
    obtain ⟨c, cs, hc, hblank, hne⟩ : ∃ c cs, d.text pad = c :: cs ∧ isBlank c = false ∧ c ≠ ']' :=
      text_cons (h d (by simp))
    refine ⟨complete stack (.arr (d :: l)), ?_, .inl rfl⟩
    have hitems := feed_items hpad (d :: l) h [] stack (by simp)
    -- the first item is read as any other one
    have hfirst : feed (Doc.items pad (d :: l) ++ [']']) ⟨stack, .first⟩ =
        feed (Doc.items pad (d :: l) ++ [']']) ⟨.item [] :: stack, .value⟩ := by
      have hhead : ∃ cs, Doc.items pad (d :: l) ++ [']'] = c :: cs := by
        cases l with
        | nil => exact ⟨cs ++ [']'], by simp [Doc.items, hc]⟩
        | cons d' l => exact ⟨_, by rw [Doc.items, hc]; rfl; simp⟩
      obtain ⟨cs', hcs'⟩ := hhead
      have hstep : step ⟨stack, .first⟩ c = step ⟨.item [] :: stack, .value⟩ c := by simp [step, hblank, hne]
      rw [hcs', feed, feed, hstep]
    rw [Doc.text, feed_cons_of hopen, hfirst, hitems, List.reverse_nil, List.nil_append]
  | .obj [], _, stack => ⟨complete stack (.obj []), rfl, .inl rfl⟩
  | .obj (p :: l), .obj hk h, stack => by
    have hopen : step ⟨stack, .value⟩ '\x7b' = some ⟨stack, .firstKey⟩ := rfl
    refine ⟨complete stack (.obj (p :: l)), ?_, .inl rfl⟩
    have hmembers := feed_members hpad (p :: l) hk h [] stack (by simp)
    have hfirst : feed (Doc.members pad (p :: l) ++ ['\x7d']) ⟨stack, .firstKey⟩ =
        feed (Doc.members pad (p :: l) ++ ['\x7d']) ⟨stack, .key []⟩ := by
      obtain ⟨k, d⟩ := p
      have hhead : ∃ cs, Doc.members pad ((k, d) :: l) ++ ['\x7d'] = '"' :: cs := by
        cases l with
        | nil => exact ⟨_, by rw [Doc.members, Doc.member, quote]; rfl⟩
        | cons q l => exact ⟨_, by rw [Doc.members, Doc.member, quote]; rfl; simp⟩
      obtain ⟨cs', hcs'⟩ := hhead
      rw [hcs', feed, feed]
      rfl
    rw [Doc.text, feed_cons_of hopen, hfirst, hmembers, List.reverse_nil, List.nil_append]

theorem feed_items (hpad : ∀ c ∈ pad, isBlank c = true) : ∀ (l : List Doc), (∀ d ∈ l, d.Written) →
    ∀ (items : List Doc) (stack : List Frame), l ≠ [] →
    feed (Doc.items pad l ++ [']']) ⟨.item items :: stack, .value⟩ = some (complete stack (.arr (items.reverse ++ l)))
  | [], _, _, _, hne => absurd rfl hne
  | [d], h, items, stack, _ => by
    obtain ⟨σ, hσ, ht⟩ := feed_text hpad d (h d (by simp)) (.item items :: stack)
    have hclose : step σ ']' = some (complete stack (.arr (d :: items).reverse)) :=
      (ht.step (delimits_of (by decide) (by decide) (by decide) (by decide) (by decide) (by decide))).trans rfl
    rw [Doc.items, feed_append, hσ, Option.bind_some, feed_cons_of hclose]
    simp [feed]
  | d :: d' :: l, h, items, stack, _ => by
    obtain ⟨σ, hσ, ht⟩ := feed_text hpad d (h d (by simp)) (.item items :: stack)
    have hcomma : step σ ',' = some ⟨.item (d :: items) :: stack, .value⟩ :=
      (ht.step (delimits_of (by decide) (by decide) (by decide) (by decide) (by decide) (by decide))).trans rfl
    have hb : feed pad ⟨.item (d :: items) :: stack, .value⟩ = some ⟨.item (d :: items) :: stack, .value⟩ :=
      feed_blanks (fun c hc => by simp [step, hc]) hpad
    have ih := feed_items hpad (d' :: l) (fun x hx => h x (by simp [hx])) (d :: items) stack (by simp)
    rw [Doc.items, List.append_assoc, feed_append, hσ, Option.bind_some, List.cons_append, feed_cons_of hcomma,
      List.append_assoc, feed_append, hb, Option.bind_some, ih]
    · simp
    · simp

theorem feed_members (hpad : ∀ c ∈ pad, isBlank c = true) : ∀ (l : List (CodePoints × Doc)),
    (∀ p ∈ l, ∀ n ∈ p.1, Scalar n) → (∀ p ∈ l, p.2.Written) →
    ∀ (members : List (CodePoints × Doc)) (stack : List Frame), l ≠ [] →
    feed (Doc.members pad l ++ ['\x7d']) ⟨stack, .key members⟩ = some (complete stack (.obj (members.reverse ++ l)))
  | [], _, _, _, _, hne => absurd rfl hne
  | [(k, d)], hk, h, members, stack, _ => by
    obtain ⟨σ, hσ, ht⟩ := feed_text hpad d (h (k, d) (by simp)) (.member members k :: stack)
    have hclose : step σ '\x7d' = some (complete stack (.obj ((k, d) :: members).reverse)) :=
      (ht.step (delimits_of (by decide) (by decide) (by decide) (by decide) (by decide) (by decide))).trans rfl
    rw [Doc.members, Doc.member, List.append_assoc, List.cons_append, List.append_assoc,
      feed_key (hk (k, d) (by simp)) hpad, feed_append, hσ, Option.bind_some, feed_cons_of hclose]
    simp [feed]
  | (k, d) :: p :: l, hk, h, members, stack, _ => by
    obtain ⟨σ, hσ, ht⟩ := feed_text hpad d (h (k, d) (by simp)) (.member members k :: stack)
    have hcomma : step σ ',' = some ⟨stack, .key ((k, d) :: members)⟩ :=
      (ht.step (delimits_of (by decide) (by decide) (by decide) (by decide) (by decide) (by decide))).trans rfl
    have hb : feed pad ⟨stack, .key ((k, d) :: members)⟩ = some ⟨stack, .key ((k, d) :: members)⟩ :=
      feed_blanks (fun c hc => by simp [step, hc]) hpad
    have ih := feed_members hpad (p :: l) (fun x hx => hk x (by simp [hx])) (fun x hx => h x (by simp [hx]))
      ((k, d) :: members) stack (by simp)
    rw [Doc.members, Doc.member, List.append_assoc, List.append_assoc, List.cons_append, List.append_assoc,
      feed_key (hk (k, d) (by simp)) hpad, feed_append, hσ, Option.bind_some, List.cons_append, feed_cons_of hcomma,
      List.append_assoc, feed_append, hb, Option.bind_some, ih]
    · simp
    · simp

end

/-- **What is written is read back.** -/
theorem loads_text (hpad : ∀ c ∈ pad, isBlank c = true) {d : Doc} (h : d.Written) : loads (d.text pad) = some d := by
  obtain ⟨σ, hσ, ht⟩ := feed_text hpad d h []
  rw [loads, hσ, Option.bind_some, ht.finish]

/-! ## Behind other text -/

theorem complete_ne_start (stack : List Frame) (d : Doc) : complete stack d ≠ ⟨[], .value⟩ := by
  cases stack with
  | nil => simp [complete]
  | cons f stack => cases f <;> simp [complete]

theorem follow_ne_start (σ : State) (c : Char) : follow σ c ≠ some ⟨[], .value⟩ := by
  intro h
  unfold follow at h
  repeat' split at h
  all_goals first | cases h | skip
  all_goals simp_all [complete_ne_start]

/-- What a value can begin with. -/
theorem begin_cases {stack : List Frame} {c : Char} {σ : State} (h : begin stack c = some σ) : σ.stack = stack ∧
    (σ.mode = .str none [] ∨ σ.mode = .first ∨ σ.mode = .firstKey ∨ (∃ w, σ.mode = .word w 1) ∨
      ∃ a, σ.mode = .num a [c]) := by
  simp only [begin, ite_eq_iff, Option.some.injEq, Option.map_eq_some_iff] at h
  rcases h with ⟨-, rfl⟩ | ⟨-, h⟩
  · exact ⟨rfl, .inl rfl⟩
  rcases h with ⟨-, rfl⟩ | ⟨-, h⟩
  · exact ⟨rfl, .inr (.inl rfl)⟩
  rcases h with ⟨-, rfl⟩ | ⟨-, h⟩
  · exact ⟨rfl, .inr (.inr (.inl rfl))⟩
  -- the five words, and a number
  iterate 5
    rcases h with ⟨-, rfl⟩ | ⟨-, h⟩
    · exact ⟨rfl, .inr (.inr (.inr (.inl ⟨_, rfl⟩)))⟩
  obtain ⟨a, -, rfl⟩ := h
  exact ⟨rfl, .inr (.inr (.inr (.inr ⟨a, rfl⟩)))⟩

theorem begin_ne_start (stack : List Frame) (c : Char) : begin stack c ≠ some ⟨[], .value⟩ := by
  intro h
  obtain ⟨-, hm | hm | hm | ⟨_, hm⟩ | ⟨_, hm⟩⟩ := begin_cases h <;> cases hm

/-- The reader is at its start as long as it has seen blanks alone. -/
theorem step_eq_start {σ : State} {c : Char} (h : step σ c = some ⟨[], .value⟩) :
    σ = ⟨[], .value⟩ ∧ isBlank c = true := by
  obtain ⟨stack, mode⟩ := σ
  cases mode with
  | value =>
    simp only [step] at h
    split at h
    · next hb => exact ⟨Option.some.inj h, hb⟩
    · exact absurd h (begin_ne_start _ _)
  | first =>
    simp only [step] at h
    repeat' split at h
    all_goals simp_all [begin_ne_start, complete_ne_start]
  | nextItem | nextMember | top =>
    simp only [step] at h
    exact absurd h (follow_ne_start _ _)
  | str members t =>
    simp only [step, endString] at h
    repeat' split at h
    all_goals simp_all [complete_ne_start]
  | hex members t n left =>
    simp only [step, Option.map_eq_some_iff] at h
    obtain ⟨v, -, hv⟩ := h
    cases left <;> simp at hv
  | num a literal =>
    simp only [step] at h
    repeat' split at h
    all_goals simp_all [follow_ne_start]
  | word w i =>
    simp only [step] at h
    repeat' split at h
    all_goals simp_all [complete_ne_start]
  | firstKey | key | colon | escape =>
    simp only [step] at h
    repeat' split at h
    all_goals simp_all [complete_ne_start]

theorem feed_eq_start : ∀ {cs : List Char} {σ : State}, feed cs σ = some ⟨[], .value⟩ →
    σ = ⟨[], .value⟩ ∧ ∀ c ∈ cs, isBlank c = true
  | [], σ, h => ⟨Option.some.inj h, by simp⟩
  | c :: cs, σ, h => by
    cases hs : step σ c with
    | none => simp [feed, hs] at h
    | some σ' =>
      rw [feed_cons_of hs] at h
      obtain ⟨rfl, hcs⟩ := feed_eq_start h
      obtain ⟨rfl, hc⟩ := step_eq_start hs
      exact ⟨rfl, by simpa [hc] using hcs⟩

/-- A character that cannot come behind a string. -/
def Ordinary (c : Char) : Prop := isBlank c = false ∧ c ≠ ':' ∧ c ≠ ',' ∧ c ≠ ']' ∧ c ≠ '\x7d'

theorem follow_ordinary {c : Char} (hc : Ordinary c) (σ : State) : follow σ c = none := by
  obtain ⟨hb, -, hcomma, hbracket, hbrace⟩ := hc
  unfold follow
  split <;> simp [hb, hcomma, hbracket, hbrace]

/-- Where no value is due, an object is not begun. -/
theorem feed_object_none {σ : State} (hv : σ.mode ≠ .value) (hf : σ.mode ≠ .first) {c : Char} (hc : Ordinary c)
    (cs : List Char) : feed ('\x7b' :: '"' :: c :: cs) σ = none := by
  have hopen : Ordinary '\x7b' := by unfold Ordinary; decide
  obtain ⟨stack, mode⟩ := σ
  cases mode with
  | value => exact absurd rfl hv
  | first => exact absurd rfl hf
  | firstKey | key | colon | escape | hex => rfl
  | nextItem | nextMember | top => simp [feed, step, follow_ordinary hopen]
  | str members t =>
    -- the string ends at the quote, and an ordinary character follows
    have hin : step ⟨stack, .str members t⟩ '\x7b' = some ⟨stack, .str members (123 :: t)⟩ := rfl
    have hend : step ⟨stack, .str members (123 :: t)⟩ '"' = some (endString stack members (123 :: t)) := rfl
    have hnone : step (endString stack members (123 :: t)) c = none := by
      cases members with
      | none => exact (step_complete _ _ _).trans (follow_ordinary hc _)
      | some members =>
        obtain ⟨hb, hcolon, -⟩ := hc
        simp [endString, step, hb, hcolon]
    rw [feed_cons_of hin, feed_cons_of hend, feed, hnone, Option.bind_none]
  | num a literal =>
    have hnext : a.next '\x7b' = none := by cases a <;> rfl
    simp [feed, step, hnext, follow_ordinary hopen]
  | word w i =>
    have hnot : w.chars[i]? ≠ some '\x7b' := fun h => by
      have hmem := List.mem_of_getElem? h
      cases w <;> revert hmem <;> decide
    simp [feed, step, hnot]

theorem feed_object (hpad : ∀ c ∈ pad, isBlank c = true) {l : List (CodePoints × Doc)} (h : (Doc.obj l).Written)
    (stack : List Frame) : feed ((Doc.obj l).text pad) ⟨stack, .value⟩ = some (complete stack (.obj l)) := by
  obtain ⟨σ, hσ, ht | ⟨a, literal, ha, hd, hs⟩⟩ := feed_text hpad (.obj l) h stack
  · rw [hσ, ht]
  · cases hd

theorem finish_complete_cons (f : Frame) (stack : List Frame) (d : Doc) : finish (complete (f :: stack) d) = none := by
  cases f <;> rfl

/-- **Behind anything but blanks an object is not read.** -/
theorem loads_append (hpad : ∀ c ∈ pad, isBlank c = true) {l : List (CodePoints × Doc)} (h : (Doc.obj l).Written)
    {c : Char} (hc : Ordinary c) {cs : List Char} (htext : (Doc.obj l).text pad = '\x7b' :: '"' :: c :: cs)
    {junk : List Char} (hjunk : ∃ x ∈ junk, isBlank x = false) : loads (junk ++ (Doc.obj l).text pad) = none := by
  rw [loads, feed_append]
  cases hj : feed junk ⟨[], .value⟩ with
  | none => rfl
  | some σ =>
    rw [Option.bind_some]
    by_cases hv : σ.mode = .value
    · obtain ⟨stack, mode⟩ := σ
      cases hv
      cases stack with
      | nil =>
        obtain ⟨x, hx, hxb⟩ := hjunk
        rw [(feed_eq_start hj).2 x hx] at hxb
        cases hxb
      | cons f stack =>
        rw [feed_object hpad h, Option.bind_some, finish_complete_cons]
    by_cases hf : σ.mode = .first
    · obtain ⟨stack, mode⟩ := σ
      cases hf
      have hsame : feed ((Doc.obj l).text pad) ⟨stack, .first⟩ =
          feed ((Doc.obj l).text pad) ⟨.item [] :: stack, .value⟩ := by
        rw [htext]
        rfl
      rw [hsame, feed_object hpad h, Option.bind_some, finish_complete_cons]
    · rw [htext, feed_object_none hv hf hc, Option.bind_none]

end Values

/-! ## Its characters -/

/-- A printable character of ASCII. -/
def Printable (c : Char) : Prop := 32 ≤ c.toNat ∧ c.toNat < 127

instance (c : Char) : Decidable (Printable c) := inferInstanceAs (Decidable (_ ∧ _))

theorem printable_of_isDigit {c : Char} (h : isDigit c = true) : Printable c := by
  simp only [isDigit, Bool.and_eq_true, decide_eq_true_eq] at h
  have h48 : (48 : Nat) ≤ c.toNat := h.1
  have h57 : c.toNat ≤ 57 := h.2
  exact ⟨by omega, by omega⟩

theorem printable_of_start {c : Char} {a : Num} (h : Num.start c = some a) : Printable c := by
  unfold Num.start at h
  split at h
  · next hc => rw [hc]; decide
  split at h
  · next hc => rw [hc]; decide
  split at h
  · next hc => exact printable_of_isDigit hc
  · cases h

theorem printable_of_next {a b : Num} {c : Char} (h : a.next c = some b) : Printable c := by
  by_contra hn
  have hd : isDigit c = false := Bool.eq_false_iff.2 fun hd => hn (printable_of_isDigit hd)
  have hne : ∀ x : Char, Printable x → c ≠ x := fun x hx he => hn (he ▸ hx)
  have h0 := hne '0' (by decide)
  have hp := hne '.' (by decide)
  have he := hne 'e' (by decide)
  have hE := hne 'E' (by decide)
  have hplus := hne '+' (by decide)
  have hminus := hne '-' (by decide)
  cases a <;> simp [Num.next, hd, h0, hp, he, hE, hplus, hminus] at h

theorem printable_of_feed : ∀ {cs : List Char} {a b : Num}, Num.feed cs a = some b → ∀ c ∈ cs, Printable c
  | [], _, _, _ => by simp
  | c :: cs, a, b, h => by
    obtain ⟨a', hn, hf⟩ := Option.bind_eq_some_iff.1 h
    intro d hd
    rcases List.mem_cons.1 hd with rfl | hd
    · exact printable_of_next hn
    · exact printable_of_feed hf d hd

/-- A fixed text, by evaluation. -/
theorem printable_of_all {cs : List Char} (h : cs.all (fun c => decide (Printable c)) = true) :
    ∀ c ∈ cs, Printable c := by
  intro c hc
  exact of_decide_eq_true (List.all_eq_true.1 h c hc)

theorem printable_hexDigit : ∀ n, n < 16 → Printable (hexDigit n) := by decide

theorem printable_unit (u : Nat) : ∀ c ∈ unit u, Printable c := by
  have hdigit (n : Nat) : Printable (hexDigit (n % 16)) := printable_hexDigit _ (Nat.mod_lt _ (by decide))
  simp only [unit, List.mem_cons, List.not_mem_nil, or_false]
  rintro c (rfl | rfl | rfl | rfl | rfl | rfl)
  · decide
  · decide
  all_goals exact hdigit _

theorem printable_quoteChar (n : Nat) : ∀ c ∈ quoteChar n, Printable c := by
  by_cases hshort : n ∈ escaped
  · simp only [escaped, List.mem_cons, List.not_mem_nil, or_false] at hshort
    rcases hshort with rfl | rfl | rfl | rfl | rfl | rfl | rfl <;> exact printable_of_all (by decide)
  rw [quoteChar_of_notMem hshort]
  split
  · next h =>
    intro c hc
    rw [List.mem_singleton.1 hc, Printable, toNat_ofNat_ascii n (by omega)]
    omega
  split
  · exact printable_unit n
  · intro c hc
    rcases List.mem_append.1 hc with hc | hc
    · exact printable_unit _ c hc
    · exact printable_unit _ c hc

theorem printable_quote (s : CodePoints) : ∀ c ∈ quote s, Printable c := by
  intro c hc
  simp only [quote, List.mem_cons, List.mem_append, List.mem_flatMap, List.not_mem_nil, or_false] at hc
  rcases hc with rfl | ⟨n, -, hc⟩ | rfl
  · decide
  · exact printable_quoteChar n c hc
  · decide

section
variable {pad : List Char} {P : Char → Prop}

theorem forall_mem_items (hcomma : P ',') (hpad : ∀ c ∈ pad, P c) : ∀ {l : List Doc},
    (∀ d ∈ l, ∀ c ∈ d.text pad, P c) → ∀ c ∈ Doc.items pad l, P c
  | [], _, c, hc => by simp [Doc.items] at hc
  | [d], h, c, hc => h d (by simp) c (by simpa [Doc.items] using hc)
  | d :: d' :: l, h, c, hc => by
    rw [Doc.items, List.mem_append, List.mem_cons, List.mem_append] at hc
    · rcases hc with hc | rfl | hc | hc
      · exact h d (by simp) c hc
      · exact hcomma
      · exact hpad c hc
      · exact forall_mem_items hcomma hpad (fun x hx => h x (by simp [hx])) c hc
    · simp

theorem forall_mem_members (hcomma : P ',') (hpad : ∀ c ∈ pad, P c) : ∀ {l : List (CodePoints × Doc)},
    (∀ p ∈ l, ∀ c ∈ Doc.member pad p, P c) → ∀ c ∈ Doc.members pad l, P c
  | [], _, c, hc => by simp [Doc.members] at hc
  | [p], h, c, hc => h p (by simp) c (by simpa [Doc.members] using hc)
  | p :: p' :: l, h, c, hc => by
    rw [Doc.members, List.mem_append, List.mem_cons, List.mem_append] at hc
    · rcases hc with hc | rfl | hc | hc
      · exact h p (by simp) c hc
      · exact hcomma
      · exact hpad c hc
      · exact forall_mem_members hcomma hpad (fun x hx => h x (by simp [hx])) c hc
    · simp

end

/-- **Only printable characters of ASCII are written.** -/
theorem printable_text {pad : List Char} (hpad : ∀ c ∈ pad, Printable c) {d : Doc} (h : d.Written) :
    ∀ c ∈ d.text pad, Printable c := by
  induction h with
  | null => rw [Doc.text]; exact printable_of_all (by decide)
  | bool b => cases b <;> (rw [Doc.text]; exact printable_of_all (by decide))
  | num hn =>
    obtain ⟨c, cs, a, b, rfl, ha, hf, -⟩ := isNumber_cons hn
    rw [Doc.text]
    intro x hx
    rcases List.mem_cons.1 hx with rfl | hx
    · exact printable_of_start ha
    · exact printable_of_feed hf x hx
  | str _ =>
    rw [Doc.text]
    exact printable_quote _
  | arr _ ih =>
    intro c hc
    rw [Doc.text, List.mem_cons, List.mem_append, List.mem_singleton] at hc
    rcases hc with rfl | hc | rfl
    · decide
    · exact forall_mem_items (by decide) hpad ih c hc
    · decide
  | obj _ _ ih =>
    intro c hc
    rw [Doc.text, List.mem_cons, List.mem_append, List.mem_singleton] at hc
    rcases hc with rfl | hc | rfl
    · decide
    · refine forall_mem_members (by decide) hpad (fun p hp x hx => ?_) c hc
      obtain ⟨k, d⟩ := p
      rw [Doc.member, List.mem_append, List.mem_cons, List.mem_append] at hx
      rcases hx with hx | rfl | hx | hx
      · exact printable_quote k x hx
      · decide
      · exact hpad x hx
      · exact ih (k, d) hp x hx
    · decide

/-! ## How long strings are -/

section Length

/-- No string value of the document is longer than `n`. -/
inductive Doc.Within (n : Nat) : Doc → Prop
  | null : Within n .null
  | bool (b : Bool) : Within n (.bool b)
  | num (literal : List Char) : Within n (.num literal)
  | str {s : CodePoints} : s.length ≤ n → Within n (.str s)
  | arr {l : List Doc} : (∀ d ∈ l, Within n d) → Within n (.arr l)
  | obj {l : List (CodePoints × Doc)} : (∀ p ∈ l, Within n p.2) → Within n (.obj l)

theorem Doc.Within.succ {n : Nat} {d : Doc} (h : d.Within n) : d.Within (n + 1) := by
  induction h with
  | null => exact .null
  | bool b => exact .bool b
  | num literal => exact .num literal
  | str hs => exact .str (by omega)
  | arr _ ih => exact .arr ih
  | obj _ ih => exact .obj ih

def Frame.Within (n : Nat) : Frame → Prop
  | .item items => ∀ d ∈ items, d.Within n
  | .member members _ => ∀ p ∈ members, p.2.Within n

def Mode.Within (n : Nat) : Mode → Prop
  | .key members | .colon members _ | .nextMember members => ∀ p ∈ members, p.2.Within n
  | .nextItem items => ∀ d ∈ items, d.Within n
  | .top d => d.Within n
  | .str members s | .escape members s | .hex members s _ _ =>
    (∀ l, members = some l → ∀ p ∈ l, p.2.Within n) ∧ s.length ≤ n
  | .value | .first | .firstKey | .num _ _ | .word _ _ => True

structure State.Within (n : Nat) (σ : State) : Prop where
  stack : ∀ f ∈ σ.stack, f.Within n
  mode : σ.mode.Within n

variable {n : Nat}

theorem State.Within.succ {σ : State} (h : σ.Within n) : σ.Within (n + 1) := by
  obtain ⟨stack, mode⟩ := σ
  obtain ⟨hstack, hmode⟩ := h
  constructor
  · intro f hf
    have := hstack f hf
    cases f with
    | item items => exact fun d hd => (this d hd).succ
    | member members key => exact fun p hp => (this p hp).succ
  · cases mode with
    | key | colon | nextMember => exact fun p hp => (hmode p hp).succ
    | nextItem => exact fun d hd => (hmode d hd).succ
    | top => exact Doc.Within.succ hmode
    | str | escape | hex => exact ⟨fun l hl p hp => (hmode.1 l hl p hp).succ, by have := hmode.2; omega⟩
    | value | first | firstKey | num | word => trivial

theorem within_complete {d : Doc} (hd : d.Within n) : ∀ {stack : List Frame}, (∀ f ∈ stack, f.Within n) →
    (complete stack d).Within n
  | [], _ => ⟨by simp [complete], hd⟩
  | .item items :: stack, h => by
    refine ⟨fun f hf => h f (List.mem_cons_of_mem _ hf), fun x hx => ?_⟩
    rcases List.mem_cons.1 hx with rfl | hx
    · exact hd
    · exact h (.item items) (by simp) x hx
  | .member members key :: stack, h => by
    refine ⟨fun f hf => h f (List.mem_cons_of_mem _ hf), fun p hp => ?_⟩
    rcases List.mem_cons.1 hp with rfl | hp
    · exact hd
    · exact h (.member members key) (by simp) p hp

theorem within_begin {stack : List Frame} (h : ∀ f ∈ stack, f.Within n) {c : Char} {σ : State}
    (hσ : begin stack c = some σ) : σ.Within n := by
  obtain ⟨rest, mode⟩ := σ
  obtain ⟨hstack, hmode⟩ := begin_cases hσ
  simp only at hstack hmode
  subst hstack
  rcases hmode with rfl | rfl | rfl | ⟨_, rfl⟩ | ⟨_, rfl⟩
  · exact ⟨h, by simp, by simp⟩
  all_goals exact ⟨h, trivial⟩

theorem within_follow {σ σ' : State} (h : σ.Within n) {c : Char} (hσ : follow σ c = some σ') : σ'.Within n := by
  obtain ⟨stack, mode⟩ := σ
  obtain ⟨hstack, hmode⟩ := h
  unfold follow at hσ
  split at hσ
  · next items he =>
    cases he
    repeat' split at hσ
    · cases hσ; exact ⟨hstack, hmode⟩
    · cases hσ
      refine ⟨fun f hf => ?_, trivial⟩
      rcases List.mem_cons.1 hf with rfl | hf
      · exact hmode
      · exact hstack f hf
    · cases hσ
      exact within_complete (.arr fun d hd => hmode d (List.mem_reverse.1 hd)) hstack
    · cases hσ
  · next members he =>
    cases he
    repeat' split at hσ
    · cases hσ; exact ⟨hstack, hmode⟩
    · cases hσ; exact ⟨hstack, hmode⟩
    · cases hσ
      exact within_complete (.obj fun p hp => hmode p (List.mem_reverse.1 hp)) hstack
    · cases hσ
  · split at hσ
    · cases hσ; exact ⟨hstack, hmode⟩
    · cases hσ
  · cases hσ

theorem length_pushUnit (s : CodePoints) (u : Nat) : (pushUnit s u).length ≤ s.length + 1 := by
  unfold pushUnit
  split
  · split <;> simp
  · simp

/-- A character makes a string longer by one at most. -/
theorem within_step {σ σ' : State} (h : σ.Within n) {c : Char} (hσ : step σ c = some σ') : σ'.Within (n + 1) := by
  have hsucc := h.succ
  obtain ⟨stack, mode⟩ := σ
  obtain ⟨hstack, hmode⟩ := hsucc
  cases mode with
  | value =>
    simp only [step] at hσ
    split at hσ
    · cases hσ; exact ⟨hstack, hmode⟩
    · exact within_begin hstack hσ
  | first =>
    simp only [step] at hσ
    repeat' split at hσ
    · cases hσ; exact ⟨hstack, hmode⟩
    · cases hσ; exact within_complete (.arr (by simp)) hstack
    · refine within_begin (fun f hf => ?_) hσ
      rcases List.mem_cons.1 hf with rfl | hf
      · exact fun d hd => by cases hd
      · exact hstack f hf
  | firstKey =>
    simp only [step] at hσ
    repeat' split at hσ
    · cases hσ; exact ⟨hstack, hmode⟩
    · cases hσ; exact ⟨hstack, by simp, by simp⟩
    · cases hσ; exact within_complete (.obj (by simp)) hstack
    · cases hσ
  | key members =>
    simp only [step] at hσ
    repeat' split at hσ
    · cases hσ; exact ⟨hstack, hmode⟩
    · cases hσ
      refine ⟨hstack, fun l hl => ?_, by simp⟩
      cases hl
      exact hmode
    · cases hσ
  | colon members key =>
    simp only [step] at hσ
    repeat' split at hσ
    · cases hσ; exact ⟨hstack, hmode⟩
    · cases hσ
      refine ⟨fun f hf => ?_, trivial⟩
      rcases List.mem_cons.1 hf with rfl | hf
      · exact hmode
      · exact hstack f hf
    · cases hσ
  | nextItem | nextMember | top =>
    simp only [step] at hσ
    exact within_follow ⟨hstack, hmode⟩ hσ
  | str members s =>
    have hlen : s.length ≤ n := h.mode.2
    simp only [step] at hσ
    repeat' split at hσ
    · cases hσ
      cases members with
      | none => exact within_complete (.str (by simp; omega)) hstack
      | some members => exact ⟨hstack, hmode.1 members rfl⟩
    · cases hσ; exact ⟨hstack, hmode⟩
    · cases hσ
    · cases hσ; exact ⟨hstack, hmode.1, by simpa using hlen⟩
  | escape members s =>
    have hlen : s.length ≤ n := h.mode.2
    simp only [step] at hσ
    split at hσ
    · cases hσ; exact ⟨hstack, hmode⟩
    · obtain ⟨u, -, rfl⟩ := Option.map_eq_some_iff.1 hσ
      exact ⟨hstack, hmode.1, by simpa using hlen⟩
  | hex members s m left =>
    have hlen : s.length ≤ n := h.mode.2
    simp only [step] at hσ
    obtain ⟨v, -, rfl⟩ := Option.map_eq_some_iff.1 hσ
    cases left with
    | zero => exact ⟨hstack, hmode.1, by have := length_pushUnit s (16 * m + v); omega⟩
    | succ left => exact ⟨hstack, hmode⟩
  | num a literal =>
    simp only [step] at hσ
    repeat' split at hσ
    · cases hσ; exact ⟨hstack, trivial⟩
    · exact within_follow (within_complete (.num _) hstack) hσ
    · cases hσ; exact ⟨hstack, trivial⟩
    · cases hσ
  | word w i =>
    have hdoc : w.doc.Within (n + 1) := by
      cases w
      · exact .null
      · exact .bool _
      · exact .bool _
      all_goals exact .num _
    simp only [step] at hσ
    repeat' split at hσ
    · cases hσ; exact within_complete hdoc hstack
    · cases hσ; exact ⟨hstack, trivial⟩
    · cases hσ

theorem within_feed : ∀ {cs : List Char} {n : Nat} {σ σ' : State}, σ.Within n → feed cs σ = some σ' →
    σ'.Within (n + cs.length)
  | [], n, σ, σ', h, hσ => by
    cases hσ
    exact h
  | c :: cs, n, σ, σ', h, hσ => by
    cases hs : step σ c with
    | none => simp [feed, hs] at hσ
    | some σ₁ =>
      rw [feed_cons_of hs] at hσ
      have := within_feed (within_step h hs) hσ
      rwa [Nat.add_assoc, Nat.add_comm 1, ← List.length_cons] at this

/-- **A string of a document is no longer than its text.** -/
theorem within_loads {cs : List Char} {d : Doc} (h : loads cs = some d) : d.Within cs.length := by
  obtain ⟨σ, hσ, hd⟩ := Option.bind_eq_some_iff.1 h
  have hstart : State.Within 0 ⟨[], .value⟩ := ⟨by simp, trivial⟩
  have hw := within_feed hstart hσ
  rw [Nat.zero_add] at hw
  unfold finish at hd
  split at hd
  · next d' he =>
    cases hd
    have := hw.mode
    rwa [he] at this
  · split at hd
    · cases hd; exact .num _
    · cases hd
  · cases hd

end Length

/-! ## Texts and integers -/

theorem scalar_toNat (c : Char) : Scalar c.toNat := by
  rcases c.valid with h | ⟨h, h'⟩
  · exact .inl h
  · exact .inr ⟨Nat.lt_of_succ_le h, h'⟩

theorem scalar_of_mem_codePoints {s : String} {n : Nat} (h : n ∈ codePoints s) : Scalar n := by
  obtain ⟨c, -, rfl⟩ := List.mem_map.1 h
  exact scalar_toNat c

/-- A text is the text with its code points. -/
@[simp] theorem ofCodePoints_codePoints (s : String) : ofCodePoints (codePoints s) = some s := by
  have hvalid : (codePoints s).all (fun n => decide (Nat.isValidChar n)) = true := by
    rw [List.all_eq_true]
    intro n hn
    obtain ⟨c, -, rfl⟩ := List.mem_map.1 hn
    exact decide_eq_true c.valid
  have hchars : (codePoints s).map Char.ofNat = s.toList := by
    rw [codePoints, List.map_map]
    have : (Char.ofNat ∘ Char.toNat) = id := funext Char.ofNat_toNat
    rw [this, List.map_id]
  rw [ofCodePoints, if_pos hvalid, hchars, String.ofList_toList]

theorem codePoints_injective {s s' : String} (h : codePoints s = codePoints s') : s = s' := by
  have := congrArg ofCodePoints h
  simpa using this

theorem length_ofCodePoints {s : CodePoints} {t : String} (h : ofCodePoints s = some t) : t.length = s.length := by
  unfold ofCodePoints at h
  split at h
  · cases h
    rw [← String.length_toList, String.toList_ofList, List.length_map]
  · cases h

theorem mem_of_get? {l : List (CodePoints × Doc)} {k : CodePoints} {d : Doc} (h : get? l k = some d) :
    (k, d) ∈ l := by
  obtain ⟨l₁, l₂, hl, -⟩ := List.lookup_eq_some_iff.1 h
  rw [← List.mem_reverse, hl]
  simp

/-- An integer as it is written. -/
def ofInt (n : Int) : Doc := .num (toString n).toList

theorem isDigit_eq (c : Char) : isDigit c = c.isDigit := by
  simp only [isDigit, Char.isDigit, Char.le_def]

theorem numFeed_digits {a : Num} (ha : ∀ c, isDigit c = true → a.next c = some a) : ∀ {cs : List Char},
    (∀ c ∈ cs, isDigit c = true) → Num.feed cs a = some a
  | [], _ => rfl
  | c :: cs, h => by
    rw [Num.feed, ha c (h c (by simp)), Option.bind_some]
    exact numFeed_digits ha fun x hx => h x (by simp [hx])

/-- A positive number does not begin with a zero. -/
theorem toDigits_head {n : Nat} (hn : 0 < n) : ∃ c cs, Nat.toDigits 10 n = c :: cs ∧ c ≠ '0' := by
  induction n using Nat.strongRecOn with
  | ind n ih =>
    by_cases hlt : n < 10
    · refine ⟨n.digitChar, [], Nat.toDigits_of_lt_base hlt, ?_⟩
      have hall : ∀ k, k < 10 → 0 < k → k.digitChar ≠ '0' := by decide
      exact hall n hlt hn
    · obtain ⟨c, cs, hc, hne⟩ := ih (n / 10) (by omega) (by omega)
      rw [Nat.toDigits_of_base_le (by decide) (by omega), hc]
      exact ⟨c, _, rfl, hne⟩

/-- The digits of a number, behind a sign. -/
theorem feed_toDigits (n : Nat) : ∃ b, Num.feed (Nat.toDigits 10 n) .minus = some b ∧ b.ends = true := by
  have hdigit : ∀ c ∈ Nat.toDigits 10 n, isDigit c = true := fun c hc => by
    rw [isDigit_eq]
    exact isDigit_of_mem_toDigits hc
  cases Nat.eq_zero_or_pos n with
  | inl h0 =>
    subst h0
    exact ⟨.zero, rfl, rfl⟩
  | inr hpos =>
    obtain ⟨c, cs, hc, hne⟩ := toDigits_head hpos
    rw [hc] at hdigit ⊢
    have hnext : Num.minus.next c = some .int := by simp [Num.next, hne, hdigit c (by simp)]
    refine ⟨.int, ?_, rfl⟩
    rw [Num.feed, hnext, Option.bind_some]
    exact numFeed_digits (fun x hx => by simp [Num.next, hx]) fun x hx => hdigit x (by simp [hx])

theorem isNumber_toString (n : Int) : isNumber (toString n).toList = true := by
  cases n with
  | ofNat n =>
    have htext : (toString (Int.ofNat n)).toList = Nat.toDigits 10 n := String.toList_ofList
    obtain ⟨b, hb, hend⟩ := feed_toDigits n
    rw [htext]
    cases hcs : Nat.toDigits 10 n with
    | nil => exact absurd hcs Nat.toDigits_ne_nil
    | cons c cs =>
      have hm : c ≠ '-' := fun he => by
        have : c.isDigit = true := isDigit_of_mem_toDigits (n := n) (by rw [hcs]; simp)
        rw [he] at this
        exact absurd this (by decide)
      -- a number begins as it goes on behind a sign
      have hstart : Num.start c = Num.minus.next c := by simp [Num.next, Num.start, hm]
      rw [hcs, Num.feed] at hb
      rw [isNumber, hstart, hb]
      exact hend
  | negSucc n =>
    obtain ⟨b, hb, hend⟩ := feed_toDigits (n + 1)
    rw [toList_negSucc, isNumber]
    change ((some Num.minus).bind _).any _ = true
    rw [Option.bind_some, hb]
    exact hend

theorem written_ofInt (n : Int) : (ofInt n).Written := .num (isNumber_toString n)

theorem written_text (s : String) : (Doc.str (codePoints s)).Written := .str fun _ => scalar_of_mem_codePoints

/-- An object whose keys are texts. -/
theorem written_object {l : List (CodePoints × Doc)}
    (h : ∀ p ∈ l, (∃ name, p.1 = codePoints name) ∧ p.2.Written) : (Doc.obj l).Written := by
  refine .obj (fun p hp n hn => ?_) fun p hp => (h p hp).2
  obtain ⟨name, hname⟩ := (h p hp).1
  rw [hname] at hn
  exact scalar_of_mem_codePoints hn

end Lib.JsonText
