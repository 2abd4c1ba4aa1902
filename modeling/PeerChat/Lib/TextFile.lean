/-
Text files as a scripting language reads them. The bytes are decoded as
UTF-8, some at a time, and the text is cut at line feeds, carriage returns
and pairs of the two; bytes that do not decode end the reading.

`readLines_append`: a line of plain characters that is appended joins what
follows the last ending. `mem_readLines_append`: behind bytes that do not
decode it is not read.
-/
import Mathlib.Data.List.Infix

namespace Lib.TextFile

/-! ## Decoding -/

/-- A character of which the first bytes have come: its bits so far, how
many bytes come after the next one, and the bounds of that one. -/
structure Begun where
  bits : Nat
  after : Nat
  low : Nat := 0x80
  high : Nat := 0xBF
  le_low : 0x80 ≤ low := by decide

/-- The text so far, and the character that has begun. -/
structure Decoder where
  text : List Char
  begun : Option Begun

namespace Decoder

/-- Nothing has come. -/
def start : Decoder := ⟨[], none⟩

/-- The first byte of a character. -/
def first (text : List Char) (b : Nat) : Option Decoder :=
  if b < 0x80 then some ⟨text ++ [Char.ofNat b], none⟩
  else if 0xC2 ≤ b ∧ b < 0xE0 then some ⟨text, some { bits := b - 0xC0, after := 0 }⟩
  else if b = 0xE0 then some ⟨text, some { bits := 0, after := 1, low := 0xA0 }⟩
  else if b = 0xED then some ⟨text, some { bits := 0xD, after := 1, high := 0x9F }⟩
  else if 0xE0 < b ∧ b < 0xF0 then some ⟨text, some { bits := b - 0xE0, after := 1 }⟩
  else if b = 0xF0 then some ⟨text, some { bits := 0, after := 2, low := 0x90 }⟩
  else if 0xF0 < b ∧ b < 0xF4 then some ⟨text, some { bits := b - 0xF0, after := 2 }⟩
  else if b = 0xF4 then some ⟨text, some { bits := 4, after := 2, high := 0x8F }⟩
  else none

/-- One byte; `none` where the bytes are no UTF-8. -/
def step (σ : Decoder) (b : UInt8) : Option Decoder :=
  match σ.begun with
  | none => first σ.text b.toNat
  | some p =>
    if p.low ≤ b.toNat ∧ b.toNat ≤ p.high then
      let bits := p.bits * 64 + (b.toNat - 0x80)
      match p.after with
      | 0 => some ⟨σ.text ++ [Char.ofNat bits], none⟩
      | after + 1 => some ⟨σ.text, some { bits, after }⟩
    else none

def feed : List UInt8 → Decoder → Option Decoder
  | [], σ => some σ
  | b :: bs, σ => (σ.step b).bind (feed bs)

end Decoder

/-- The text of the bytes; `none` for a `UnicodeDecodeError`. -/
def decode (bytes : List UInt8) : Option (List Char) :=
  (Decoder.feed bytes .start).bind fun σ => if σ.begun.isNone then some σ.text else none

def encode (text : List Char) : List UInt8 := text.flatMap String.utf8EncodeChar

/-- The text before the chunk of bytes that does not decode. -/
def decodeChunks (chunk : Nat) : Nat → List UInt8 → Decoder → List Char
  | 0, _, σ => σ.text
  | n + 1, bytes, σ =>
    match Decoder.feed (bytes.take chunk) σ with
    | none => σ.text
    | some σ' => decodeChunks chunk n (bytes.drop chunk) σ'

/-! ## Lines -/

/-- The lines that have ended, what has come of the next one, and whether a
carriage return has come, which may be half of an ending. -/
structure Lines where
  done : List (List Char)
  rest : List Char
  cr : Bool

namespace Lines

/-- Nothing has come. -/
def start : Lines := ⟨[], [], false⟩

def close (σ : Lines) : Lines := ⟨σ.done ++ [σ.rest], [], false⟩

/-- A carriage return is an ending of its own. -/
def settle (σ : Lines) : Lines := if σ.cr then σ.close else σ

/-- One character. -/
def push (σ : Lines) (c : Char) : Lines :=
  if c = '\n' then σ.close
  else if c = '\r' then { σ.settle with cr := true }
  else { σ.settle with rest := σ.settle.rest ++ [c] }

def feed (cs : List Char) (σ : Lines) : Lines := cs.foldl push σ

/-- The lines at the end of the text. -/
def all (σ : Lines) : List (List Char) :=
  if σ.settle.rest.isEmpty then σ.settle.done else σ.settle.done ++ [σ.settle.rest]

end Lines

/-- What follows the last ending. -/
def tail (text : List Char) : List Char := (Lines.feed text .start).settle.rest

/-- The lines that a reader with buffers of `chunk` bytes returns, and
whether it reaches the end. -/
def readLines (chunk : Nat) (bytes : List UInt8) : List (List Char) × Bool :=
  match decode bytes with
  | some text => ((Lines.feed text .start).all, true)
  | none => ((Lines.feed (decodeChunks chunk (bytes.length + 1) bytes .start) .start).done, false)

/-! ## Appending -/

namespace Decoder

theorem feed_append : ∀ (a b : List UInt8) (σ : Decoder), feed (a ++ b) σ = (feed a σ).bind (feed b)
  | [], _, _ => rfl
  | x :: a, b, σ => by
    simp only [List.cons_append, feed]
    cases σ.step x with
    | none => rfl
    | some σ' => exact feed_append a b σ'

theorem prefix_step {σ σ' : Decoder} {b : UInt8} (h : σ.step b = some σ') : σ.text <+: σ'.text := by
  unfold step first at h
  repeat' split at h
  all_goals cases h
  all_goals first | exact List.prefix_append _ _ | exact List.prefix_rfl

/-- The text grows. -/
theorem prefix_feed : ∀ {bs : List UInt8} {σ σ' : Decoder}, feed bs σ = some σ' → σ.text <+: σ'.text
  | [], σ, σ', h => by cases h; exact List.prefix_rfl
  | b :: bs, σ, σ', h => by
    obtain ⟨σ₁, hs, hf⟩ := Option.bind_eq_some_iff.1 h
    exact (prefix_step hs).trans (prefix_feed hf)

end Decoder

theorem encode_cons {c : Char} (hc : c.toNat < 128) (cs : List Char) :
    encode (c :: cs) = UInt8.ofNat c.toNat :: encode cs := by
  have h : String.utf8EncodeChar c = [UInt8.ofNat c.toNat] := by
    have hle : c.val.toNat ≤ 0x7f := Nat.le_of_lt_succ hc
    exact if_pos hle
  rw [encode, List.flatMap_cons, h]
  rfl

theorem step_ascii {c : Char} (hc : c.toNat < 128) (text : List Char) :
    Decoder.step ⟨text, none⟩ (UInt8.ofNat c.toNat) = some ⟨text ++ [c], none⟩ := by
  have hb : (UInt8.ofNat c.toNat).toNat = c.toNat := by
    rw [UInt8.toNat_ofNat']
    omega
  simp only [Decoder.step, Decoder.first, hb, hc, if_true, Char.ofNat_toNat]

theorem step_begun {c : Char} (hc : c.toNat < 128) (text : List Char) (p : Begun) :
    Decoder.step ⟨text, some p⟩ (UInt8.ofNat c.toNat) = none := by
  have hb : (UInt8.ofNat c.toNat).toNat = c.toNat := by
    rw [UInt8.toNat_ofNat']
    omega
  have hlow := p.le_low
  simp only [Decoder.step, hb]
  rw [if_neg (by omega)]

theorem feed_ascii : ∀ {cs : List Char}, (∀ c ∈ cs, c.toNat < 128) → ∀ text : List Char,
    Decoder.feed (encode cs) ⟨text, none⟩ = some ⟨text ++ cs, none⟩
  | [], _, text => by simp [encode, Decoder.feed]
  | c :: cs, h, text => by
    rw [encode_cons (h c (by simp)), Decoder.feed, step_ascii (h c (by simp)), Option.bind_some,
      feed_ascii fun d hd => h d (List.mem_cons_of_mem _ hd)]
    simp

theorem decode_append {bytes : List UInt8} {text cs : List Char} (h : decode bytes = some text)
    (hcs : ∀ c ∈ cs, c.toNat < 128) : decode (bytes ++ encode cs) = some (text ++ cs) := by
  obtain ⟨σ, hσ, hd⟩ := Option.bind_eq_some_iff.1 h
  obtain ⟨t, begun⟩ := σ
  cases begun with
  | some p => simp at hd
  | none =>
    cases hd
    rw [decode, Decoder.feed_append, hσ, Option.bind_some, feed_ascii hcs]
    rfl

/-- Behind bytes that do not decode, another character is no help. -/
theorem feed_append_none {bytes : List UInt8} (h : decode bytes = none) {c : Char} (hc : c.toNat < 128)
    (bs : List UInt8) : Decoder.feed (bytes ++ UInt8.ofNat c.toNat :: bs) .start = none := by
  rw [Decoder.feed_append]
  cases hσ : Decoder.feed bytes .start with
  | none => rfl
  | some σ =>
    obtain ⟨t, begun⟩ := σ
    cases begun with
    | none => simp [decode, hσ] at h
    | some p => rw [Option.bind_some, Decoder.feed, step_begun hc, Option.bind_none]

theorem prefix_decodeChunks (chunk : Nat) : ∀ (n : Nat) (bytes : List UInt8) (σ : Decoder),
    σ.text <+: decodeChunks chunk n bytes σ
  | 0, _, _ => List.prefix_rfl
  | n + 1, bytes, σ => by
    rw [decodeChunks]
    split
    · exact List.prefix_rfl
    · next σ' hσ => exact (Decoder.prefix_feed hσ).trans (prefix_decodeChunks chunk n _ σ')

/-- A reader that fails gets no further when bytes follow that do not mend
what it fails at. -/
theorem decodeChunks_append {chunk : Nat} (hchunk : 0 < chunk) {b : UInt8} {bs : List UInt8} :
    ∀ (n k : Nat) (bytes : List UInt8) (σ : Decoder), bytes.length < k →
    (∀ bs', Decoder.feed (bytes ++ b :: bs') σ = none) →
    decodeChunks chunk n (bytes ++ b :: bs) σ <+: decodeChunks chunk k bytes σ
  | 0, k, bytes, σ, _, _ => prefix_decodeChunks chunk k bytes σ
  | n + 1, k + 1, bytes, σ, hk, hnone => by
    rcases Nat.lt_or_ge bytes.length chunk with hlt | hge
    · -- the chunk reaches into the bytes that follow
      have htake : (bytes ++ b :: bs).take chunk = bytes ++ b :: bs.take (chunk - bytes.length - 1) := by
        rw [List.take_append, List.take_of_length_le (by omega)]
        obtain ⟨j, hj⟩ : ∃ j, chunk - bytes.length = j + 1 := ⟨chunk - bytes.length - 1, by omega⟩
        rw [hj, List.take_succ_cons, Nat.add_sub_cancel]
      rw [decodeChunks, htake, hnone]
      exact prefix_decodeChunks chunk (k + 1) bytes σ
    · have htake : (bytes ++ b :: bs).take chunk = bytes.take chunk := List.take_append_of_le_length hge
      have hdrop : (bytes ++ b :: bs).drop chunk = bytes.drop chunk ++ b :: bs := List.drop_append_of_le_length hge
      rw [decodeChunks, decodeChunks, htake, hdrop]
      cases hσ : Decoder.feed (bytes.take chunk) σ with
      | none => exact List.prefix_rfl
      | some σ' =>
        refine decodeChunks_append hchunk n k (bytes.drop chunk) σ' (by rw [List.length_drop]; omega) fun bs' => ?_
        have := hnone bs'
        rw [← List.take_append_drop chunk bytes, List.append_assoc, Decoder.feed_append, hσ] at this
        exact this

namespace Lines

theorem done_settle (σ : Lines) : σ.done <+: σ.settle.done := by
  unfold settle
  split
  · exact List.prefix_append _ _
  · exact List.prefix_rfl

theorem done_push (σ : Lines) (c : Char) : σ.done <+: (σ.push c).done := by
  unfold push
  split
  · exact List.prefix_append _ _
  · split
    · exact σ.done_settle
    · exact σ.done_settle

theorem done_feed : ∀ (cs : List Char) (σ : Lines), σ.done <+: (feed cs σ).done
  | [], _ => List.prefix_rfl
  | c :: cs, σ => (σ.done_push c).trans (done_feed cs (σ.push c))

theorem feed_append (a b : List Char) (σ : Lines) : feed (a ++ b) σ = feed b (feed a σ) := List.foldl_append

/-- More text ends more lines. -/
theorem done_feed_of_prefix {a b : List Char} (h : a <+: b) (σ : Lines) : (feed a σ).done <+: (feed b σ).done := by
  obtain ⟨cs, rfl⟩ := h
  rw [feed_append]
  exact done_feed cs _

/-- Characters that end no line. -/
theorem feed_plain : ∀ {cs : List Char}, (∀ c ∈ cs, c ≠ '\n' ∧ c ≠ '\r') →
    ∀ (done : List (List Char)) (rest : List Char), feed cs ⟨done, rest, false⟩ = ⟨done, rest ++ cs, false⟩
  | [], _, done, rest => by simp [feed]
  | c :: cs, h, done, rest => by
    have hc : push ⟨done, rest, false⟩ c = ⟨done, rest ++ [c], false⟩ := by
      simp [push, (h c (by simp)).1, (h c (by simp)).2, settle]
    rw [feed, List.foldl_cons, hc]
    have ih := feed_plain (fun d hd => h d (List.mem_cons_of_mem _ hd)) done (rest ++ [c])
    rw [List.append_assoc] at ih
    exact ih

/-- A line joins what follows the last ending. -/
theorem all_feed_line {c : Char} {cs : List Char} (h : ∀ d ∈ c :: cs, d ≠ '\n' ∧ d ≠ '\r') (σ : Lines) :
    (feed (c :: cs ++ ['\n']) σ).all = σ.settle.done ++ [σ.settle.rest ++ c :: cs] := by
  have hc : σ.push c = ⟨σ.settle.done, σ.settle.rest ++ [c], false⟩ := by
    have hcr : σ.settle.cr = false := by
      unfold settle
      split
      · rfl
      · next hn => exact Bool.eq_false_iff.2 hn
    rw [push, if_neg (h c (by simp)).1, if_neg (h c (by simp)).2]
    show (⟨σ.settle.done, σ.settle.rest ++ [c], σ.settle.cr⟩ : Lines) = _
    rw [hcr]
  have hfeed : feed (c :: cs) σ = ⟨σ.settle.done, σ.settle.rest ++ c :: cs, false⟩ := by
    have hcs := feed_plain (fun d hd => h d (List.mem_cons_of_mem _ hd)) σ.settle.done (σ.settle.rest ++ [c])
    rw [List.append_assoc] at hcs
    rw [feed, List.foldl_cons, hc]
    exact hcs
  rw [feed_append, hfeed]
  rfl

/-- Whole lines. -/
theorem feed_lines : ∀ {ls : List (List Char)}, (∀ l ∈ ls, ∀ c ∈ l, c ≠ '\n' ∧ c ≠ '\r') →
    ∀ done : List (List Char), feed (ls.flatMap fun l => l ++ ['\n']) ⟨done, [], false⟩ = ⟨done ++ ls, [], false⟩
  | [], _, done => by simp [feed]
  | l :: ls, h, done => by
    have hl : feed (l ++ ['\n']) ⟨done, [], false⟩ = ⟨done ++ [l], [], false⟩ := by
      rw [feed_append, feed_plain (h l (by simp))]
      rfl
    rw [List.flatMap_cons, feed_append, hl, feed_lines fun l' hl' => h l' (List.mem_cons_of_mem _ hl')]
    simp

end Lines

/-- Characters of a byte each that end no line. -/
def Plain (cs : List Char) : Prop := ∀ c ∈ cs, c.toNat < 128 ∧ c ≠ '\n' ∧ c ≠ '\r'

theorem Plain.ascii {cs : List Char} (h : Plain cs) : ∀ c ∈ cs ++ ['\n'], c.toNat < 128 := by
  intro c hc
  rcases List.mem_append.1 hc with hc | hc
  · exact (h c hc).1
  · rw [List.mem_singleton.1 hc]
    decide

/-- **A line that is appended joins what follows the last ending.** -/
theorem readLines_append (chunk : Nat) {bytes : List UInt8} {text : List Char} (h : decode bytes = some text)
    {c : Char} {cs : List Char} (hcs : Plain (c :: cs)) : ∃ ended,
    readLines chunk bytes = (if (tail text).isEmpty then ended else ended ++ [tail text], true) ∧
      readLines chunk (bytes ++ encode (c :: cs ++ ['\n'])) = (ended ++ [tail text ++ c :: cs], true) := by
  refine ⟨(Lines.feed text .start).settle.done, ?_, ?_⟩
  · rw [readLines, h]
    rfl
  · rw [readLines, decode_append h hcs.ascii]
    simp only [Lines.feed_append]
    rw [← Lines.feed_append, Lines.all_feed_line fun d hd => (hcs d hd).2]
    rfl

/-- **Behind bytes that do not decode it is not read**, and nothing else
comes up. -/
theorem mem_readLines_append {chunk : Nat} (hchunk : 0 < chunk) {bytes : List UInt8} (h : decode bytes = none)
    {c : Char} (hc : c.toNat < 128) (cs : List Char) :
    (readLines chunk bytes).2 = false ∧ (readLines chunk (bytes ++ encode (c :: cs))).2 = false ∧
      (readLines chunk (bytes ++ encode (c :: cs))).1 <+: (readLines chunk bytes).1 := by
  have hnone : decode (bytes ++ encode (c :: cs)) = none := by
    rw [encode_cons hc, decode, feed_append_none h hc, Option.bind_none]
  simp only [readLines, h, hnone, true_and]
  rw [encode_cons hc]
  refine Lines.done_feed_of_prefix (decodeChunks_append hchunk _ _ bytes .start (Nat.lt_succ_self _) fun bs' => ?_) _
  exact feed_append_none h hc bs'

/-- Lines that are written are read. -/
theorem readLines_lines (chunk : Nat) {ls : List (List Char)} (h : ∀ l ∈ ls, Plain l) :
    readLines chunk (ls.flatMap fun l => encode (l ++ ['\n'])) = (ls, true) := by
  have hbytes : (ls.flatMap fun l => encode (l ++ ['\n'])) = encode (ls.flatMap fun l => l ++ ['\n']) := by
    simp [encode, List.flatMap_assoc]
  have hdecode : decode (encode (ls.flatMap fun l => l ++ ['\n'])) = some (ls.flatMap fun l => l ++ ['\n']) := by
    have hnil : decode [] = some [] := rfl
    refine decode_append hnil fun c hc => ?_
    obtain ⟨l, hl, hc⟩ := List.mem_flatMap.1 hc
    exact (h l hl).ascii c hc
  have hlines := Lines.feed_lines (fun l hl c hc => (h l hl c hc).2) []
  rw [hbytes, readLines, hdecode]
  show ((Lines.feed _ ⟨[], [], false⟩).all, true) = _
  rw [hlines]
  rfl

end Lib.TextFile
