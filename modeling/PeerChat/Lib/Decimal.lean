/-
Decimal numerals as a scripting language reads and pads them: reading skips
white space at both ends and takes a sign and single underscores between
digits, padding fills up with zeros. `parseInt_toString`,
`parseInt_zeroPad`: a number reads back, and so does a padded one.
`zeroPad_lt`: numbers that are padded to one length sort as they should.
`hostPort_append`: the port of an address reads back.
-/
import Mathlib.Algebra.Group.Nat.Defs
import Mathlib.Data.List.Infix

namespace Lib

/-- The white space that reading a number skips. -/
def isSpace (c : Char) : Bool := c.isWhitespace || c.toNat = 11 || c.toNat = 12 || (28 ≤ c.toNat && c.toNat ≤ 31)

/-- The digits after one that has been read into `n`. -/
def digits (n : Nat) : List Char → Option Nat
  | [] => some n
  | '_' :: c :: cs => if c.isDigit then digits (10 * n + (c.toNat - '0'.toNat)) cs else none
  | c :: cs => if c.isDigit then digits (10 * n + (c.toNat - '0'.toNat)) cs else none

/-- A numeral without sign. -/
def unsigned : List Char → Option Nat
  | [] => none
  | c :: cs => if c.isDigit then digits (c.toNat - '0'.toNat) cs else none

/-- A numeral. -/
def signed : List Char → Option Int
  | '-' :: cs => (unsigned cs).map fun n => -(n : Int)
  | '+' :: cs => (unsigned cs).map fun n => (n : Int)
  | cs => (unsigned cs).map fun n => (n : Int)

/-- `int(s)`, or `none` for a `ValueError`. -/
def parseInt (s : String) : Option Int :=
  signed ((s.toList.dropWhile isSpace).reverse.dropWhile isSpace).reverse

/-- `n` in decimal, filled up with zeros to `w` digits. -/
def zeroPad (w n : Nat) : String :=
  String.ofList (List.replicate (w - (Nat.toDigits 10 n).length) '0' ++ Nat.toDigits 10 n)

theorem toNat_of_isDigit {c : Char} (h : c.isDigit = true) : 48 ≤ c.toNat ∧ c.toNat ≤ 57 := by
  simp only [Char.isDigit, Bool.and_eq_true, decide_eq_true_eq] at h
  exact ⟨UInt32.le_iff_toNat_le.1 h.1, UInt32.le_iff_toNat_le.1 h.2⟩

theorem isSpace_of_isDigit {c : Char} (h : c.isDigit = true) : isSpace c = false := by
  have h48 := toNat_of_isDigit h
  have hw : c.isWhitespace = false := by
    simp only [Char.isWhitespace, Bool.or_eq_false_iff, decide_eq_false_iff_not]
    refine ⟨⟨⟨?_, ?_⟩, ?_⟩, ?_⟩ <;> exact fun he => by rw [he] at h48; revert h48; decide
  simp only [isSpace, hw, Bool.false_or, Bool.or_eq_false_iff, Bool.and_eq_false_iff, decide_eq_false_iff_not]
  omega

theorem digits_of_isDigit : ∀ {cs : List Char} {n : Nat}, (∀ c ∈ cs, c.isDigit = true) →
    digits n cs = some (Nat.ofDigitChars 10 cs n)
  | [], n, _ => by simp [digits]
  | c :: cs, n, h => by
    have hc := h c (by simp)
    have hcs : ∀ c ∈ cs, c.isDigit = true := fun d hd => h d (List.mem_cons_of_mem _ hd)
    have hne : c ≠ '_' := by
      intro he
      rw [he] at hc
      exact absurd hc (by decide)
    rw [digits, if_pos hc, digits_of_isDigit hcs, Nat.ofDigitChars_cons]
    intro _ _ he
    exact absurd he hne

theorem unsigned_of_isDigit {cs : List Char} (hne : cs ≠ []) (h : ∀ c ∈ cs, c.isDigit = true) :
    unsigned cs = some (Nat.ofDigitChars 10 cs 0) := by
  cases cs with
  | nil => exact absurd rfl hne
  | cons c cs =>
    have hcs : ∀ c ∈ cs, c.isDigit = true := fun d hd => h d (List.mem_cons_of_mem _ hd)
    rw [unsigned, if_pos (h c (by simp)), digits_of_isDigit hcs, Nat.ofDigitChars_cons]
    simp

/-- Nothing is stripped from a text that starts and ends with no space. -/
theorem strip_eq {cs : List Char} (h : ∀ c ∈ cs, isSpace c = false) :
    ((cs.dropWhile isSpace).reverse.dropWhile isSpace).reverse = cs := by
  have hstrip {l : List Char} (hl : ∀ c ∈ l, isSpace c = false) : l.dropWhile isSpace = l := by
    cases l with
    | nil => rfl
    | cons c l => rw [List.dropWhile_cons_of_neg]; simp [hl c (by simp)]
  rw [hstrip h, hstrip fun c hc => h c (List.mem_reverse.1 hc), List.reverse_reverse]

theorem parseInt_of_isDigit {cs : List Char} (hne : cs ≠ []) (h : ∀ c ∈ cs, c.isDigit = true) :
    parseInt (String.ofList cs) = some ((Nat.ofDigitChars 10 cs 0 : Nat) : Int) := by
  rw [parseInt, String.toList_ofList, strip_eq fun c hc => isSpace_of_isDigit (h c hc)]
  cases cs with
  | nil => exact absurd rfl hne
  | cons c cs =>
    have hc := h c (by simp)
    rw [signed, unsigned_of_isDigit hne h]
    · rfl
    · intro _ he
      rw [(List.cons.inj he).1] at hc
      exact absurd hc (by decide)
    · intro _ he
      rw [(List.cons.inj he).1] at hc
      exact absurd hc (by decide)

theorem isDigit_of_mem_toDigits {n : Nat} {c : Char} (h : c ∈ Nat.toDigits 10 n) : c.isDigit = true :=
  Nat.isDigit_of_mem_toDigits (by decide) (by decide) h

theorem toList_negSucc (n : Nat) : (toString (Int.negSucc n)).toList = '-' :: Nat.toDigits 10 (n + 1) := by
  show ("-" ++ String.ofList (Nat.toDigits 10 (n + 1))).toList = _
  simp only [String.toList_append, String.toList_ofList]
  rfl

/-- **A number reads back.** -/
theorem parseInt_toString (i : Int) : parseInt (toString i) = some i := by
  cases i with
  | ofNat n =>
    show parseInt (String.ofList (Nat.toDigits 10 n)) = _
    rw [parseInt_of_isDigit (by simp) fun c hc => isDigit_of_mem_toDigits hc,
      Nat.ofDigitChars_toDigits (by decide) (by decide)]
    rfl
  | negSucc n =>
    have hspace : ∀ c ∈ '-' :: Nat.toDigits 10 (n + 1), isSpace c = false := by
      intro c hc
      rcases List.mem_cons.1 hc with rfl | hc
      · decide
      · exact isSpace_of_isDigit (isDigit_of_mem_toDigits hc)
    rw [parseInt, toList_negSucc, strip_eq hspace, signed,
      unsigned_of_isDigit (by simp) fun c hc => isDigit_of_mem_toDigits hc,
      Nat.ofDigitChars_toDigits (by decide) (by decide)]
    rfl

/-- A number has no colon. -/
theorem colon_not_mem_toString (i : Int) : ':' ∉ (toString i).toList := by
  have hdigits (n : Nat) : ':' ∉ Nat.toDigits 10 n := fun h => absurd (isDigit_of_mem_toDigits h) (by decide)
  cases i with
  | ofNat n =>
    show ':' ∉ (String.ofList (Nat.toDigits 10 n)).toList
    rw [String.toList_ofList]
    exact hdigits n
  | negSucc n =>
    rw [toList_negSucc]
    intro h
    rcases List.mem_cons.1 h with h | h
    · exact absurd h (by decide)
    · exact hdigits _ h

theorem ofDigitChars_zeros (k : Nat) (cs : List Char) :
    Nat.ofDigitChars 10 (List.replicate k '0' ++ cs) 0 = Nat.ofDigitChars 10 cs 0 := by
  induction k with
  | zero => rfl
  | succ k ih => rw [List.replicate_succ, List.cons_append, Nat.ofDigitChars_cons]; exact ih

/-- The digits of a padded number. -/
theorem zeroPad_toList (w n : Nat) : (∀ c ∈ (zeroPad w n).toList, c.isDigit = true) ∧
    Nat.ofDigitChars 10 (zeroPad w n).toList 0 = n ∧ (n < 10 ^ w → 0 < w → (zeroPad w n).toList.length = w) := by
  rw [zeroPad, String.toList_ofList]
  refine ⟨fun c hc => ?_, ?_, fun hn hw => ?_⟩
  · rcases List.mem_append.1 hc with hc | hc
    · rw [List.eq_of_mem_replicate hc]
      decide
    · exact isDigit_of_mem_toDigits hc
  · rw [ofDigitChars_zeros, Nat.ofDigitChars_toDigits (by decide) (by decide)]
  · have hle := (Nat.length_toDigits_le_iff (by decide) hw).2 hn
    rw [List.length_append, List.length_replicate]
    omega

/-- **A padded number reads back.** -/
theorem parseInt_zeroPad (w n : Nat) : parseInt (zeroPad w n) = some (n : Int) := by
  obtain ⟨hdigit, hvalue, -⟩ := zeroPad_toList w n
  rw [zeroPad, String.toList_ofList] at hdigit hvalue
  rw [zeroPad, parseInt_of_isDigit (by simp) hdigit, hvalue]

/-! ## Order -/

/-- The first digit counts most. -/
theorem ofDigitChars_cons_zero (c : Char) (cs : List Char) :
    Nat.ofDigitChars 10 (c :: cs) 0 = 10 ^ cs.length * (c.toNat - 48) + Nat.ofDigitChars 10 cs 0 := by
  have h0 : '0'.toNat = 48 := rfl
  rw [Nat.ofDigitChars_cons, Nat.ofDigitChars_eq_ofDigitChars_zero, Nat.mul_zero, Nat.zero_add, h0]

theorem ofDigitChars_lt {cs : List Char} (h : ∀ c ∈ cs, c.isDigit = true) :
    Nat.ofDigitChars 10 cs 0 < 10 ^ cs.length := by
  induction cs with
  | nil => simp
  | cons c cs ih =>
    have hc := toNat_of_isDigit (h c List.mem_cons_self)
    have ih := ih fun d hd => h d (List.mem_cons_of_mem _ hd)
    have hle : 10 ^ cs.length * (c.toNat - 48) ≤ 10 ^ cs.length * 9 := Nat.mul_le_mul_left _ (by omega)
    rw [ofDigitChars_cons_zero, List.length_cons, Nat.pow_succ]
    omega

/-- Of two numerals of one length the smaller comes first, whatever follows. -/
theorem append_lt_append_of_digits : ∀ {l l' : List Char}, (∀ c ∈ l, c.isDigit = true) →
    (∀ c ∈ l', c.isDigit = true) → l.length = l'.length →
    Nat.ofDigitChars 10 l 0 < Nat.ofDigitChars 10 l' 0 → ∀ s s' : List Char, l ++ s < l' ++ s'
  | [], [], _, _, _, h, _, _ => absurd h (Nat.lt_irrefl _)
  | c :: l, c' :: l', hl, hl', hlen, h, s, s' => by
    have hc' := toNat_of_isDigit (hl' c' List.mem_cons_self)
    have hrest := fun d hd => hl d (List.mem_cons_of_mem _ hd)
    have hrest' := fun d hd => hl' d (List.mem_cons_of_mem _ hd)
    have hlen : l.length = l'.length := Nat.succ.inj hlen
    have hbound := ofDigitChars_lt hrest'
    rw [ofDigitChars_cons_zero, ofDigitChars_cons_zero, hlen] at h
    rw [List.cons_append, List.cons_append, List.cons_lt_cons_iff]
    rcases Nat.lt_trichotomy c.toNat c'.toNat with hlt | heq | hgt
    · exact .inl hlt
    · rw [heq] at h
      exact .inr ⟨Char.toNat_inj.1 heq, append_lt_append_of_digits hrest hrest' hlen (by omega) s s'⟩
    · -- the first digit decides
      have hle : 10 ^ l'.length * (c'.toNat - 48 + 1) ≤ 10 ^ l'.length * (c.toNat - 48) :=
        Nat.mul_le_mul_left _ (by omega)
      rw [Nat.mul_add] at hle
      omega

/-- **Of two numbers padded to one length the smaller comes first.** -/
theorem zeroPad_lt {w m n : Nat} (hmn : m < n) (hn : n < 10 ^ w) (front rest : String) :
    front ++ zeroPad w m ++ rest < front ++ zeroPad w n ++ rest := by
  obtain ⟨hm, hmval, hmlen⟩ := zeroPad_toList w m
  obtain ⟨hd, hval, hlen⟩ := zeroPad_toList w n
  have hw : 0 < w := by
    by_contra h0
    rw [Nat.eq_zero_of_not_pos h0, Nat.pow_zero] at hn
    omega
  have hlist : (zeroPad w m).toList ++ rest.toList < (zeroPad w n).toList ++ rest.toList :=
    append_lt_append_of_digits hm hd ((hmlen (hmn.trans hn) hw).trans (hlen hn hw).symm) (by omega) _ _
  show (front ++ zeroPad w m ++ rest).toList < (front ++ zeroPad w n ++ rest).toList
  simp only [String.toList_append, List.append_assoc]
  exact List.append_left_lt hlist
/-! ## Addresses -/

/-- `s.rsplit(sep, 1)`, or `none` when `sep` does not occur. -/
def rsplit (sep : Char) (s : String) : Option (String × String) :=
  match s.toList.reverse.dropWhile (· ≠ sep) with
  | [] => none
  | _ :: front => some (String.ofList front.reverse, String.ofList (s.toList.reverse.takeWhile (· ≠ sep)).reverse)

/-- Host and port of an address `host:port`. -/
def hostPort (s : String) : Option (String × Int) :=
  match rsplit ':' s with
  | none => none
  | some (host, port) => (parseInt port).map fun p => (host, p)

theorem rsplit_append {sep : Char} (front : String) {last : String} (h : sep ∉ last.toList) :
    rsplit sep (front ++ String.singleton sep ++ last) = some (front, last) := by
  have hchars : (front ++ String.singleton sep ++ last).toList.reverse =
      last.toList.reverse ++ sep :: front.toList.reverse := by
    simp [String.toList_append]
  have hne : ∀ c ∈ last.toList.reverse, (decide (c ≠ sep)) = true := by
    intro c hc
    refine decide_eq_true fun he => h ?_
    rw [← he]
    exact List.mem_reverse.1 hc
  rw [rsplit, hchars, List.dropWhile_append_of_pos hne, List.takeWhile_append_of_pos hne]
  simp

/-- **An address reads back.** -/
theorem hostPort_append (host : String) (port : Int) : hostPort (host ++ ":" ++ toString port) = some (host, port) := by
  have hsplit := rsplit_append host (colon_not_mem_toString port)
  have hcolon : String.singleton ':' = ":" := rfl
  rw [hcolon] at hsplit
  rw [hostPort, hsplit]
  simp only [parseInt_toString, Option.map_some]

/-- A word on both sides of two fields reads back, when neither field holds
the separator. -/
theorem framed_inj {α : Type*} [DecidableEq α] {sep : α} {u u' a a' b b' : List α} (ha : sep ∉ a) (ha' : sep ∉ a')
    (hb : sep ∉ b) (hb' : sep ∉ b')
    (h : u ++ sep :: (a ++ sep :: (b ++ sep :: u)) = u' ++ sep :: (a' ++ sep :: (b' ++ sep :: u'))) :
    u = u' ∧ a = a' ∧ b = b' := by
  have hsplit := congrArg (List.splitOn sep) h
  simp only [List.splitOn_append_cons_self, List.splitOn_eq_singleton ha, List.splitOn_eq_singleton ha',
    List.splitOn_eq_singleton hb, List.splitOn_eq_singleton hb', List.singleton_append] at hsplit
  have hlen := congrArg List.length hsplit
  simp only [List.length_append, List.length_cons] at hlen
  obtain ⟨hu, hrest⟩ := List.append_inj hsplit (by omega)
  have hword := congrArg ([sep].intercalate ·) hu
  simp only [List.intercalate_splitOn] at hword
  obtain ⟨hfirst, hrest⟩ := List.cons.inj hrest
  exact ⟨hword, hfirst, (List.cons.inj hrest).1⟩

end Lib
