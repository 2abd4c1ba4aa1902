/-
Reading JSON within the limits of an interpreter: how many containers may be
open at a time, and how many digits an integer may have. A text that is beyond
them where the reader gets to that is refused in another way than one that is
no JSON (`loadsWithin_limit_iff`), and a text of a document within them is read
(`loadsWithin_text`).

The text is a list of code points, halves of surrogate pairs among them.
-/
import PeerChat.Lib.JsonText

namespace Lib.JsonText

/-- How many containers may be open, and how many digits an integer may have. -/
structure Limits where
  depth : Nat
  digits : Nat

/-- Why a text is not read: it is no JSON, or it is beyond a limit. -/
inductive LoadError
  | malformed
  | tooDeep
  | tooLong
  deriving DecidableEq, Repr

/-! ## Halves of pairs -/

/-- Half of a surrogate pair that stands in the text itself. It joins with no
escape, and is kept apart from what an escape names until all is read. -/
def apart (n : Nat) : Nat := n + 0x110000

/-- The code points that a reader has kept apart. -/
def joined (s : CodePoints) : CodePoints := s.map (· % 0x110000)

mutual

def Doc.joined : Doc → Doc
  | .null => .null
  | .bool b => .bool b
  | .num literal => .num literal
  | .str s => .str (JsonText.joined s)
  | .arr l => .arr (Doc.joinedItems l)
  | .obj l => .obj (Doc.joinedMembers l)

def Doc.joinedItems : List Doc → List Doc
  | [] => []
  | d :: l => d.joined :: joinedItems l

def Doc.joinedMembers : List (CodePoints × Doc) → List (CodePoints × Doc)
  | [] => []
  | (k, d) :: l => (JsonText.joined k, d.joined) :: joinedMembers l

end

/-- One code point. -/
def stepPoint (σ : State) (n : Nat) : Option State :=
  if n.isValidChar then step σ (Char.ofNat n)
  else
    match σ.mode with
    | .str members s => some ⟨σ.stack, .str members (apart n :: s)⟩
    | _ => none

def feedPoints : CodePoints → State → Option State
  | [], σ => some σ
  | n :: s, σ => (stepPoint σ n).bind (feedPoints s)

/-! ## The limits -/

/-- How many containers are open. -/
def State.depth (σ : State) : Nat :=
  match σ.mode with
  | .first | .firstKey | .key _ | .colon _ _ | .nextItem _ | .nextMember _ => σ.stack.length + 1
  | .str (some _) _ | .escape (some _) _ | .hex (some _) _ _ _ => σ.stack.length + 1
  | .str none _ | .escape none _ | .hex none _ _ _ => σ.stack.length
  | .value | .top _ | .num _ _ | .word _ _ => σ.stack.length

/-- The digits of the integer that a reader has when the number goes no
further. A point or an exponent without digits is no part of it. -/
def Num.integerDigits (a : Num) (literal : List Char) : Nat :=
  let isInteger : Bool := match a with
    | .zero | .int | .point => true
    | .exp | .expSign => !literal.contains '.'
    | .minus | .frac | .expDigits => false
  if isInteger then ((literal.takeWhile fun c => c ≠ '.' && c ≠ 'e' && c ≠ 'E').filter isDigit).length else 0

/-- The reader is at the end of an integer that has too many digits, with this
code point or the end of the text ahead. -/
def State.IsLong (L : Limits) (σ : State) (ahead : Option Nat) : Prop :=
  match σ.mode with
  | .num a literal =>
    (∀ n, ahead = some n → a.next (Char.ofNat n) = none) ∧ L.digits < a.integerDigits literal.reverse
  | _ => False

instance (L : Limits) (σ : State) : (ahead : Option Nat) → Decidable (σ.IsLong L ahead)
  | none => by unfold State.IsLong; split <;> infer_instance
  | some n => by unfold State.IsLong; split <;> infer_instance

/-- The text as far as the limits allow. -/
def readWithin (L : Limits) : CodePoints → State → Except LoadError State
  | [], σ => if σ.IsLong L none then .error .tooLong else .ok σ
  | n :: s, σ =>
    if σ.IsLong L (some n) then .error .tooLong
    else
      match stepPoint σ n with
      | none => .error .malformed
      | some σ' => if L.depth < σ'.depth then .error .tooDeep else readWithin L s σ'

/-- `json.loads`: a `JSONDecodeError` for a malformed text, a `RecursionError`
for one that is too deep and a `ValueError` for an integer that is too long. -/
def loadsWithin (L : Limits) (text : CodePoints) : Except LoadError Doc :=
  match readWithin L text ⟨[], .value⟩ with
  | .error e => .error e
  | .ok σ =>
    match finish σ with
    | none => .error .malformed
    | some d => .ok d.joined

/-! ## Beyond a limit -/

variable {L : Limits}

/-- A beginning of the text is as JSON has it and is beyond a limit: more
containers are open than there may be, or it ends an integer that has too many
digits. -/
def Beyond (L : Limits) (text : CodePoints) (σ : State) : Prop :=
  ∃ read ahead σ', text = read ++ ahead ∧ feedPoints read σ = some σ' ∧
    (L.depth < σ'.depth ∨ σ'.IsLong L ahead.head?)

/-- A reader that is within the limits at one code point is beyond them
later. -/
theorem beyond_cons {n : Nat} {s : CodePoints} {σ : State} (hdepth : σ.depth ≤ L.depth)
    (hlong : ¬ σ.IsLong L (some n)) : Beyond L (n :: s) σ ↔ ∃ σ', stepPoint σ n = some σ' ∧ Beyond L s σ' := by
  constructor
  · rintro ⟨read, ahead, σ₁, htext, hfeed, hbeyond⟩
    cases read with
    | nil =>
      cases hfeed
      rw [List.nil_append] at htext
      subst htext
      rcases hbeyond with hdeep | hl
      · omega
      · exact absurd hl hlong
    | cons m read =>
      obtain ⟨rfl, hs⟩ := List.cons.inj htext
      obtain ⟨σ', hstep, hrest⟩ := Option.bind_eq_some_iff.1 hfeed
      exact ⟨σ', hstep, read, ahead, σ₁, hs, hrest, hbeyond⟩
  · rintro ⟨σ', hstep, read, ahead, σ₁, rfl, hfeed, hbeyond⟩
    refine ⟨n :: read, ahead, σ₁, rfl, ?_, hbeyond⟩
    rw [feedPoints, hstep, Option.bind_some, hfeed]

theorem readWithin_limit_iff : ∀ {s : CodePoints} {σ : State}, σ.depth ≤ L.depth →
    ((∃ e, readWithin L s σ = .error e ∧ e ≠ .malformed) ↔ Beyond L s σ)
  | [], σ, hdepth => by
    rw [readWithin]
    constructor
    · rintro ⟨e, he, hne⟩
      split at he
      · next hl => exact ⟨[], [], σ, rfl, rfl, .inr hl⟩
      · cases he
    · rintro ⟨read, ahead, σ', htext, hfeed, hbeyond⟩
      obtain ⟨rfl, rfl⟩ := List.append_eq_nil_iff.1 htext.symm
      cases hfeed
      rcases hbeyond with hdeep | hl
      · omega
      · exact ⟨.tooLong, if_pos hl, nofun⟩
  | n :: s, σ, hdepth => by
    rw [readWithin]
    split
    · next hl => exact iff_of_true ⟨.tooLong, rfl, nofun⟩ ⟨[], n :: s, σ, rfl, rfl, .inr hl⟩
    · next hl =>
      rw [beyond_cons hdepth hl]
      split
      · next hstep =>
        refine iff_of_false ?_ (by simp [hstep])
        rintro ⟨e, he, hne⟩
        cases he
        exact hne rfl
      · next σ' hstep =>
        simp only [hstep, Option.some.injEq, exists_eq_left']
        split
        · next hdeep => exact iff_of_true ⟨.tooDeep, rfl, nofun⟩ ⟨[], s, σ', rfl, rfl, .inl hdeep⟩
        · next hdeep => exact readWithin_limit_iff (Nat.le_of_not_lt hdeep)

/-- **A text is refused for more than being no JSON exactly when it is beyond
a limit.** -/
theorem loadsWithin_limit_iff (L : Limits) (text : CodePoints) :
    (∃ e, loadsWithin L text = .error e ∧ e ≠ .malformed) ↔ Beyond L text ⟨[], .value⟩ := by
  rw [← readWithin_limit_iff (Nat.zero_le _), loadsWithin]
  cases readWithin L text ⟨[], .value⟩ with
  | error e => simp only [Except.error.injEq]
  | ok σ =>
    refine iff_of_false ?_ (by rintro ⟨e, he, -⟩; cases he)
    rintro ⟨e, he, hne⟩
    simp only at he
    split at he
    · cases he
      exact hne rfl
    · cases he

/-- Within the limits a text is read as it is without them. -/
theorem readWithin_of_not_beyond : ∀ {s : CodePoints} {σ σ' : State}, σ.depth ≤ L.depth → ¬ Beyond L s σ →
    feedPoints s σ = some σ' → readWithin L s σ = .ok σ'
  | [], σ, σ', _, hno, hfeed => by
    cases hfeed
    exact if_neg fun hl => hno ⟨[], [], σ, rfl, rfl, .inr hl⟩
  | n :: s, σ, σ', hdepth, hno, hfeed => by
    obtain ⟨σ₁, hstep, hrest⟩ := Option.bind_eq_some_iff.1 hfeed
    have hl : ¬ σ.IsLong L (some n) := fun hl => hno ⟨[], n :: s, σ, rfl, rfl, .inr hl⟩
    have hno' : ¬ Beyond L s σ₁ := fun hb => hno ((beyond_cons hdepth hl).2 ⟨σ₁, hstep, hb⟩)
    have hdepth' : σ₁.depth ≤ L.depth := Nat.le_of_not_lt fun hdeep => hno' ⟨[], s, σ₁, rfl, rfl, .inl hdeep⟩
    rw [readWithin, if_neg hl, hstep]
    simp only [Nat.not_lt.2 hdepth', if_false]
    exact readWithin_of_not_beyond hdepth' hno' hrest

/-! ## Documents within the limits -/

/-- A document in so many containers is within the limits. -/
inductive Doc.Fits (L : Limits) : Nat → Doc → Prop
  | null (k : Nat) : Fits L k .null
  | bool (k : Nat) (b : Bool) : Fits L k (.bool b)
  | num (k : Nat) {literal : List Char} : (∀ a : Num, a.integerDigits literal ≤ L.digits) → Fits L k (.num literal)
  | str (k : Nat) (s : CodePoints) : Fits L k (.str s)
  | arr {k : Nat} {l : List Doc} : k < L.depth → (∀ d ∈ l, Fits L (k + 1) d) → Fits L k (.arr l)
  | obj {k : Nat} {l : List (CodePoints × Doc)} :
    k < L.depth → (∀ p ∈ l, Fits L (k + 1) p.2) → Fits L k (.obj l)

/-- What a container holds so far, when `k` are open around it. -/
def Frame.Fits (L : Limits) (k : Nat) : Frame → Prop
  | .item items => k < L.depth ∧ ∀ d ∈ items, d.Fits L (k + 1)
  | .member members _ => k < L.depth ∧ ∀ p ∈ members, p.2.Fits L (k + 1)

def StackFits (L : Limits) : List Frame → Prop
  | [] => True
  | f :: stack => f.Fits L stack.length ∧ StackFits L stack

def Mode.Fits (L : Limits) (k : Nat) : Mode → Prop
  | .first | .firstKey => k < L.depth
  | .key members | .colon members _ | .nextMember members => k < L.depth ∧ ∀ p ∈ members, p.2.Fits L (k + 1)
  | .nextItem items => k < L.depth ∧ ∀ d ∈ items, d.Fits L (k + 1)
  | .top d => d.Fits L k
  | .str members _ | .escape members _ | .hex members _ _ _ =>
    ∀ l, members = some l → k < L.depth ∧ ∀ p ∈ l, p.2.Fits L (k + 1)
  | .value | .num _ _ | .word _ _ => True

/-- What the reader has is within the limits. -/
structure State.Fits (L : Limits) (σ : State) : Prop where
  stack : StackFits L σ.stack
  mode : σ.mode.Fits L σ.stack.length

theorem StackFits.length_le : ∀ {stack : List Frame}, StackFits L stack → stack.length ≤ L.depth
  | [], _ => Nat.zero_le _
  | .item _ :: _, h => h.1.1
  | .member _ _ :: _, h => h.1.1

theorem State.Fits.depth_le {σ : State} (h : σ.Fits L) : σ.depth ≤ L.depth := by
  obtain ⟨stack, mode⟩ := σ
  obtain ⟨hstack, hmode⟩ := h
  have hlen := hstack.length_le
  cases mode with
  | first | firstKey => exact hmode
  | key | colon | nextItem | nextMember => exact hmode.1
  | str members | escape members | hex members =>
    cases members with
    | none => exact hlen
    | some l => exact (hmode l rfl).1
  | value | top | num | word => exact hlen

/-- A value that the reader has whole is within the limits when what follows is. -/
theorem fits_of_complete {d : Doc} : ∀ {stack : List Frame}, (complete stack d).Fits L →
    StackFits L stack ∧ d.Fits L stack.length
  | [], h => ⟨trivial, h.mode⟩
  | .item _ :: _, h =>
    ⟨⟨⟨h.mode.1, fun x hx => h.mode.2 x (List.mem_cons_of_mem _ hx)⟩, h.stack⟩, h.mode.2 d List.mem_cons_self⟩
  | .member _ key :: _, h =>
    ⟨⟨⟨h.mode.1, fun x hx => h.mode.2 x (List.mem_cons_of_mem _ hx)⟩, h.stack⟩,
      h.mode.2 (key, d) List.mem_cons_self⟩

theorem fits_of_follow {σ σ' : State} (h : σ'.Fits L) {c : Char} (hσ : follow σ c = some σ') : σ.Fits L := by
  obtain ⟨stack, mode⟩ := σ
  unfold follow at hσ
  split at hσ
  · next items he =>
    cases he
    repeat' split at hσ
    · cases hσ
      exact h
    · cases hσ
      exact ⟨h.stack.2, h.stack.1⟩
    · cases hσ
      obtain ⟨hstack, hd⟩ := fits_of_complete h
      cases hd with
      | arr hlt hitems => exact ⟨hstack, hlt, fun d hd => hitems d (List.mem_reverse.2 hd)⟩
    · cases hσ
  · next members he =>
    cases he
    repeat' split at hσ
    · cases hσ
      exact h
    · cases hσ
      exact ⟨h.stack, h.mode⟩
    · cases hσ
      obtain ⟨hstack, hd⟩ := fits_of_complete h
      cases hd with
      | obj hlt hmembers => exact ⟨hstack, hlt, fun p hp => hmembers p (List.mem_reverse.2 hp)⟩
    · cases hσ
  · split at hσ
    · cases hσ
      exact h
    · cases hσ
  · cases hσ

/-- What the reader has is within the limits when what it has later is. -/
theorem fits_of_step {σ σ' : State} (h : σ'.Fits L) {c : Char} (hσ : step σ c = some σ') : σ.Fits L := by
  obtain ⟨stack, mode⟩ := σ
  cases mode with
  | value =>
    simp only [step] at hσ
    split at hσ
    · cases hσ
      exact h
    · exact ⟨(begin_cases hσ).1 ▸ h.stack, trivial⟩
  | first =>
    simp only [step] at hσ
    repeat' split at hσ
    · cases hσ
      exact h
    · cases hσ
      obtain ⟨hstack, hd⟩ := fits_of_complete h
      cases hd with
      | arr hlt _ => exact ⟨hstack, hlt⟩
    · have hstack := h.stack
      rw [(begin_cases hσ).1] at hstack
      exact ⟨hstack.2, hstack.1.1⟩
  | firstKey =>
    simp only [step] at hσ
    repeat' split at hσ
    · cases hσ
      exact h
    · cases hσ
      exact ⟨h.stack, (h.mode [] rfl).1⟩
    · cases hσ
      obtain ⟨hstack, hd⟩ := fits_of_complete h
      cases hd with
      | obj hlt _ => exact ⟨hstack, hlt⟩
    · cases hσ
  | key members =>
    simp only [step] at hσ
    repeat' split at hσ
    · cases hσ
      exact h
    · cases hσ
      exact ⟨h.stack, h.mode members rfl⟩
    · cases hσ
  | colon members key =>
    simp only [step] at hσ
    repeat' split at hσ
    · cases hσ
      exact h
    · cases hσ
      exact ⟨h.stack.2, h.stack.1⟩
    · cases hσ
  | nextItem | nextMember | top =>
    simp only [step] at hσ
    exact fits_of_follow h hσ
  | str members s =>
    simp only [step] at hσ
    repeat' split at hσ
    · cases hσ
      cases members with
      | none => exact ⟨(fits_of_complete h).1, nofun⟩
      | some members =>
        refine ⟨h.stack, fun l hl => ?_⟩
        cases hl
        exact h.mode
    · cases hσ
      exact ⟨h.stack, h.mode⟩
    · cases hσ
    · cases hσ
      exact ⟨h.stack, h.mode⟩
  | escape members s =>
    simp only [step] at hσ
    split at hσ
    · cases hσ
      exact ⟨h.stack, h.mode⟩
    · obtain ⟨u, -, rfl⟩ := Option.map_eq_some_iff.1 hσ
      exact ⟨h.stack, h.mode⟩
  | hex members s m left =>
    simp only [step] at hσ
    obtain ⟨v, -, rfl⟩ := Option.map_eq_some_iff.1 hσ
    cases left <;> exact ⟨h.stack, h.mode⟩
  | num a literal =>
    simp only [step] at hσ
    repeat' split at hσ
    · cases hσ
      exact ⟨h.stack, trivial⟩
    · exact ⟨(fits_of_complete (fits_of_follow h hσ)).1, trivial⟩
    · cases hσ
      exact ⟨h.stack, trivial⟩
    · cases hσ
  | word w i =>
    simp only [step] at hσ
    repeat' split at hσ
    · cases hσ
      exact ⟨(fits_of_complete h).1, trivial⟩
    · cases hσ
      exact ⟨h.stack, trivial⟩
    · cases hσ

/-- A number that the reader has whole is not too long when what follows is
within the limits. -/
theorem not_isLong_of_step {σ σ' : State} (h : σ'.Fits L) {n : Nat} (hσ : step σ (Char.ofNat n) = some σ') :
    ¬ σ.IsLong L (some n) := by
  obtain ⟨stack, mode⟩ := σ
  cases mode with
  | num a literal =>
    rintro ⟨hend, hlong⟩
    simp only [step, hend n rfl] at hσ
    split at hσ
    · cases (fits_of_complete (fits_of_follow h hσ)).2 with
      | num _ hdigits => exact absurd (hdigits a) (Nat.not_le_of_lt hlong)
    · split at hσ
      · next hinf =>
        rw [hinf.1] at hlong
        exact absurd hlong (Nat.not_lt_zero _)
      · cases hσ
  | _ => exact id

theorem fits_of_stepPoint {σ σ' : State} (h : σ'.Fits L) {n : Nat} (hσ : stepPoint σ n = some σ') :
    σ.Fits L ∧ ¬ σ.IsLong L (some n) := by
  unfold stepPoint at hσ
  split at hσ
  · exact ⟨fits_of_step h hσ, not_isLong_of_step h hσ⟩
  · obtain ⟨stack, mode⟩ := σ
    split at hσ
    · next members s he =>
      cases he
      cases hσ
      exact ⟨⟨h.stack, h.mode⟩, id⟩
    · cases hσ

/-- A text that ends within the limits is beyond them nowhere. -/
theorem not_beyond_of_fits : ∀ {s : CodePoints} {σ σ' : State}, feedPoints s σ = some σ' → σ'.Fits L →
    ¬ σ'.IsLong L none → σ.Fits L ∧ ¬ Beyond L s σ
  | [], σ, σ', hfeed, h, hlong => by
    cases hfeed
    refine ⟨h, ?_⟩
    rintro ⟨read, ahead, σ₁, htext, hfeed, hbeyond⟩
    obtain ⟨rfl, rfl⟩ := List.append_eq_nil_iff.1 htext.symm
    cases hfeed
    rcases hbeyond with hdeep | hl
    · exact absurd h.depth_le (Nat.not_le_of_lt hdeep)
    · exact hlong hl
  | n :: s, σ, σ', hfeed, h, hlong => by
    obtain ⟨σ₁, hstep, hrest⟩ := Option.bind_eq_some_iff.1 hfeed
    obtain ⟨hfits, hno⟩ := not_beyond_of_fits hrest h hlong
    obtain ⟨hσ, hl⟩ := fits_of_stepPoint hfits hstep
    refine ⟨hσ, fun hb => ?_⟩
    obtain ⟨σ₂, hstep₂, hlater⟩ := (beyond_cons hσ.depth_le hl).1 hb
    cases hstep.symm.trans hstep₂
    exact hno hlater

theorem stepPoint_toNat (σ : State) (c : Char) : stepPoint σ c.toNat = step σ c := by
  have hvalid : c.toNat.isValidChar := c.valid
  rw [stepPoint, if_pos hvalid, Char.ofNat_toNat]

theorem feedPoints_map : ∀ (cs : List Char) (σ : State), feedPoints (cs.map Char.toNat) σ = feed cs σ
  | [], _ => rfl
  | c :: cs, σ => by
    rw [List.map_cons, feedPoints, stepPoint_toNat, feed]
    exact congrArg _ (funext fun σ' => feedPoints_map cs σ')

/-- What can be written has no half that is kept apart. -/
theorem joined_of_scalar {s : CodePoints} (h : ∀ n ∈ s, Scalar n) : joined s = s := by
  rw [joined]
  refine (List.map_congr_left fun n hn => ?_).trans (List.map_id s)
  have hs := h n hn
  unfold Scalar at hs
  exact Nat.mod_eq_of_lt (by omega)

theorem joinedItems_eq : ∀ {l : List Doc}, (∀ d ∈ l, d.joined = d) → Doc.joinedItems l = l
  | [], _ => by rw [Doc.joinedItems]
  | d :: l, h => by
    rw [Doc.joinedItems, h d List.mem_cons_self, joinedItems_eq fun x hx => h x (List.mem_cons_of_mem _ hx)]

theorem joinedMembers_eq : ∀ {l : List (CodePoints × Doc)}, (∀ p ∈ l, ∀ n ∈ p.1, Scalar n) →
    (∀ p ∈ l, p.2.joined = p.2) → Doc.joinedMembers l = l
  | [], _, _ => by rw [Doc.joinedMembers]
  | (k, d) :: l, hk, h => by
    rw [Doc.joinedMembers, joined_of_scalar (hk (k, d) List.mem_cons_self), h (k, d) List.mem_cons_self,
      joinedMembers_eq (fun p hp => hk p (List.mem_cons_of_mem _ hp)) fun p hp => h p (List.mem_cons_of_mem _ hp)]

theorem joined_of_written {d : Doc} (h : d.Written) : d.joined = d := by
  induction h with
  | null => rw [Doc.joined]
  | bool b => rw [Doc.joined]
  | num _ => rw [Doc.joined]
  | str hs => rw [Doc.joined, joined_of_scalar hs]
  | arr _ ih => rw [Doc.joined, joinedItems_eq ih]
  | obj hk _ ih => rw [Doc.joined, joinedMembers_eq hk ih]

/-- **A document within the limits is read back from its text.** -/
theorem loadsWithin_text {pad : List Char} (hpad : ∀ c ∈ pad, isBlank c = true) {d : Doc} (h : d.Written)
    (hfits : d.Fits L 0) : loadsWithin L ((d.text pad).map Char.toNat) = .ok d := by
  obtain ⟨σ, hσ, ht⟩ := feed_text hpad d h []
  have hfeed : feedPoints ((d.text pad).map Char.toNat) ⟨[], .value⟩ = some σ := by rw [feedPoints_map, hσ]
  have hend : σ.Fits L ∧ ¬ σ.IsLong L none := by
    rcases ht with rfl | ⟨a, literal, -, rfl, rfl⟩
    · exact ⟨⟨trivial, hfits⟩, id⟩
    · refine ⟨⟨trivial, trivial⟩, fun hlong => ?_⟩
      cases hfits with
      | num _ hdigits => exact absurd (hdigits a) (Nat.not_le_of_lt hlong.2)
  obtain ⟨-, hno⟩ := not_beyond_of_fits hfeed hend.1 hend.2
  rw [loadsWithin, readWithin_of_not_beyond (Nat.zero_le _) hno hfeed]
  simp only [ht.finish, joined_of_written h]

/-- Containers without end are too deep. -/
theorem beyond_brackets (L : Limits) : Beyond L (List.replicate (L.depth + 1) 91) ⟨[], .value⟩ := by
  have hopen : ∀ (k : Nat) (stack : List Frame),
      feedPoints (List.replicate k 91) ⟨stack, .first⟩ = some ⟨List.replicate k (.item []) ++ stack, .first⟩ := by
    intro k
    induction k with
    | zero => intro stack; rfl
    | succ k ih =>
      intro stack
      have hstep : stepPoint ⟨stack, .first⟩ 91 = some ⟨.item [] :: stack, .first⟩ := rfl
      rw [List.replicate_succ, feedPoints, hstep, Option.bind_some, ih, List.replicate_succ', List.append_assoc]
      rfl
  have hstart : stepPoint ⟨[], .value⟩ 91 = some ⟨[], .first⟩ := rfl
  refine ⟨_, [], ⟨List.replicate L.depth (.item []) ++ [], .first⟩, (List.append_nil _).symm, ?_, .inl ?_⟩
  · rw [List.replicate_succ, feedPoints, hstart, Option.bind_some, hopen]
  · simp [State.depth]

end Lib.JsonText
