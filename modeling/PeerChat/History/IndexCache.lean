/-
The index files as a cache (`_load_indexes`, `_read_json` and
`_repair_indexes_from_readable_storage` of
`message_history/storage/local_message_store.py`), with any bytes in them.

What is loaded is compared with what the readable messages give, and
replaced where it differs, so that nothing stale survives. But loading
converts ids, offsets and numbers before that, and what a conversion raises
ends the construction. `isCache_iff`: a store is constructed, with the
indexes of the readable messages, exactly when every file decodes and every
conversion goes through. `construct_init`: on files that a store has written
it is the store that is opened on them.
-/
import PeerChat.History.IndexFiles
import PeerChat.History.StorageMessages
import Mathlib.Data.Finset.Image

namespace PeerChat.History

open Lib JsonText

/-- An element of `_message_ids`. Numbers are kept as they are written; none
is equal to a text. -/
inductive Atom
  | null
  | bool (b : Bool)
  | num (literal : List Char)
  | str (s : CodePoints)
  deriving DecidableEq

/-- A value as an element of a set. -/
def atom? : Doc → Option Atom
  | .null => some .null
  | .bool b => some (.bool b)
  | .num literal => some (.num literal)
  | .str s => some (.str s)
  | .arr _ | .obj _ => none

/-- The bytes of the index files; one that is missing is `none`. -/
structure IndexBytes where
  messageIds : Option (List UInt8)
  senderSeq : Option (List UInt8)
  latestVc : Option (List UInt8)
  recoveryState : Option (List UInt8)

def IndexBytes.missing : IndexBytes := ⟨none, none, none, none⟩

/-- `_message_ids`, `_sender_seq` and `_latest_vc`. -/
structure Loaded where
  messageIds : Finset Atom
  senderSeq : Dict CodePoints (Dict CodePoints Int)
  latestVc : Dict CodePoints Int

/-- What a construction ends with, and whether it has written the index
files anew. -/
structure Opened where
  indexes : Loaded
  recovery : RecoveryState
  flushed : Bool

/-- The key of a sequence number. -/
def seqKey (n : Int) : CodePoints := codePoints (toString n)

/-- The indexes with the keys they have in the files. -/
def Indexes.rendered (ix : Indexes) : Loaded where
  messageIds := ix.messageIds.image fun i => .str (codePoints i)
  senderSeq := (ix.senderSeq.mapValues fun seqs => seqs.rekey seqKey).rekey codePoints
  latestVc := ix.latestVc.rekey codePoints

/-- `==` on each of the three. -/
def Loaded.same (ix ix' : Loaded) : Bool :=
  ix.messageIds = ix'.messageIds ∧
    Indexes.sameItems (Indexes.sameItems (· == ·)) ix.senderSeq ix'.senderSeq ∧
    Indexes.sameItems (· == ·) ix.latestVc ix'.latestVc

/-- `_repair_indexes_from_readable_storage`. -/
def Loaded.repair (loaded : Loaded) (r : RecoveryState) (d : Disk) : Opened :=
  let (found, twice) := Indexes.collect d.iterReadableMessages (.empty, false)
  let repaired := found.rendered
  let changed := twice || !repaired.same loaded
  let damaged := d.hasUnreadableSnapshot || d.hasSnapshotSequenceGaps || d.activeLog.any LogLine.isInvalid ||
    hasSenderSequenceGaps found.senderSeq
  let lost := !decide (loaded.messageIds ⊆ repaired.messageIds)
  if changed then
    let force := damaged || lost
    ⟨repaired, ⟨force || r.forceFullRecoveryCursor, force || r.needsSnapshotRebuild⟩, true⟩
  else if damaged then ⟨loaded, ⟨true, true⟩, true⟩
  else ⟨loaded, r, false⟩

namespace Decoding

variable (D : Decoding)

/-- `_read_json`; of what decoding raises, it catches the `JSONDecodeError`. -/
def readJson (file : Option (List UInt8)) (default : Doc) : Except PyError Doc :=
  match file with
  | none | some [] => .ok default
  | some bytes =>
    match TextFile.decode bytes with
    | none => .error .valueError
    | some text =>
      match D.limit text with
      | some x => .error x.error
      | none => .ok ((loads text).getD default)

/-- `set(x)` of a list. -/
def setOf : List Doc → Except PyError (Finset Atom)
  | [] => .ok ∅
  | x :: xs =>
    match atom? x with
    | some a => (setOf xs).map (insert a)
    | none => .error .typeError

/-- A comprehension over the items of an object, with `f` of each value. -/
def convert {α : Type} (f : Doc → Except PyError α) : List (CodePoints × Doc) → Except PyError (List (CodePoints × α))
  | [] => .ok []
  | (k, x) :: l => do
    let a ← f x
    let rest ← convert f l
    .ok ((k, a) :: rest)

/-- The map with these items. -/
def dictOf {α : Type} (l : List (CodePoints × α)) : Dict CodePoints α := l.foldl (fun d p => d.set p.1 p.2) Dict.empty

/-- The ids. -/
def messageIds : Doc → Except PyError (Finset Atom)
  | .arr xs => setOf xs
  | _ => .ok ∅

/-- `{key: int(x) …}` of an object. -/
def intMap : Doc → Except PyError (Dict CodePoints Int)
  | .obj l => (convert D.int (mapping l).items).map dictOf
  | _ => .ok Dict.empty

/-- The members of an object that are objects. -/
def objects (l : List (CodePoints × Doc)) : List (CodePoints × Doc) :=
  (mapping l).items.filter fun p => match p.2 with
    | .obj _ => true
    | _ => false

/-- The offsets of each sender. -/
def senderSeq : Doc → Except PyError (Dict CodePoints (Dict CodePoints Int))
  | .obj l => (convert D.intMap (objects l)).map dictOf
  | _ => .ok Dict.empty

/-- The flags. -/
def flags : Doc → RecoveryState
  | .obj l => ⟨isTruthy (itemD l "force_full_recovery_cursor" .null), isTruthy (itemD l "needs_snapshot_rebuild" .null)⟩
  | _ => ⟨false, false⟩

/-- `_load_indexes`. -/
def loadIndexes (files : IndexBytes) : Except PyError (Loaded × RecoveryState) := do
  let ids ← messageIds (← D.readJson files.messageIds (.arr []))
  let seqs ← D.senderSeq (← D.readJson files.senderSeq (.obj []))
  let vc ← D.intMap (← D.readJson files.latestVc (.obj []))
  let recovery ← D.readJson files.recoveryState (.obj [])
  .ok (⟨ids, seqs, vc⟩, flags recovery)

/-- `__init__`, on these index files and what else is on the disk. -/
def construct (files : IndexBytes) (d : Disk) : Except PyError Opened :=
  (D.loadIndexes files).map fun p => p.1.repair p.2 d

end Decoding

/-! ## A cache -/

/-- The ids, the keys and the largest numbers are those of these messages. -/
structure Loaded.Derived (ix : Loaded) (ms : List Message) : Prop where
  messageIds : ∀ a, a ∈ ix.messageIds ↔ ∃ m ∈ ms, a = .str (codePoints m.id)
  senders : ∀ u, u ∈ ix.senderSeq.keys ↔ ∃ m ∈ ms, u = codePoints m.sender
  numbers : ∀ u k, k ∈ (ix.senderSeq.getD u Dict.empty).keys ↔
    ∃ m ∈ ms, u = codePoints m.sender ∧ k = seqKey m.senderSeq
  latestVc : ∀ u k, ix.latestVc.get? u = some k ↔
    0 < k ∧ (∃ m ∈ ms, u = codePoints m.sender ∧ m.senderSeq = k) ∧
      ∀ m ∈ ms, u = codePoints m.sender → m.senderSeq ≤ k

/-- Two stores have the same ids, keys and largest numbers. -/
structure Loaded.Agrees (ix ix' : Loaded) : Prop where
  messageIds : ix.messageIds = ix'.messageIds
  senders : ∀ u, u ∈ ix.senderSeq.keys ↔ u ∈ ix'.senderSeq.keys
  numbers : ∀ u k, k ∈ (ix.senderSeq.getD u Dict.empty).keys ↔ k ∈ (ix'.senderSeq.getD u Dict.empty).keys
  latestVc : ∀ u, ix.latestVc.get? u = ix'.latestVc.get? u

/-- The document of a file, where it decodes. -/
def documentOf (file : Option (List UInt8)) : Option Doc := (file.bind TextFile.decode).bind loads

namespace Decoding

variable (D : Decoding)

/-- A file that is missing, or of UTF-8 within the limits of the
interpreter. -/
def Readable (file : Option (List UInt8)) : Prop :=
  ∀ bytes, file = some bytes → bytes = [] ∨ ∃ text, TextFile.decode bytes = some text ∧ D.limit text = none

/-- Every value is one that `int` takes. -/
def Counts (l : List (CodePoints × Doc)) : Prop := ∀ p ∈ (mapping l).items, ∃ n, D.int p.2 = .ok n

/-- What the files may hold: no list or object in a list of ids, and
numbers for `int` among the offsets and the largest numbers. -/
structure Loadable (files : IndexBytes) : Prop where
  messageIds : D.Readable files.messageIds ∧
    ∀ xs, documentOf files.messageIds = some (.arr xs) → ∀ x ∈ xs, isHashable x = true
  senderSeq : D.Readable files.senderSeq ∧
    ∀ l, documentOf files.senderSeq = some (.obj l) → ∀ u seqs, (u, .obj seqs) ∈ (mapping l).items → D.Counts seqs
  latestVc : D.Readable files.latestVc ∧ ∀ l, documentOf files.latestVc = some (.obj l) → D.Counts l
  recoveryState : D.Readable files.recoveryState

/-- The store is constructed, its indexes are those of the readable messages,
and the same as without the files. -/
def IsCache (files : IndexBytes) (d : Disk) : Prop :=
  ∃ s s₀, D.construct files d = .ok s ∧ D.construct .missing d = .ok s₀ ∧ s.indexes.Derived d.readAllMessages ∧
    s.indexes.Agrees s₀.indexes

/-! ## Loading -/

variable {D}

/-- What `_read_json` returns. -/
theorem readJson_eq_ok {file : Option (List UInt8)} {default x : Doc} :
    D.readJson file default = .ok x ↔ D.Readable file ∧ x = (documentOf file).getD default := by
  have hempty : documentOf (some []) = none := by decide
  match file with
  | none => simp [readJson, Readable, documentOf, eq_comm]
  | some [] => simp [readJson, Readable, hempty, eq_comm]
  | some (b :: bs) =>
    simp only [readJson, Readable, documentOf, Option.bind_some, Option.some.injEq, forall_eq', reduceCtorEq, false_or]
    cases TextFile.decode (b :: bs) with
    | none => simp
    | some text => cases h : D.limit text <;> simp [h, eq_comm]

theorem atom?_isSome (x : Doc) : (atom? x).isSome = isHashable x := by cases x <;> rfl

/-- A set is made of what can be hashed. -/
theorem setOf_isOk : ∀ {xs : List Doc}, (∃ ids, setOf xs = .ok ids) ↔ ∀ x ∈ xs, isHashable x = true
  | [] => by simp [setOf]
  | x :: xs => by
    rw [List.forall_mem_cons, ← setOf_isOk, ← atom?_isSome]
    cases hx : atom? x with
    | none => simp [setOf, hx]
    | some a => cases hxs : setOf xs <;> simp [setOf, hx, hxs, Except.map]

/-- A comprehension goes through where every conversion does. -/
theorem convert_isOk {α : Type} {f : Doc → Except PyError α} : ∀ {l : List (CodePoints × Doc)},
    (∃ r, convert f l = .ok r) ↔ ∀ p ∈ l, ∃ a, f p.2 = .ok a
  | [] => by simp [convert]
  | (k, x) :: l => by
    rw [List.forall_mem_cons, ← convert_isOk]
    simp only [convert, bind_eq_ok, Except.ok.injEq]
    constructor
    · rintro ⟨_, a, ha, r, hr, -⟩
      exact ⟨⟨a, ha⟩, r, hr⟩
    · rintro ⟨⟨a, ha⟩, r, hr⟩
      exact ⟨_, a, ha, r, hr, rfl⟩

theorem map_isOk {α β : Type} {f : α → β} {x : Except PyError α} : (∃ b, x.map f = .ok b) ↔ ∃ a, x = .ok a := by
  cases x <;> simp [Except.map]

theorem intMap_isOk {x : Doc} : (∃ r, D.intMap x = .ok r) ↔ ∀ l, x = .obj l → D.Counts l := by
  cases x with
  | obj l => simp only [intMap, map_isOk, convert_isOk, Counts, Doc.obj.injEq, forall_eq']
  | null | bool _ | num _ | str _ | arr _ => simp [intMap]

theorem messageIds_isOk {x : Doc} :
    (∃ ids, messageIds x = .ok ids) ↔ ∀ xs, x = .arr xs → ∀ y ∈ xs, isHashable y = true := by
  cases x with
  | arr xs => simp only [messageIds, setOf_isOk, Doc.arr.injEq, forall_eq']
  | null | bool _ | num _ | str _ | obj _ => simp [messageIds]

theorem mem_objects {l : List (CodePoints × Doc)} {p : CodePoints × Doc} :
    p ∈ objects l ↔ p ∈ (mapping l).items ∧ ∃ seqs, p.2 = .obj seqs := by
  rw [objects, List.mem_filter]
  refine and_congr_right fun _ => ?_
  cases p.2 <;> simp

theorem senderSeq_isOk {x : Doc} : (∃ r, D.senderSeq x = .ok r) ↔
    ∀ l, x = .obj l → ∀ u seqs, (u, .obj seqs) ∈ (mapping l).items → D.Counts seqs := by
  cases x with
  | obj l =>
    simp only [senderSeq, map_isOk, convert_isOk, intMap_isOk, mem_objects, Doc.obj.injEq, forall_eq']
    constructor
    · intro h u seqs hin
      exact h (u, .obj seqs) ⟨hin, seqs, rfl⟩ seqs rfl
    · rintro h ⟨u, x⟩ ⟨hin, -⟩ seqs rfl
      exact h u seqs hin
  | null | bool _ | num _ | str _ | arr _ => simp [senderSeq]

theorem getD_eq {o : Option Doc} {default x : Doc} (h : o.getD default = x) : o = some x ∨ default = x := by
  cases o with
  | none => exact .inr h
  | some y => exact .inl (congrArg some h)

/-- **When the files can be loaded.** -/
theorem loadIndexes_isOk {files : IndexBytes} : (∃ p, D.loadIndexes files = .ok p) ↔ D.Loadable files := by
  simp only [loadIndexes, bind_eq_ok, readJson_eq_ok, Except.ok.injEq]
  constructor
  · rintro ⟨_, _, ⟨hr₁, rfl⟩, ids, hids, _, ⟨hr₂, rfl⟩, seqs, hseqs, _, ⟨hr₃, rfl⟩, vc, hvc, _, ⟨hr₄, -⟩, -⟩
    refine ⟨⟨hr₁, fun xs hxs => ?_⟩, ⟨hr₂, fun l hl => ?_⟩, ⟨hr₃, fun l hl => ?_⟩, hr₄⟩
    · exact messageIds_isOk.1 ⟨ids, hids⟩ xs (by rw [hxs]; rfl)
    · exact senderSeq_isOk.1 ⟨seqs, hseqs⟩ l (by rw [hl]; rfl)
    · exact intMap_isOk.1 ⟨vc, hvc⟩ l (by rw [hl]; rfl)
  · intro h
    obtain ⟨⟨hr₁, hids⟩, ⟨hr₂, hseqs⟩, ⟨hr₃, hvc⟩, hr₄⟩ := h
    have hempty : (mapping []).items = [] := rfl
    have hcounts : D.Counts [] := fun p hp => absurd hp List.not_mem_nil
    obtain ⟨ids, hids⟩ : ∃ ids, messageIds ((documentOf files.messageIds).getD (.arr [])) = .ok ids := by
      refine messageIds_isOk.2 fun xs hxs => ?_
      rcases getD_eq hxs with hsome | he
      · exact hids xs hsome
      · cases he
        exact fun y hy => absurd hy List.not_mem_nil
    obtain ⟨seqs, hseqs⟩ : ∃ seqs, D.senderSeq ((documentOf files.senderSeq).getD (.obj [])) = .ok seqs := by
      refine senderSeq_isOk.2 fun l hl => ?_
      rcases getD_eq hl with hsome | he
      · exact hseqs l hsome
      · cases he
        exact fun u seqs hin => absurd (hempty ▸ hin) List.not_mem_nil
    obtain ⟨vc, hvc⟩ : ∃ vc, D.intMap ((documentOf files.latestVc).getD (.obj [])) = .ok vc := by
      refine intMap_isOk.2 fun l hl => ?_
      rcases getD_eq hl with hsome | he
      · exact hvc l hsome
      · cases he
        exact hcounts
    exact ⟨_, _, ⟨hr₁, rfl⟩, ids, hids, _, ⟨hr₂, rfl⟩, seqs, hseqs, _, ⟨hr₃, rfl⟩, vc, hvc, _, ⟨hr₄, rfl⟩, rfl⟩

end Decoding

/-! ## Repairing -/

theorem seqKey_injective : Function.Injective seqKey := by
  intro a b h
  have hparse := congrArg parseInt (codePoints_injective h)
  rw [parseInt_toString, parseInt_toString] at hparse
  exact Option.some.inj hparse

theorem codePoints_inj : Function.Injective codePoints := fun _ _ h => codePoints_injective h

namespace Indexes

/-- A sender is there with a number. -/
def Filled (ix : Indexes) : Prop := ∀ u seqs, ix.senderSeq.get? u = some seqs → seqs.keys ≠ []

variable {ix : Indexes}

theorem Filled.add (h : ix.Filled) (m : Message) (offset : Int) : (ix.add m offset).Filled := by
  intro u seqs hu
  simp only [Indexes.add] at hu
  rw [Dict.get?_set] at hu
  split at hu
  · cases hu
    refine List.ne_nil_of_mem (a := m.senderSeq) ((Dict.mem_keys_iff _).2 ⟨offset, ?_⟩)
    exact Dict.get?_set_self _ _ _
  · exact h u seqs hu

theorem Filled.collect : ∀ (found : List (Message × Int)) {ix : Indexes} (twice : Bool), ix.Filled →
    (Indexes.collect found (ix, twice)).1.Filled
  | [], _, _, h => h
  | (m, offset) :: found, ix, twice, h => by
    rw [Indexes.collect]
    split
    · exact Filled.collect found true h
    · exact Filled.collect found twice (h.add m offset)

theorem get?_rendered {u : CodePoints} {r : Dict CodePoints Int} : ix.rendered.senderSeq.get? u = some r ↔
    ∃ v seqs, ix.senderSeq.get? v = some seqs ∧ r = seqs.rekey seqKey ∧ u = codePoints v := by
  simp only [rendered, Dict.get?_rekey_eq_some codePoints_inj, Dict.get?_mapValues, Option.map_eq_some_iff]
  constructor
  · rintro ⟨v, ⟨seqs, hv, rfl⟩, rfl⟩
    exact ⟨v, seqs, hv, rfl, rfl⟩
  · rintro ⟨v, seqs, hv, rfl, rfl⟩
    exact ⟨v, ⟨seqs, hv, rfl⟩, rfl⟩

section

variable {ms : List Message} {v : String} {seqs : Dict Int Int}

/-- The numbers of a sender are those of his messages. -/
theorem Describes.mem_keys_iff (h : ix.Describes ms) (hv : ix.senderSeq.get? v = some seqs) (k : Int) :
    k ∈ seqs.keys ↔ ∃ m ∈ ms, m.sender = v ∧ m.senderSeq = k := by
  have hseqs := h.seqs v k
  rwa [Dict.getD, hv] at hseqs

theorem Describes.exists_get? (h : ix.Describes ms) {m : Message} (hm : m ∈ ms) :
    ∃ seqs, ix.senderSeq.get? m.sender = some seqs := by
  have hk := (h.seqs m.sender m.senderSeq).2 ⟨m, hm, rfl, rfl⟩
  cases hu : ix.senderSeq.get? m.sender with
  | some seqs => exact ⟨seqs, rfl⟩
  | none =>
    rw [Dict.getD, hu] at hk
    exact absurd hk List.not_mem_nil

/-- What is found is rendered as what is derived. -/
theorem Describes.derived (h : ix.Describes ms) (hp : ix.Positive) (hf : ix.Filled) : ix.rendered.Derived ms := by
  refine ⟨fun a => ?_, fun u => ?_, fun u k => ?_, fun u k => ?_⟩
  · simp only [rendered, Finset.mem_image, h.ids]
    constructor
    · rintro ⟨_, ⟨m, hm, rfl⟩, rfl⟩
      exact ⟨m, hm, rfl⟩
    · rintro ⟨m, hm, rfl⟩
      exact ⟨m.id, ⟨m, hm, rfl⟩, rfl⟩
  · rw [Dict.mem_keys_iff]
    constructor
    · rintro ⟨r, hr⟩
      obtain ⟨v, seqs, hv, -, rfl⟩ := get?_rendered.1 hr
      obtain ⟨k, hk⟩ := List.exists_mem_of_ne_nil _ (hf v seqs hv)
      obtain ⟨m, hm, rfl, -⟩ := (h.mem_keys_iff hv k).1 hk
      exact ⟨m, hm, rfl⟩
    · rintro ⟨m, hm, rfl⟩
      obtain ⟨seqs, hv⟩ := h.exists_get? hm
      exact ⟨_, get?_rendered.2 ⟨m.sender, seqs, hv, rfl, rfl⟩⟩
  · rw [Dict.getD]
    cases hr : ix.rendered.senderSeq.get? u with
    | none =>
      refine ⟨fun hk => absurd hk List.not_mem_nil, ?_⟩
      rintro ⟨m, hm, rfl, -⟩
      obtain ⟨seqs, hv⟩ := h.exists_get? hm
      have hsome := get?_rendered.2 ⟨m.sender, seqs, hv, rfl, rfl⟩
      rw [hr] at hsome
      cases hsome
    | some r =>
      obtain ⟨v, seqs, hv, rfl, rfl⟩ := get?_rendered.1 hr
      rw [Option.getD_some, Dict.mem_keys_rekey seqKey_injective]
      constructor
      · rintro ⟨n, hn, rfl⟩
        obtain ⟨m, hm, rfl, rfl⟩ := (h.mem_keys_iff hv n).1 hn
        exact ⟨m, hm, rfl, rfl⟩
      · rintro ⟨m, hm, hs, rfl⟩
        exact ⟨m.senderSeq, (h.mem_keys_iff hv m.senderSeq).2 ⟨m, hm, (codePoints_injective hs).symm, rfl⟩, rfl⟩
  · rw [rendered, Dict.get?_rekey_eq_some codePoints_inj]
    constructor
    · rintro ⟨v, hv, rfl⟩
      obtain ⟨hpos, ⟨m, hm, rfl, hseq⟩, hmax⟩ := (h.get?_latestVc hp).1 hv
      exact ⟨hpos, ⟨m, hm, rfl, hseq⟩, fun m' hm' hs => hmax m' hm' (codePoints_injective hs).symm⟩
    · rintro ⟨hpos, ⟨m, hm, rfl, hseq⟩, hmax⟩
      refine ⟨m.sender, (h.get?_latestVc hp).2 ⟨hpos, ⟨m, hm, rfl, hseq⟩, fun m' hm' hs => hmax m' hm' ?_⟩, rfl⟩
      rw [hs]

end

section

variable {ι κ α β : Type} [DecidableEq ι] [DecidableEq κ]

theorem sameItems_rekey {g : ι → κ} (hg : Function.Injective g) (f : α → α → Bool) (d d' : Dict ι α) :
    sameItems f (d.rekey g) (d'.rekey g) = sameItems f d d' := by
  simp only [sameItems, Dict.items_rekey hg, List.length_map, List.all_map, Function.comp_def, Dict.get?_rekey hg]

theorem sameItems_mapValues (h : α → β) (f : β → β → Bool) (d d' : Dict κ α) :
    sameItems f (d.mapValues h) (d'.mapValues h) = sameItems (fun a b => f (h a) (h b)) d d' := by
  have hitems (d : Dict κ α) : (d.mapValues h).items = d.items.map fun p => (p.1, h p.2) := rfl
  simp only [sameItems, hitems, List.length_map, List.all_map, Function.comp_def, Dict.get?_mapValues,
    Option.any_map]

end

theorem str_codePoints_injective : Function.Injective fun i : String => Atom.str (codePoints i) :=
  fun _ _ h => codePoints_injective (Atom.str.inj h)

/-- Indexes are the same when they are rendered the same. -/
theorem same_rendered (ix ix' : Indexes) : ix.rendered.same ix'.rendered = ix.same ix' := by
  have hids : ix.rendered.messageIds = ix'.rendered.messageIds ↔ ix.messageIds = ix'.messageIds :=
    (Finset.image_injective str_codePoints_injective).eq_iff
  simp only [Loaded.same, Indexes.same, hids]
  simp only [rendered, sameItems_rekey codePoints_inj, sameItems_mapValues, sameItems_rekey seqKey_injective]

/-- **On what a store has written, this is the repair of the store.** -/
theorem repair_rendered (s : LocalMessageStore) :
    let opened := s.indexes.rendered.repair ⟨s.forceFullRecoveryCursor, s.needsSnapshotRebuild⟩ s.disk
    opened.indexes = s.repairIndexes.indexes.rendered ∧
      opened.recovery = ⟨s.repairIndexes.forceFullRecoveryCursor, s.repairIndexes.needsSnapshotRebuild⟩ := by
  have hsub (ix : Indexes) : s.indexes.rendered.messageIds ⊆ ix.rendered.messageIds ↔
      s.indexes.messageIds ⊆ ix.messageIds := Finset.image_subset_image_iff str_codePoints_injective
  unfold Loaded.repair LocalMessageStore.repairIndexes
  rcases Indexes.collect s.disk.iterReadableMessages (.empty, false) with ⟨found, twice⟩
  simp only [same_rendered, hsub]
  split
  · exact ⟨rfl, rfl⟩
  · split
    · exact ⟨rfl, rfl⟩
    · exact ⟨rfl, rfl⟩

end Indexes

namespace Loaded

variable {ix ix' : Loaded} {ms ms' : List Message}

theorem Derived.congr (h : ix.Derived ms) (hm : ∀ m, m ∈ ms ↔ m ∈ ms') : ix.Derived ms' where
  messageIds a := by simpa only [hm] using h.messageIds a
  senders u := by simpa only [hm] using h.senders u
  numbers u k := by simpa only [hm] using h.numbers u k
  latestVc u k := by simpa only [hm] using h.latestVc u k

/-- What was loaded is kept when it is the same. -/
theorem Derived.same (h : ix.Derived ms) (hs : ix.same ix' = true) : ix'.Derived ms := by
  simp only [Loaded.same, Bool.decide_and, Bool.and_eq_true, decide_eq_true_eq] at hs
  obtain ⟨hids, hseq, hvc⟩ := hs
  refine ⟨fun a => hids ▸ h.messageIds a, fun u => ?_, fun u k => ?_, fun u k => ?_⟩
  · rw [← Indexes.keys_of_sameItems hseq, h.senders]
  · rw [← h.numbers, Dict.getD, Dict.getD]
    cases hu : ix.senderSeq.get? u with
    | some a =>
      obtain ⟨b, hb, hab⟩ := Indexes.get?_of_sameItems hseq hu
      rw [hb]
      exact (Indexes.keys_of_sameItems hab k).symm
    | none =>
      rw [Dict.get?_eq_none_iff, Indexes.keys_of_sameItems hseq, ← Dict.get?_eq_none_iff] at hu
      rw [hu]
  · rw [← h.latestVc]
    cases hu : ix.latestVc.get? u with
    | some a =>
      obtain ⟨b, hb, hab⟩ := Indexes.get?_of_sameItems hvc hu
      rw [hb, eq_of_beq hab]
    | none =>
      rw [Dict.get?_eq_none_iff, Indexes.keys_of_sameItems hvc, ← Dict.get?_eq_none_iff] at hu
      rw [hu]

/-- What is derived of the same messages agrees. -/
theorem Derived.agrees (h : ix.Derived ms) (h' : ix'.Derived ms) : ix.Agrees ix' where
  messageIds := Finset.ext fun a => (h.messageIds a).trans (h'.messageIds a).symm
  senders u := (h.senders u).trans (h'.senders u).symm
  numbers u k := (h.numbers u k).trans (h'.numbers u k).symm
  latestVc u := Option.ext fun k => (h.latestVc u k).trans (h'.latestVc u k).symm

/-- **A repair leaves what the readable messages give**, whatever was
loaded. -/
theorem derived_repair (loaded : Loaded) (r : RecoveryState) (d : Disk) :
    (loaded.repair r d).indexes.Derived d.readAllMessages := by
  have hfound := LocalMessageStore.describes_collect d
  have hpos := Indexes.Positive.collect d.iterReadableMessages false .empty
  have hfilled : (Indexes.collect d.iterReadableMessages (.empty, false)).1.Filled :=
    Indexes.Filled.collect d.iterReadableMessages false nofun
  have hderived := (hfound.derived hpos hfilled).congr fun m => (Disk.mem_readAllMessages (d := d) (m := m)).symm
  unfold Loaded.repair
  rcases hc : Indexes.collect d.iterReadableMessages (.empty, false) with ⟨found, twice⟩
  rw [hc] at hderived
  simp only
  split
  · exact hderived
  · next hsame =>
    simp only [Bool.or_eq_true, Bool.not_eq_true', not_or, Bool.not_eq_false] at hsame
    split
    · exact hderived.same hsame.2
    · exact hderived.same hsame.2

end Loaded

namespace Decoding

variable {D : Decoding}

theorem loadable_missing : D.Loadable .missing := by
  have hreadable : D.Readable none := nofun
  exact ⟨⟨hreadable, nofun⟩, ⟨hreadable, nofun⟩, ⟨hreadable, nofun⟩, hreadable⟩

/-- **When the index files are only a cache.** -/
theorem isCache_iff (files : IndexBytes) (d : Disk) : D.IsCache files d ↔ D.Loadable files := by
  rw [← loadIndexes_isOk]
  constructor
  · rintro ⟨s, -, hs, -⟩
    exact map_isOk.1 ⟨s, hs⟩
  · rintro ⟨⟨loaded, r⟩, hload⟩
    obtain ⟨⟨loaded₀, r₀⟩, hload₀⟩ := loadIndexes_isOk.2 (loadable_missing (D := D))
    have hderived := loaded.derived_repair r d
    have hderived₀ := loaded₀.derived_repair r₀ d
    refine ⟨loaded.repair r d, loaded₀.repair r₀ d, ?_, ?_, hderived, hderived.agrees hderived₀⟩
    · rw [construct, hload, Except.map]
    · rw [construct, hload₀, Except.map]

/-- Files that load as the indexes of a disk make the store that is opened
on it. -/
theorem construct_init {files : IndexBytes} {d : Disk}
    (h : D.loadIndexes files =
      .ok ((LocalMessageStore.loadIndexes d).rendered, d.recoveryState.getD ⟨false, false⟩))
    (threshold : Option Int) : ∃ s, D.construct files d = .ok s ∧
      s.indexes = (LocalMessageStore.init threshold d).indexes.rendered ∧
      s.recovery = ⟨(LocalMessageStore.init threshold d).forceFullRecoveryCursor,
        (LocalMessageStore.init threshold d).needsSnapshotRebuild⟩ := by
  refine ⟨_, ?_, Indexes.repair_rendered ⟨threshold, d, LocalMessageStore.loadIndexes d, _, _, []⟩⟩
  rw [construct, h, Except.map]

/-- A list among the ids. -/
def listAmongIds : IndexBytes := { IndexBytes.missing with messageIds := some (TextFile.encode "[[]]".toList) }

/-- It ends the construction. -/
theorem not_isCache_listAmongIds :
    plain.construct listAmongIds Disk.empty = .error .typeError ∧ ¬ plain.IsCache listAmongIds Disk.empty := by
  have hraised : plain.construct listAmongIds Disk.empty = .error .typeError := by
    have hload : plain.loadIndexes listAmongIds = .error .typeError := by
      rfl
    rw [construct, hload, Except.map]
  refine ⟨hraised, ?_⟩
  rintro ⟨s, -, hs, -⟩
  rw [hraised] at hs
  cases hs

end Decoding

end PeerChat.History
