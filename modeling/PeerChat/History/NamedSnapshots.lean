/-
Snapshots under a name of the caller's (`create_snapshot` of
`message_history/storage/local_message_store.py`).

A snapshot takes the messages of the active log. Under a name that is in
use it replaces what was there, and with `compact` what was there may have
been all that was left of its messages. `keepsAccepted_iff`: over whole runs
nothing that `save` has accepted is lost, exactly when no snapshot replaces
the last copy of a message.
-/
import PeerChat.History.Recovery
import PeerChat.Lib.Run

namespace PeerChat.History

open Lib

/-- The calls of a store that write messages and snapshots. A snapshot id is
a plain file name. -/
inductive WriteCall
  | save (m : Message)
  | createSnapshot (snapshotId : Option String) (compact : Bool)
  deriving DecidableEq

namespace LocalMessageStore

/-- A store and the messages for which `save` has returned `True`. -/
abbrev Accepting := LocalMessageStore × List Message

def writeStep (p : Accepting) : WriteCall → Accepting
  | .save m => ((p.1.save m).1, if (p.1.save m).2 then p.2 ++ [m] else p.2)
  | .createSnapshot x compact => (p.1.createSnapshot x compact, p.2)

/-- A run of a new store. -/
def writeRun (threshold : Option Int) (calls : List WriteCall) : Accepting :=
  calls.foldl writeStep (init threshold Disk.empty, [])

/-- Every accepted message is readable. -/
def KeepsAccepted (p : Accepting) : Prop := ∀ m ∈ p.2, m ∈ p.1.disk.readAllMessages

/-- The call replaces the only copy of a message: a snapshot is written, and
the one under its name has a message that is neither in the log nor in
another snapshot. -/
def ReplacesLast (s : LocalMessageStore) : WriteCall → Prop
  | .save _ => False
  | .createSnapshot x _ => s.disk.readActiveMessages ≠ [] ∧
      ∃ m ∈ s.disk.readSnapshotMessages (s.snapshotTarget x), m ∉ s.disk.readActiveMessages ∧
        ∀ y, y ≠ s.snapshotTarget x → m ∉ s.disk.readSnapshotMessages y

variable {s : LocalMessageStore} {m : Message}

/-- What a disk stores whose snapshot `x` has the messages of the log. -/
theorem mem_stored_snapshotted {d d' : Disk} {x : String}
    (hread : ∀ y, d'.readSnapshotMessages y = if y = x then d.readActiveMessages else d.readSnapshotMessages y)
    (hlog : ∀ m, m ∈ d'.readActiveMessages → m ∈ d.readActiveMessages) :
    m ∈ d'.stored ↔ m ∈ d.readActiveMessages ∨ ∃ y, y ≠ x ∧ m ∈ d.readSnapshotMessages y := by
  rw [Disk.mem_stored, ← Disk.mem_readActiveMessages]
  simp only [hread]
  constructor
  · rintro (⟨y, hy⟩ | hm)
    · split at hy
      · exact .inl hy
      · next hne => exact .inr ⟨y, hne, hy⟩
    · exact .inl (hlog m hm)
  · rintro (hm | ⟨y, hne, hy⟩)
    · exact .inl ⟨x, by rw [if_pos rfl]; exact hm⟩
    · exact .inl ⟨y, by rw [if_neg hne]; exact hy⟩

/-- What is stored after `create_snapshot`. -/
theorem mem_stored_createSnapshot (x : Option String) (compact : Bool) (hne : s.disk.readActiveMessages ≠ []) :
    m ∈ (s.createSnapshot x compact).disk.stored ↔
      m ∈ s.disk.readActiveMessages ∨ ∃ y, y ≠ s.snapshotTarget x ∧ m ∈ s.disk.readSnapshotMessages y := by
  have hread := readSnapshotMessages_snapshotSteps s.disk (s.snapshotTarget x) s.disk.readActiveMessages
  rw [createSnapshot_eq x compact hne]
  cases compact with
  | true =>
    have hempty : ((s.snapshotted x).disk.apply (.writeLog [])).readActiveMessages = [] := rfl
    rw [if_pos rfl, stored_flushIndexes]
    show m ∈ ((s.snapshotted x).disk.apply (.writeLog [])).stored ↔ _
    exact mem_stored_snapshotted hread fun m hm => by simp [hempty] at hm
  | false =>
    rw [if_neg Bool.false_ne_true]
    exact mem_stored_snapshotted hread fun m hm => hm

/-- A snapshot that replaces no last copy keeps what is stored. -/
theorem mem_stored_of_not_replacesLast {x : Option String} {compact : Bool}
    (h : ¬ ReplacesLast s (.createSnapshot x compact)) :
    m ∈ (s.createSnapshot x compact).disk.stored ↔ m ∈ s.disk.stored := by
  by_cases hne : s.disk.readActiveMessages = []
  · rw [createSnapshot_of_empty x compact hne]
  rw [mem_stored_createSnapshot x compact hne, Disk.mem_stored, ← Disk.mem_readActiveMessages]
  constructor
  · rintro (hm | ⟨y, -, hy⟩)
    · exact .inr hm
    · exact .inl ⟨y, hy⟩
  · rintro (⟨y, hy⟩ | hm)
    · by_cases hyx : y = s.snapshotTarget x
      · -- the snapshot that is replaced: the message is somewhere else
        subst hyx
        by_contra hcon
        obtain ⟨hlog, hother⟩ := not_or.1 hcon
        exact h ⟨hne, m, hy, hlog, fun z hz hm => hother ⟨z, hz, hm⟩⟩
      · exact .inr ⟨y, hyx, hy⟩
    · exact .inl hm

/-- A snapshot that replaces the last copy of a message loses it. -/
theorem lost_of_replacesLast {x : Option String} {compact : Bool} (h : ReplacesLast s (.createSnapshot x compact)) :
    ∃ m ∈ s.disk.stored, m ∉ (s.createSnapshot x compact).disk.stored := by
  obtain ⟨hne, m, hm, hlog, hother⟩ := h
  refine ⟨m, Disk.mem_stored.2 (.inl ⟨_, hm⟩), fun hin => ?_⟩
  rcases (mem_stored_createSnapshot x compact hne).1 hin with hin | ⟨y, hy, hin⟩
  · exact hlog hin
  · exact hother y hy hin

theorem Sound.createSnapshot {x : Option String} {compact : Bool} (h : Sound s)
    (hkeep : ¬ ReplacesLast s (.createSnapshot x compact)) : Sound (s.createSnapshot x compact) := by
  have hmem := fun m => mem_stored_of_not_replacesLast (m := m) hkeep
  have hunique : (s.createSnapshot x compact).disk.UniqueIds := h.unique.congr hmem
  by_cases hne : s.disk.readActiveMessages = []
  · rw [createSnapshot_of_empty x compact hne]
    exact h
  revert hmem hunique
  rw [createSnapshot_eq x compact hne]
  cases compact with
  | true =>
    intro _ hunique
    rw [if_pos rfl] at hunique ⊢
    have hlog : ((s.snapshotted x).perform (.writeLog [])).disk.UniqueIds := by
      rwa [Disk.UniqueIds, stored_flushIndexes] at hunique
    exact (Sound.rebuildIndexes hlog).flushIndexes
  | false =>
    intro hmem hunique
    exact ⟨h.describes.congr fun m => (hmem m).symm, hunique⟩

/-- The store is sound, and has what it has accepted. -/
structure Accepting.Inv (p : Accepting) : Prop where
  sound : Sound p.1
  stored : ∀ m, m ∈ p.1.disk.stored ↔ m ∈ p.2

theorem Accepting.Inv.start (threshold : Option Int) : Accepting.Inv (init threshold Disk.empty, []) := by
  have hunique : Disk.empty.UniqueIds := nofun
  refine ⟨.init threshold hunique, fun m => ?_⟩
  have hadds := Adds.repairIndexes (s := ⟨threshold, Disk.empty, loadIndexes Disk.empty, false, false, []⟩) hunique
  exact (hadds.stored m).trans (by simp [show Disk.empty.stored = [] from rfl])

theorem Accepting.Inv.step {p : Accepting} (h : p.Inv) {c : WriteCall} (hc : ¬ ReplacesLast p.1 c) :
    (writeStep p c).Inv := by
  cases c with
  | save m =>
    by_cases hm : m.id ∈ p.1.indexes.messageIds
    · simpa only [writeStep, save_known hm, Bool.false_eq_true, if_false] using h
    · have hadds := Adds.save h.sound hm
      have hok : (p.1.save m).2 = true := by rw [save, if_neg hm]
      simp only [writeStep, hok, if_true]
      exact ⟨hadds.sound, fun m' => by rw [hadds.stored, h.stored, List.mem_append]⟩
  | createSnapshot x compact =>
    exact ⟨h.sound.createSnapshot hc, fun m => (mem_stored_of_not_replacesLast hc).trans (h.stored m)⟩

theorem Accepting.Inv.keeps {p : Accepting} (h : p.Inv) : KeepsAccepted p := fun m hm =>
  (Disk.mem_readAllMessages_iff h.sound.unique).2 ((h.stored m).2 hm)

theorem Accepting.Inv.loses {p : Accepting} (h : p.Inv) {c : WriteCall} (hc : ReplacesLast p.1 c) :
    ¬ KeepsAccepted (writeStep p c) := by
  cases c with
  | save m => exact hc.elim
  | createSnapshot x compact =>
    obtain ⟨m, hm, hlost⟩ := lost_of_replacesLast hc
    exact fun hkeep => hlost (Disk.mem_stored_of_mem_readAllMessages (hkeep m ((h.stored m).1 hm)))

theorem writeRun_snoc (threshold : Option Int) (calls : List WriteCall) (c : WriteCall) :
    writeRun threshold (calls ++ [c]) = writeStep (writeRun threshold calls) c := by
  simp only [writeRun, List.foldl_append, List.foldl_cons, List.foldl_nil]

/-- **When snapshots lose nothing**, over whole runs. -/
theorem keepsAccepted_iff (threshold : Option Int) (calls : List WriteCall) :
    (∀ calls₁, calls₁ <+: calls → KeepsAccepted (writeRun threshold calls₁)) ↔
      ∀ calls₁ c, calls₁ ++ [c] <+: calls → ¬ ReplacesLast (writeRun threshold calls₁).1 c := by
  refine Run.forall_prefix_iff (I := fun calls₁ => (writeRun threshold calls₁).Inv) (.start threshold)
    (fun _ => Accepting.Inv.keeps) (fun calls₁ c hinv hno => ?_) (fun calls₁ c hinv hlast => ?_)
  · rw [writeRun_snoc]
    exact hinv.step hno
  · rw [writeRun_snoc]
    exact hinv.loses hlast

/-- Two compacted snapshots under one name. -/
def twiceNamed : List WriteCall :=
  [.save (chat "a:1" 1 "m1"), .createSnapshot (some "x") true,
    .save (chat "a:1" 2 "m2"), .createSnapshot (some "x") true]

/-- The first message is gone. -/
theorem not_keepsAccepted_twiceNamed :
    (writeRun (some 3) twiceNamed).2 = [chat "a:1" 1 "m1", chat "a:1" 2 "m2"] ∧
      (writeRun (some 3) twiceNamed).1.disk.readAllMessages = [chat "a:1" 2 "m2"] ∧
      ¬ KeepsAccepted (writeRun (some 3) twiceNamed) := by
  have haccepted : (writeRun (some 3) twiceNamed).2 = [chat "a:1" 1 "m1", chat "a:1" 2 "m2"] := by decide +kernel
  have hread : (writeRun (some 3) twiceNamed).1.disk.readAllMessages = [chat "a:1" 2 "m2"] := by decide +kernel
  refine ⟨haccepted, hread, fun hkeep => ?_⟩
  have hm := hkeep (chat "a:1" 1 "m1") (by rw [haccepted]; decide)
  rw [hread] at hm
  revert hm
  decide

end LocalMessageStore

end PeerChat.History
