/-
A store and the bytes of its log. `_append_to_log` writes behind whatever
the file ends with, so that a message saved behind a torn line is joined to
it: `save_durable_iff`, a save is durable exactly when the log decodes and
ends with a line ending or blanks, and no snapshot of the log is written in
front of another one with a different message of the same id.
-/
import PeerChat.History.LogText
import PeerChat.History.Reading
import PeerChat.History.Recovery

namespace PeerChat.History

open Lib

/-- The bytes of the log after a step of a store. -/
def LogReader.bytesAfter (R : LogReader) (bytes : List UInt8) : Step → List UInt8
  | .append line => bytes ++ line.message?.toList.flatMap R.line
  | .writeLog lines => (lines.filterMap LogLine.message?).flatMap R.line
  | _ => bytes

/-- The steps that leave the log alone or write it anew. -/
def Step.WritesMessages : Step → Prop
  | .append _ => False
  | .writeLog lines => ∃ ms : List Message, lines = ms.map .message
  | _ => True

/-- What is written into the log is read from it. -/
theorem LogReader.activeLog_run (R : LogReader) : ∀ {fs : List Step} {d : Disk} {bytes : List UInt8},
    (∀ f ∈ fs, f.WritesMessages) → d.activeLog = R.readLog bytes →
    (storage.run d fs).activeLog = R.readLog (fs.foldl R.bytesAfter bytes)
  | [], _, _, _, h => h
  | f :: fs, d, bytes, hfs, h => by
    have hf : (d.apply f).activeLog = R.readLog (R.bytesAfter bytes f) := by
      have hw := hfs f (by simp)
      cases f with
      | append _ => exact hw.elim
      | writeLog lines =>
        obtain ⟨ms, rfl⟩ := hw
        rw [bytesAfter, LocalMessageStore.messages_map_message, readLog_lines]
        rfl
      | _ => exact h
    show (storage.run (d.apply f) fs).activeLog = R.readLog (fs.foldl R.bytesAfter (R.bytesAfter bytes f))
    exact R.activeLog_run (fun g hg => hfs g (List.mem_cons_of_mem f hg)) hf

namespace LocalMessageStore

/-- What `save` does at last: the snapshots, when they are due. -/
def tidied (s : LocalMessageStore) : LocalMessageStore :=
  if s.needsSnapshotRebuild then s.maybeRebuildSnapshots else s.maybeCreateSnapshot

/-- `save` behind `_append_to_log`. -/
def saveAppended (s : LocalMessageStore) (m : Message) (offset : Int) : LocalMessageStore :=
  { s with indexes := s.indexes.add m offset }.flushIndexes.tidied.perform (.saved m)

theorem save_eq_saveAppended {s : LocalMessageStore} {m : Message} (h : m.id ∉ s.indexes.messageIds) :
    s.save m = ((s.perform (.append (.message m))).saveAppended m s.disk.activeLog.length, true) := by
  rw [save, if_neg h]
  rfl

/-- A `save` writes the log into a snapshot when it has `count` messages. -/
def compacts (s : LocalMessageStore) (count : Nat) : Bool :=
  !s.needsSnapshotRebuild &&
    match s.snapshotThreshold with
    | none => false
    | some t => decide (0 < t ∧ t ≤ count)

/-- The ids of the stored messages are known. -/
structure Known (s : LocalMessageStore) : Prop where
  ids : ∀ m ∈ s.disk.stored, m.id ∈ s.indexes.messageIds

/-- What `save` does at last: nothing or a rebuild, or it makes the log a
snapshot. -/
theorem tidied_cases (s : LocalMessageStore) :
    s.compacts s.disk.readActiveMessages.length = false ∧ (s.tidied = s ∨ s.tidied = s.rebuildSnapshots) ∨
      s.compacts s.disk.readActiveMessages.length = true ∧ s.tidied = s.createSnapshot none true := by
  cases hr : s.needsSnapshotRebuild with
  | true =>
    refine .inl ⟨by simp [compacts, hr], ?_⟩
    simp only [tidied, hr, if_true, maybeRebuildSnapshots]
    split
    · exact .inl rfl
    · exact .inr rfl
  | false =>
    cases hth : s.snapshotThreshold with
    | none => exact .inl ⟨by simp [compacts, hr, hth], .inl (by simp [tidied, hr, maybeCreateSnapshot, hth])⟩
    | some t =>
      simp only [compacts, tidied, hr, hth, maybeCreateSnapshot, Bool.not_false, Bool.true_and, Bool.false_eq_true,
        if_false]
      by_cases hpos : t ≤ 0
      · exact .inl ⟨decide_eq_false fun ht => absurd ht.1 (not_lt.2 hpos), .inl (if_pos hpos)⟩
      · rw [if_neg hpos]
        by_cases hle : t ≤ s.disk.readActiveMessages.length
        · exact .inr ⟨decide_eq_true ⟨not_le.1 hpos, hle⟩, if_pos hle⟩
        · exact .inl ⟨decide_eq_false fun ht => hle ht.2, .inl (if_neg hle)⟩

/-! ## The steps -/

/-- The steps from one store to another leave the log alone or write it
anew. -/
def Rewrites (s s' : LocalMessageStore) : Prop :=
  ∃ fs, s'.steps = s.steps ++ fs ∧ s'.disk = storage.run s.disk fs ∧ ∀ f ∈ fs, f.WritesMessages

theorem writesMessages_snapshotSteps {x : String} {ms : List Message} {f : Step} (h : f ∈ snapshotSteps x ms) :
    f.WritesMessages := by
  simp only [snapshotSteps, List.mem_cons, List.not_mem_nil, or_false] at h
  rcases h with rfl | rfl | rfl | rfl <;> trivial

theorem writesMessages_rebuildSteps : ∀ {index : Nat} {chunks : List (List Message)} {f : Step},
    f ∈ rebuildSteps index chunks → f.WritesMessages
  | index, chunk :: chunks, f, h => by
    rcases List.mem_append.1 h with h | h
    · exact writesMessages_snapshotSteps h
    · exact writesMessages_rebuildSteps h

theorem writesMessages_deletionSteps {d : Disk} {f : Step} (h : f ∈ deletionSteps d) : f.WritesMessages := by
  simp only [deletionSteps, List.mem_append, List.mem_map] at h
  rcases h with ⟨_, -, rfl⟩ | ⟨_, -, rfl⟩ | ⟨_, -, rfl⟩ <;> trivial

namespace Rewrites

variable {s s₁ s₂ : LocalMessageStore}

theorem refl (s : LocalMessageStore) : Rewrites s s := ⟨[], by simp, rfl, by simp⟩

/-- Only the disk and the steps count. -/
theorem congr (h : Rewrites s s₁) (hd : s₂.disk = s₁.disk) (hs : s₂.steps = s₁.steps) : Rewrites s s₂ := by
  obtain ⟨fs, hfs, hdisk, hw⟩ := h
  exact ⟨fs, hs.trans hfs, hd.trans hdisk, hw⟩

theorem performAll (h : Rewrites s s₁) {fs : List Step} (hfs : ∀ f ∈ fs, f.WritesMessages) :
    Rewrites s (s₁.performAll fs) := by
  obtain ⟨gs, hgs, hdisk, hw⟩ := h
  refine ⟨gs ++ fs, by rw [LocalMessageStore.performAll, hgs, List.append_assoc], ?_, fun f hf => ?_⟩
  · rw [LocalMessageStore.performAll, hdisk, Device.run_append]
  · rcases List.mem_append.1 hf with hf | hf
    · exact hw f hf
    · exact hfs f hf

theorem perform (h : Rewrites s s₁) {f : Step} (hf : f.WritesMessages) : Rewrites s (s₁.perform f) :=
  h.performAll (by simpa using hf)

theorem flushIndexes (h : Rewrites s s₁) : Rewrites s s₁.flushIndexes := by
  have h₁ := (h.perform (f := .writeIndexTmp) trivial).perform
    (f := .replaceMessageIds s₁.indexes.messageIds) trivial
  have h₂ := (h₁.perform (f := .writeIndexTmp) trivial).perform
    (f := .replaceSenderSeq s₁.indexes.senderSeq) trivial
  have h₃ := (h₂.perform (f := .writeIndexTmp) trivial).perform
    (f := .replaceLatestVc s₁.indexes.latestVc) trivial
  exact (h₃.perform (f := .writeIndexTmp) trivial).perform
    (f := .replaceRecoveryState ⟨s₁.forceFullRecoveryCursor, s₁.needsSnapshotRebuild⟩) trivial

theorem rebuildIndexes (h : Rewrites s s₁) : Rewrites s s₁.rebuildIndexes := h.congr rfl rfl

theorem createSnapshot (h : Rewrites s s₁) : Rewrites s (s₁.createSnapshot none true) := by
  simp only [LocalMessageStore.createSnapshot, writeSnapshotFiles_eq]
  split
  · exact h
  · have hsnap : Rewrites s (s₁.performAll (snapshotSteps s₁.disk.nextSnapshotId s₁.disk.readActiveMessages)) :=
      h.performAll fun _ hf => writesMessages_snapshotSteps hf
    have hlog := hsnap.perform (f := .writeLog []) ⟨[], rfl⟩
    exact hlog.rebuildIndexes.flushIndexes

theorem rebuildSnapshots (h : Rewrites s s₁) : Rewrites s s₁.rebuildSnapshots := by
  by_cases hne : s₁.disk.readAllMessages = []
  · rw [rebuildSnapshots_of_empty hne]
    exact h
  · have hfs : ∀ f ∈ rebuild s₁.disk s₁.rebuildChunks.1 s₁.rebuildChunks.2, f.WritesMessages := by
      intro f hf
      rw [rebuild, List.mem_append, List.mem_append, List.mem_singleton] at hf
      rcases hf with hf | hf | rfl
      · exact writesMessages_deletionSteps hf
      · exact writesMessages_rebuildSteps hf
      · exact ⟨_, rfl⟩
    rw [rebuildSnapshots_eq hne]
    have hrebuilt : Rewrites s s₁.rebuilt := (h.performAll hfs).congr rfl rfl
    exact hrebuilt.rebuildIndexes.flushIndexes

theorem tidied (h : Rewrites s s₁) : Rewrites s s₁.tidied := by
  rcases s₁.tidied_cases with ⟨-, ht | ht⟩ | ⟨-, ht⟩
  · rw [ht]
    exact h
  · rw [ht]
    exact h.rebuildSnapshots
  · rw [ht]
    exact h.createSnapshot

end Rewrites

/-! ## What is read afterwards -/

variable {s : LocalMessageStore} {m : Message}

theorem known_rebuildIndexes (s : LocalMessageStore) : Known s.rebuildIndexes := by
  refine ⟨fun m hm => ?_⟩
  have hids := ((Indexes.Describes.empty.foldl_add (-1) s.disk.readAllMessages).ids m.id).2
  obtain ⟨m', hm', hid⟩ := Disk.exists_mem_dropSeen hm (Finset.notMem_empty m.id)
  exact hids ⟨m', Disk.mem_readAllMessages.2 hm', hid⟩

theorem Known.flushIndexes (h : Known s) : Known s.flushIndexes := by
  refine ⟨fun m hm => ?_⟩
  rw [stored_flushIndexes] at hm
  exact h.ids m hm

/-- A rebuild keeps what is read. -/
theorem mem_readAllMessages_rebuildSnapshots :
    m ∈ s.rebuildSnapshots.disk.readAllMessages ↔ m ∈ s.disk.readAllMessages := by
  by_cases hne : s.disk.readAllMessages = []
  · rw [rebuildSnapshots_of_empty hne]
  · have hstored (m : Message) : m ∈ s.rebuilt.disk.stored ↔ m ∈ s.disk.readAllMessages := by
      refine mem_stored_rebuild.trans ?_
      rw [rebuildChunks, flatten_rebuildPlan s.snapshotThreshold hne, ← List.mem_append, List.take_append_drop]
    have hunique : s.rebuilt.disk.UniqueIds := fun m hm m' hm' hid =>
      List.inj_on_of_nodup_map s.disk.nodup_readAllMessages ((hstored m).1 hm) ((hstored m').1 hm') hid
    rw [rebuildSnapshots_eq hne, readAllMessages_flushIndexes]
    show m ∈ s.rebuilt.disk.readAllMessages ↔ m ∈ s.disk.readAllMessages
    rw [Disk.mem_readAllMessages_iff hunique, hstored]

theorem stored_createSnapshot (hne : s.disk.readActiveMessages ≠ []) :
    (s.createSnapshot none true).disk.stored = s.disk.messagesOf (s.disk.snapshotsBefore s.disk.nextSnapshotId) ++
      (s.disk.readActiveMessages ++ s.disk.messagesOf (s.disk.snapshotsAfter s.disk.nextSnapshotId)) := by
  have he : s.disk.readActiveMessages.isEmpty = false := by simpa using hne
  simp only [createSnapshot, he, Bool.false_eq_true, if_false, if_true, writeSnapshotFiles_eq, stored_flushIndexes]
  exact Disk.stored_compacted s.disk.get?_nextSnapshotId s.disk.readActiveMessages

theorem tidied_of_compacts (h : s.compacts s.disk.readActiveMessages.length = true) :
    s.tidied = s.createSnapshot none true ∧ s.disk.readActiveMessages ≠ [] := by
  rcases s.tidied_cases with ⟨hf, -⟩ | ⟨-, ht⟩
  · rw [h] at hf
    cases hf
  · refine ⟨ht, fun he => ?_⟩
    -- a threshold of at least one message
    rw [he, List.length_nil] at h
    simp only [compacts, Bool.and_eq_true] at h
    cases hth : s.snapshotThreshold with
    | none => simp [hth] at h
    | some t =>
      have hle := h.2
      simp only [hth, decide_eq_true_eq] at hle
      omega

theorem mem_readAllMessages_tidied (h : s.compacts s.disk.readActiveMessages.length = false) :
    m ∈ s.tidied.disk.readAllMessages ↔ m ∈ s.disk.readAllMessages := by
  rcases s.tidied_cases with ⟨-, ht | ht⟩ | ⟨hc, -⟩
  · rw [ht]
  · rw [ht]
    exact mem_readAllMessages_rebuildSnapshots
  · rw [h] at hc
    cases hc

theorem Known.rebuildSnapshots (h : Known s) : Known s.rebuildSnapshots := by
  by_cases hne : s.disk.readAllMessages = []
  · rw [rebuildSnapshots_of_empty hne]
    exact h
  · rw [rebuildSnapshots_eq hne]
    exact (known_rebuildIndexes s.rebuilt).flushIndexes

theorem Known.createSnapshot (h : Known s) : Known (s.createSnapshot none true) := by
  simp only [LocalMessageStore.createSnapshot, if_true]
  split
  · exact h
  · exact (known_rebuildIndexes _).flushIndexes

theorem Known.tidied (h : Known s) : Known s.tidied := by
  rcases s.tidied_cases with ⟨-, ht | ht⟩ | ⟨-, ht⟩
  · rw [ht]
    exact h
  · rw [ht]
    exact h.rebuildSnapshots
  · rw [ht]
    exact h.createSnapshot

/-- Nothing comes up that was not stored. -/
theorem stored_of_mem_readAllMessages_tidied (h : m ∈ s.tidied.disk.readAllMessages) : m ∈ s.disk.stored := by
  cases hc : s.compacts s.disk.readActiveMessages.length with
  | false => exact Disk.mem_stored_of_mem_readAllMessages ((mem_readAllMessages_tidied hc).1 h)
  | true =>
    obtain ⟨htidied, hne⟩ := tidied_of_compacts hc
    have hm := Disk.mem_stored_of_mem_readAllMessages h
    rw [htidied, stored_createSnapshot hne] at hm
    rw [Disk.stored_eq, ← s.disk.listSnapshots_eq s.disk.nextSnapshotId, Disk.messagesOf, List.flatMap_append]
    simp only [List.mem_append, Disk.messagesOf] at hm ⊢
    rcases hm with hm | hm | hm
    · exact .inl (.inl hm)
    · exact .inr hm
    · exact .inl (.inr hm)

theorem activeLog_init (threshold : Option Int) (d : Disk) : (init threshold d).disk.activeLog = d.activeLog := by
  unfold init repairIndexes
  rcases Indexes.collect d.iterReadableMessages (.empty, false) with ⟨repaired, twice⟩
  simp only
  repeat' split
  all_goals rfl

theorem known_init (threshold : Option Int) (d : Disk) : Known (init threshold d) := by
  refine ⟨fun m hm => ?_⟩
  have hstored : (init threshold d).disk.stored = d.stored := (repairIndexes_ran _).2
  rw [hstored] at hm
  obtain ⟨m', hm', hid⟩ := Disk.exists_mem_dropSeen hm (Finset.notMem_empty m.id)
  exact ((describes_repairIndexes _).ids m.id).2 ⟨m', hm', hid⟩

end LocalMessageStore

/-! ## The file -/

/-- A store and the bytes of its log: they are what the store reads, and
the store knows the ids of all it reads. -/
structure LogFile (R : LogReader) where
  store : LocalMessageStore
  bytes : List UInt8
  log : store.disk.activeLog = R.readLog bytes
  known : store.Known

namespace LogFile

variable {R : LogReader}

/-- A store opened on a log with these bytes; the other files are those of
`d`. -/
def opened (R : LogReader) (threshold : Option Int) (d : Disk) (bytes : List UInt8) : LogFile R where
  store := .init threshold { d with activeLog := R.readLog bytes }
  bytes := bytes
  log := LocalMessageStore.activeLog_init threshold _
  known := LocalMessageStore.known_init threshold _

/-- The store when the line of a message is in the log. -/
def appended (x : LogFile R) (m : Message) : LocalMessageStore :=
  { x.store with
    disk := { x.store.disk with activeLog := R.readLog (x.bytes ++ R.line m) }
    steps := x.store.steps ++ [.append (.message m)] }

theorem readActiveMessages_eq (x : LogFile R) : x.store.disk.readActiveMessages = R.messages x.bytes := by
  rw [Disk.readActiveMessages_eq, x.log]
  rfl

theorem stored_appended (x : LogFile R) (m : Message) : (x.appended m).disk.stored =
    x.store.disk.messagesOf x.store.disk.listSnapshots ++ R.messages (x.bytes ++ R.line m) := by
  rw [Disk.stored_eq, Disk.readActiveMessages_eq]
  rfl

theorem mem_stored_of_appended {x : LogFile R} {m m' : Message} (h : m' ∈ (x.appended m).disk.stored) :
    m' ∈ x.store.disk.stored ∨ endsCleanly x.bytes = true ∧ m' = m := by
  rw [Disk.stored_eq, readActiveMessages_eq, List.mem_append]
  rw [stored_appended, List.mem_append] at h
  rcases h with h | h
  · exact .inl (.inl h)
  · cases hc : endsCleanly x.bytes with
    | false => exact .inl (.inr (LogReader.messages_append_torn hc h))
    | true =>
      rw [LogReader.messages_append hc, List.mem_append, List.mem_singleton] at h
      rcases h with h | h
      · exact .inl (.inr h)
      · exact .inr ⟨rfl, h⟩

theorem rewrites_saveAppended (s : LocalMessageStore) (m : Message) (offset : Int) :
    s.Rewrites (s.saveAppended m offset) := by
  have hadd : s.Rewrites { s with indexes := s.indexes.add m offset } :=
    (LocalMessageStore.Rewrites.refl s).congr rfl rfl
  exact hadd.flushIndexes.tidied.perform (f := .saved m) trivial

theorem known_saveAppended (x : LogFile R) (m : Message) (offset : Int) :
    ((x.appended m).saveAppended m offset).Known := by
  have hadd : { x.appended m with indexes := (x.appended m).indexes.add m offset }.Known := by
    refine ⟨fun m' hm' => ?_⟩
    rcases mem_stored_of_appended hm' with hm' | ⟨-, rfl⟩
    · exact Finset.mem_insert_of_mem (x.known.ids m' hm')
    · exact Finset.mem_insert_self _ _
  exact ⟨hadd.flushIndexes.tidied.ids⟩

/-- `save`. -/
def save (x : LogFile R) (m : Message) : LogFile R × Bool :=
  if m.id ∈ x.store.indexes.messageIds then (x, false)
  else
    let s := (x.appended m).saveAppended m x.store.disk.activeLog.length
    ({ store := s
       bytes := (s.steps.drop (x.appended m).steps.length).foldl R.bytesAfter (x.bytes ++ R.line m)
       log := by
         obtain ⟨fs, hfs, hdisk, hw⟩ := rewrites_saveAppended (x.appended m) m x.store.disk.activeLog.length
         have hdrop : s.steps.drop (x.appended m).steps.length = fs := by rw [hfs, List.drop_left]
         rw [hdrop, hdisk]
         exact R.activeLog_run hw rfl
       known := x.known_saveAppended m _ }, true)

/-- On a log that ends with a line ending this is the `save` of the store. -/
theorem save_eq {x : LogFile R} {text : List Char} (h : TextFile.decode x.bytes = some text)
    (ht : TextFile.tail text = []) (m : Message) :
    ((x.save m).1.store, (x.save m).2) = x.store.save m := by
  by_cases hm : m.id ∈ x.store.indexes.messageIds
  · rw [LocalMessageStore.save_known hm, save, if_pos hm]
  · have happended : x.appended m = x.store.perform (.append (.message m)) := by
      simp only [appended, R.readLog_append h ht, ← x.log]
      rfl
    rw [LocalMessageStore.save_eq_saveAppended hm, ← happended, save, if_neg hm]

/-- Some saves. -/
def saves (x : LogFile R) (ms : List Message) : LogFile R := ms.foldl (fun x m => (x.save m).1) x

/-- The store opened again. -/
def reopened (x : LogFile R) (threshold : Option Int) : LogFile R := opened R threshold x.store.disk x.bytes

/-- When a save returns `True`, the message is read back, now and when the
store is opened again, and so is every message that was read before. -/
def Durable (x : LogFile R) (m : Message) : Prop :=
  (x.save m).2 = true →
    m ∈ (x.save m).1.store.getMissingSince Dict.empty ∧
      (∀ threshold, m ∈ ((x.save m).1.reopened threshold).store.getMissingSince Dict.empty) ∧
      ∀ m' ∈ x.store.disk.readAllMessages, m' ∈ (x.save m).1.store.disk.readAllMessages ∧
        ∀ threshold, m' ∈ ((x.save m).1.reopened threshold).store.disk.readAllMessages

end LogFile

/-- The next snapshot of the log would put a message in front of another
one with the same id, which is the one that is read. -/
def Disk.Overtakes (d : Disk) : Prop :=
  ∃ m m', m ≠ m' ∧ firstOf m.id (d.messagesOf (d.snapshotsBefore d.nextSnapshotId)) = none ∧
    firstOf m.id (d.messagesOf (d.snapshotsAfter d.nextSnapshotId)) = some m ∧
    firstOf m.id d.readActiveMessages = some m'

namespace LogFile

variable {R : LogReader} {x : LogFile R} {m m' : Message}

theorem readAllMessages_reopened (x : LogFile R) (threshold : Option Int) :
    m ∈ (x.reopened threshold).store.disk.readAllMessages ↔ m ∈ x.store.disk.readAllMessages := by
  have hdisk : { x.store.disk with activeLog := R.readLog x.bytes } = x.store.disk := by rw [← x.log]
  have hstored : (x.reopened threshold).store.disk.stored = x.store.disk.stored := by
    refine (LocalMessageStore.repairIndexes_ran _).2.trans ?_
    exact congrArg Disk.stored hdisk
  rw [Disk.mem_readAllMessages, Disk.mem_readAllMessages, hstored]

theorem store_save (h : m.id ∉ x.store.indexes.messageIds) : (x.save m).1.store =
    (x.appended m).saveAppended m x.store.disk.activeLog.length := by
  rw [save, if_neg h]

/-- What is durable, by what is read. -/
theorem durable_iff (h : m.id ∉ x.store.indexes.messageIds) (hseq : 1 ≤ m.senderSeq) : x.Durable m ↔
    m ∈ (x.save m).1.store.disk.readAllMessages ∧
      ∀ m' ∈ x.store.disk.readAllMessages, m' ∈ (x.save m).1.store.disk.readAllMessages := by
  have hsaved : (x.save m).2 = true := by rw [save, if_neg h]
  have hpos : VectorClock.count Dict.empty m.sender < m.senderSeq := by
    rw [VectorClock.count_empty]
    omega
  simp only [Durable, hsaved, mem_getMissingSince, readAllMessages_reopened, hpos, and_true, forall_const,
    and_self, ← and_assoc]

/-- The store when the message is in the log and in the indexes. -/
def entered (x : LogFile R) (m : Message) : LocalMessageStore :=
  { x.appended m with indexes := (x.appended m).indexes.add m x.store.disk.activeLog.length }.flushIndexes

theorem readAllMessages_save (h : m.id ∉ x.store.indexes.messageIds) :
    (x.save m).1.store.disk.readAllMessages = (x.entered m).tidied.disk.readAllMessages := by
  rw [store_save h]
  rfl

/-- **Behind a torn line a message is lost.** -/
theorem not_mem_readAllMessages_save (h : m.id ∉ x.store.indexes.messageIds) (hc : endsCleanly x.bytes = false) :
    m ∉ (x.save m).1.store.disk.readAllMessages := by
  intro hm
  rw [readAllMessages_save h] at hm
  have hstored : m ∈ (x.entered m).disk.stored := LocalMessageStore.stored_of_mem_readAllMessages_tidied hm
  have happended : m ∈ (x.appended m).disk.stored := hstored
  rcases mem_stored_of_appended happended with hold | ⟨hclean, -⟩
  · exact h (x.known.ids m hold)
  · rw [hc] at hclean
    cases hclean

/-- The messages that are stored when the line is in a log that ends
cleanly. -/
theorem stored_appended_clean (hc : endsCleanly x.bytes = true) :
    (x.appended m).disk.stored = x.store.disk.stored ++ [m] := by
  rw [stored_appended, LogReader.messages_append hc, ← List.append_assoc, Disk.stored_eq, readActiveMessages_eq]

theorem readActiveMessages_entered (hc : endsCleanly x.bytes = true) :
    (x.entered m).disk.readActiveMessages = x.store.disk.readActiveMessages ++ [m] := by
  have hactive : (x.entered m).disk.readActiveMessages = R.messages (x.bytes ++ R.line m) := by
    rw [Disk.readActiveMessages_eq]
    rfl
  rw [hactive, LogReader.messages_append hc, readActiveMessages_eq]

theorem compacts_entered (hc : endsCleanly x.bytes = true) :
    (x.entered m).compacts (x.entered m).disk.readActiveMessages.length =
      x.store.compacts (x.store.disk.readActiveMessages.length + 1) := by
  rw [readActiveMessages_entered hc, List.length_append]
  rfl

/-- What is read when the log is not made a snapshot. -/
theorem mem_readAllMessages_save (h : m.id ∉ x.store.indexes.messageIds) (hc : endsCleanly x.bytes = true)
    (hcompacts : x.store.compacts (x.store.disk.readActiveMessages.length + 1) = false) :
    m' ∈ (x.save m).1.store.disk.readAllMessages ↔
      (firstOf m'.id x.store.disk.stored).or (firstOf m'.id [m]) = some m' := by
  have hstored : (x.entered m).disk.stored = x.store.disk.stored ++ [m] := by
    rw [entered, LocalMessageStore.stored_flushIndexes]
    exact stored_appended_clean hc
  rw [readAllMessages_save h, LocalMessageStore.mem_readAllMessages_tidied ((compacts_entered hc).trans hcompacts),
    Disk.mem_readAllMessages_iff_firstOf, hstored, firstOf_append]

/-- What is read when it is: the snapshots that sort behind the new one
come last. -/
theorem mem_readAllMessages_save_compacted (h : m.id ∉ x.store.indexes.messageIds) (hc : endsCleanly x.bytes = true)
    (hcompacts : x.store.compacts (x.store.disk.readActiveMessages.length + 1) = true) :
    m' ∈ (x.save m).1.store.disk.readAllMessages ↔
      (firstOf m'.id (x.store.disk.messagesOf (x.store.disk.snapshotsBefore x.store.disk.nextSnapshotId))).or
        (((firstOf m'.id x.store.disk.readActiveMessages).or (firstOf m'.id [m])).or
          (firstOf m'.id (x.store.disk.messagesOf (x.store.disk.snapshotsAfter x.store.disk.nextSnapshotId)))) =
        some m' := by
  obtain ⟨htidied, hne⟩ := LocalMessageStore.tidied_of_compacts ((compacts_entered hc).trans hcompacts)
  have hstored : (x.entered m).tidied.disk.stored =
      x.store.disk.messagesOf (x.store.disk.snapshotsBefore x.store.disk.nextSnapshotId) ++
        (x.store.disk.readActiveMessages ++ [m] ++
          x.store.disk.messagesOf (x.store.disk.snapshotsAfter x.store.disk.nextSnapshotId)) := by
    rw [htidied, LocalMessageStore.stored_createSnapshot hne, readActiveMessages_entered hc]
    rfl
  rw [readAllMessages_save h, Disk.mem_readAllMessages_iff_firstOf, hstored, firstOf_append, firstOf_append,
    firstOf_append]

/-- What was read before. -/
theorem firstOf_stored (x : LogFile R) (i y : String) : firstOf i x.store.disk.stored =
    ((firstOf i (x.store.disk.messagesOf (x.store.disk.snapshotsBefore y))).or
      (firstOf i (x.store.disk.messagesOf (x.store.disk.snapshotsAfter y)))).or
        (firstOf i x.store.disk.readActiveMessages) := by
  rw [Disk.stored_eq, ← x.store.disk.listSnapshots_eq y, Disk.messagesOf, List.flatMap_append, firstOf_append,
    firstOf_append]
  rfl

/-- Where two lists that are searched change places, what is found changes
only if both hold something. -/
theorem or_reordered {α : Type} {b a c : Option α} {y : α} (h : (b.or a).or c = some y) :
    b.or ((c.or none).or a) = some y ↔ ¬ (b = none ∧ a = some y ∧ ∃ z, y ≠ z ∧ c = some z) := by
  cases b <;> cases a <;> cases c <;> simp_all [eq_comm]

/-- A save behind a line ending loses a message only to a snapshot that is
written in front of it. -/
theorem durable_clean_iff (h : m.id ∉ x.store.indexes.messageIds) (hseq : 1 ≤ m.senderSeq)
    (hc : endsCleanly x.bytes = true) : x.Durable m ↔
      (x.store.compacts (x.store.disk.readActiveMessages.length + 1) = true → ¬ x.store.disk.Overtakes) := by
  have hnew : firstOf m.id x.store.disk.stored = none :=
    firstOf_eq_none.2 fun m' hm' hid => h (hid ▸ x.known.ids m' hm')
  have hother {m' : Message} (hm' : firstOf m'.id x.store.disk.stored = some m') : firstOf m'.id [m] = none := by
    refine firstOf_eq_none.2 fun m₀ hm₀ hid => ?_
    rw [List.mem_singleton.1 hm₀] at hid
    rw [hid, hm'] at hnew
    cases hnew
  have hself : firstOf m.id [m] = some m := by simp [firstOf]
  rw [durable_iff h hseq]
  cases hcompacts : x.store.compacts (x.store.disk.readActiveMessages.length + 1) with
  | false =>
    simp only [mem_readAllMessages_save h hc hcompacts, Disk.mem_readAllMessages_iff_firstOf]
    refine ⟨fun _ hf => (by cases hf), fun _ => ⟨by rw [hnew, hself]; rfl, fun m' hm' => ?_⟩⟩
    rw [hm']
    rfl
  | true =>
    simp only [mem_readAllMessages_save_compacted h hc hcompacts, Disk.mem_readAllMessages_iff_firstOf, true_imp_iff]
    have hcut := fun i => x.firstOf_stored i x.store.disk.nextSnapshotId
    have hnone := hnew
    rw [hcut, Option.or_eq_none_iff, Option.or_eq_none_iff] at hnone
    constructor
    · intro hall hover
      obtain ⟨y, z, hne, hbefore, hafter, hlog⟩ := hover
      have hread : firstOf y.id x.store.disk.stored = some y := by rw [hcut, hbefore, hafter]; rfl
      have hy := hall.2 y hread
      rw [hother hread, or_reordered (hcut y.id ▸ hread)] at hy
      exact hy ⟨hbefore, hafter, z, hne, hlog⟩
    · intro hover
      refine ⟨by rw [hnone.1.1, hnone.1.2, hnone.2, hself]; rfl, fun y hread => ?_⟩
      rw [hother hread, or_reordered (hcut y.id ▸ hread)]
      intro hex
      obtain ⟨hbefore, hafter, z, hne, hlog⟩ := hex
      exact hover ⟨y, z, hne, hbefore, hafter, hlog⟩

end LogFile

/-- A store opened on a log with these bytes, after some saves. -/
def LogFile.session (R : LogReader) (threshold : Option Int) (d : Disk) (bytes : List UInt8) (earlier : List Message) :
    LogFile R := (LogFile.opened R threshold d bytes).saves earlier

/-- **A save is durable exactly when the log ends cleanly**, with a line
ending or blanks, and no snapshot of it is written in front of another one
with a different message of the same id. -/
theorem save_durable_iff (R : LogReader) (threshold : Option Int) (d : Disk) (bytes : List UInt8)
    (earlier : List Message) (m : Message)
    (hnew : m.id ∉ (LogFile.session R threshold d bytes earlier).store.indexes.messageIds)
    (hseq : 1 ≤ m.senderSeq) :
    (LogFile.session R threshold d bytes earlier).Durable m ↔
      endsCleanly (LogFile.session R threshold d bytes earlier).bytes = true ∧
        ((LogFile.session R threshold d bytes earlier).store.compacts
            ((LogFile.session R threshold d bytes earlier).store.disk.readActiveMessages.length + 1) = true →
          ¬ (LogFile.session R threshold d bytes earlier).store.disk.Overtakes) := by
  cases hc : endsCleanly (LogFile.session R threshold d bytes earlier).bytes with
  | false =>
    rw [LogFile.durable_iff hnew hseq]
    exact ⟨fun hd => absurd hd.1 (LogFile.not_mem_readAllMessages_save hnew hc), fun hf => by cases hf.1⟩
  | true =>
    rw [LogFile.durable_clean_iff hnew hseq hc]
    simp only [true_and]

/-- A reader that takes every other JSON text for an invalid line. -/
def plainReader : LogReader := ⟨.whole, fun _ => .invalid "", 8192, by decide⟩

/-- The messages of a sender. -/
def posted (n : Nat) : Message := ⟨"hi", "a:1", "m" ++ toString n, n, "", 10, Dict.empty.set "a:1" n⟩

/-- A log with a line and blanks behind it. -/
def blankTail : List UInt8 := plainReader.line (posted 1) ++ [32, 9]

theorem save_durable_iff_blank :
    (LogFile.session plainReader (some 3) Disk.empty blankTail []).Durable (posted 2) := by
  have hroom : (LogFile.session plainReader (some 3) Disk.empty blankTail []).store.compacts
      ((LogFile.session plainReader (some 3) Disk.empty blankTail []).store.disk.readActiveMessages.length + 1) =
        false := by
    decide +kernel
  refine (save_durable_iff plainReader (some 3) Disk.empty blankTail [] (posted 2) ?_ ?_).2 ⟨?_, fun hc => ?_⟩
  · decide +kernel
  · decide
  · decide +kernel
  · rw [hroom] at hc
    cases hc

/-- A store opened on a log whose only line lacks its newline. -/
def tornLog : LogFile plainReader :=
  .session plainReader (some 3) Disk.empty (TextFile.encode (toJson .whole (posted 1))) []

/-- **A line without its newline is lost, and so is the message saved
behind it.** -/
theorem save_behind_torn_line :
    posted 1 ∈ tornLog.store.disk.readAllMessages ∧ (tornLog.save (posted 2)).2 = true ∧
      (tornLog.save (posted 2)).1.store.disk.readAllMessages = [] ∧ ¬ tornLog.Durable (posted 2) := by
  have hread : posted 1 ∈ tornLog.store.disk.readAllMessages := by decide +kernel
  have hsaved : (tornLog.save (posted 2)).2 = true := by decide +kernel
  have hempty : (tornLog.save (posted 2)).1.store.disk.readAllMessages = [] := by decide +kernel
  refine ⟨hread, hsaved, hempty, fun hd => ?_⟩
  have hkept := ((hd hsaved).2.2 (posted 1) hread).1
  rw [hempty] at hkept
  cases hkept

end PeerChat.History
