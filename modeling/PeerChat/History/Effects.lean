/-
What an operation of a store does, as one statement: `Adds`. The messages
stored afterwards are those stored before and the ones saved, the indexes
are those of the stored messages again, and at every point at which the
operation can be interrupted, outside the window in which a rebuild has
deleted the snapshots and not yet rewritten the log, nothing stored before
and nothing acknowledged is missing. Here for `create_snapshot`.
-/
import PeerChat.History.Indexes

namespace PeerChat.History

open Lib

/-- The steps that take a snapshot away. -/
def Step.unlinksSnapshot : Step → Bool
  | .unlinkData _ | .unlinkMeta _ => true
  | .append _ | .writeLog _ | .writeTmp _ | .replaceData _ _ | .replaceMeta _ _ | .unlinkTmp _ | .writeIndexTmp
  | .replaceMessageIds _ | .replaceSenderSeq _ | .replaceLatestVc _ | .replaceRecoveryState _ | .saved _ => false

/-- The steps that write the whole log. -/
def Step.rewritesLog : Step → Bool
  | .writeLog _ => true
  | .append _ | .writeTmp _ | .replaceData _ _ | .replaceMeta _ _ | .unlinkData _ | .unlinkMeta _ | .unlinkTmp _
  | .writeIndexTmp | .replaceMessageIds _ | .replaceSenderSeq _ | .replaceLatestVc _ | .replaceRecoveryState _
  | .saved _ => false

/-- The disk as a device that holds messages. A rebuild opens a window when
it unlinks a snapshot and closes it when it has rewritten the log. -/
def storage : Device Disk Step Message where
  apply := Disk.apply
  Holds d m := m ∈ d.stored
  Acks f m := f = .saved m
  Opens f := f.unlinksSnapshot = true
  Closes f := f.rewritesLog = true

instance (f : Step) : Decidable (storage.Opens f) := inferInstanceAs (Decidable (f.unlinksSnapshot = true))

/-- The steps no stored message depends on. -/
def Step.isNeutral : Step → Bool
  | .writeTmp _ | .unlinkTmp _ | .writeIndexTmp | .replaceMessageIds _ | .replaceSenderSeq _ | .replaceLatestVc _
  | .replaceRecoveryState _ => true
  | .append _ | .writeLog _ | .replaceData _ _ | .replaceMeta _ _ | .unlinkData _ | .unlinkMeta _ | .saved _ => false

theorem Disk.stored_neutral {f : Step} (hf : f.isNeutral = true) (d : Disk) : (d.apply f).stored = d.stored := by
  cases f <;> first | rfl | cases hf

/-- The messages a step writes. -/
def Step.contents : Step → List Message
  | .append line => line.message?.toList
  | .writeLog lines => lines.filterMap LogLine.message?
  | .replaceData _ file => file.messages
  | .replaceMeta _ m => m.checksum.messages
  | .writeTmp _ | .unlinkData _ | .unlinkMeta _ | .unlinkTmp _ | .writeIndexTmp | .replaceMessageIds _
  | .replaceSenderSeq _ | .replaceLatestVc _ | .replaceRecoveryState _ | .saved _ => []

theorem Disk.UniqueIds.congr {d d' : Disk} (h : d.UniqueIds) (hd : ∀ m, m ∈ d'.stored ↔ m ∈ d.stored) :
    d'.UniqueIds :=
  fun m hm m' hm' hid => h m ((hd m).1 hm) m' ((hd m').1 hm') hid

namespace LocalMessageStore

/-- The store after a list of steps. -/
def performAll (s : LocalMessageStore) (fs : List Step) : LocalMessageStore :=
  { s with disk := storage.run s.disk fs, steps := s.steps ++ fs }

theorem performAll_append (s : LocalMessageStore) (fs gs : List Step) :
    (s.performAll fs).performAll gs = s.performAll (fs ++ gs) := by
  simp only [performAll, Device.run_append, List.append_assoc]

theorem foldl_perform {τ : Type} (g : τ → Step) : ∀ (l : List τ) (s : LocalMessageStore),
    l.foldl (fun s x => s.perform (g x)) s = s.performAll (l.map g)
  | [], s => by simp [performAll, Device.run]
  | x :: l, s => by
    rw [List.foldl_cons, foldl_perform g l, List.map_cons, ← List.singleton_append, ← performAll_append]
    rfl

/-- The steps from one disk to another: they are durable, and what they
write is stored in the end. -/
structure Takes (d : Disk) (fs : List Step) (d' : Disk) : Prop where
  disk : d' = storage.run d fs
  durable : storage.Durable d fs
  closed : ¬ storage.Exposed fs
  contents : ∀ f ∈ fs, ∀ m ∈ f.contents, m ∈ d'.stored

def Ran (s s' : LocalMessageStore) : Prop := ∃ fs, s'.steps = s.steps ++ fs ∧ Takes s.disk fs s'.disk

variable {s s₁ s₂ : LocalMessageStore} {m : Message}

/-- Nothing is missing at the end. -/
theorem Takes.stored {d d' : Disk} {fs : List Step} (h : Takes d fs d') (hm : m ∈ d.stored) : m ∈ d'.stored := by
  rw [h.disk]
  exact h.durable fs List.prefix_rfl h.closed m (.inl hm)

theorem Ran.refl (s : LocalMessageStore) : Ran s s :=
  ⟨[], by simp, rfl, .nil _, Device.not_exposed_of_forall (by simp), by simp⟩

/-- Only the disk and the steps count. -/
theorem Ran.congr (h : Ran s s₁) (hd : s₂.disk = s₁.disk) (hs : s₂.steps = s₁.steps) : Ran s s₂ := by
  obtain ⟨fs, hfs, h⟩ := h
  exact ⟨fs, hs.trans hfs, hd ▸ h⟩

theorem Ran.trans (h : Ran s s₁) (h' : Ran s₁ s₂) : Ran s s₂ := by
  obtain ⟨fs, hs, h⟩ := h
  obtain ⟨gs, hs', h'⟩ := h'
  refine ⟨fs ++ gs, by rw [hs', hs, List.append_assoc], ?_, h.durable.append h.closed (h.disk ▸ h'.durable),
    Device.not_exposed_append h.closed h'.closed, fun f hf m hm => ?_⟩
  · rw [h'.disk, h.disk, Device.run_append]
  · rcases List.mem_append.1 hf with hf | hf
    · exact h'.stored (h.contents f hf m hm)
    · exact h'.contents f hf m hm

/-- A step that keeps what is stored and acknowledges no more. -/
theorem Ran.perform {f : Step} (ho : ¬ storage.Opens f)
    (h : ∀ m, m ∈ s.disk.stored ∨ f = .saved m → m ∈ (s.disk.apply f).stored)
    (hc : ∀ m ∈ f.contents, m ∈ (s.disk.apply f).stored) : Ran s (s.perform f) := by
  refine ⟨[f], rfl, rfl, .step h, Device.not_exposed_of_forall (by simpa using ho), fun g hg => ?_⟩
  cases List.mem_singleton.1 hg
  exact hc

theorem Ran.neutral {f : Step} (hf : f.isNeutral = true) : Ran s (s.perform f) := by
  refine Ran.perform (fun ho => ?_) (fun m hm => ?_) fun m hm => ?_
  · cases f <;> first | exact Bool.false_ne_true ho | exact Bool.false_ne_true hf
  · rw [Disk.stored_neutral hf]
    rcases hm with hm | rfl
    · exact hm
    · cases hf
  · cases f <;> first | cases hm | cases hf

/-! ## The indexes -/

theorem Ran.flushIndexes (s : LocalMessageStore) : Ran s s.flushIndexes :=
  (((((((Ran.neutral rfl).trans (.neutral rfl)).trans (.neutral rfl)).trans (.neutral rfl)).trans
    (.neutral rfl)).trans (.neutral rfl)).trans (.neutral rfl)).trans (.neutral rfl)

/-- The indexes are those of the stored messages, and an id names one. -/
structure Sound (s : LocalMessageStore) : Prop where
  describes : s.indexes.Describes s.disk.stored
  unique : s.disk.UniqueIds

theorem Sound.congr (h : Sound s) (hix : s₁.indexes = s.indexes) (hd : s₁.disk.stored = s.disk.stored) : Sound s₁ :=
  ⟨by rw [hix, hd]; exact h.describes, h.unique.congr fun m => by rw [hd]⟩

theorem stored_flushIndexes (s : LocalMessageStore) : s.flushIndexes.disk.stored = s.disk.stored := rfl

theorem Sound.flushIndexes (h : Sound s) : Sound s.flushIndexes := h.congr rfl (stored_flushIndexes s)

/-- What an operation that saves `ms` does to a store. -/
structure Adds (s : LocalMessageStore) (ms : List Message) (s' : LocalMessageStore) : Prop where
  sound : Sound s'
  stored : ∀ m, m ∈ s'.disk.stored ↔ m ∈ s.disk.stored ∨ m ∈ ms
  ran : Ran s s'

theorem Adds.refl (h : Sound s) : Adds s [] s := ⟨h, by simp, .refl s⟩

theorem Adds.trans {ms ms' : List Message} (h : Adds s ms s₁) (h' : Adds s₁ ms' s₂) : Adds s (ms ++ ms') s₂ :=
  ⟨h'.sound, fun m => by rw [h'.stored, h.stored, List.mem_append, or_assoc], h.ran.trans h'.ran⟩

theorem Adds.flushIndexes {ms : List Message} (h : Adds s ms s₁) : Adds s ms s₁.flushIndexes :=
  ⟨h.sound.congr rfl (stored_flushIndexes s₁), fun m => by rw [stored_flushIndexes, h.stored],
    h.ran.trans (.flushIndexes s₁)⟩

theorem Sound.rebuildIndexes (h : s.disk.UniqueIds) : Sound s.rebuildIndexes :=
  ⟨(Indexes.Describes.empty.foldl_add (-1) s.disk.readAllMessages).congr fun _ => Disk.mem_readAllMessages_iff h, h⟩

/-! ## Snapshots -/

/-- The steps that write a snapshot. -/
def snapshotSteps (x : String) (messages : List Message) : List Step :=
  [.writeTmp (x ++ ".jsonl.gz.tmp"), .replaceData x (.gzip (messages.map .message)),
    .writeTmp (x ++ ".meta.json.tmp"), .replaceMeta x ⟨messages.length, .gzip (messages.map .message)⟩]

theorem writeSnapshotFiles_eq (s : LocalMessageStore) (x : String) (messages : List Message) :
    s.writeSnapshotFiles x messages = s.performAll (snapshotSteps x messages) := by
  simp [writeSnapshotFiles, perform, performAll, snapshotSteps, Device.run, storage]

/-- The name that `create_snapshot` writes to. -/
def snapshotTarget (s : LocalMessageStore) (snapshotId : Option String) : String :=
  match snapshotId with
  | some x => if x = "" then s.disk.nextSnapshotId else x
  | none => s.disk.nextSnapshotId

/-- The store when `create_snapshot` has written its files. -/
def snapshotted (s : LocalMessageStore) (x : Option String) : LocalMessageStore :=
  s.performAll (snapshotSteps (s.snapshotTarget x) s.disk.readActiveMessages)

theorem createSnapshot_of_empty (x : Option String) (compact : Bool) (he : s.disk.readActiveMessages = []) :
    s.createSnapshot x compact = s := by
  simp only [createSnapshot, he, List.isEmpty_nil, if_true]

theorem createSnapshot_eq (x : Option String) (compact : Bool) (hne : s.disk.readActiveMessages ≠ []) :
    s.createSnapshot x compact =
      if compact then ((s.snapshotted x).perform (.writeLog [])).rebuildIndexes.flushIndexes else s.snapshotted x := by
  have he : s.disk.readActiveMessages.isEmpty = false := by simpa using hne
  simp only [createSnapshot, he, Bool.false_eq_true, if_false, writeSnapshotFiles_eq]
  rfl

theorem messages_gzip (messages : List Message) : (DataFile.gzip (messages.map .message)).messages = messages := by
  simp [DataFile.messages, List.filterMap_map, Function.comp_def, LogLine.message?]

/-- The disk just before the meta file of a snapshot is put in place. -/
def beforeMeta (d : Disk) (x : String) (messages : List Message) : Disk :=
  ((d.apply (.writeTmp (x ++ ".jsonl.gz.tmp"))).apply (.replaceData x (.gzip (messages.map .message)))).apply
    (.writeTmp (x ++ ".meta.json.tmp"))

theorem data_beforeMeta (d : Disk) (x : String) (messages : List Message) :
    (beforeMeta d x messages).data.get? x = some (.gzip (messages.map .message)) := by
  show (d.data.set x _).get? x = _
  rw [Dict.get?_set, if_pos rfl]

theorem metas_beforeMeta {d : Disk} {x : String} (hx : d.metas.get? x = none) (messages : List Message) :
    (beforeMeta d x messages).metas.get? x = none := hx

theorem run_snapshotSteps (d : Disk) (x : String) (messages : List Message) :
    storage.run d (snapshotSteps x messages) =
      (beforeMeta d x messages).apply (.replaceMeta x ⟨messages.length, .gzip (messages.map .message)⟩) := rfl

theorem stored_beforeMeta {d : Disk} {x : String} (hx : d.metas.get? x = none) (messages : List Message) :
    m ∈ (beforeMeta d x messages).stored ↔ m ∈ d.stored := by
  rw [beforeMeta, Disk.stored_neutral rfl]
  exact Disk.mem_stored_replaceData (d := d.apply (.writeTmp (x ++ ".jsonl.gz.tmp"))) _ hx

/-- A snapshot takes its name, whatever was there. -/
theorem readSnapshotMessages_snapshotSteps (d : Disk) (x : String) (messages : List Message) (y : String) :
    (storage.run d (snapshotSteps x messages)).readSnapshotMessages y =
      if y = x then messages else d.readSnapshotMessages y := by
  have hdata : (storage.run d (snapshotSteps x messages)).data = d.data.set x (.gzip (messages.map .message)) := rfl
  have hmetas : (storage.run d (snapshotSteps x messages)).metas =
      d.metas.set x (some ⟨messages.length, .gzip (messages.map .message)⟩) := rfl
  simp only [Disk.readSnapshotMessages, hdata, hmetas]
  by_cases hy : y = x
  · subst hy
    simp only [Dict.get?_set_self, if_true, messages_gzip]
  · simp only [Dict.get?_set_of_ne _ _ hy, hy, if_false]

theorem mem_stored_snapshotSteps {d : Disk} {x : String} (hx : d.metas.get? x = none) (messages : List Message) :
    m ∈ (storage.run d (snapshotSteps x messages)).stored ↔ m ∈ d.stored ∨ m ∈ messages := by
  rw [run_snapshotSteps, Disk.mem_stored_replaceMeta (metas_beforeMeta hx messages) (data_beforeMeta d x messages),
    messages_gzip, stored_beforeMeta hx]

/-- Writing a new snapshot loses nothing on the way. -/
theorem ran_snapshotSteps {x : String} (hx : s.disk.metas.get? x = none) {messages : List Message}
    (hms : ∀ m ∈ messages, m ∈ s.disk.stored) : Ran s (s.performAll (snapshotSteps x messages)) := by
  have h₁ : Ran s (s.perform (.writeTmp (x ++ ".jsonl.gz.tmp"))) := .neutral rfl
  have h₂ : Ran s ((s.perform (.writeTmp (x ++ ".jsonl.gz.tmp"))).perform
      (.replaceData x (.gzip (messages.map .message)))) := by
    refine h₁.trans (.perform nofun (fun m hm => ?_) fun m hm => ?_)
    · exact (Disk.mem_stored_replaceData _ hx).2 (hm.resolve_right (by simp))
    · rw [Step.contents, messages_gzip] at hm
      exact (Disk.mem_stored_replaceData _ hx).2 (hms m hm)
  have h₃ := h₂.trans (Ran.neutral (f := .writeTmp (x ++ ".meta.json.tmp")) rfl)
  rw [← writeSnapshotFiles_eq]
  -- the last step: the data file is in place, and the meta file makes it count
  have hlast (m : Message) (hm : m ∈ s.disk.stored) :=
    (mem_stored_snapshotSteps (m := m) hx messages).2 (.inl hm)
  refine h₃.trans (.perform nofun (fun m hm => hlast m ?_) fun m hm => hlast m (hms m (messages_gzip messages ▸ hm)))
  exact (stored_beforeMeta hx messages).1 (hm.resolve_right (by simp))

/-- `create_snapshot` with an automatic id. -/
theorem Adds.createSnapshot (h : Sound s) (compact : Bool) : Adds s [] (s.createSnapshot none compact) := by
  have hx := s.disk.get?_nextSnapshotId
  let s₁ := s.performAll (snapshotSteps s.disk.nextSnapshotId s.disk.readActiveMessages)
  have hmem (m : Message) : m ∈ s₁.disk.stored ↔ m ∈ s.disk.stored := by
    rw [show s₁.disk = storage.run s.disk _ from rfl, mem_stored_snapshotSteps hx, or_iff_left_iff_imp]
    exact fun hm => Disk.mem_stored.2 (.inr (Disk.mem_readActiveMessages.1 hm))
  have hadds : Adds s [] s₁ :=
    ⟨⟨h.describes.congr fun m => (hmem m).symm, h.unique.congr hmem⟩, fun m => by rw [hmem]; simp,
      ran_snapshotSteps hx fun m hm => Disk.mem_stored.2 (.inr (Disk.mem_readActiveMessages.1 hm))⟩
  simp only [LocalMessageStore.createSnapshot, writeSnapshotFiles_eq]
  split
  · exact .refl h
  · split
    · -- the log's messages are in the snapshot by now
      have hkept (m : Message) : m ∈ (s₁.disk.apply (.writeLog [])).stored ↔ m ∈ s₁.disk.stored := by
        rw [Disk.mem_stored_writeLog, Disk.mem_stored]
        refine ⟨fun hm => .inl (hm.resolve_right (by simp)), ?_⟩
        intro hor
        rcases hor with hm | hm
        · exact .inl hm
        · refine .inl ⟨s.disk.nextSnapshotId, ?_⟩
          rw [show s₁.disk = storage.run s.disk _ from rfl, readSnapshotMessages_snapshotSteps, if_pos rfl]
          exact Disk.mem_readActiveMessages.2 hm
      have hwrite : Adds s [] (s₁.perform (.writeLog [])).rebuildIndexes := by
        have hran : Ran s₁ (s₁.perform (.writeLog [])) :=
          .perform nofun (fun m hm => (hkept m).2 (hm.resolve_right (by simp))) (by simp [Step.contents])
        exact ⟨.rebuildIndexes (hadds.sound.unique.congr hkept), fun m => (hkept m).trans (hadds.stored m),
          (hadds.ran.trans hran).congr rfl rfl⟩
      exact hwrite.flushIndexes
    · exact hadds

theorem Adds.maybeCreateSnapshot (h : Sound s) : Adds s [] s.maybeCreateSnapshot := by
  unfold LocalMessageStore.maybeCreateSnapshot
  split
  · exact .refl h
  · split
    · exact .refl h
    · split
      · exact .createSnapshot h true
      · exact .refl h

end LocalMessageStore

end PeerChat.History
