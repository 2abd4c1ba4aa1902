/-
Rebuilding the snapshots after a recovery
(`_rebuild_snapshots_from_readable_messages_unlocked`): every snapshot file
is deleted, the readable messages are written into new snapshots, and the
log is rewritten with the rest. `Adds.rebuildSnapshots`: a rebuild that is
not interrupted in between keeps every message.
-/
import PeerChat.History.Effects

namespace PeerChat.History

open Lib

namespace LocalMessageStore

variable {s : LocalMessageStore} {m : Message}

/-! ## Cutting into runs -/

/-- Runs of one size, joined again. -/
theorem flatten_runs {α : Type} (stop size : Nat) (l : List α) :
    ((List.range ((stop + size - 1) / size)).map fun i => (l.drop (i * size)).take size).flatten =
      l.take ((stop + size - 1) / size * size) := by
  induction (stop + size - 1) / size with
  | zero => simp
  | succ n ih =>
    rw [List.range_succ, List.map_append, List.flatten_append, ih, Nat.add_mul, Nat.one_mul, List.take_add]
    simp

theorem flatten_slices (stop size : Nat) (ms : List Message) :
    (slices stop size ms).flatten = ms.take ((stop + size - 1) / size * size) :=
  flatten_runs stop size ms

/-- The steps of `_delete_snapshot_files_unlocked`. -/
def deletionSteps (d : Disk) : List Step :=
  d.data.keys.map .unlinkData ++ (d.metas.keys.map .unlinkMeta ++ d.tmps.map .unlinkTmp)

theorem run_unlinkData : ∀ (l : List String) (d : Disk),
    storage.run d (l.map .unlinkData) = { d with data := l.foldl Dict.erase d.data }
  | [], _ => rfl
  | x :: l, d => run_unlinkData l (d.apply (.unlinkData x))

theorem run_unlinkMeta : ∀ (l : List String) (d : Disk),
    storage.run d (l.map .unlinkMeta) = { d with metas := l.foldl Dict.erase d.metas }
  | [], _ => rfl
  | x :: l, d => run_unlinkMeta l (d.apply (.unlinkMeta x))

theorem run_unlinkTmp : ∀ (l : List String) (d : Disk),
    storage.run d (l.map .unlinkTmp) = { d with tmps := l.foldl List.erase d.tmps }
  | [], _ => rfl
  | x :: l, d => run_unlinkTmp l (d.apply (.unlinkTmp x))

theorem deleteSnapshotFiles_eq (s : LocalMessageStore) :
    s.deleteSnapshotFiles = s.performAll (deletionSteps s.disk) := by
  simp only [deleteSnapshotFiles, foldl_perform, deletionSteps, performAll_append, List.append_assoc]
  simp only [performAll, run_unlinkData, Device.run_append, run_unlinkMeta]

/-- After the deletion no snapshot is left, and the log is as it was. -/
theorem deleted (d : Disk) : (∀ x, (storage.run d (deletionSteps d)).metas.get? x = none) ∧
    (storage.run d (deletionSteps d)).activeLog = d.activeLog := by
  rw [deletionSteps, Device.run_append, Device.run_append, run_unlinkData, run_unlinkMeta, run_unlinkTmp]
  exact ⟨d.metas.get?_foldl_erase_keys, rfl⟩

theorem data_deleted (d : Disk) (x : String) : (storage.run d (deletionSteps d)).data.get? x = none := by
  rw [deletionSteps, Device.run_append, Device.run_append, run_unlinkData, run_unlinkMeta, run_unlinkTmp]
  exact d.data.get?_foldl_erase_keys x

theorem readSnapshotMessages_deleted (d : Disk) (x : String) :
    (storage.run d (deletionSteps d)).readSnapshotMessages x = [] := by
  simp only [Disk.readSnapshotMessages, (deleted d).1 x]

/-- The steps that neither acknowledge a message nor rewrite the log. -/
def Quiet (f : Step) : Prop := ¬ storage.Closes f ∧ ∀ m, f ≠ .saved m

theorem quiet_deletionSteps {d : Disk} {f : Step} (h : f ∈ deletionSteps d) : Quiet f := by
  simp only [deletionSteps, List.mem_append, List.mem_map] at h
  rcases h with ⟨_, -, rfl⟩ | ⟨_, -, rfl⟩ | ⟨_, -, rfl⟩ <;> exact ⟨nofun, by simp⟩

/-- The steps that write the snapshots from `index` on. -/
def rebuildSteps : Nat → List (List Message) → List Step
  | _, [] => []
  | index, chunk :: chunks => snapshotSteps (Disk.snapshotId index) chunk ++ rebuildSteps (index + 1) chunks

theorem writeSnapshots_eq : ∀ (index : Nat) (chunks : List (List Message)) (s : LocalMessageStore),
    writeSnapshots index chunks s = s.performAll (rebuildSteps index chunks)
  | _, [], s => by simp [writeSnapshots, rebuildSteps, performAll, Device.run]
  | index, chunk :: chunks, s => by
    rw [writeSnapshots, writeSnapshots_eq, writeSnapshotFiles_eq, performAll_append, rebuildSteps]

/-- The snapshots from `index` on can be written. -/
def FreeFrom (index : Nat) (d : Disk) : Prop := ∀ n, index ≤ n → d.metas.get? (Disk.snapshotId n) = none

theorem FreeFrom.succ {index : Nat} {d : Disk} (h : FreeFrom index d) (chunk : List Message) :
    FreeFrom (index + 1) (storage.run d (snapshotSteps (Disk.snapshotId index) chunk)) := by
  intro n hn
  show (d.metas.set (Disk.snapshotId index) _).get? (Disk.snapshotId n) = none
  rw [Dict.get?_set_of_ne, h n (by omega)]
  intro he
  have := Disk.snapshotId_injective he
  omega

theorem exists_readSnapshotMessages_rebuildSteps : ∀ {index : Nat} {chunks : List (List Message)} {d : Disk},
    FreeFrom index d → ((∃ x, m ∈ (storage.run d (rebuildSteps index chunks)).readSnapshotMessages x) ↔
      (∃ x, m ∈ d.readSnapshotMessages x) ∨ m ∈ chunks.flatten)
  | _, [], _, _ => by simp [rebuildSteps, Device.run]
  | index, chunk :: chunks, d, h => by
    have hold : d.readSnapshotMessages (Disk.snapshotId index) = [] := by
      simp only [Disk.readSnapshotMessages, h index le_rfl]
    rw [rebuildSteps, Device.run_append, exists_readSnapshotMessages_rebuildSteps (h.succ chunk), List.flatten_cons,
      List.mem_append, ← or_assoc]
    refine or_congr ?_ Iff.rfl
    simp only [readSnapshotMessages_snapshotSteps]
    exact Disk.exists_mem_ite hold

theorem activeLog_rebuildSteps : ∀ (index : Nat) (chunks : List (List Message)) (d : Disk),
    (storage.run d (rebuildSteps index chunks)).activeLog = d.activeLog
  | _, [], _ => rfl
  | index, chunk :: chunks, d => by
    rw [rebuildSteps, Device.run_append, activeLog_rebuildSteps]
    rfl

theorem ran_rebuildSteps : ∀ {index : Nat} {chunks : List (List Message)} {s : LocalMessageStore},
    FreeFrom index s.disk → (∀ m ∈ chunks.flatten, m ∈ s.disk.stored) → Ran s (s.performAll (rebuildSteps index chunks))
  | _, [], s, _, _ => by simpa [LocalMessageStore.rebuildSteps, performAll, Device.run] using Ran.refl s
  | index, chunk :: chunks, s, h, hms => by
    rw [LocalMessageStore.rebuildSteps, ← performAll_append]
    simp only [List.flatten_cons, List.mem_append] at hms
    refine (ran_snapshotSteps (h index le_rfl) fun m hm => hms m (.inl hm)).trans
      (ran_rebuildSteps (h.succ chunk) fun m hm => ?_)
    exact (mem_stored_snapshotSteps (h index le_rfl) chunk).2 (.inl (hms m (.inr hm)))

theorem contents_rebuildSteps : ∀ {index : Nat} {chunks : List (List Message)} {f : Step},
    f ∈ rebuildSteps index chunks → m ∈ f.contents → m ∈ chunks.flatten
  | index, chunk :: chunks, f, h, hm => by
    rw [List.flatten_cons, List.mem_append]
    rcases List.mem_append.1 h with h | h
    · simp only [snapshotSteps, List.mem_cons, List.not_mem_nil, or_false] at h
      rcases h with rfl | rfl | rfl | rfl
      · cases hm
      · exact .inl (messages_gzip chunk ▸ hm)
      · cases hm
      · exact .inl (messages_gzip chunk ▸ hm)
    · exact .inr (contents_rebuildSteps h hm)

theorem contents_deletionSteps {d : Disk} {f : Step} (h : f ∈ deletionSteps d) : f.contents = [] := by
  simp only [deletionSteps, List.mem_append, List.mem_map] at h
  rcases h with ⟨_, -, rfl⟩ | ⟨_, -, rfl⟩ | ⟨_, -, rfl⟩ <;> rfl

theorem quiet_rebuildSteps : ∀ {index : Nat} {chunks : List (List Message)} {f : Step},
    f ∈ rebuildSteps index chunks → Quiet f
  | index, chunk :: chunks, f, h => by
    rcases List.mem_append.1 h with h | h
    · simp only [snapshotSteps, List.mem_cons, List.not_mem_nil, or_false] at h
      rcases h with rfl | rfl | rfl | rfl <;> exact ⟨Bool.false_ne_true, by simp⟩
    · exact quiet_rebuildSteps h

/-- Full runs are rounded up to themselves. -/
theorem roundUp_mul {size : Nat} (hs : 0 < size) (q : Nat) : (q * size + size - 1) / size = q := by
  rw [show q * size + size - 1 = (size - 1) + q * size by omega, Nat.add_mul_div_right _ _ hs,
    Nat.div_eq_of_lt (by omega), Nat.zero_add]

/-- A rebuild writes full runs. -/
theorem roundUp_rebuildPlan (threshold : Option Int) {n : Nat} (hn : 0 < n) :
    ((rebuildPlan threshold n).2 + (rebuildPlan threshold n).1 - 1) / (rebuildPlan threshold n).1 *
      (rebuildPlan threshold n).1 = (rebuildPlan threshold n).2 := by
  have hall : (n + n - 1) / n = 1 := by
    have hone := roundUp_mul hn 1
    rwa [Nat.one_mul] at hone
  cases threshold with
  | none => simp only [rebuildPlan, hall, Nat.one_mul]
  | some t =>
    simp only [rebuildPlan]
    split
    · rw [roundUp_mul (by omega)]
    · simp only [hall, Nat.one_mul]

theorem flatten_rebuildPlan (threshold : Option Int) {ms : List Message} (hne : ms ≠ []) :
    (slices (rebuildPlan threshold ms.length).2 (rebuildPlan threshold ms.length).1 ms).flatten =
      ms.take (rebuildPlan threshold ms.length).2 := by
  rw [flatten_slices, roundUp_rebuildPlan threshold (List.length_pos_iff.2 hne)]

/-- The steps of a rebuild, up to the rewriting of the log. -/
def rebuild (d : Disk) (chunks : List (List Message)) (rest : List Message) : List Step :=
  deletionSteps d ++ (rebuildSteps 1 chunks ++ [.writeLog (rest.map .message)])

theorem mem_stored_rebuild {d : Disk} {chunks : List (List Message)} {rest : List Message} :
    m ∈ (storage.run d (rebuild d chunks rest)).stored ↔ m ∈ chunks.flatten ∨ m ∈ rest := by
  have hfree : FreeFrom 1 (storage.run d (deletionSteps d)) := fun n _ => (deleted d).1 _
  have hnone : ¬ ∃ x, m ∈ (storage.run d (deletionSteps d)).readSnapshotMessages x := by
    simp only [readSnapshotMessages_deleted, List.not_mem_nil, exists_false, not_false_eq_true]
  have hlog : LogLine.message m ∈ rest.map LogLine.message ↔ m ∈ rest := by simp
  rw [rebuild, Device.run_append, Device.run_append]
  refine Disk.mem_stored_writeLog.trans ?_
  rw [exists_readSnapshotMessages_rebuildSteps hfree, hlog, or_iff_right hnone]

theorem Ran.neutralAll : ∀ {fs : List Step} {s : LocalMessageStore}, (∀ f ∈ fs, f.isNeutral = true) →
    Ran s (s.performAll fs)
  | [], s, _ => by simpa [performAll, Device.run] using Ran.refl s
  | f :: fs, s, h => by
    rw [← List.singleton_append, ← performAll_append]
    exact (Ran.neutral (h f (by simp))).trans (Ran.neutralAll fun g hg => h g (List.mem_cons_of_mem _ hg))

theorem messages_map_message (ms : List Message) : (ms.map LogLine.message).filterMap LogLine.message? = ms :=
  messages_gzip ms

theorem contents_rebuild {d : Disk} {chunks : List (List Message)} {rest : List Message} {f : Step}
    (hf : f ∈ rebuild d chunks rest) (hm : m ∈ f.contents) : m ∈ chunks.flatten ∨ m ∈ rest := by
  rw [rebuild, List.mem_append, List.mem_append] at hf
  rcases hf with hf | hf | hf
  · rw [contents_deletionSteps hf] at hm
    cases hm
  · exact .inl (contents_rebuildSteps hf hm)
  · cases List.mem_singleton.1 hf
    exact .inr (messages_map_message rest ▸ hm)

/-- A rebuild that finds no snapshot deletes nothing. -/
theorem ran_rebuild_noFiles {chunks : List (List Message)} {rest : List Message} (hdata : s.disk.data.keys = [])
    (hmetas : s.disk.metas.keys = []) (h : ∀ m, m ∈ s.disk.stored ↔ m ∈ chunks.flatten ∨ m ∈ rest) :
    Ran s (s.performAll (rebuild s.disk chunks rest)) := by
  have hdel : deletionSteps s.disk = s.disk.tmps.map .unlinkTmp := by
    rw [deletionSteps, hdata, hmetas]
    rfl
  have h₁ : Ran s (s.performAll (deletionSteps s.disk)) := by
    rw [hdel]
    refine Ran.neutralAll fun f hf => ?_
    obtain ⟨_, -, rfl⟩ := List.mem_map.1 hf
    rfl
  have hsame : (s.performAll (deletionSteps s.disk)).disk.stored = s.disk.stored := by
    rw [hdel, performAll, run_unlinkTmp]
    rfl
  have hfree : FreeFrom 1 (s.performAll (deletionSteps s.disk)).disk := fun n _ => (deleted s.disk).1 _
  have h₂ : Ran s ((s.performAll (deletionSteps s.disk)).performAll (rebuildSteps 1 chunks)) :=
    h₁.trans (ran_rebuildSteps hfree fun m hm => hsame ▸ (h m).2 (.inl hm))
  have hlast (m : Message) (hm : m ∈ s.disk.stored) : m ∈ (storage.run s.disk (rebuild s.disk chunks rest)).stored :=
    mem_stored_rebuild.2 ((h m).1 hm)
  rw [rebuild, Device.run_append, Device.run_append] at hlast
  rw [rebuild, ← performAll_append, ← performAll_append]
  refine h₂.trans (.perform Bool.false_ne_true (fun m hm => hlast m ?_) fun m hm => hlast m ((h m).2 (.inr ?_)))
  · rcases Disk.mem_stored.1 (hm.resolve_right (by simp)) with hx | hx
    · rcases (exists_readSnapshotMessages_rebuildSteps hfree).1 hx with ⟨x, hx⟩ | hx
      · rw [performAll, readSnapshotMessages_deleted] at hx
        cases hx
      · exact (h m).2 (.inl hx)
    · rw [performAll, activeLog_rebuildSteps] at hx
      exact Disk.mem_stored.2 (.inr ((deleted s.disk).2 ▸ hx))
  · exact messages_map_message rest ▸ hm

/-- A rebuild whose first step unlinks a file is one window. -/
theorem durable_rebuild {d : Disk} {chunks : List (List Message)} {rest : List Message} {f : Step} {fs : List Step}
    (hdel : deletionSteps d = f :: fs) (hf : storage.Opens f)
    (h : ∀ m, m ∈ d.stored ↔ m ∈ chunks.flatten ∨ m ∈ rest) : storage.Durable d (rebuild d chunks rest) := by
  have heq : rebuild d chunks rest = f :: ((fs ++ rebuildSteps 1 chunks) ++ [.writeLog (rest.map .message)]) := by
    rw [rebuild, hdel, List.cons_append, List.append_assoc]
  have hquiet : ∀ g ∈ f :: (fs ++ rebuildSteps 1 chunks), Quiet g := by
    intro g hg
    rw [← List.cons_append, ← hdel] at hg
    rcases List.mem_append.1 hg with hg | hg
    · exact quiet_deletionSteps hg
    · exact quiet_rebuildSteps hg
  have hlast (m : Message) (hm : m ∈ d.stored) : m ∈ (storage.run d (rebuild d chunks rest)).stored :=
    mem_stored_rebuild.2 ((h m).1 hm)
  rw [heq] at hlast ⊢
  refine Device.Durable.window hf (fun g hg => (hquiet g (List.mem_cons_of_mem _ hg)).1) (fun g hg x => ?_) hlast
  rw [← List.cons_append] at hg
  rcases List.mem_append.1 hg with hg | hg
  · exact (hquiet g hg).2 x
  · cases List.mem_singleton.1 hg
    exact nofun

/-- **A rebuild is durable outside its window.** -/
theorem ran_rebuild {chunks : List (List Message)} {rest : List Message}
    (h : ∀ m, m ∈ s.disk.stored ↔ m ∈ chunks.flatten ∨ m ∈ rest) :
    Ran s (s.performAll (rebuild s.disk chunks rest)) := by
  have hwindow {f : Step} {fs : List Step} (hdel : deletionSteps s.disk = f :: fs) (hf : storage.Opens f) :
      Ran s (s.performAll (rebuild s.disk chunks rest)) := by
    refine ⟨_, rfl, rfl, durable_rebuild hdel hf h, ?_, fun g hg m hm => mem_stored_rebuild.2 (contents_rebuild hg hm)⟩
    rw [LocalMessageStore.rebuild, ← List.append_assoc]
    exact Device.not_exposed_concat rfl nofun
  cases hdata : s.disk.data.keys with
  | cons x l => exact hwindow (f := .unlinkData x) (by rw [deletionSteps, hdata]; rfl) rfl
  | nil =>
    cases hmetas : s.disk.metas.keys with
    | cons x l => exact hwindow (f := .unlinkMeta x) (by rw [deletionSteps, hdata, hmetas]; rfl) rfl
    | nil => exact ran_rebuild_noFiles hdata hmetas h

/-- The chunks and the rest a rebuild splits the readable messages into. -/
def rebuildChunks (s : LocalMessageStore) : List (List Message) × List Message :=
  let messages := s.disk.readAllMessages
  let plan := rebuildPlan s.snapshotThreshold messages.length
  (slices plan.2 plan.1 messages, messages.drop plan.2)

/-- The store when a rebuild has rewritten the log. -/
def rebuilt (s : LocalMessageStore) : LocalMessageStore :=
  { s.performAll (rebuild s.disk s.rebuildChunks.1 s.rebuildChunks.2) with
    needsSnapshotRebuild := false, forceFullRecoveryCursor := false }

theorem rebuildSnapshots_of_empty (he : s.disk.readAllMessages = []) : s.rebuildSnapshots = s := by
  simp [rebuildSnapshots, he]

theorem rebuildSnapshots_eq (hne : s.disk.readAllMessages ≠ []) :
    s.rebuildSnapshots = s.rebuilt.rebuildIndexes.flushIndexes := by
  have he : s.disk.readAllMessages.isEmpty = false := by simpa using hne
  have hsteps : s.performAll (rebuild s.disk s.rebuildChunks.1 s.rebuildChunks.2) =
      ((s.performAll (deletionSteps s.disk)).performAll (rebuildSteps 1 s.rebuildChunks.1)).perform
        (.writeLog (s.rebuildChunks.2.map .message)) := by
    rw [rebuild, ← performAll_append, ← performAll_append]
    rfl
  simp only [rebuildSnapshots, he, Bool.false_eq_true, if_false, deleteSnapshotFiles_eq, writeSnapshots_eq]
  rw [rebuilt, hsteps]
  rfl

theorem Adds.rebuildSnapshots (h : Sound s) : Adds s [] s.rebuildSnapshots := by
  by_cases hne : s.disk.readAllMessages = []
  · rw [rebuildSnapshots_of_empty hne]
    exact .refl h
  · have hall (m : Message) : m ∈ s.disk.stored ↔ m ∈ s.rebuildChunks.1.flatten ∨ m ∈ s.rebuildChunks.2 := by
      rw [rebuildChunks, flatten_rebuildPlan s.snapshotThreshold hne, ← List.mem_append, List.take_append_drop,
        Disk.mem_readAllMessages_iff h.unique]
    have hkept (m : Message) : m ∈ s.rebuilt.disk.stored ↔ m ∈ s.disk.stored := by
      rw [hall, ← mem_stored_rebuild]
      rfl
    have hrebuilt : Adds s [] s.rebuilt.rebuildIndexes :=
      ⟨.rebuildIndexes (h.unique.congr hkept), fun m => (hkept m).trans (by simp), (ran_rebuild hall).congr rfl rfl⟩
    rw [rebuildSnapshots_eq hne]
    exact hrebuilt.flushIndexes

theorem Adds.maybeRebuildSnapshots (h : Sound s) : Adds s [] s.maybeRebuildSnapshots := by
  unfold LocalMessageStore.maybeRebuildSnapshots
  split
  · exact .refl h
  · exact .rebuildSnapshots h

end LocalMessageStore

end PeerChat.History
