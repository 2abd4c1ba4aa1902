/-
A store whose process can die between any two file-system steps of an
operation, and whose files can be damaged while it is down.

A rebuild deletes the snapshots before it has written their messages
anywhere else. `crash_durable`: where no crash falls between the first deletion
and the rewriting of the log, every message that was readable, and every
message `save` has acknowledged, stays readable. `rebuild_interrupted`: a
crash in between loses messages.
-/
import PeerChat.History.Operations

namespace PeerChat.History

open Lib LocalMessageStore

/-- The calls that change a store. -/
inductive Op
  | save (m : Message)
  | saveMany (items : List (Option Message))
  | createSnapshot (compact : Bool)

/-- A call, with the steps it takes. -/
def LocalMessageStore.call (s : LocalMessageStore) : Op → LocalMessageStore
  | .save m => ({ s with steps := [] }.save m).1
  | .saveMany items => { s with steps := [] }.saveMany items
  | .createSnapshot compact => { s with steps := [] }.createSnapshot none compact

/-- A store that runs, or the disk it left behind. -/
inductive State
  | running (s : LocalMessageStore)
  | dead (d : Disk)

def State.disk : State → Disk
  | running s => s.disk
  | dead d => d

/-- What can happen, and the steps taken: a call or the opening of the
store, each of them to its end or up to a crash. -/
inductive Happens : State → List Step → State → Prop
  | call (s : LocalMessageStore) (op : Op) : Happens (.running s) (s.call op).steps (.running (s.call op))
  | crash {s : LocalMessageStore} {op : Op} {fs : List Step} (h : fs <+: (s.call op).steps) :
    Happens (.running s) fs (.dead (storage.run s.disk fs))
  | reopen (d : Disk) (threshold : Option Int) :
    Happens (.dead d) (init threshold d).steps (.running (init threshold d))
  | crashReopening {d : Disk} {threshold : Option Int} {fs : List Step} (h : fs <+: (init threshold d).steps) :
    Happens (.dead d) fs (.dead (storage.run d fs))

/-- The states of a store, with any damage while it was down. -/
inductive Reachable : State → Prop
  | start : Reachable (.dead .empty)
  | step {st st' : State} {fs : List Step} (h : Reachable st) (hs : Happens st fs st') : Reachable st'
  | damage {d d' : Disk} (h : Reachable (.dead d)) (hd : Damaged d d') : Reachable (.dead d')

/-- Runs without damage in which no crash leaves a rebuild's window open,
with their steps. -/
inductive Run : State → List Step → State → Prop
  | refl (st : State) : Run st [] st
  | step {st st₁ st₂ : State} {fs gs : List Step} (h : Run st fs st₁) (hs : Happens st₁ gs st₂)
    (hsafe : ¬ storage.Exposed gs) : Run st (fs ++ gs) st₂

/-! ## What can be on the disk -/

theorem mem_stored_apply {d : Disk} {f : Step} {m : Message} (h : m ∈ (d.apply f).stored) :
    m ∈ d.stored ∨ m ∈ f.contents := by
  simp only [Disk.mem_stored, Disk.mem_readSnapshotMessages] at h ⊢
  cases f with
  | append line =>
    rcases h with h | h
    · exact .inl (.inl h)
    · rcases List.mem_append.1 h with h | h
      · exact .inl (.inr h)
      · rw [← List.mem_singleton.1 h]
        exact .inr (by simp [Step.contents, LogLine.message?])
  | writeLog lines =>
    rcases h with h | h
    · exact .inl (.inl h)
    · exact .inr (List.mem_filterMap.2 ⟨_, h, rfl⟩)
  | replaceData x file =>
    rcases h with ⟨y, mt, hmt, hdata, hin⟩ | h
    · simp only [Disk.apply, Dict.get?_set] at hdata
      split at hdata
      · cases hdata
        exact .inr hin
      · exact .inl (.inl ⟨y, mt, hmt, hdata, hin⟩)
    · exact .inl (.inr h)
  | replaceMeta x mt' =>
    rcases h with ⟨y, mt, hmt, hdata, hin⟩ | h
    · simp only [Disk.apply, Dict.get?_set] at hmt
      split at hmt
      · cases hmt
        exact .inr hin
      · exact .inl (.inl ⟨y, mt, hmt, hdata, hin⟩)
    · exact .inl (.inr h)
  | unlinkData x =>
    rcases h with ⟨y, mt, hmt, hdata, hin⟩ | h
    · simp only [Disk.apply, Dict.get?_erase] at hdata
      split at hdata
      · cases hdata
      · exact .inl (.inl ⟨y, mt, hmt, hdata, hin⟩)
    · exact .inl (.inr h)
  | unlinkMeta x =>
    rcases h with ⟨y, mt, hmt, hdata, hin⟩ | h
    · simp only [Disk.apply, Dict.get?_erase] at hmt
      split at hmt
      · cases hmt
      · exact .inl (.inl ⟨y, mt, hmt, hdata, hin⟩)
    · exact .inl (.inr h)
  | writeTmp _ | unlinkTmp _ | writeIndexTmp | replaceMessageIds _ | replaceSenderSeq _ | replaceLatestVc _
  | replaceRecoveryState _ | saved _ => exact .inl h

theorem mem_stored_run {m : Message} : ∀ {fs : List Step} {d : Disk}, m ∈ (storage.run d fs).stored →
    m ∈ d.stored ∨ ∃ f ∈ fs, m ∈ f.contents
  | [], _, h => .inl h
  | f :: fs, d, h => by
    rcases mem_stored_run (d := d.apply f) h with h | ⟨g, hg, hm⟩
    · exact (mem_stored_apply h).imp_right fun hm => ⟨f, by simp, hm⟩
    · exact .inr ⟨g, List.mem_cons_of_mem _ hg, hm⟩

/-- A crash leaves nothing that the end would not have. -/
theorem LocalMessageStore.Takes.prefix_stored {d d' : Disk} {fs p : List Step} (h : Takes d fs d') (hp : p <+: fs)
    {m : Message} (hm : m ∈ (storage.run d p).stored) : m ∈ d'.stored := by
  rcases mem_stored_run hm with hm | ⟨f, hf, hm⟩
  · exact h.stored hm
  · exact h.contents f (hp.subset hf) m hm

/-! ## Calls -/

theorem call_takes {s : LocalMessageStore} (h : Sound s) (op : Op) :
    Sound (s.call op) ∧ Takes s.disk (s.call op).steps (s.call op).disk := by
  have hs : Sound { s with steps := [] } := ⟨h.describes, h.unique⟩
  have hadds : ∃ ms, Adds { s with steps := [] } ms (s.call op) := by
    cases op with
    | save m =>
      by_cases hm : m.id ∈ s.indexes.messageIds
      · refine ⟨[], ?_⟩
        rw [LocalMessageStore.call, save_known (s := { s with steps := [] }) hm]
        exact .refl hs
      · exact ⟨[m], .save hs hm⟩
    | saveMany items =>
      obtain ⟨ms, -, hadds, -⟩ := Adds.saveMany hs items
      exact ⟨ms, hadds⟩
    | createSnapshot compact => exact ⟨[], .createSnapshot hs compact⟩
  obtain ⟨ms, hadds⟩ := hadds
  obtain ⟨fs, hfs, htakes⟩ := hadds.ran
  rw [show (s.call op).steps = fs from hfs]
  exact ⟨hadds.sound, htakes⟩

theorem init_takes (threshold : Option Int) (d : Disk) :
    Takes d (init threshold d).steps (init threshold d).disk := by
  obtain ⟨fs, hfs, htakes⟩ := (repairIndexes_ran ⟨threshold, d, loadIndexes d, (d.recoveryState.getD ⟨false, false⟩).1,
    (d.recoveryState.getD ⟨false, false⟩).2, []⟩).1
  rw [show (init threshold d).steps = fs from hfs]
  exact htakes

/-- What holds of every state. -/
def State.Good : State → Prop
  | running s => Sound s
  | dead d => d.UniqueIds

theorem State.Good.unique {st : State} (h : st.Good) : st.disk.UniqueIds := by
  cases st with
  | running s => exact Sound.unique h
  | dead d => exact h

theorem Disk.UniqueIds.mono {d d' : Disk} (h : d.UniqueIds) (hsub : ∀ m, m ∈ d'.stored → m ∈ d.stored) : d'.UniqueIds :=
  fun m hm m' hm' => h m (hsub m hm) m' (hsub m' hm')

theorem Happens.good {st st' : State} {fs : List Step} (h : Happens st fs st') (hg : st.Good) : st'.Good := by
  cases h with
  | call s op => exact (call_takes hg op).1
  | crash hp =>
    obtain ⟨hsound, htakes⟩ := call_takes hg _
    exact hsound.unique.mono fun m => htakes.prefix_stored hp
  | reopen d threshold => exact Sound.init threshold hg
  | crashReopening hp => exact (Sound.init _ hg).unique.mono fun m => (init_takes _ _).prefix_stored hp

theorem Reachable.good {st : State} (h : Reachable st) : st.Good := by
  induction h with
  | start =>
    intro m hm
    simp [Disk.mem_stored, Disk.mem_readSnapshotMessages, Disk.empty] at hm
  | step _ hs ih => exact hs.good ih
  | damage _ hd ih => exact ih.mono fun m => hd.stored

/-! ## Durability -/

/-- One operation, to its end or up to a crash outside the window. -/
theorem Happens.durable {st st' : State} {fs : List Step} (h : Happens st fs st') (hg : st.Good)
    (hsafe : ¬ storage.Exposed fs) {m : Message} (hm : m ∈ st.disk.stored ∨ .saved m ∈ fs) : m ∈ st'.disk.stored := by
  have hacked : m ∈ st.disk.stored ∨ ∃ f ∈ fs, storage.Acks f m := hm.imp_right fun hf => ⟨_, hf, rfl⟩
  cases h with
  | call s op =>
    have htakes := (call_takes hg op).2
    show m ∈ (s.call op).disk.stored
    rw [htakes.disk]
    exact htakes.durable _ List.prefix_rfl hsafe m hacked
  | crash hp => exact (call_takes hg _).2.durable _ hp hsafe m hacked
  | reopen d threshold =>
    have htakes := init_takes threshold d
    show m ∈ (init threshold d).disk.stored
    rw [htakes.disk]
    exact htakes.durable _ List.prefix_rfl hsafe m hacked
  | crashReopening hp => exact (init_takes _ _).durable _ hp hsafe m hacked

theorem Run.good {st st' : State} {fs : List Step} (h : Run st fs st') (hg : st.Good) : st'.Good := by
  induction h with
  | refl => exact hg
  | step _ hs _ ih => exact hs.good ih

/-- **Crash durability.** In a run in which no crash falls into the window
of a rebuild, every message that was readable at its start and every one
`save` has acknowledged is readable. -/
theorem crash_durable {st st' : State} {fs : List Step} (h : Reachable st) (hrun : Run st fs st') {m : Message}
    (hm : m ∈ st.disk.readAllMessages ∨ .saved m ∈ fs) : m ∈ st'.disk.readAllMessages := by
  have hg := h.good
  rw [Disk.mem_readAllMessages_iff hg.unique] at hm
  rw [Disk.mem_readAllMessages_iff (hrun.good hg).unique]
  induction hrun with
  | refl => exact hm.resolve_right (by simp)
  | step hrun hs hsafe ih =>
    refine hs.durable (hrun.good hg) hsafe ?_
    rcases hm with hm | hm
    · exact .inl (ih (.inl hm))
    · rcases List.mem_append.1 hm with hm | hm
      · exact .inl (ih (.inr hm))
      · exact .inr hm

/-- The `seq`th message of `a:1`. -/
def line (seq : Int) (id : String) : Message :=
  ⟨"hi", "a:1", id, seq, "", 10, (Dict.empty : VectorClock).set "a:1" seq⟩

/-- A store that makes a snapshot of every message, with two messages. -/
def twoSnapshots : LocalMessageStore :=
  ((init (some 1) .empty).call (.save (line 1 "x"))).call (.save (line 2 "y"))

theorem twoSnapshots_reachable : Reachable (.running twoSnapshots) :=
  ((Reachable.start.step (.reopen .empty (some 1))).step (.call _ _)).step (.call _ _)

/-- The first steps of saving a third message. -/
def thirdCut : List Step := (twoSnapshots.call (.save (line 3 "z"))).steps.take 12

theorem crash_durable_thirdCut :
    line 2 "y" ∈ (State.dead (storage.run twoSnapshots.disk thirdCut)).disk.readAllMessages := by
  have hcrash : Happens (.running twoSnapshots) thirdCut (.dead (storage.run twoSnapshots.disk thirdCut)) :=
    .crash (List.take_prefix 12 _)
  have hsafe : ¬ storage.Exposed thirdCut := Device.not_exposed_of_forall (by decide)
  exact crash_durable twoSnapshots_reachable (.step (.refl _) hcrash hsafe) (.inl (by decide))

/-- The same store, when the data of the first snapshot was lost. -/
def reopened : LocalMessageStore :=
  init (some 1) { twoSnapshots.disk with data := twoSnapshots.disk.data.erase "snapshot-0001" }

/-- The first steps of saving the lost message again. -/
def rebuildCut : List Step := (reopened.call (.save (line 1 "x"))).steps.take 10

/-- **A rebuild that is interrupted loses messages.** The lost message comes
again, no number is missing any more, and the snapshots are deleted. -/
theorem rebuild_interrupted :
    Reachable (.running reopened) ∧
    Happens (.running reopened) rebuildCut (.dead (storage.run reopened.disk rebuildCut)) ∧
    line 2 "y" ∈ reopened.disk.readAllMessages ∧
    line 2 "y" ∉ (init (some 1) (storage.run reopened.disk rebuildCut)).disk.readAllMessages := by
  have hdead : Reachable (.dead twoSnapshots.disk) :=
    twoSnapshots_reachable.step (@Happens.crash twoSnapshots (.createSnapshot true) [] List.nil_prefix)
  refine ⟨(hdead.damage (.eraseData _ _)).step (.reopen _ _), .crash (List.take_prefix 10 _), by decide, by decide⟩

end PeerChat.History
