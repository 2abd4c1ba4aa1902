/-
In which order history is replayed (`get_recent`, `get_missing_since` and
`build_history_chunks` of `message_history/storage/local_message_store.py`).

Messages are saved in causal order, kept in the log and in numbered
snapshots, and read back sorted by the sender's wall clock.
`replaysInOrder_iff`: the replay is in causal order exactly when the
timestamps are, where equal ones fall back on the order of reading. That is
the order of saving, except that snapshots are read by their names, and
`snapshot-10000` sorts in front of `snapshot-9999`.
-/
import PeerChat.Distribution.Drain
import PeerChat.History.Reading
import PeerChat.History.Recovery
import Mathlib.Data.List.Pairwise

namespace Lib

/-! ## Pairs in a list -/

variable {α : Type}

theorem pair_sublist_or {l : List α} {a b : α} (ha : a ∈ l) (hb : b ∈ l) (hne : a ≠ b) :
    List.Sublist [a, b] l ∨ List.Sublist [b, a] l := by
  let r := fun x y => List.Sublist [x, y] l ∨ List.Sublist [y, x] l
  have hsymm : Std.Symm r := ⟨fun _ _ h => h.symm⟩
  have hpairs : l.Pairwise r := List.pairwise_iff_forall_sublist.2 fun h => .inl h
  exact hpairs.forall ha hb hne

theorem not_pair_sublist_swap {l : List α} (hn : l.Nodup) {a b : α} (hab : List.Sublist [a, b] l) :
    ¬ List.Sublist [b, a] l := by
  intro hba
  obtain ⟨l₁, l₂, rfl, ha, hb⟩ := List.cons_sublist_iff.1 hab
  have hdisj := List.disjoint_of_nodup_append hn
  rw [List.singleton_sublist] at hb
  obtain ⟨l₃, l₄, hl, hl₃, hl₄⟩ := List.sublist_append_iff.1 hba
  cases l₃ with
  | nil =>
    have ha' : a ∈ l₄ := by
      rw [List.nil_append] at hl
      simp [← hl]
    exact hdisj ha (hl₄.subset ha')
  | cons x l₃ =>
    rw [List.cons_append, List.cons.injEq] at hl
    exact hdisj (hl₃.subset (by simp [hl.1])) hb

end Lib

namespace PeerChat

open Lib

namespace History

open LocalMessageStore

/-- No message comes ahead of one that happens before it. -/
def InCausalOrder (ms : List Message) : Prop := ms.Pairwise fun x y => ¬ y.Before x

namespace Disk

/-! ## Where messages lie -/

/-- `x` lies in a snapshot whose meta file sorts in front of that of a
snapshot with `y`. -/
def SortsAhead (d : Disk) (x y : Message) : Prop :=
  ∃ a b, x ∈ d.readSnapshotMessages a ∧ y ∈ d.readSnapshotMessages b ∧ metaName a < metaName b

example : metaName (snapshotId 10000) < metaName (snapshotId 9999) := by decide

/-- A message that happens before another has an earlier timestamp, or the
same one and the other does not sort ahead of it. -/
def TimedInOrder (d : Disk) : Prop :=
  ∀ m ∈ d.stored, ∀ m' ∈ d.stored, m.Before m' →
    m.timestamp < m'.timestamp ∨ m.timestamp = m'.timestamp ∧ ¬ d.SortsAhead m' m

/-- Each id is stored once, and a message is read ahead of one that happens
before it only where it sorts ahead of it. -/
structure Filed (d : Disk) : Prop where
  nodup : (d.stored.map Message.id).Nodup
  order : d.stored.Pairwise fun x y => y.Before x → d.SortsAhead x y

theorem Filed.empty : Filed .empty := ⟨List.nodup_nil, .nil⟩

theorem stored_append (d : Disk) (m : Message) : (d.apply (.append (.message m))).stored = d.stored ++ [m] := by
  rw [stored_eq, stored_eq, readActiveMessages_eq, readActiveMessages_eq]
  simp only [apply, List.filterMap_append, ← List.append_assoc]
  rfl

/-- A message goes to the end of the log. -/
theorem Filed.append {d : Disk} (h : d.Filed) {m : Message} (hid : ∀ x ∈ d.stored, x.id ≠ m.id)
    (hm : ∀ x ∈ d.stored, ¬ m.Before x) : (d.apply (.append (.message m))).Filed := by
  constructor
  · rw [stored_append, List.map_append, List.nodup_append]
    refine ⟨h.nodup, by simp, fun i hi j hj => ?_⟩
    obtain ⟨x, hx, rfl⟩ := List.mem_map.1 hi
    cases List.mem_singleton.1 hj
    exact hid x hx
  · rw [stored_append, List.pairwise_append]
    refine ⟨h.order, List.pairwise_singleton _ _, fun x hx y hy hb => ?_⟩
    cases List.mem_singleton.1 hy
    exact absurd hb (hm x hx)

/-- The disk when the log has become the snapshot `x`. -/
def compacted (d : Disk) (x : String) : Disk :=
  (storage.run d (snapshotSteps x d.readActiveMessages)).apply (.writeLog [])

theorem readSnapshotMessages_compacted (d : Disk) (x y : String) :
    (d.compacted x).readSnapshotMessages y = if y = x then d.readActiveMessages else d.readSnapshotMessages y :=
  readSnapshotMessages_snapshotSteps d x d.readActiveMessages y

theorem SortsAhead.compacted {d : Disk} {x : String} (hx : d.metas.get? x = none) {m m' : Message}
    (h : d.SortsAhead m m') : (d.compacted x).SortsAhead m m' := by
  have hkept {m : Message} {a : String} (hm : m ∈ d.readSnapshotMessages a) :
      m ∈ (d.compacted x).readSnapshotMessages a := by
    rw [readSnapshotMessages_compacted, if_neg]
    · exact hm
    · rintro rfl
      simp [readSnapshotMessages, hx] at hm
  obtain ⟨a, b, hm, hm', hlt⟩ := h
  exact ⟨a, b, hkept hm, hkept hm', hlt⟩

/-- A compaction moves the log in front of the snapshots that its own sorts
ahead of. -/
theorem Filed.compacted {d : Disk} (h : d.Filed) {x : String} (hx : d.metas.get? x = none) :
    (d.compacted x).Filed := by
  have hold : d.stored =
      (d.messagesOf (d.snapshotsBefore x) ++ d.messagesOf (d.snapshotsAfter x)) ++ d.readActiveMessages := by
    rw [stored_eq, ← d.listSnapshots_eq x, messagesOf, List.flatMap_append]
    rfl
  have hnew : (d.compacted x).stored = d.messagesOf (d.snapshotsBefore x) ++
      (d.readActiveMessages ++ d.messagesOf (d.snapshotsAfter x)) := stored_compacted hx _
  have hperm : (d.compacted x).stored.Perm d.stored := by
    rw [hold, hnew, List.append_assoc]
    exact List.perm_append_comm.append_left _
  refine ⟨((hperm.map _).nodup_iff).2 h.nodup, ?_⟩
  have hord := h.order.imp fun {m m'} hm hb => (hm hb).compacted hx
  rw [hold, List.pairwise_append, List.pairwise_append] at hord
  obtain ⟨⟨hbefore, hafter, hba⟩, hlog, hsnaps⟩ := hord
  rw [hnew, List.pairwise_append, List.pairwise_append]
  refine ⟨hbefore, ⟨hlog, hafter, fun m hm m' hm' _ => ?_⟩, fun m hm m' hm' => ?_⟩
  · obtain ⟨s, hs, hms⟩ := List.mem_flatMap.1 hm'
    have hname : ¬ metaName s.1 ≤ metaName x := of_decide_eq_true (List.mem_filter.1 hs).2
    have hne : s.1 ≠ x := by
      intro he
      exact hname (he ▸ String.le_refl _)
    refine ⟨x, s.1, ?_, ?_, String.not_le.1 hname⟩
    · rw [readSnapshotMessages_compacted, if_pos rfl]
      exact hm
    · rw [readSnapshotMessages_compacted, if_neg hne]
      exact hms
  · rcases List.mem_append.1 hm' with hm' | hm'
    · exact hsnaps m (List.mem_append_left _ hm) m' hm'
    · exact hba m hm m' hm'

/-! ## Reading in order -/

theorem Filed.readAllMessages_eq {d : Disk} (h : d.Filed) :
    d.readAllMessages = d.stored.insertionSort fun m m' => m.timestamp ≤ m'.timestamp := by
  have hdrop : dropSeen ∅ d.stored = d.stored := dropSeen_of_nodup h.nodup fun m _ => Finset.notMem_empty m.id
  conv_rhs => rw [← hdrop]
  rfl

theorem pairwise_readAllMessages (d : Disk) :
    d.readAllMessages.Pairwise fun m m' => m.timestamp ≤ m'.timestamp := by
  let r := fun m m' : Message => m.timestamp ≤ m'.timestamp
  have htotal : Std.Total r := ⟨fun m m' => le_total m.timestamp m'.timestamp⟩
  have htrans : IsTrans _ r := ⟨fun _ _ _ h h' => le_trans h h'⟩
  exact List.pairwise_insertionSort r _

/-- The sort keeps the order in which messages of one time are read. -/
theorem Filed.pair_readAllMessages {d : Disk} (h : d.Filed) {m m' : Message} (ht : m.timestamp ≤ m'.timestamp)
    (hm : List.Sublist [m, m'] d.stored) : List.Sublist [m, m'] d.readAllMessages := by
  rw [h.readAllMessages_eq]
  exact List.pair_sublist_insertionSort ht hm

theorem Filed.mem_readAllMessages {d : Disk} (h : d.Filed) {m : Message} :
    m ∈ d.readAllMessages ↔ m ∈ d.stored := by
  rw [h.readAllMessages_eq, List.mem_insertionSort]

/-- A message that sorts ahead of another is read first. -/
theorem SortsAhead.pair_stored {d : Disk} {m m' : Message} (h : d.SortsAhead m m') :
    List.Sublist [m, m'] d.stored := by
  obtain ⟨a, b, hm, hm', hlt⟩ := h
  have hlists {x : String} {m : Message} (hm : m ∈ d.readSnapshotMessages x) : ∃ s ∈ d.listSnapshots, s.1 = x := by
    obtain ⟨mt, hmt, -⟩ := mem_readSnapshotMessages.1 hm
    exact ⟨(x, mt), mem_listSnapshots.2 hmt, rfl⟩
  obtain ⟨s, hs, rfl⟩ := hlists hm
  obtain ⟨t, ht, rfl⟩ := hlists hm'
  have hbefore : s ∈ d.snapshotsBefore s.1 := List.mem_filter.2 ⟨hs, decide_eq_true (String.le_refl _)⟩
  have hafter : t ∈ d.snapshotsAfter s.1 := List.mem_filter.2 ⟨ht, decide_eq_true (String.not_le.2 hlt)⟩
  rw [stored_eq, ← d.listSnapshots_eq s.1, messagesOf, List.flatMap_append]
  refine List.Sublist.trans ?_ (List.sublist_append_left _ _)
  exact (List.singleton_sublist.2 (List.mem_flatMap.2 ⟨s, hbefore, hm⟩)).append
    (List.singleton_sublist.2 (List.mem_flatMap.2 ⟨t, hafter, hm'⟩))

theorem inCausalOrder_iff {ms : List Message} :
    InCausalOrder ms ↔ ∀ m m', List.Sublist [m, m'] ms → ¬ m'.Before m :=
  List.pairwise_iff_forall_sublist.trans ⟨fun h _ _ => h, fun h _ _ => h _ _⟩

theorem not_before_self (m : Message) : ¬ m.Before m := fun h => h.2.elim fun _ hk => lt_irrefl _ hk

/-- **What is read is in causal order exactly when the timestamps are.** -/
theorem Filed.inCausalOrder_iff {d : Disk} (h : d.Filed) : InCausalOrder d.readAllMessages ↔ d.TimedInOrder := by
  constructor
  · intro hread m hm m' hm' hb
    have hnot : ¬ List.Sublist [m', m] d.readAllMessages := fun hs => Disk.inCausalOrder_iff.1 hread m' m hs hb
    have hne : m ≠ m' := fun he => not_before_self m (by rwa [← he] at hb)
    have hfirst : List.Sublist [m, m'] d.readAllMessages :=
      (pair_sublist_or (h.mem_readAllMessages.2 hm) (h.mem_readAllMessages.2 hm') hne).resolve_right hnot
    have hle := List.pairwise_iff_forall_sublist.1 d.pairwise_readAllMessages hfirst
    rcases hle.lt_or_eq with hlt | heq
    · exact .inl hlt
    · exact .inr ⟨heq, fun ho => hnot (h.pair_readAllMessages heq.ge ho.pair_stored)⟩
  · intro htimed
    refine Disk.inCausalOrder_iff.2 fun m m' hs hb => ?_
    have hm : m ∈ d.stored := h.mem_readAllMessages.1 (hs.subset (by simp))
    have hm' : m' ∈ d.stored := h.mem_readAllMessages.1 (hs.subset (by simp))
    have hle := List.pairwise_iff_forall_sublist.1 d.pairwise_readAllMessages hs
    rcases htimed m' hm' m hm hb with hlt | ⟨heq, hnot⟩
    · exact absurd hlt (not_lt.2 hle)
    · have hne : m ≠ m' := fun he => not_before_self m (by rwa [← he] at hb)
      rcases pair_sublist_or hm hm' hne with hpair | hpair
      · exact hnot (List.pairwise_iff_forall_sublist.1 h.order hpair hb)
      · -- the sort would have kept them the other way round
        have hnodup : d.readAllMessages.Nodup := .of_map _ d.nodup_readAllMessages
        exact not_pair_sublist_swap hnodup hs (h.pair_readAllMessages heq.le hpair)

end Disk

/-! ## Replaying -/

namespace LocalMessageStore

/-- What a store replays is in causal order: the recent messages, those that
a peer is missing, and the chunks these are sent in. -/
structure ReplaysInOrder (s : LocalMessageStore) : Prop where
  recent : ∀ limit, InCausalOrder (s.getRecent limit)
  missing : ∀ haveVectorClock, InCausalOrder (s.getMissingSince haveVectorClock)
  chunks : ∀ haveVectorClock transferId chunkSize chunks,
    s.buildHistoryChunks haveVectorClock transferId chunkSize = some chunks →
      InCausalOrder (chunks.flatMap HistoryChunk.messages)

variable {s : LocalMessageStore}

/-- All of it is cut out of what is read. -/
theorem replaysInOrder_iff_read : s.ReplaysInOrder ↔ InCausalOrder s.disk.readAllMessages := by
  have hmissing (hread : InCausalOrder s.disk.readAllMessages) (have' : VectorClock) :
      InCausalOrder (s.getMissingSince have') := by
    rw [getMissingSince, Disk.dropSeen_of_nodup s.disk.nodup_readAllMessages fun m _ => Finset.notMem_empty m.id]
    exact hread.filter _
  constructor
  · intro h
    exact h.recent 0
  · intro hread
    refine ⟨fun limit => ?_, hmissing hread, fun have' transferId chunkSize chunks hc => ?_⟩
    · simp only [getRecent]
      split
      · exact List.Pairwise.sublist (List.drop_sublist _ _) hread
      · exact List.Pairwise.sublist (List.drop_sublist _ _) hread
    · rw [flatMap_buildHistoryChunks hc]
      exact hmissing hread have'

/-! ## Filling a store -/

/-- What fills a store: a message is saved, or the log is compacted. -/
inductive Filling
  | save (m : Message)
  | compact

def fill (s : LocalMessageStore) : Filling → LocalMessageStore
  | .save m => (s.save m).1
  | .compact => s.createSnapshot none true

/-- A new store after saves and compactions. -/
def built (threshold : Option Int) (fs : List Filling) : LocalMessageStore :=
  fs.foldl fill (init threshold Disk.empty)

/-- The messages of the saves, in turn. -/
def savedBy (fs : List Filling) : List Message :=
  fs.filterMap fun
    | .save m => some m
    | .compact => none

/-- A store that no rebuild is due for, with its messages filed in the order
of the saves. -/
structure FiledInOrder (s : LocalMessageStore) : Prop where
  sound : Sound s
  filed : s.disk.Filed
  current : s.needsSnapshotRebuild = false

/-- The index files do not matter. -/
theorem filed_flushIndexes (h : s.disk.Filed) : s.flushIndexes.disk.Filed := ⟨h.nodup, h.order⟩

theorem needsSnapshotRebuild_flushIndexes (s : LocalMessageStore) :
    s.flushIndexes.needsSnapshotRebuild = s.needsSnapshotRebuild := rfl

theorem FiledInOrder.compact (h : s.FiledInOrder) : (s.createSnapshot none true).FiledInOrder := by
  by_cases he : s.disk.readActiveMessages = []
  · rw [createSnapshot_of_empty none true he]
    exact h
  · have hsound := (Adds.createSnapshot h.sound true).sound
    let s₁ := (s.snapshotted none).perform (.writeLog [])
    have hfiled : s₁.rebuildIndexes.disk.Filed := h.filed.compacted s.disk.get?_nextSnapshotId
    rw [createSnapshot_eq none true he, if_pos rfl] at hsound ⊢
    exact ⟨hsound, filed_flushIndexes hfiled, (needsSnapshotRebuild_flushIndexes s₁.rebuildIndexes).trans h.current⟩

theorem FiledInOrder.maybeCreateSnapshot (h : s.FiledInOrder) : s.maybeCreateSnapshot.FiledInOrder := by
  unfold LocalMessageStore.maybeCreateSnapshot
  split
  · exact h
  · split
    · exact h
    · split
      · exact h.compact
      · exact h

theorem FiledInOrder.save (h : s.FiledInOrder) {m : Message} (hm : ∀ x ∈ s.disk.stored, ¬ m.Before x) :
    (s.save m).1.FiledInOrder := by
  by_cases hid : m.id ∈ s.indexes.messageIds
  · rw [save_known hid]
    exact h
  · have hnew : ∀ x ∈ s.disk.stored, x.id ≠ m.id := fun x hx he => hid ((h.sound.describes.ids m.id).2 ⟨x, hx, he⟩)
    have happend := h.filed.append hnew hm
    have hentered : (s.entered m).flushIndexes.FiledInOrder :=
      ⟨(Adds.entered h.sound hid).flushIndexes.sound, filed_flushIndexes happend, h.current⟩
    have hdone := hentered.maybeCreateSnapshot
    have hsound := (Adds.save h.sound hid).sound
    rw [save_unknown hid, if_neg (by rw [hentered.current]; exact Bool.false_ne_true)] at hsound ⊢
    exact ⟨hsound, ⟨hdone.filed.nodup, hdone.filed.order⟩, hdone.current⟩

theorem mem_stored_save (h : Sound s) {m x : Message} (hx : x ∈ (s.save m).1.disk.stored) :
    x ∈ s.disk.stored ∨ x = m := by
  by_cases hid : m.id ∈ s.indexes.messageIds
  · rw [save_known hid] at hx
    exact .inl hx
  · simpa using ((Adds.save h hid).stored x).1 hx

/-- Saving in causal order, with compactions in between, keeps the messages
filed in order. -/
theorem FiledInOrder.foldl : ∀ (fs : List Filling) {s : LocalMessageStore}, s.FiledInOrder →
    (∀ x ∈ s.disk.stored, ∀ y ∈ savedBy fs, ¬ y.Before x) → InCausalOrder (savedBy fs) →
    (fs.foldl fill s).FiledInOrder
  | [], _, h, _, _ => h
  | .save m :: fs, s, h, hold, hsaved => by
    obtain ⟨hm, hrest⟩ := List.pairwise_cons.1 hsaved
    refine FiledInOrder.foldl fs (h.save fun x hx => hold x hx m (by simp [savedBy])) ?_ hrest
    intro x hx y hy
    rcases mem_stored_save h.sound hx with hx | rfl
    · exact hold x hx y (List.mem_cons_of_mem _ hy)
    · exact hm y hy
  | .compact :: fs, s, h, hold, hsaved => by
    refine FiledInOrder.foldl fs h.compact (fun x hx => hold x ?_) hsaved
    simpa using ((Adds.createSnapshot h.sound true).stored x).1 hx

theorem FiledInOrder.init (threshold : Option Int) : (init threshold Disk.empty).FiledInOrder :=
  ⟨Sound.init threshold nofun, Disk.Filed.empty, rfl⟩

/-- **History is replayed in causal order exactly when the timestamps are**,
for every store that messages are saved to in causal order. -/
theorem replaysInOrder_iff (threshold : Option Int) (fs : List Filling) (hsaved : InCausalOrder (savedBy fs)) :
    (built threshold fs).ReplaysInOrder ↔ (built threshold fs).disk.TimedInOrder := by
  have hnil : (init threshold Disk.empty).disk.stored = [] := (repairIndexes_ran _).2
  have hfiled : (built threshold fs).FiledInOrder := by
    refine FiledInOrder.foldl fs (FiledInOrder.init threshold) (fun x hx => ?_) hsaved
    rw [hnil] at hx
    cases hx
  rw [replaysInOrder_iff_read, hfiled.filed.inCausalOrder_iff]

/-- `a:1` asks. -/
def question (t : Time) : Message := ⟨"lunch?", "a:1", "q", t, "", 10, (Dict.empty : VectorClock).set "a:1" 1⟩

/-- `b:1` has seen the question and answers. -/
def answer (t : Time) : Message := ⟨"yes", "b:1", "r", t, "", 10, (question t).vectorClock.set "b:1" 1⟩

theorem stamped_question (t : Time) : (question t).Stamped := ⟨5, [], question t, rfl⟩

theorem stamped_answer (t t' : Time) : (answer t').Stamped :=
  ⟨5, [.receive ⟨false, none, []⟩ 0 0 (question t)], answer t', rfl⟩

/-- `c:1` hears the question first. -/
theorem delivered_in_turn (t t' : Time) : HoldBackQueue.ReadyRun Dict.empty [question t, answer t'] :=
  ⟨rfl, rfl, trivial⟩

theorem question_before_answer (t t' : Time) : (question t).Before (answer t') := by
  have hstamp (k : String) : (answer t').stamp k = if k = "b:1" then 1 else (question t).stamp k :=
    Dict.getD_set _ _ _ _ _
  have hasked (k : String) : (question t).stamp k = if k = "a:1" then 1 else 0 := Dict.getD_set _ _ _ _ _
  refine ⟨fun k => ?_, "b:1", ?_⟩
  · rw [hstamp]
    split
    · rw [hasked]
      split <;> decide
    · exact le_rfl
  · rw [hstamp, hasked]
    decide

theorem inCausalOrder_question_answer (t t' : Time) : InCausalOrder [question t, answer t'] := by
  refine (delivered_in_turn t t').pairwise fun m hm => ?_
  simp only [List.mem_cons, List.not_mem_nil, or_false] at hm
  rcases hm with rfl | rfl
  · exact (stamped_question t).number_pos
  · exact (stamped_answer t t').number_pos

/-- Where the clocks of the senders agree, the answer is shown after the
question. -/
theorem replaysInOrder_agreeing :
    (built (some 3) [.save (question 50), .save (answer 100)]).ReplaysInOrder := by
  refine (replaysInOrder_iff (some 3) [.save (question 50), .save (answer 100)]
    (inCausalOrder_question_answer 50 100)).2 fun m hm m' hm' hb => ?_
  have hstored : (built (some 3) [.save (question 50), .save (answer 100)]).disk.stored =
      [question 50, answer 100] := by
    decide +kernel
  rw [hstored, List.mem_cons, List.mem_singleton] at hm hm'
  rcases hm with rfl | rfl
  · rcases hm' with rfl | rfl
    · exact absurd hb (Disk.not_before_self _)
    · exact .inl (by decide)
  · rcases hm' with rfl | rfl
    · have hfirst := inCausalOrder_question_answer 50 100
      simp [InCausalOrder, hb] at hfirst
    · exact absurd hb (Disk.not_before_self _)

/-- `a:1`'s clock is ahead: the answer is shown first. -/
theorem answer_ahead_of_question :
    (question 100).Stamped ∧ (answer 50).Stamped ∧ HoldBackQueue.ReadyRun Dict.empty [question 100, answer 50] ∧
      (question 100).Before (answer 50) ∧
      (built (some 3) [.save (question 100), .save (answer 50)]).getRecent 100 = [answer 50, question 100] ∧
      ¬ (built (some 3) [.save (question 100), .save (answer 50)]).ReplaysInOrder := by
  have hread : (built (some 3) [.save (question 100), .save (answer 50)]).getRecent 100 =
      [answer 50, question 100] := by
    decide +kernel
  refine ⟨stamped_question 100, stamped_answer 100 50, delivered_in_turn 100 50, question_before_answer 100 50, hread,
    fun h => ?_⟩
  have hrecent := h.recent 100
  rw [hread] at hrecent
  simp [InCausalOrder, question_before_answer] at hrecent

end LocalMessageStore

end History

end PeerChat
