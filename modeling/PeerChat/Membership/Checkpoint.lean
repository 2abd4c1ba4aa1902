/-
A checkpoint and what is recovered from it (`DurabilityManager`,
`peer_discovery/membership/durability.py`).

A refused event stays in the log and does not advance the snapshot, so it
may be in the tail of the next checkpoint, and `_reconstruct` replays it.
The snapshot has not changed since the event was refused, and refuses it
again (`Recoverable`). `recover_writeCheckpoint`: a recovered room is the room
that was written, and nothing that is entered later tells them apart.
-/
import PeerChat.Membership.Onboarding

namespace PeerChat.Membership

open Lib

/-- The log and the snapshot of a room. -/
structure Books where
  log : EventLog
  snapshot : Snapshot
  deriving DecidableEq, Repr

/-- An event to append. -/
inductive Entry
  | append (now : Time) (a : NewEvent)
  | appendRemote (e : MembershipEvent)
  deriving DecidableEq, Repr

namespace Books

/-- The books of a room before its first event. -/
def new (roomId : String) : Books := ⟨.new roomId, .new roomId⟩

/-- One entry: an event is applied as soon as it is appended, and one of a
stale term is skipped. -/
def enter (b : Books) : Entry → Books
  | .append now a =>
    match b.log.append now a with
    | none => b
    | some (e, log) => ⟨log, (b.snapshot.applyEvent e).1⟩
  | .appendRemote event =>
    let (e, log) := b.log.appendRemote event
    ⟨log, (b.snapshot.applyEvent e).1⟩

/-- A sequence of entries. -/
def enterAll (b : Books) (es : List Entry) : Books := es.foldl enter b

end Books

/-- The books of a room and its checkpoints. -/
structure Room where
  books : Books
  durability : Durability
  deriving DecidableEq, Repr

/-- What is done to a room. -/
inductive Deed
  | enter (x : Entry)
  | maybeCheckpoint
  | forceCheckpoint
  | recover
  deriving DecidableEq, Repr

namespace Room

/-- A room before its first event, in an empty directory. -/
def new (roomId : String) (snapshotInterval : Int) : Room := ⟨.new roomId, ⟨snapshotInterval, Dict.empty⟩⟩

/-- One deed. -/
def step (r : Room) : Deed → Room
  | .enter x => { r with books := r.books.enter x }
  | .maybeCheckpoint => { r with durability := r.durability.maybeCheckpoint r.books.log r.books.snapshot }
  | .forceCheckpoint => { r with durability := r.durability.writeCheckpoint r.books.log r.books.snapshot }
  | .recover =>
    match r.durability.recover r.books.log.roomId with
    | none => r
    | some (log, snapshot) => { r with books := ⟨log, snapshot⟩ }

/-- A sequence of deeds. -/
def run (r : Room) (ds : List Deed) : Room := ds.foldl step r

end Room

/-! ## An empty key is no key -/

variable {s s' : Snapshot} {e e' : MembershipEvent} {log : EventLog} {d : Durability} {b b' : Books} {r : Room}

theorem filter_nonempty_idem (k : Option Bytes) :
    (k.filter (!·.isEmpty)).filter (!·.isEmpty) = k.filter (!·.isEmpty) := by
  simp only [Option.filter_filter, Bool.and_self]

@[simp] theorem MemberInfo.reread_reread (m : MemberInfo) : m.reread.reread = m.reread := by
  simp only [MemberInfo.reread, filter_nonempty_idem]

@[simp] theorem Snapshot.reread_reread (s : Snapshot) : s.reread.reread = s.reread := by
  simp only [Snapshot.reread, Dict.mapValues, List.map_map, Function.comp_def, MemberInfo.reread_reread]

theorem Snapshot.stateOf_reread (s : Snapshot) (u : String) : s.reread.stateOf u = s.stateOf u := by
  simp only [stateOf, reread, Dict.get?_mapValues, Option.map_map]
  rfl

theorem Snapshot.accepts_reread : s.reread.Accepts e.reread ↔ s.Accepts e := by
  unfold Accepts
  rw [show e.reread.userId = e.userId from rfl, stateOf_reread]
  rfl

theorem Snapshot.reread_update (u : String) {f g : MemberInfo → MemberInfo}
    (hfg : ∀ m, (f m).reread = g m.reread) :
    (s.update u (s.members.get? u) f).reread = s.reread.update u (s.reread.members.get? u) g := by
  unfold update
  simp only [reread, Dict.get?_mapValues]
  cases s.members.get? u with
  | none => rfl
  | some m => simp only [Option.map_some, Dict.mapValues_set, hfg]

theorem Snapshot.reread_dispatch (s : Snapshot) (e : MembershipEvent) :
    (s.dispatch e (s.members.get? e.userId)).1.reread =
      (s.reread.dispatch e.reread (s.reread.members.get? e.userId)).1 := by
  unfold dispatch
  rw [show e.reread.eventType = e.eventType from rfl]
  cases e.eventType with
  | joinAccepted => simp only [reread, Dict.mapValues_set]; rfl
  | joinRequested => rfl
  | joinRejected => rfl
  | _ => exact reread_update _ fun _ => rfl

/-- What `serialize` loses of a snapshot makes no difference to the events. -/
theorem Snapshot.reread_applyEvent (s : Snapshot) (e : MembershipEvent) :
    (s.applyEvent e).1.reread = (s.reread.applyEvent e.reread).1 := by
  by_cases h : s.Accepts e
  · rw [applyEvent_of_accepts h, applyEvent_of_accepts (accepts_reread.2 h)]
    have hd := reread_dispatch s e
    have hm := congrArg Snapshot.members hd
    have hr := congrArg Snapshot.roomId hd
    simp only [reread, Snapshot.mk.injEq] at hm hr ⊢
    exact ⟨hr, hm, rfl, rfl⟩
  · rw [applyEvent_of_not_accepts h, applyEvent_of_not_accepts fun h' => h (accepts_reread.1 h')]

theorem Snapshot.reread_applyEvent_congr (h : s.reread = s'.reread) (e : MembershipEvent) :
    (s.applyEvent e).1.reread = (s'.applyEvent e).1.reread := by
  rw [reread_applyEvent, h, reread_applyEvent]

theorem reread_advance_congr : ∀ (es : List MembershipEvent) {s s' : Snapshot}, s.reread = s'.reread →
    (advance s es).reread = (advance s' es).reread
  | [], _, _, h => h
  | e :: es, _, _, h => reread_advance_congr es (Snapshot.reread_applyEvent_congr h e)

/-! ## The snapshot refuses what is in the log -/

/-- The log is in order and the snapshot has taken what it will ever take
of it. -/
structure Recoverable (log : EventLog) (s : Snapshot) : Prop where
  room : s.roomId = log.roomId
  start : 0 ≤ s.asOfSeqNo
  sorted : log.log.Pairwise (·.seqNo < ·.seqNo)
  numbered : Numbered log.log s log.nextSeqNo
  refused : ∀ e ∈ log.log, ¬ s.Accepts e

theorem Recoverable.new (roomId : String) : Recoverable (.new roomId) (.new roomId) where
  room := rfl
  start := le_rfl
  sorted := .nil
  numbered := ⟨by simp [EventLog.new], Int.zero_lt_one⟩
  refused := by simp [EventLog.new]

@[simp] theorem Snapshot.roomId_applyEvent (s : Snapshot) (e : MembershipEvent) :
    (s.applyEvent e).1.roomId = s.roomId := by
  by_cases h : s.Accepts e
  · rw [applyEvent_of_accepts h]
    unfold dispatch update
    cases e.eventType <;> (cases s.members.get? e.userId <;> rfl)
  · rw [applyEvent_of_not_accepts h]

/-- The event with the next number. -/
theorem Recoverable.push (h : Recoverable log s) (he : e.seqNo = log.nextSeqNo) (term : Int) :
    Recoverable (log.push e term) (s.applyEvent e).1 := by
  have hlog := h.numbered.log
  have hsnap := h.numbered.snapshot
  have hle := Snapshot.asOfSeqNo_applyEvent_le (s := s) (e := e) (n := e.seqNo) (by omega) le_rfl
  refine ⟨(s.roomId_applyEvent e).trans h.room, ?_, ?_, ⟨fun x hx => ?_, ?_⟩, fun x hx => ?_⟩
  · by_cases ha : s.Accepts e
    · rw [Snapshot.applyEvent_of_accepts ha]
      exact h.start.trans ha.1.le
    · rw [Snapshot.applyEvent_of_not_accepts ha]
      exact h.start
  · refine List.pairwise_append.2 ⟨h.sorted, List.pairwise_singleton _ _, fun x hx y hy => ?_⟩
    rw [List.mem_singleton.1 hy, he]
    exact hlog x hx
  · show x.seqNo < log.nextSeqNo + 1
    rcases List.mem_append.1 hx with hx | hx
    · have := hlog x hx
      omega
    · rw [List.mem_singleton.1 hx]
      omega
  · show _ < log.nextSeqNo + 1
    omega
  · -- an accepted event leaves the whole log behind it, a refused one changes nothing
    by_cases ha : s.Accepts e
    · rw [Snapshot.applyEvent_of_accepts ha]
      intro hx'
      have hlt : e.seqNo < x.seqNo := hx'.1
      rcases List.mem_append.1 hx with hx | hx
      · have := hlog x hx
        omega
      · rw [List.mem_singleton.1 hx] at hlt
        exact lt_irrefl _ hlt
    · rw [Snapshot.applyEvent_of_not_accepts ha]
      rcases List.mem_append.1 hx with hx | hx
      · exact h.refused x hx
      · rw [List.mem_singleton.1 hx]
        exact ha

theorem advance_of_refused : ∀ {es : List MembershipEvent}, (∀ e ∈ es, ¬ s.Accepts e) → advance s es = s
  | [], _ => rfl
  | e :: es, h => by
    have hrest : advance s es = s := advance_of_refused fun x hx => h x (List.mem_cons_of_mem _ hx)
    rw [advance, List.foldl_cons, Snapshot.applyEvent_of_not_accepts (h e (by simp))]
    exact hrest

/-- The payload of a checkpoint. -/
def payload (log : EventLog) (s : Snapshot) : Checkpoint :=
  ⟨s, log.getEventsSince s.asOfSeqNo, log.currentTerm, log.getLatestSeqNo + 1⟩

/-- The log that is read back. -/
def EventLog.reopened (log : EventLog) (s : Snapshot) : EventLog :=
  { log with log := (log.getEventsSince s.asOfSeqNo).map MembershipEvent.reread }

/-- Replaying the tail applies nothing. -/
theorem Recoverable.reconstruct (h : Recoverable log s) :
    Durability.reconstruct log.roomId (payload log s) = (log.reopened s, s.reread) := by
  have hc : Chronicle (payload log s).snapshot (payload log s).logTail := by
    refine ⟨h.start, h.sorted.sublist List.filter_sublist, fun e he => ?_⟩
    exact of_decide_eq_true (List.mem_filter.1 he).2
  obtain ⟨hlog, hsnap⟩ := hc.reconstruct log.roomId
  have htail : ∀ e ∈ (payload log s).logTail.map MembershipEvent.reread, ¬ s.reread.Accepts e := by
    intro e he ha
    obtain ⟨x, hx, rfl⟩ := List.mem_map.1 he
    exact h.refused x (List.mem_of_mem_filter hx) (Snapshot.accepts_reread.1 ha)
  have hnext : log.getLatestSeqNo + 1 = log.nextSeqNo := by
    unfold EventLog.getLatestSeqNo
    omega
  refine Prod.ext ?_ (hsnap.trans (advance_of_refused htail))
  refine (EventLog.mk.injEq ..).mpr ⟨rfl, hlog, hnext, rfl⟩

theorem Recoverable.reopened (h : Recoverable log s) : Recoverable (log.reopened s) s.reread where
  room := h.room
  start := h.start
  sorted := List.pairwise_map.2 (h.sorted.sublist List.filter_sublist)
  numbered := by
    refine ⟨fun e he => ?_, h.numbered.snapshot⟩
    obtain ⟨x, hx, rfl⟩ := List.mem_map.1 he
    exact h.numbered.log x (List.mem_of_mem_filter hx)
  refused e he ha := by
    obtain ⟨x, hx, rfl⟩ := List.mem_map.1 he
    exact h.refused x (List.mem_of_mem_filter hx) (Snapshot.accepts_reread.1 ha)

theorem Recoverable.enter (h : Recoverable b.log b.snapshot) (x : Entry) :
    Recoverable (b.enter x).log (b.enter x).snapshot := by
  cases x with
  | append now a =>
    by_cases ht : a.term < b.log.currentTerm
    · simpa [Books.enter, EventLog.append, ht] using h
    · simpa [Books.enter, EventLog.append, ht] using h.push (e := b.log.stamp now a) rfl a.term
  | appendRemote event => exact h.push (e := b.log.localize event) rfl event.term

/-! ## The newest checkpoint -/

namespace Durability

/-- The list begins with the newest. -/
theorem head_listCheckpoints {p : Int × Option Checkpoint} {rest : List (Int × Option Checkpoint)}
    (hl : d.listCheckpoints = p :: rest) :
    d.files.get? p.1 = some p.2 ∧ ∀ k ∈ d.files.keys, k ≤ p.1 := by
  have hmem : ∀ q, q ∈ d.listCheckpoints ↔ q ∈ d.files.items := fun q => List.mem_mergeSort
  have hsorted : d.listCheckpoints.Pairwise fun a b => decide (b.1 ≤ a.1) = true :=
    List.pairwise_mergeSort (fun a b c hab hbc => by simp only [decide_eq_true_eq] at *; omega)
      (fun a b => by simp only [Bool.or_eq_true, decide_eq_true_eq]; omega) _
  rw [hl] at hmem hsorted
  refine ⟨d.files.mem_items_iff.1 ((hmem p).1 (by simp)), fun k hk => ?_⟩
  obtain ⟨q, hq, rfl⟩ := List.mem_map.1 hk
  rcases List.mem_cons.1 ((hmem q).2 hq) with rfl | hq
  · exact le_rfl
  · exact of_decide_eq_true ((List.pairwise_cons.1 hsorted).1 q hq)

theorem listCheckpoints_eq_cons {k : Int} {file : Option Checkpoint} (h : d.files.get? k = some file)
    (hmax : ∀ k' ∈ d.files.keys, k' ≤ k) : ∃ rest, d.listCheckpoints = (k, file) :: rest := by
  have hmem : (k, file) ∈ d.listCheckpoints := by
    rw [listCheckpoints, List.mem_mergeSort]
    exact d.files.mem_items_iff.2 h
  cases hl : d.listCheckpoints with
  | nil => simp [hl] at hmem
  | cons p rest =>
    obtain ⟨hp, hge⟩ := head_listCheckpoints hl
    have hk : p.1 = k :=
      le_antisymm (hmax p.1 (d.files.mem_keys_iff.2 ⟨_, hp⟩)) (hge k (d.files.mem_keys_iff.2 ⟨_, h⟩))
    rw [hk, h] at hp
    exact ⟨rest, by rw [← hk, Option.some.inj hp]⟩

/-- The newest checkpoint is not pruned. -/
theorem get?_prune {k : Int} {file : Option Checkpoint} (h : d.files.get? k = some file)
    (hmax : ∀ k' ∈ d.files.keys, k' ≤ k) : d.prune.files.get? k = some file := by
  obtain ⟨rest, hl⟩ := listCheckpoints_eq_cons h hmax
  have hnodup : (d.listCheckpoints.map Prod.fst).Nodup :=
    ((List.mergeSort_perm _ _).map Prod.fst).nodup_iff.2 d.files.nodup
  rw [hl, List.map_cons, List.nodup_cons] at hnodup
  rw [prune, Dict.get?_foldl_erase, if_neg, h]
  intro hk
  rw [hl, keepLast, List.drop_succ_cons] at hk
  exact hnodup.1 (List.map_subset _ (List.drop_subset _ _) hk)

theorem keys_prune {k : Int} (h : k ∈ d.prune.files.keys) : k ∈ d.files.keys := by
  obtain ⟨f, hf⟩ := (Dict.mem_keys_iff _).1 h
  exact (Dict.mem_keys_iff _).2 ⟨f, Dict.get?_of_foldl_erase hf⟩

theorem recover_of_newest {k : Int} {cp : Checkpoint} (h : d.files.get? k = some (some cp))
    (hmax : ∀ k' ∈ d.files.keys, k' ≤ k) (roomId : String) : d.recover roomId = some (reconstruct roomId cp) := by
  obtain ⟨rest, hl⟩ := listCheckpoints_eq_cons h hmax
  rw [recover, hl]
  rfl

end Durability

/-! ## Runs -/

/-- Every checkpoint is of books the room had, and none is of a later
number than the log has given. -/
structure Room.Kept (roomId : String) (r : Room) : Prop where
  room : r.books.log.roomId = roomId
  recoverable : Recoverable r.books.log r.books.snapshot
  files : ∀ k file, r.durability.files.get? k = some file → k < r.books.log.nextSeqNo ∧
    ∃ log s, file = some (payload log s) ∧ Recoverable log s ∧ log.roomId = roomId ∧ log.nextSeqNo = k + 1

variable {roomId : String}

namespace Room

theorem Kept.new (roomId : String) (snapshotInterval : Int) : Kept roomId (.new roomId snapshotInterval) :=
  ⟨rfl, .new roomId, by simp [Room.new]⟩

theorem Kept.keys (h : Kept roomId r) {k : Int} (hk : k ∈ r.durability.files.keys) :
    k ≤ r.books.log.getLatestSeqNo := by
  obtain ⟨file, hf⟩ := (Dict.mem_keys_iff _).1 hk
  have := (h.files k file hf).1
  unfold EventLog.getLatestSeqNo
  omega

theorem Kept.enter (h : Kept roomId r) (x : Entry) : Kept roomId (r.step (.enter x)) := by
  have hlog : (r.books.enter x).log.roomId = r.books.log.roomId ∧
      r.books.log.nextSeqNo ≤ (r.books.enter x).log.nextSeqNo := by
    cases x with
    | append now a =>
      by_cases ht : a.term < r.books.log.currentTerm
      · simp [Books.enter, EventLog.append, ht]
      · simp [Books.enter, EventLog.append, ht, EventLog.push]
    | appendRemote event => simp [Books.enter, EventLog.appendRemote, EventLog.push]
  refine ⟨hlog.1.trans h.room, h.recoverable.enter x, fun k file hk => ?_⟩
  obtain ⟨hlt, hfile⟩ := h.files k file hk
  exact ⟨hlt.trans_le hlog.2, hfile⟩

theorem Kept.forceCheckpoint (h : Kept roomId r) : Kept roomId (r.step .forceCheckpoint) := by
  refine ⟨h.room, h.recoverable, fun k file hk => ?_⟩
  have hk := Dict.get?_of_foldl_erase hk
  rw [Dict.get?_set] at hk
  split at hk
  · next heq =>
    cases hk
    subst heq
    have hnext : r.books.log.getLatestSeqNo + 1 = r.books.log.nextSeqNo := by
      unfold EventLog.getLatestSeqNo
      omega
    refine ⟨?_, _, _, rfl, h.recoverable, h.room, hnext.symm⟩
    show _ < r.books.log.nextSeqNo
    omega
  · exact h.files k file hk

theorem Kept.maybeCheckpoint (h : Kept roomId r) : Kept roomId (r.step .maybeCheckpoint) := by
  have hw := h.forceCheckpoint
  simp only [step, Durability.maybeCheckpoint] at hw ⊢
  split
  · exact hw
  · exact h

theorem Kept.recover (h : Kept roomId r) : Kept roomId (r.step .recover) := by
  simp only [step, Durability.recover]
  cases hl : r.durability.listCheckpoints with
  | nil => exact h
  | cons p rest =>
    obtain ⟨hp, hmax⟩ := Durability.head_listCheckpoints hl
    obtain ⟨-, log, s, hfile, hs, hroom, hnext⟩ := h.files _ _ hp
    have hrec : Durability.reconstruct r.books.log.roomId (payload log s) = (log.reopened s, s.reread) := by
      rw [h.room, ← hroom]
      exact hs.reconstruct
    simp only [List.findSome?_cons, hfile, Option.map_some, hrec]
    refine ⟨hroom, hs.reopened, fun k file hk => ⟨?_, (h.files k file hk).2⟩⟩
    have hle := hmax k (Dict.mem_keys_iff _ |>.2 ⟨_, hk⟩)
    show k < log.nextSeqNo
    omega

theorem Kept.step (h : Kept roomId r) : ∀ d : Deed, Kept roomId (r.step d)
  | .enter x => h.enter x
  | .maybeCheckpoint => h.maybeCheckpoint
  | .forceCheckpoint => h.forceCheckpoint
  | .recover => h.recover

theorem Kept.run : ∀ (ds : List Deed) {r : Room}, Kept roomId r → Kept roomId (r.run ds)
  | [], _, h => h
  | d :: ds, _, h => Kept.run ds (h.step d)

/-- What is recovered right after a checkpoint. -/
theorem Kept.recovered (h : Kept roomId r) :
    (r.durability.writeCheckpoint r.books.log r.books.snapshot).recover roomId =
      some (r.books.log.reopened r.books.snapshot, r.books.snapshot.reread) := by
  let d : Durability := { r.durability with
    files := r.durability.files.set r.books.log.getLatestSeqNo (some (payload r.books.log r.books.snapshot)) }
  have hget : d.files.get? r.books.log.getLatestSeqNo = some (some (payload r.books.log r.books.snapshot)) :=
    Dict.get?_set_self _ _ _
  have hmax : ∀ k ∈ d.files.keys, k ≤ r.books.log.getLatestSeqNo := by
    intro k hk
    rw [Dict.keys_set] at hk
    split at hk
    · exact h.keys hk
    · rcases List.mem_append.1 hk with hk | hk
      · exact h.keys hk
      · exact (List.mem_singleton.1 hk).le
  have hprune := Durability.get?_prune hget hmax
  have hrec := Durability.recover_of_newest hprune (fun k hk => hmax k (Durability.keys_prune hk)) roomId
  rw [← h.room, h.recoverable.reconstruct, h.room] at hrec
  exact hrec

end Room

/-- Books that differ in what `serialize` loses, and in old events. -/
structure Books.Alike (b b' : Books) : Prop where
  room : b.log.roomId = b'.log.roomId
  next : b.log.nextSeqNo = b'.log.nextSeqNo
  term : b.log.currentTerm = b'.log.currentTerm
  snapshot : b.snapshot.reread = b'.snapshot.reread

theorem Books.Alike.enter (h : Alike b b') (x : Entry) : Alike (b.enter x) (b'.enter x) := by
  cases x with
  | append now a =>
    have hstamp : b.log.stamp now a = b'.log.stamp now a := by
      simp only [EventLog.stamp, h.room, h.next, h.term]
    by_cases ht : a.term < b.log.currentTerm
    · have ht' : a.term < b'.log.currentTerm := h.term ▸ ht
      simpa [Books.enter, EventLog.append, ht, ht'] using h
    · have ht' : ¬ a.term < b'.log.currentTerm := h.term ▸ ht
      simp only [Books.enter, EventLog.append, ht, ht', if_false, hstamp]
      exact ⟨h.room, by simp [EventLog.push, h.next], by simp [EventLog.push, h.term],
        Snapshot.reread_applyEvent_congr h.snapshot _⟩
  | appendRemote event =>
    have hloc : b.log.localize event = b'.log.localize event := by
      simp only [EventLog.localize, h.room, h.next, h.term]
    simp only [Books.enter, EventLog.appendRemote, hloc]
    exact ⟨h.room, by simp [EventLog.push, h.next], by simp [EventLog.push, h.term],
      Snapshot.reread_applyEvent_congr h.snapshot _⟩

theorem Books.Alike.enterAll : ∀ (xs : List Entry) {b b' : Books}, Alike b b' →
    Alike (b.enterAll xs) (b'.enterAll xs)
  | [], _, _, h => h
  | x :: xs, _, _, h => Books.Alike.enterAll xs (h.enter x)

/-- **A checkpoint and its recovery are transparent.** -/
theorem recover_writeCheckpoint (roomId : String) (snapshotInterval : Int) (ds : List Deed) (r : Room)
    (hr : r = (Room.new roomId snapshotInterval).run ds) :
    ∃ log s, (r.durability.writeCheckpoint r.books.log r.books.snapshot).recover roomId = some (log, s) ∧
      log.roomId = r.books.log.roomId ∧ s = r.books.snapshot.reread ∧
      log.nextSeqNo = r.books.log.nextSeqNo ∧ log.currentTerm = r.books.log.currentTerm ∧
      (∀ xs : List Entry, ((Books.mk log s).enterAll xs).snapshot.reread = (r.books.enterAll xs).snapshot.reread) ∧
      ∀ es : List MembershipEvent, (advance s es).reread = (advance r.books.snapshot es).reread := by
  have h : Room.Kept roomId r := hr ▸ Room.Kept.run ds (.new roomId snapshotInterval)
  have hs : r.books.snapshot.reread.reread = r.books.snapshot.reread := Snapshot.reread_reread _
  refine ⟨_, _, h.recovered, rfl, rfl, rfl, rfl, fun xs => ?_, fun es => reread_advance_congr es hs⟩
  have halike : Books.Alike ⟨r.books.log.reopened r.books.snapshot, r.books.snapshot.reread⟩ r.books :=
    ⟨rfl, rfl, rfl, hs⟩
  exact (halike.enterAll xs).snapshot

/-- A room whose second join is refused, and in the tail of the checkpoint. -/
def rejoined : Room :=
  (Room.new "room" 100).run [
    .enter (.append 1 ⟨.joinAccepted, "b:1", "coordinator", 1, "bob", none, some []⟩),
    .enter (.append 2 ⟨.joinAccepted, "b:1", "coordinator", 1, "bob", none, none⟩)]

theorem recover_writeCheckpoint_rejoined :
    (rejoined.books.log.getEventsSince rejoined.books.snapshot.asOfSeqNo).map (·.seqNo) = [2] ∧
    ∃ log s, (rejoined.durability.writeCheckpoint rejoined.books.log rejoined.books.snapshot).recover "room" =
        some (log, s) ∧ s = rejoined.books.snapshot.reread ∧ log.nextSeqNo = 3 := by
  obtain ⟨log, s, hrec, -, hs, hnext, -⟩ := recover_writeCheckpoint "room" 100 _ rejoined rfl
  refine ⟨by decide +kernel, log, s, hrec, hs, hnext.trans ?_⟩
  decide +kernel

end PeerChat.Membership
