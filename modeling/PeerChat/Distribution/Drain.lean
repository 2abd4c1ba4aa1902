/-
One `drain` as a whole (`HoldBackQueue.drain` of
`distribution/vector_clock.py`).

`drain_confluent`: what a drain releases, keeps and counts, and that with
nothing past the timeout the order of the queue does not matter. Readiness
is not monotone in the clock, so this is no fixpoint argument: a counter
moves only by the message that carries its next number (`ReadyRun.exists_of_lt`),
and a message that one order releases is still ready for the clock that the
other order ends with (`ReadyRun.subset`).

`drain_keepsOrder_iff`: the timeout releases late entries in the order they
came, ahead of everything else. The messages a drain releases are in causal
order, and none passes one that happens before it and waits, exactly when
the late entries came in causal order and no entry that happens before a
late one is in time.
-/
import PeerChat.Distribution.BroadcastNode
import Mathlib.Order.Bounds.Basic

namespace PeerChat

open Lib

/-! ## Clocks -/

namespace VectorClock

/-- A merge, at one address. -/
def raise (cur other : Option Int) : Option Int :=
  match other with
  | none => cur
  | some n => some (max (cur.getD 0) n)

theorem get?_merge (vc other : VectorClock) (k : String) :
    Dict.get? (vc.merge other) k = raise (Dict.get? vc k) (Dict.get? other k) := by
  unfold merge raise
  rw [Dict.get?_updateWith]
  cases Dict.get? other k <;> rfl

instance : RightCommutative raise where
  right_comm a b c := by
    cases b <;> cases c <;> simp only [raise, Option.getD_some]
    rw [max_right_comm]

/-- A clock with the stamps of messages merged in turn. -/
def mergeAll (vc : VectorClock) (ms : List Message) : VectorClock := ms.foldl (fun c m => c.merge m.vectorClock) vc

theorem get?_mergeAll (k : String) : ∀ (ms : List Message) (vc : VectorClock),
    Dict.get? (vc.mergeAll ms) k = (ms.map fun m => Dict.get? m.vectorClock k).foldl raise (Dict.get? vc k)
  | [], _ => rfl
  | m :: ms, vc => by
    refine (get?_mergeAll k ms (vc.merge m.vectorClock)).trans ?_
    rw [get?_merge]
    rfl

/-- The stamps may be merged in any order. -/
theorem get?_mergeAll_perm {ms ms' : List Message} (h : ms.Perm ms') (vc : VectorClock) (k : String) :
    Dict.get? (vc.mergeAll ms) k = Dict.get? (vc.mergeAll ms') k := by
  rw [get?_mergeAll, get?_mergeAll]
  exact (h.map _).foldl_eq _

theorem count_le_mergeAll (k : String) : ∀ (ms : List Message) (vc : VectorClock),
    vc.count k ≤ (vc.mergeAll ms).count k
  | [], _ => le_rfl
  | m :: ms, vc => (count_le_merge vc m.vectorClock k).trans (count_le_mergeAll k ms _)

theorem stamp_le_mergeAll {m : Message} {k : String} {n : Int} (hn : Dict.get? m.vectorClock k = some n) :
    ∀ {ms : List Message} (vc : VectorClock), m ∈ ms → n ≤ (vc.mergeAll ms).count k
  | x :: ms, vc, hm => by
    rcases List.mem_cons.1 hm with rfl | hm
    · refine le_trans ?_ (count_le_mergeAll k ms (vc.merge m.vectorClock))
      rw [count_merge, hn]
      exact le_max_right _ _
    · exact stamp_le_mergeAll hn (vc.merge x.vectorClock) hm

theorem mergeAll_le {k : String} {b : Int} : ∀ (ms : List Message) {vc : VectorClock}, vc.count k ≤ b →
    (∀ m ∈ ms, ∀ n, Dict.get? m.vectorClock k = some n → n ≤ b) → (vc.mergeAll ms).count k ≤ b
  | [], _, h, _ => h
  | m :: ms, vc, h, hms => by
    refine mergeAll_le ms ?_ fun x hx => hms x (List.mem_cons_of_mem _ hx)
    rw [count_merge]
    split
    · exact h
    · next n hn => exact max_le h (hms m (by simp) n hn)

/-- Merging the stamps of messages is their join with the clock. -/
theorem isLUB_mergeAll (vc : VectorClock) (ms : List Message) (k : String) :
    IsLUB (insert (vc.count k) {n | ∃ m ∈ ms, Dict.get? m.vectorClock k = some n}) ((vc.mergeAll ms).count k) := by
  constructor
  · rintro n (rfl | ⟨m, hm, hn⟩)
    · exact count_le_mergeAll k ms vc
    · exact stamp_le_mergeAll hn vc hm
  · intro b hb
    exact mergeAll_le ms (hb (Set.mem_insert _ _)) fun m hm n hn => hb (Set.mem_insert_of_mem _ ⟨m, hm, hn⟩)

/-- More messages leave no smaller clock. -/
theorem mergeAll_mono {ms ms' : List Message} (h : ms ⊆ ms') (vc : VectorClock) (k : String) :
    (vc.mergeAll ms).count k ≤ (vc.mergeAll ms').count k :=
  mergeAll_le ms (count_le_mergeAll k ms' vc) fun _ hm _ hn => stamp_le_mergeAll hn vc (h hm)

/-- What `is_ready` tests of a message with a stamp. -/
theorem isReady_iff_next {vc : VectorClock} {m : Message} (hne : m.vectorClock.items.isEmpty = false) :
    vc.isReady m = true ↔ m.stamp m.sender = vc.count m.sender + 1 ∧
      ∀ t n, Dict.get? m.vectorClock t = some n → t ≠ m.sender → n ≤ vc.count t := by
  simp only [isReady, hne, Bool.false_eq_true, if_false]
  split
  · next h =>
    simp only [Bool.false_eq_true, false_iff, not_and]
    exact fun hs => absurd hs h
  · next h =>
    rw [not_not] at h
    simp only [List.all_eq_true, Bool.or_eq_true, decide_eq_true_eq]
    constructor
    · intro hall
      refine ⟨h, fun t n hg ht => ?_⟩
      exact (hall (t, n) ((Dict.mem_items_iff _).2 hg)).resolve_left ht
    · rintro ⟨-, hoth⟩ ⟨t, n⟩ hmem
      by_cases ht : t = m.sender
      · exact .inl ht
      · exact .inr (hoth t n ((Dict.mem_items_iff _).1 hmem) ht)

theorem isReady_of_isEmpty {vc : VectorClock} {m : Message} (h : m.vectorClock.items.isEmpty = true) :
    vc.isReady m = true := by
  simp only [isReady, h, if_true]

/-- Merging a ready stamp moves no counter but that of its sender, and that
one by the number of the message. -/
theorem count_merge_ready {vc : VectorClock} {m : Message} (h : vc.isReady m = true) (s : String) :
    (vc.merge m.vectorClock).count s = vc.count s ∨
      (m.vectorClock.items.isEmpty = false ∧ m.sender = s ∧ m.stamp s = vc.count s + 1 ∧
        (vc.merge m.vectorClock).count s = vc.count s + 1) := by
  rw [count_merge]
  cases hg : Dict.get? m.vectorClock s with
  | none => exact .inl rfl
  | some n =>
    have hne : m.vectorClock.items.isEmpty = false := by
      have hmem := (Dict.mem_items_iff _).2 hg
      rw [List.isEmpty_eq_false_iff_exists_mem]
      exact ⟨_, hmem⟩
    have hstamp : m.stamp s = n := by simp [Message.stamp, count, Dict.getD, hg]
    obtain ⟨hown, hoth⟩ := (isReady_iff_next hne).1 h
    by_cases hs : s = m.sender
    · subst hs
      simp only
      right
      refine ⟨hne, trivial, hown, ?_⟩
      omega
    · left
      exact max_eq_left (hoth s n hg hs)

end VectorClock

/-! ## Runs of ready messages -/

namespace HoldBackQueue

theorem readyRun_snoc : ∀ (ms : List Message) {vc : VectorClock} {m : Message},
    ReadyRun vc (ms ++ [m]) ↔ ReadyRun vc ms ∧ (vc.mergeAll ms).isReady m = true
  | [], vc, m => by simp [ReadyRun, VectorClock.mergeAll]
  | x :: ms, vc, m => by
    simp only [List.cons_append, ReadyRun, readyRun_snoc ms, and_assoc]
    rfl

/-- A counter that has moved passed each number with a message. -/
theorem ReadyRun.exists_of_lt {s : String} {k : Int} : ∀ {ms : List Message} {vc : VectorClock}, ReadyRun vc ms →
    vc.count s < k → k ≤ (vc.mergeAll ms).count s →
    ∃ m ∈ ms, m.vectorClock.items.isEmpty = false ∧ m.sender = s ∧ m.stamp s = k
  | [], vc, _, hlt, hle => absurd (lt_of_lt_of_le hlt hle) (lt_irrefl _)
  | m :: ms, vc, h, hlt, hle => by
    by_cases hk : (vc.merge m.vectorClock).count s < k
    · obtain ⟨x, hx, hprop⟩ := ReadyRun.exists_of_lt h.2 hk hle
      exact ⟨x, List.mem_cons_of_mem _ hx, hprop⟩
    · rcases VectorClock.count_merge_ready h.1 s with heq | ⟨hne, hsender, hstamp, heq⟩
      · omega
      · exact ⟨m, by simp, hne, hsender, by omega⟩

/-- A message released in one run is released in every run that leaves
nothing ready behind. -/
theorem ReadyRun.subset {vc : VectorClock} {ms' : List Message} (rest : List Message) (h' : ReadyRun vc ms')
    (hrest : ∀ m ∈ rest, (vc.mergeAll ms').isReady m = false) :
    ∀ {ms : List Message}, ReadyRun vc ms → (∀ m ∈ ms, m ∈ ms' ∨ m ∈ rest) →
    (∀ m ∈ ms, ∀ x ∈ ms', m.vectorClock.items.isEmpty = false → x.vectorClock.items.isEmpty = false →
      m.sender = x.sender → m.stamp m.sender = x.stamp x.sender → m = x) → ms ⊆ ms' := by
  intro ms
  induction ms using List.reverseRecOn with
  | nil => simp
  | append_singleton ms m ih =>
    intro h hmem hkey
    obtain ⟨hinit, hready⟩ := (readyRun_snoc ms).1 h
    have hsub : ms ⊆ ms' :=
      ih hinit (fun x hx => hmem x (by simp [hx])) fun x hx => hkey x (by simp [hx])
    refine List.append_subset.2 ⟨hsub, fun x hx => ?_⟩
    rw [List.mem_singleton.1 hx]
    by_contra hnot
    have hblocked := hrest m ((hmem m (by simp)).resolve_left hnot)
    cases hne : m.vectorClock.items.isEmpty with
    | true =>
      rw [VectorClock.isReady_of_isEmpty hne] at hblocked
      cases hblocked
    | false =>
      obtain ⟨hown, hoth⟩ := (VectorClock.isReady_iff_next hne).1 hready
      have hge := VectorClock.mergeAll_mono hsub vc
      -- had the other run counted as far as `m`, it would have released `m`
      have hle : (vc.mergeAll ms').count m.sender ≤ (vc.mergeAll ms).count m.sender := by
        by_contra hlt
        have hold := VectorClock.count_le_mergeAll m.sender ms vc
        obtain ⟨y, hy, hyne, hys, hyk⟩ := h'.exists_of_lt (s := m.sender) (k := m.stamp m.sender)
          (by omega) (by omega)
        have heq : m = y := hkey m (by simp) y hy hne hyne hys.symm (by rw [hys, hyk])
        exact hnot (heq ▸ hy)
      have hagain : (vc.mergeAll ms').isReady m = true := by
        refine (VectorClock.isReady_iff_next hne).2 ⟨?_, fun t n hg ht => (hoth t n hg ht).trans (hge t)⟩
        rw [hown, le_antisymm hle (hge m.sender)]
      rw [hagain] at hblocked
      cases hblocked

/-! ## The drain -/

/-- `while changed` of `drain`, without a bound on its passes: that it ends,
and with what. -/
inductive Passes : List Entry → VectorClock → Drained → Prop
  | last {q : List Entry} {vc : VectorClock} :
    (sweep ready q vc).released = [] → Passes q vc (sweep ready q vc)
  | again {q : List Entry} {vc : VectorClock} {d : Drained} :
    (sweep ready q vc).released ≠ [] → Passes (sweep ready q vc).queue (sweep ready q vc).vc d →
    Passes q vc { d with released := (sweep ready q vc).released ++ d.released }

theorem passes_drainLoop : ∀ (n : Nat) (q : List Entry) (vc : VectorClock), q.length < n →
    Passes q vc (drainLoop n q vc)
  | n + 1, q, vc, hn => by
    by_cases h : (sweep ready q vc).released = []
    · simp only [drainLoop, h, List.isEmpty_nil, if_true]
      exact .last h
    · rw [drainLoop_succ_cons h]
      refine .again h (passes_drainLoop n _ _ ?_)
      have hlen := (sweep_perm (p := ready) q vc).length_eq
      have hpos := List.length_pos_iff.2 h
      simp only [List.length_append, List.length_map] at hlen
      omega

theorem sweep_sublist {p : VectorClock → Entry → Bool} : ∀ (q : List Entry) (vc : VectorClock),
    List.Sublist (sweep p q vc).queue q
  | [], _ => by simp [sweep]
  | e :: q, vc => by
    cases h : p vc e with
    | true =>
      rw [sweep_cons_pos h]
      exact (sweep_sublist q _).cons e
    | false =>
      rw [sweep_cons_neg h]
      exact (sweep_sublist q vc).cons_cons e

theorem drainLoop_sublist : ∀ (n : Nat) (q : List Entry) (vc : VectorClock),
    List.Sublist (drainLoop n q vc).queue q
  | 0, q, _ => List.Sublist.refl q
  | n + 1, q, vc => by
    by_cases h : (sweep ready q vc).released = []
    · rw [drainLoop_succ_nil h]
    · rw [drainLoop_succ_cons h]
      exact (drainLoop_sublist n _ _).trans (sweep_sublist q vc)

/-- The entry has waited longer than the timeout. -/
def Late (h : HoldBackQueue) (now : Time) (e : Entry) : Prop := h.timeout < now - e.1

instance (h : HoldBackQueue) (now : Time) : DecidablePred (h.Late now) :=
  fun e => inferInstanceAs (Decidable (h.timeout < now - e.1))

/-- The first loop of `drain` takes out the late entries. -/
theorem sweep_expired (h : HoldBackQueue) (now : Time) : ∀ (q : List Entry) (vc : VectorClock),
    sweep (expired now h.timeout) q vc =
      ⟨vc.mergeAll ((q.filter (h.Late now ·)).map Prod.snd), (q.filter (h.Late now ·)).map Prod.snd,
        q.filter (¬ h.Late now ·)⟩
  | [], _ => rfl
  | e :: q, vc => by
    by_cases he : h.Late now e
    · rw [sweep_cons_pos (by simpa [expired, Late] using he), sweep_expired h now q]
      simp [he, VectorClock.mergeAll]
    · rw [sweep_cons_neg (by simpa [expired] using not_lt.1 he), sweep_expired h now q]
      simp [he]

/-- The clock that the second loop starts with. -/
def clockAfterLate (h : HoldBackQueue) (now : Time) (vc : VectorClock) : VectorClock :=
  vc.mergeAll ((h.queue.filter (h.Late now ·)).map Prod.snd)

theorem drain_eq (h : HoldBackQueue) (now : Time) (vc : VectorClock) :
    ∃ d, Passes (h.queue.filter (¬ h.Late now ·)) (h.clockAfterLate now vc) d ∧
      h.drain now vc = { d with released := (h.queue.filter (h.Late now ·)).map Prod.snd ++ d.released } := by
  refine ⟨drainLoop ((h.queue.filter (¬ h.Late now ·)).length + 1) _ _, passes_drainLoop _ _ _ (Nat.lt_succ_self _), ?_⟩
  simp only [drain, sweep_expired]
  rfl

theorem drain_queue_sublist (h : HoldBackQueue) (now : Time) (vc : VectorClock) :
    List.Sublist (h.drain now vc).queue (h.queue.filter (¬ h.Late now ·)) := by
  simp only [drain, sweep_expired]
  exact drainLoop_sublist _ _ _

theorem mem_of_drain_queue {h : HoldBackQueue} {now : Time} {vc : VectorClock} {e : Entry}
    (he : e ∈ (h.drain now vc).queue) : e ∈ h.queue ∧ ¬ h.Late now e := by
  simpa using (drain_queue_sublist h now vc).subset he

/-! ## Any order -/

/-- The senders and numbers of the messages that have a stamp. -/
def numbers (ms : List Message) : List (String × Int) :=
  (ms.filter fun m => m.vectorClock.items.isEmpty = false).map fun m => (m.sender, m.stamp m.sender)

/-- No two entries carry the same number of the same sender. -/
def Distinct (q : List Entry) : Prop := (numbers (q.map Prod.snd)).Nodup

instance (q : List Entry) : Decidable (Distinct q) := inferInstanceAs (Decidable (List.Nodup _))

theorem Distinct.inj {q : List Entry} (h : Distinct q) {e e' : Entry} (he : e ∈ q) (he' : e' ∈ q)
    (hne : e.2.vectorClock.items.isEmpty = false) (hne' : e'.2.vectorClock.items.isEmpty = false)
    (hs : e.2.sender = e'.2.sender) (hk : e.2.stamp e.2.sender = e'.2.stamp e'.2.sender) : e = e' := by
  rw [Distinct, numbers, List.filter_map, List.map_map] at h
  exact List.inj_on_of_nodup_map h (List.mem_filter.2 ⟨he, by simpa using hne⟩)
    (List.mem_filter.2 ⟨he', by simpa using hne'⟩) (Prod.ext hs hk)

theorem Distinct.perm {q q' : List Entry} (h : Distinct q) (hp : q'.Perm q) : Distinct q' :=
  (((hp.map Prod.snd).filter _).map _).nodup_iff.2 h

variable {h h' : HoldBackQueue} {now : Time} {vc : VectorClock}

/-- What a drain keeps has a stamp. -/
theorem stamped_of_drain_queue {e : Entry} (he : e ∈ (h.drain now vc).queue) :
    e.2.vectorClock.items.isEmpty = false := by
  by_contra hne
  have hready : (h.drain now vc).vc.isReady e.2 = true := VectorClock.isReady_of_isEmpty (by simpa using hne)
  rw [drain_fixpoint h now vc e he] at hready
  cases hready

/-- An entry is kept or released, not both. -/
theorem Distinct.mem_drain_queue (hd : Distinct h.queue) {e : Entry} (he : e ∈ h.queue)
    (hne : e.2.vectorClock.items.isEmpty = false) :
    e ∈ (h.drain now vc).queue ↔ e.2 ∉ (h.drain now vc).released := by
  have hperm := drain_perm h now vc
  constructor
  · intro hkept hrel
    have hnd : (numbers ((h.drain now vc).released ++ (h.drain now vc).queue.map Prod.snd)).Nodup :=
      ((hperm.filter _).map _).nodup_iff.2 hd
    rw [numbers, List.filter_append, List.map_append] at hnd
    have hmem : ∀ l : List Message, e.2 ∈ l → (e.2.sender, e.2.stamp e.2.sender) ∈ numbers l := by
      intro l hl
      exact List.mem_map.2 ⟨e.2, List.mem_filter.2 ⟨hl, by simpa using hne⟩, rfl⟩
    exact (List.nodup_append.1 hnd).2.2 _ (hmem _ hrel) _ (hmem _ (List.mem_map_of_mem hkept)) rfl
  · intro hrel
    have hmem := hperm.mem_iff.2 (List.mem_map_of_mem (f := Prod.snd) he)
    obtain ⟨e', he', heq⟩ := List.mem_map.1 ((List.mem_append.1 hmem).resolve_left hrel)
    have hsame : e' = e := by
      refine hd.inj (mem_of_drain_queue he').1 he ?_ hne ?_ ?_ <;> rw [heq]
      exact hne
    rwa [hsame] at he'

theorem drain_released_subset (hlate : ∀ e ∈ h.queue, ¬ h.Late now e) (hlate' : ∀ e ∈ h'.queue, ¬ h'.Late now e)
    (hd : Distinct h'.queue) (hp : h.queue.Perm h'.queue) :
    (h.drain now vc).released ⊆ (h'.drain now vc).released := by
  have hperm := drain_perm h now vc
  have hperm' := drain_perm h' now vc
  have hmem : ∀ m ∈ (h.drain now vc).released, m ∈ h'.queue.map Prod.snd := by
    intro m hm
    exact (hp.map Prod.snd).mem_iff.1 (hperm.mem_iff.1 (List.mem_append_left _ hm))
  refine ReadyRun.subset ((h'.drain now vc).queue.map Prod.snd)
    (drain_readyRun (fun e he => not_lt.1 (hlate' e he)) vc) (fun m hm => ?_)
    (drain_readyRun (fun e he => not_lt.1 (hlate e he)) vc) (fun m hm => ?_) fun m hm x hx hne hne' hs hk => ?_
  · obtain ⟨e, he, rfl⟩ := List.mem_map.1 hm
    have hblocked := drain_fixpoint h' now vc e he
    rw [drain_vc] at hblocked
    exact hblocked
  · exact List.mem_append.1 (hperm'.mem_iff.2 (hmem m hm))
  · obtain ⟨e, he, rfl⟩ := List.mem_map.1 (hmem m hm)
    obtain ⟨e', he', rfl⟩ := List.mem_map.1 (hperm'.mem_iff.1 (List.mem_append_left _ hx))
    rw [hd.inj he he' hne hne' hs hk]

theorem drain_queue_subset (hlate : ∀ e ∈ h.queue, ¬ h.Late now e) (hlate' : ∀ e ∈ h'.queue, ¬ h'.Late now e)
    (hd : Distinct h'.queue) (hp : h.queue.Perm h'.queue) :
    (h.drain now vc).queue ⊆ (h'.drain now vc).queue := by
  intro e he
  have hne := stamped_of_drain_queue he
  have hin := (mem_of_drain_queue he).1
  have hnot : e.2 ∉ (h.drain now vc).released := ((hd.perm hp).mem_drain_queue hin hne).1 he
  refine (hd.mem_drain_queue (hp.mem_iff.1 hin) hne).2 fun hrel => hnot ?_
  exact drain_released_subset hlate' hlate (hd.perm hp) hp.symm hrel

theorem nodup_drain_queue (hd : Distinct h.queue) : (h.drain now vc).queue.Nodup := by
  have hsub : List.Sublist (h.drain now vc).queue h.queue :=
    (drain_queue_sublist h now vc).trans List.filter_sublist
  have hnd : (numbers ((h.drain now vc).queue.map Prod.snd)).Nodup :=
    (((hsub.map Prod.snd).filter _).map _).nodup hd
  have hall : ((h.drain now vc).queue.map Prod.snd).filter (fun m => m.vectorClock.items.isEmpty = false) =
      (h.drain now vc).queue.map Prod.snd := by
    refine List.filter_eq_self.2 fun m hm => ?_
    obtain ⟨e, he, rfl⟩ := List.mem_map.1 hm
    simpa using stamped_of_drain_queue he
  rw [numbers, hall] at hnd
  exact hnd.of_map _ |>.of_map _

/-- **What a drain does, and that the order of the queue does not matter.** -/
theorem drain_confluent (h : HoldBackQueue) (now : Time) (vc : VectorClock) :
    (∃ d, Passes (h.queue.filter (¬ h.Late now ·)) (h.clockAfterLate now vc) d ∧
      h.drain now vc = { d with released := (h.queue.filter (h.Late now ·)).map Prod.snd ++ d.released }) ∧
    ((h.drain now vc).released ++ (h.drain now vc).queue.map Prod.snd).Perm (h.queue.map Prod.snd) ∧
    (∀ e ∈ (h.drain now vc).queue, ¬ h.Late now e ∧ (h.drain now vc).vc.isReady e.2 = false) ∧
    (∀ k, IsLUB (insert (vc.count k) {n | ∃ m ∈ (h.drain now vc).released, Dict.get? m.vectorClock k = some n})
      ((h.drain now vc).vc.count k)) ∧
    ((∀ e ∈ h.queue, ¬ h.Late now e) → Distinct h.queue →
      ReadyRun vc (h.drain now vc).released ∧
      ∀ h' : HoldBackQueue, h'.timeout = h.timeout → h'.queue.Perm h.queue →
        (h'.drain now vc).released.Perm (h.drain now vc).released ∧
        (∀ k, Dict.get? (h'.drain now vc).vc k = Dict.get? (h.drain now vc).vc k) ∧
        (h'.drain now vc).queue.Perm (h.drain now vc).queue) := by
  refine ⟨drain_eq h now vc, drain_perm h now vc,
    fun e he => ⟨(mem_of_drain_queue he).2, drain_fixpoint h now vc e he⟩, fun k => ?_, fun hlate hd => ?_⟩
  · rw [drain_vc]
    exact VectorClock.isLUB_mergeAll vc _ k
  · refine ⟨drain_readyRun (fun e he => not_lt.1 (hlate e he)) vc, fun h' hto hp => ?_⟩
    have hlate' : ∀ e ∈ h'.queue, ¬ h'.Late now e := by
      intro e he
      rw [Late, hto]
      exact hlate e (hp.mem_iff.1 he)
    have hd' := hd.perm hp
    have hqueue : (h'.drain now vc).queue.Perm (h.drain now vc).queue := by
      refine (List.perm_ext_iff_of_nodup (nodup_drain_queue hd') (nodup_drain_queue hd)).2 fun e => ⟨?_, ?_⟩
      · exact fun he => drain_queue_subset hlate' hlate hd hp he
      · exact fun he => drain_queue_subset hlate hlate' hd' hp.symm he
    have hreleased : (h'.drain now vc).released.Perm (h.drain now vc).released := by
      have hall := ((drain_perm h' now vc).trans (hp.map Prod.snd)).trans (drain_perm h now vc).symm
      exact (List.perm_append_right_iff _).1 (hall.trans ((hqueue.map Prod.snd).symm.append_left _))
    refine ⟨hreleased, fun k => ?_, hqueue⟩
    rw [drain_vc, drain_vc]
    exact VectorClock.get?_mergeAll_perm hreleased vc k

/-- The message number `n` of `a:1`, who has heard of nobody else. -/
def nth (n : Int) : Message := ⟨"hello", "a:1", toString n, 0, "", 0, (Dict.empty : VectorClock).set "a:1" n⟩

/-- Three messages of `a:1` as they were sent, and in another order. -/
def sentOrder : HoldBackQueue := ⟨[(1, nth 1), (2, nth 2), (0, nth 3)], 5⟩

def otherOrder : HoldBackQueue := ⟨[(0, nth 3), (1, nth 1), (2, nth 2)], 5⟩

theorem drain_confluent_three :
    (otherOrder.drain 3 Dict.empty).released = [nth 1, nth 2, nth 3] ∧
      (sentOrder.drain 3 Dict.empty).released.Perm (otherOrder.drain 3 Dict.empty).released := by
  refine ⟨by decide +kernel, ?_⟩
  obtain ⟨-, -, -, -, hconf⟩ := drain_confluent otherOrder 3 Dict.empty
  exact ((hconf (by decide +kernel) (by decide +kernel)).2 sentOrder rfl (by decide +kernel)).1

end HoldBackQueue

/-! ## Past the timeout -/

/-- Happens-before, as the stamps tell it. -/
def Message.Before (m m' : Message) : Prop := (∀ k, m.stamp k ≤ m'.stamp k) ∧ ∃ k, m.stamp k < m'.stamp k

/-- A message that carries the stamp `_do_broadcast` gave it at a node, in
some state of a run of that node. -/
def Message.Stamped (m : Message) : Prop :=
  ∃ timeout calls signed, m.vectorClock =
    ((BroadcastNode.run m.sender timeout calls).node.stamped signed).vectorClock

theorem VectorClock.nonneg_mergeAll {vc : VectorClock} (h : ∀ k, 0 ≤ vc.count k) (ms : List Message) (k : String) :
    0 ≤ (vc.mergeAll ms).count k :=
  (h k).trans (VectorClock.count_le_mergeAll k ms vc)

theorem VectorClock.nonneg_merge {vc : VectorClock} (h : ∀ k, 0 ≤ vc.count k) (other : VectorClock) (k : String) :
    0 ≤ (vc.merge other).count k :=
  (h k).trans (VectorClock.count_le_merge vc other k)

namespace BroadcastNode

theorem nonneg_drain {h : HoldBackQueue} {now : Time} {vc : VectorClock} (hvc : ∀ k, 0 ≤ vc.count k) (k : String) :
    0 ≤ (h.drain now vc).vc.count k := by
  rw [HoldBackQueue.drain_vc]
  exact VectorClock.nonneg_mergeAll hvc _ k

/-- The node keeps its address and counts nothing below zero. -/
structure Run.Counts (address : String) (r : Run) : Prop where
  address : r.node.address = address
  nonneg : ∀ k, 0 ≤ r.node.vc.count k

theorem Run.Counts.step {address : String} {r : Run} (h : r.Counts address) (c : Call) :
    (r.step c).Counts address := by
  cases c with
  | receive env addedAt now m =>
    rcases receive_cases env r.node addedAt now m with ⟨-, heq⟩ | ⟨-, n₂, d, hacc, heq⟩
    · simp only [Run.step, heq]
      exact ⟨h.address, h.nonneg⟩
    · simp only [Run.step, heq]
      simp only [accept] at hacc
      split at hacc
      · cases hacc
        exact ⟨h.address, nonneg_drain (VectorClock.nonneg_merge h.nonneg _)⟩
      · cases hacc
        exact ⟨h.address, nonneg_drain h.nonneg⟩
  | doBroadcast env m =>
    rcases doBroadcast_cases env r.node m with ⟨-, heq⟩ | ⟨-, -, heq⟩ | ⟨-, signed, -, sent, heq, -⟩
    · simp only [Run.step, heq]
      exact ⟨h.address, h.nonneg⟩
    · simp only [Run.step, heq]
      exact ⟨h.address, h.nonneg⟩
    · simp only [Run.step, heq]
      refine ⟨h.address, fun k => ?_⟩
      rw [VectorClock.count_increment]
      have := h.nonneg r.node.address
      have := h.nonneg k
      split <;> omega
  | applyVcSync env now vc => exact ⟨h.address, nonneg_drain (VectorClock.nonneg_merge h.nonneg _)⟩
  | holdbackDrain now =>
    simp only [Run.step, holdbackDrain]
    split
    · exact ⟨h.address, h.nonneg⟩
    · exact ⟨h.address, nonneg_drain h.nonneg⟩

theorem Run.Counts.foldl {address : String} : ∀ (calls : List Call) {r : Run}, r.Counts address →
    (calls.foldl Run.step r).Counts address
  | [], _, h => h
  | c :: calls, _, h => Run.Counts.foldl calls (h.step c)

theorem counts_run (address : String) (timeout : Time) (calls : List Call) :
    (run address timeout calls).Counts address :=
  Run.Counts.foldl calls ⟨rfl, fun _ => le_rfl⟩

end BroadcastNode

/-- A broadcast is numbered from 1. -/
theorem Message.Stamped.number_pos {m : Message} (h : m.Stamped) : 1 ≤ m.stamp m.sender := by
  obtain ⟨timeout, calls, signed, hvc⟩ := h
  obtain ⟨haddr, hnn⟩ := BroadcastNode.counts_run m.sender timeout calls
  have hcount := VectorClock.count_increment (BroadcastNode.run m.sender timeout calls).node.vc
    (BroadcastNode.run m.sender timeout calls).node.address m.sender
  rw [if_pos haddr.symm, haddr] at hcount
  have := hnn m.sender
  rw [Message.stamp, hvc, BroadcastNode.stamped]
  simp only [haddr]
  omega

namespace HoldBackQueue

/-- A message that is released as ready is numbered above the clock. -/
theorem ReadyRun.lt_number {y : Message} (hpos : 1 ≤ y.stamp y.sender) : ∀ {ms : List Message} {vc : VectorClock},
    ReadyRun vc ms → y ∈ ms → vc.count y.sender < y.stamp y.sender
  | m :: ms, vc, h, hy => by
    rcases List.mem_cons.1 hy with rfl | hy
    · have hne : y.vectorClock.items.isEmpty = false := by
        by_contra hne
        have := Message.count_eq_zero_of_isEmpty (by simpa using hne) y.sender
        omega
      have := ((VectorClock.isReady_iff_next hne).1 h.1).1
      omega
    · exact lt_of_le_of_lt (VectorClock.count_le_merge vc m.vectorClock _) (ReadyRun.lt_number hpos h.2 hy)

/-- Messages released as ready are in causal order. -/
theorem ReadyRun.pairwise : ∀ {ms : List Message} {vc : VectorClock}, ReadyRun vc ms →
    (∀ m ∈ ms, 1 ≤ m.stamp m.sender) → ms.Pairwise fun x y => ¬ y.Before x
  | [], _, _, _ => .nil
  | m :: ms, vc, h, hpos => by
    refine List.pairwise_cons.2 ⟨fun y hy hb => ?_, ReadyRun.pairwise h.2 fun x hx => hpos x (by simp [hx])⟩
    have hy1 := hpos y (by simp [hy])
    have hlt := h.2.lt_number hy1 hy
    have hle := hb.1 y.sender
    have hmerge : y.stamp y.sender ≤ (vc.merge m.vectorClock).count y.sender :=
      (VectorClock.le_count_merge (by omega)).2 (.inr hle)
    omega

/-- What a drain releases in time, and the rest of what is not late. -/
theorem drain_split (h : HoldBackQueue) (now : Time) (vc : VectorClock) :
    ∃ ms, (h.drain now vc).released = (h.queue.filter (h.Late now ·)).map Prod.snd ++ ms ∧
      ReadyRun (h.clockAfterLate now vc) ms ∧
      (ms ++ (h.drain now vc).queue.map Prod.snd).Perm ((h.queue.filter (¬ h.Late now ·)).map Prod.snd) := by
  simp only [drain, sweep_expired]
  exact ⟨_, rfl, drainLoop_readyRun _ _ _, drainLoop_perm _ _ _⟩

/-- A drain keeps the causal order: no message comes ahead of one that
happens before it, and none is released by the timeout while one that
happens before it is still waiting. -/
structure KeepsOrder (h : HoldBackQueue) (now : Time) (vc : VectorClock) : Prop where
  released : (h.drain now vc).released.Pairwise fun x y => ¬ y.Before x
  waiting : ∀ l₁ m l₂, (h.drain now vc).released = l₁ ++ m :: l₂ → l₁.length < (h.queue.filter (h.Late now ·)).length →
    ∀ x ∈ l₂ ++ (h.drain now vc).queue.map Prod.snd, ¬ x.Before m

/-- The late entries have come in causal order, and no entry that happens
before a late one is in time. -/
def LateInOrder (h : HoldBackQueue) (now : Time) : Prop :=
  h.queue.Pairwise fun e e' =>
    (h.Late now e → ¬ e'.2.Before e.2) ∧ (h.Late now e' → e.2.Before e'.2 → h.Late now e)

variable {h : HoldBackQueue} {now : Time} {vc : VectorClock}

/-- When a late message is released, what is in time is still waiting. -/
theorem KeepsOrder.in_time (hk : h.KeepsOrder now vc) {e e' : Entry} (he : e ∈ h.queue) (hlate : h.Late now e)
    (he' : e' ∈ h.queue) (htime : ¬ h.Late now e') : ¬ e'.2.Before e.2 := by
  obtain ⟨ms, hrel, -, hperm⟩ := drain_split h now vc
  have hin : e ∈ h.queue.filter (h.Late now ·) := List.mem_filter.2 ⟨he, decide_eq_true hlate⟩
  obtain ⟨l₁, l₂, hsplit⟩ := List.append_of_mem hin
  refine hk.waiting (l₁.map Prod.snd) e.2 (l₂.map Prod.snd ++ ms) ?_ ?_ e'.2 ?_
  · rw [hrel, hsplit]
    simp
  · rw [hsplit]
    simp
  · have hmem := hperm.mem_iff.2 (List.mem_map_of_mem (f := Prod.snd) (List.mem_filter.2 ⟨he', decide_eq_true htime⟩))
    rw [List.append_assoc]
    exact List.mem_append_right _ hmem

theorem KeepsOrder.lateInOrder (hk : h.KeepsOrder now vc) : h.LateInOrder now := by
  refine List.pairwise_iff_forall_sublist.2 fun {e e'} hsub => ?_
  have he : e ∈ h.queue := hsub.subset (by simp)
  have he' : e' ∈ h.queue := hsub.subset (by simp)
  refine ⟨fun hlate => ?_, fun hlate hb => by_contra fun htime => hk.in_time he' hlate he htime hb⟩
  by_cases hlate' : h.Late now e'
  · obtain ⟨ms, hrel, -, -⟩ := drain_split h now vc
    have hfil : List.Sublist [e, e'] (h.queue.filter (h.Late now ·)) := by
      simpa [hlate, hlate'] using hsub.filter (h.Late now ·)
    obtain ⟨r₁, r₂, hsplit, hin, hin'⟩ := List.cons_sublist_iff.1 hfil
    obtain ⟨l₁, l₂, rfl⟩ := List.append_of_mem hin
    refine hk.waiting (l₁.map Prod.snd) e.2 ((l₂ ++ r₂).map Prod.snd ++ ms) ?_ ?_ e'.2 ?_
    · rw [hrel, hsplit]
      simp
    · rw [hsplit]
      simp
    · have hmem : e'.2 ∈ (l₂ ++ r₂).map Prod.snd :=
        List.mem_map_of_mem (List.mem_append_right _ (List.singleton_sublist.1 hin'))
      exact List.mem_append_left _ (List.mem_append_left _ hmem)
  · exact hk.in_time he hlate he' hlate'

theorem LateInOrder.late (ho : h.LateInOrder now) :
    (h.queue.filter (h.Late now ·)).Pairwise fun e e' => ¬ e'.2.Before e.2 := by
  refine (List.Pairwise.filter _ ho).imp_of_mem fun {e e'} he _ hee' => ?_
  exact hee'.1 (by simpa using (List.mem_filter.1 he).2)

theorem LateInOrder.in_time (ho : h.LateInOrder now) {e e' : Entry} (he : e ∈ h.queue.filter (h.Late now ·))
    (he' : e' ∈ h.queue.filter (¬ h.Late now ·)) : ¬ e'.2.Before e.2 := by
  obtain ⟨hin, hlate⟩ : e ∈ h.queue ∧ h.Late now e := by simpa using he
  obtain ⟨hin', htime⟩ : e' ∈ h.queue ∧ ¬ h.Late now e' := by simpa using he'
  intro hb
  obtain ⟨q₁, q₂, hq⟩ := List.append_of_mem hin'
  rw [LateInOrder, hq, List.pairwise_append, List.pairwise_cons] at ho
  obtain ⟨-, ⟨hafter, -⟩, hbefore⟩ := ho
  rw [hq, List.mem_append, List.mem_cons] at hin
  rcases hin with hin | rfl | hin
  · exact (hbefore e hin e' (by simp)).1 hlate hb
  · exact htime hlate
  · exact htime ((hafter e hin).2 hlate hb)

/-- **When a drain keeps the causal order.** -/
theorem drain_keepsOrder_iff (hst : ∀ e ∈ h.queue, e.2.Stamped) :
    h.KeepsOrder now vc ↔ h.LateInOrder now := by
  refine ⟨KeepsOrder.lateInOrder, fun ho => ?_⟩
  obtain ⟨ms, hrel, hrun, hperm⟩ := drain_split h now vc
  have hrest : ∀ x ∈ ms ++ (h.drain now vc).queue.map Prod.snd,
      ∀ e ∈ h.queue.filter (h.Late now ·), ¬ x.Before e.2 := by
    intro x hx e he
    obtain ⟨e', he', rfl⟩ := List.mem_map.1 (hperm.mem_iff.1 hx)
    exact ho.in_time he he'
  constructor
  · rw [hrel]
    refine List.pairwise_append.2 ⟨List.pairwise_map.2 ho.late, hrun.pairwise fun m hm => ?_, fun x hx y hy => ?_⟩
    · obtain ⟨e, he, rfl⟩ := List.mem_map.1 (hperm.mem_iff.1 (List.mem_append_left _ hm))
      exact (hst e (List.mem_of_mem_filter he)).number_pos
    · obtain ⟨e, he, rfl⟩ := List.mem_map.1 hx
      exact hrest y (List.mem_append_left _ hy) e he
  · intro l₁ m l₂ heq hlen x hx
    -- the message is one of the late entries, and what follows it is the rest of them
    obtain ⟨b₁, e, b₂, hsplit, rfl, rfl⟩ : ∃ b₁ e b₂, h.queue.filter (h.Late now ·) = b₁ ++ e :: b₂ ∧
        m = e.2 ∧ l₂ = b₂.map Prod.snd ++ ms := by
      rw [hrel] at heq
      rcases List.append_eq_append_iff.1 heq with ⟨as, rfl, -⟩ | ⟨bs, hbs, hrest⟩
      · simp at hlen
      · obtain ⟨b₁, b', hb, rfl, rfl⟩ := List.map_eq_append_iff.1 hbs
        cases b' with
        | nil =>
          rw [hb] at hlen
          simp at hlen
        | cons e b₂ =>
          simp only [List.map_cons, List.cons_append, List.cons.injEq] at hrest
          exact ⟨b₁, e, b₂, hb, hrest.1, hrest.2⟩
    have hin : e ∈ h.queue.filter (h.Late now ·) := by
      rw [hsplit]
      simp
    rw [List.append_assoc, List.mem_append] at hx
    rcases hx with hx | hx
    · obtain ⟨e', he', rfl⟩ := List.mem_map.1 hx
      have hlate := ho.late
      rw [hsplit, List.pairwise_append, List.pairwise_cons] at hlate
      exact hlate.2.1.1 e' he'
    · exact hrest x hx e hin

theorem stamp_nth (n : Int) (k : String) : (nth n).stamp k = if k = "a:1" then n else 0 :=
  Dict.getD_set _ _ _ _ _

theorem nth_before_iff {m n : Int} : (nth m).Before (nth n) ↔ m < n := by
  simp only [Message.Before, stamp_nth]
  constructor
  · rintro ⟨-, k, hk⟩
    split at hk
    · exact hk
    · omega
  · intro hlt
    refine ⟨fun k => ?_, "a:1", by simpa using hlt⟩
    split <;> omega

/-- The broadcasts of `a:1`. -/
def broadcasts (ns : List Int) : List BroadcastNode.Call := ns.map fun n => .doBroadcast ⟨false, none, []⟩ (nth n)

theorem stamped_nth_two : (nth 2).Stamped := ⟨5, broadcasts [1], nth 2, by decide +kernel⟩

theorem stamped_nth_three : (nth 3).Stamped := ⟨5, broadcasts [1, 2], nth 3, by decide +kernel⟩

/-- The first message is lost; the others came in order, and time out in order. -/
theorem drain_keepsOrder_lost :
    let h : HoldBackQueue := ⟨[(0, nth 2), (1, nth 3)], 5⟩
    (h.drain 10 Dict.empty).released = [nth 2, nth 3] ∧ h.KeepsOrder 10 Dict.empty := by
  refine ⟨by decide +kernel, (drain_keepsOrder_iff ?_).2 ?_⟩
  · intro e he
    simp only [List.mem_cons, List.not_mem_nil, or_false] at he
    rcases he with rfl | rfl
    · exact stamped_nth_two
    · exact stamped_nth_three
  · simp [LateInOrder, nth_before_iff, Late]

/-- The first message is lost; the second came after the third, which times
out ahead of it. -/
theorem overtaken_by_timeout :
    let h : HoldBackQueue := ⟨[(0, nth 3), (1, nth 2)], 5⟩
    (∀ e ∈ h.queue, e.2.Stamped) ∧ (h.drain 10 Dict.empty).released = [nth 3, nth 2] ∧
      (nth 2).Before (nth 3) ∧ ¬ h.KeepsOrder 10 Dict.empty := by
  have hb : (nth 2).Before (nth 3) := nth_before_iff.2 (by decide)
  have hrel : (HoldBackQueue.drain ⟨[(0, nth 3), (1, nth 2)], 5⟩ 10 Dict.empty).released = [nth 3, nth 2] := by
    decide +kernel
  refine ⟨?_, hrel, hb, fun hk => ?_⟩
  · intro e he
    simp only [List.mem_cons, List.not_mem_nil, or_false] at he
    rcases he with rfl | rfl
    · exact stamped_nth_three
    · exact stamped_nth_two
  · have hpair := hk.released
    rw [hrel] at hpair
    simp [hb] at hpair

end HoldBackQueue

end PeerChat
