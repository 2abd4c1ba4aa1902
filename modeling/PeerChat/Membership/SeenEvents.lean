/-
What the gossip memory and the join guard remember
(`GossipDispatcher._mark_seen` of `peer_discovery/network/gossip.py`,
`DuplicateGuard` of `peer_discovery/membership/duplicate_guard.py`).

Both drop the oldest entry when they are full, but only the first one
refreshes an entry that it finds. `memories_exact`: an id is remembered until
`MAX_SEEN_EVENTS` other ids were marked after it, a key of the guard until
`window_size` keys were inserted after it.
-/
import PeerChat.Lib.Recent
import PeerChat.Membership.Gossip

namespace PeerChat.Membership

open Lib

/-- The memory after a sequence of calls of `_mark_seen`. -/
def marked (ids : List String) : List String := ids.foldl (fun seen id => (markSeen seen id).1) []

/-- `clear`. -/
def DuplicateGuard.clear (g : DuplicateGuard) : DuplicateGuard := { g with recent := [] }

/-- A call of the guard. -/
inductive GuardCall
  | isDuplicate (userId eventType : String)
  | clear
  deriving DecidableEq, Repr

/-- A guard, with the keys it has inserted since it was last cleared. -/
structure GuardRun where
  guard : DuplicateGuard
  inserted : List (String × String)

namespace GuardRun

/-- A guard that has just been constructed. -/
def new (windowSize : Nat) : GuardRun := ⟨⟨[], windowSize⟩, []⟩

def step (r : GuardRun) : GuardCall → GuardRun
  | .isDuplicate userId eventType =>
    match r.guard.isDuplicate userId eventType with
    | (g, true) => ⟨g, r.inserted⟩
    | (g, false) => ⟨g, r.inserted ++ [(userId, eventType)]⟩
  | .clear => ⟨r.guard.clear, []⟩

def run (windowSize : Nat) (calls : List GuardCall) : GuardRun := calls.foldl step (.new windowSize)

/-- The guard holds the keys that were inserted last. -/
structure OK (windowSize : Nat) (r : GuardRun) : Prop where
  window : r.guard.windowSize = windowSize
  recent : r.guard.recent = r.inserted.rtake windowSize

variable {w : Nat} {r : GuardRun}

theorem isDuplicate_iff (h : r.OK w) (u t : String) :
    (r.guard.isDuplicate u t).2 = true ↔ (u, t) ∈ r.inserted.rtake w := by
  rw [DuplicateGuard.isDuplicate, h.recent]
  split
  · next hmem => exact iff_of_true rfl hmem
  · next hmem => exact iff_of_false Bool.false_ne_true hmem

theorem OK.step (h : r.OK w) (c : GuardCall) : (r.step c).OK w := by
  cases c with
  | isDuplicate u t =>
    by_cases hmem : (u, t) ∈ r.guard.recent
    · have hcall : r.guard.isDuplicate u t = (r.guard, true) := by simp [DuplicateGuard.isDuplicate, hmem]
      simp only [GuardRun.step, hcall]
      exact ⟨h.window, h.recent⟩
    · have hcall : r.guard.isDuplicate u t =
          ({ r.guard with recent := Recent.enter w r.guard.recent (u, t) }, false) := by
        simp [DuplicateGuard.isDuplicate, hmem, Recent.enter, Recent.trim, h.window]
      simp only [GuardRun.step, hcall]
      refine ⟨h.window, ?_⟩
      show Recent.enter w r.guard.recent (u, t) = _
      rw [h.recent] at hmem ⊢
      exact Recent.enter_rtake hmem
  | clear => exact ⟨h.window, by simp [GuardRun.step, DuplicateGuard.clear]⟩

theorem ok_run (w : Nat) (calls : List GuardCall) : (run w calls).OK w := by
  induction calls using List.reverseRecOn with
  | nil => exact ⟨rfl, by simp [run, new]⟩
  | append_singleton calls c ih =>
    rw [run, List.foldl_append, List.foldl_cons, List.foldl_nil]
    exact ih.step c

end GuardRun

theorem markSeen_eq (seen : List String) (id : String) :
    markSeen seen id = (Recent.touch maxSeenEvents seen id, decide (id ∈ seen)) := by
  unfold markSeen Recent.touch Recent.trim
  by_cases h : id ∈ seen
  · simp only [h, if_true, decide_true]
  · simp only [h, if_false, decide_false]

theorem marked_eq (ids : List String) : marked ids = Recent.remembered maxSeenEvents ids := by
  simp only [marked, Recent.remembered, markSeen_eq]

/-- **The gossip memory is an LRU and the join guard a FIFO window.** -/
theorem memories_exact (ids : List String) (x : String) (windowSize : Nat) (calls : List GuardCall)
    (userId eventType : String) :
    ((markSeen (marked ids) x).2 = true ↔
      ∃ before after, ids = before ++ x :: after ∧ x ∉ after ∧ after.toFinset.card < maxSeenEvents) ∧
    (marked ids).length ≤ maxSeenEvents ∧
    (((GuardRun.run windowSize calls).guard.isDuplicate userId eventType).2 = true ↔
      ∃ before after, (GuardRun.run windowSize calls).inserted = before ++ (userId, eventType) :: after ∧
        (userId, eventType) ∉ after ∧ after.length < windowSize) ∧
    (GuardRun.run windowSize calls).guard.recent.length ≤ windowSize := by
  have hok := GuardRun.ok_run windowSize calls
  refine ⟨?_, ?_, ?_, ?_⟩
  · rw [markSeen_eq, marked_eq, decide_eq_true_iff]
    exact Recent.mem_remembered_iff
  · rw [marked_eq]
    exact Recent.length_remembered_le _ _
  · rw [GuardRun.isDuplicate_iff hok]
    exact Recent.mem_rtake_iff
  · rw [hok.recent, Recent.length_rtake]
    exact min_le_left _ _

/-- A key that is found again is refreshed by the first memory only. -/
example : Recent.touch 2 (Recent.touch 2 ["a", "b"] "a") "c" = ["a", "c"] ∧
    Recent.enter 2 (Recent.enter 2 ["a", "b"] "a") "c" = ["b", "c"] := by decide

end PeerChat.Membership
