/-
Messages and vector clocks (`distribution/message.py`,
`distribution/vector_clock.py`): what a clock counts, when a message is
causally ready for it, and that merging a ready stamp counts exactly that
message (`VectorClock.Tracks.merge`).

Times and timestamps are integers, counts of a unit in which every reading
of the clocks the code uses is a whole number.
-/
import PeerChat.Lib.Dict
import PeerChat.Lib.Causal

namespace PeerChat

open Lib

/-- A clock reading. -/
abbrev Time := Int

/-- A mapping from node address to counter; an absent address counts 0. -/
abbrev VectorClock := Dict String Int

/-- `Message`, the chat message of the gossip network. -/
structure Message where
  content : String
  /-- `host:port` of the originating node. -/
  sender : String
  id : String
  timestamp : Time
  signature : String
  ttl : Int
  vectorClock : VectorClock
  deriving DecidableEq, Repr

namespace VectorClock

/-- `VectorClock.increment`. -/
def increment (vc : VectorClock) (nodeId : String) : VectorClock :=
  Dict.set vc nodeId (Dict.getD vc nodeId 0 + 1)

/-- `VectorClock.merge`: the larger count at every address of `other`. -/
def merge (vc other : VectorClock) : VectorClock :=
  Dict.updateWith (fun cur count => max (cur.getD 0) count) vc other

/-- `VectorClock.is_ready`: the next message of its sender, with every
other count already reached. A message without a clock is always ready. -/
def isReady (vc : VectorClock) (msg : Message) : Bool :=
  if msg.vectorClock.items.isEmpty then true
  else if Dict.getD msg.vectorClock msg.sender 0 ≠ Dict.getD vc msg.sender 0 + 1 then false
  else msg.vectorClock.items.all fun p => p.1 = msg.sender || decide (p.2 ≤ Dict.getD vc p.1 0)

/-- The count at an address. -/
def count (vc : VectorClock) (node : String) : Int := Dict.getD vc node 0

@[simp] theorem count_empty (node : String) : count Dict.empty node = 0 := rfl

theorem count_increment (vc : VectorClock) (a t : String) :
    (vc.increment a).count t = if t = a then vc.count a + 1 else vc.count t :=
  Dict.getD_set vc a t _ 0

theorem count_merge (vc other : VectorClock) (t : String) :
    (vc.merge other).count t =
      match Dict.get? other t with
      | none => vc.count t
      | some n => max (vc.count t) n := by
  unfold count merge Dict.getD
  rw [Dict.get?_updateWith]
  cases Dict.get? other t <;> rfl

theorem count_le_merge (vc other : VectorClock) (t : String) : vc.count t ≤ (vc.merge other).count t := by
  rw [count_merge]
  split
  · exact le_rfl
  · exact le_max_left _ _

theorem count_merge_eq {vc other : VectorClock} {t : String} (h0 : 0 ≤ vc.count t) :
    (vc.merge other).count t = max (vc.count t) (other.count t) := by
  rw [count_merge]
  unfold count Dict.getD at *
  cases Dict.get? other t with
  | none => exact (max_eq_left h0).symm
  | some n => rfl

/-- Above zero, a merge has the counts of either clock and no others. -/
theorem le_count_merge {vc other : VectorClock} {t : String} {k : Int} (hpos : 0 < k) :
    k ≤ (vc.merge other).count t ↔ k ≤ vc.count t ∨ k ≤ other.count t := by
  rw [count_merge, count, count, Dict.getD, Dict.getD]
  cases Dict.get? other t with
  | none =>
    simp only [Option.getD_none]
    omega
  | some n =>
    simp only [Option.getD_some]
    exact le_max_iff

end VectorClock

/-- The stamp of a message, as a function of the address. -/
def Message.stamp (m : Message) (t : String) : Int := m.vectorClock.count t

/-- The clock counts the messages of a log by their senders. -/
def VectorClock.Tracks (vc : VectorClock) (log : List Message) : Prop :=
  ∀ s, vc.count s = delivered Message.sender log s

theorem VectorClock.Tracks.nil : VectorClock.Tracks Dict.empty [] := fun _ => rfl

theorem VectorClock.Tracks.nonneg {vc : VectorClock} {log : List Message} (h : vc.Tracks log) (s : String) :
    0 ≤ vc.count s := by
  rw [h s]
  exact delivered_nonneg _ _ _

theorem Message.count_eq_zero_of_isEmpty {m : Message} (h : m.vectorClock.items.isEmpty = true) (t : String) :
    m.stamp t = 0 := by
  have hi : m.vectorClock.items = [] := List.isEmpty_iff.1 h
  unfold Message.stamp VectorClock.count Dict.getD Dict.get?
  rw [hi]
  rfl

/-- For a clock that tracks a log and a stamp that is not empty,
`is_ready` is readiness for the log. -/
theorem VectorClock.isReady_iff {vc : VectorClock} {log : List Message} (h : vc.Tracks log) {m : Message}
    (hne : m.vectorClock.items.isEmpty = false) :
    vc.isReady m = true ↔ Ready Message.sender Message.stamp (delivered Message.sender log) m := by
  have hs : Dict.getD vc m.sender 0 = delivered Message.sender log m.sender := h m.sender
  simp only [isReady, hne, Bool.false_eq_true, if_false]
  by_cases hseq : Dict.getD m.vectorClock m.sender 0 = Dict.getD vc m.sender 0 + 1
  · simp only [hseq, ne_eq, not_true, if_false, List.all_eq_true, Bool.or_eq_true, decide_eq_true_eq]
    constructor
    · refine fun hall => ⟨by rw [← hs]; exact hseq, fun t ht => ?_⟩
      rw [← h t]
      cases hg : Dict.get? m.vectorClock t with
      | none =>
        have h0 : m.stamp t = 0 := by simp [Message.stamp, count, Dict.getD, hg]
        rw [h0]
        exact h.nonneg t
      | some n =>
        have hn : m.stamp t = n := by simp [Message.stamp, count, Dict.getD, hg]
        rw [hn]
        rcases hall (t, n) ((Dict.mem_items_iff _).2 hg) with he | hle
        · exact absurd he ht
        · exact hle
    · rintro ⟨-, ho⟩ ⟨t, n⟩ hmem
      by_cases ht : t = m.sender
      · exact .inl ht
      · right
        have hn : m.stamp t = n := by
          simp [Message.stamp, count, Dict.getD, (Dict.mem_items_iff _).1 hmem]
        have := ho t ht
        rw [hn, ← h t] at this
        exact this
  · simp only [hseq, ne_eq, not_false_eq_true, if_true, Bool.false_eq_true, false_iff]
    intro hex
    obtain ⟨hr, -⟩ := hex
    exact hseq (by rw [hs]; exact hr)

/-- Merging a ready stamp counts the message and nothing else. -/
theorem VectorClock.Tracks.merge {vc : VectorClock} {log : List Message} (h : vc.Tracks log) {m : Message}
    (hr : Ready Message.sender Message.stamp (delivered Message.sender log) m) :
    (vc.merge m.vectorClock).Tracks (log ++ [m]) := by
  intro s
  rw [count_merge_eq (h.nonneg s), delivered_append, delivered_singleton, h s]
  by_cases hs : m.sender = s
  · subst hs
    have : m.vectorClock.count m.sender = delivered Message.sender log m.sender + 1 := hr.1
    rw [this, if_pos rfl]
    omega
  · have : m.vectorClock.count s ≤ delivered Message.sender log s := hr.2 s (Ne.symm hs)
    rw [if_neg hs]
    omega

/-- Incrementing the own entry counts an own message. -/
theorem VectorClock.Tracks.increment {vc : VectorClock} {log : List Message} (h : vc.Tracks log) {m : Message} :
    (vc.increment m.sender).Tracks (log ++ [m]) := by
  intro s
  rw [count_increment, delivered_append, delivered_singleton, h, h]
  by_cases hs : m.sender = s
  · subst hs; simp
  · simp [hs, Ne.symm hs]

end PeerChat
