/-
The causal check of the harness against the live predicate
(`check_peer_log` of `harness/causal_check.py`, `is_ready` and `merge` of
`distribution/vector_clock.py`).

The checker goes on past a breach and keeps its counts in a map that enters
whatever it is asked for; the live clock is a plain one. Both read a clock
only through its counts, and those stay the same record by record
(`checkRecord_agrees`). `checkPeerLog_iff_ready`: the checker finds nothing
exactly when every record was ready at its turn, and reports the clock of
that replay.
-/
import PeerChat.Harness.CausalCheck
import PeerChat.Distribution.Drain

namespace PeerChat.Harness

open Lib HoldBackQueue

/-- The message that a record is about, as far as a clock reads it. -/
def Record.message (record : Record) : Message := ⟨"", record.sender, record.id, record.tsSend, "", 0, record.vc⟩

/-- The second rule finds nothing exactly when every other entry is counted,
and it leaves the counts as they are. -/
theorem dependencyLoop_iff (pod : String) (record : Record) : ∀ (items : List (String × Int)) (d : VectorClock)
    (found : List Violation),
    (∀ t, (dependencyLoop pod record items d found).1.count t = d.count t) ∧
      ((dependencyLoop pod record items d found).2 = [] ↔
        found = [] ∧ ∀ p ∈ items, p.1 ≠ record.sender → p.2 ≤ d.count p.1)
  | [], _, found => by simp [dependencyLoop]
  | p :: items, d, found => by
    simp only [dependencyLoop]
    split
    · next hp =>
      obtain ⟨hcount, hquiet⟩ := dependencyLoop_iff pod record items d found
      refine ⟨hcount, hquiet.trans (and_congr_right fun _ => ?_)⟩
      rw [List.forall_mem_cons]
      exact ⟨fun h => ⟨fun hne => absurd hp hne, h⟩, fun h => h.2⟩
    · next hp =>
      obtain ⟨hcount, hquiet⟩ := dependencyLoop_iff pod record items (touch d p.1)
        (found ++ dependencyViolation pod d record p)
      have hone : dependencyViolation pod d record p = [] ↔ p.2 ≤ d.count p.1 := by
        unfold dependencyViolation
        split
        · next hgt => exact ⟨fun h => by simp at h, fun h => absurd h (not_le.2 hgt)⟩
        · next hle => exact ⟨fun _ => not_lt.1 hle, fun _ => rfl⟩
      refine ⟨fun t => (hcount t).trans (count_touch d p.1 t), hquiet.trans ?_⟩
      simp only [List.append_eq_nil_iff, hone, count_touch, List.forall_mem_cons, and_assoc]
      refine and_congr_right fun _ => and_congr_left fun _ => ?_
      exact ⟨fun h _ => h, fun h => h hp⟩

/-- **One record**: the rules find nothing exactly when the message is ready,
and the counts afterwards are those of the merge. -/
theorem checkRecord_agrees (pod : String) {r : Replay} {vc : VectorClock} {record : Record}
    (hvc : ∀ t, r.delivered.count t = vc.count t) (hne : record.vc.items.isEmpty = false) :
    ((checkRecord pod r record).violations = [] ↔ r.violations = [] ∧ vc.isReady record.message = true) ∧
      ∀ t, (checkRecord pod r record).delivered.count t = (vc.merge record.vc).count t := by
  obtain ⟨hcount, hquiet⟩ := dependencyLoop_iff pod record record.vc.items (touch r.delivered record.sender) []
  have hfirst : senderViolation pod r.delivered record = [] ↔
      record.vc.count record.sender = vc.count record.sender + 1 := by
    rw [← hvc]
    simp only [senderViolation]
    split
    · next hgot => exact ⟨fun h => by simp at h, fun h => absurd h hgot⟩
    · next hgot => exact ⟨fun _ => not_not.1 hgot, fun _ => rfl⟩
  constructor
  · simp only [checkRecord, List.append_eq_nil_iff, hfirst, hquiet, true_and, count_touch, hvc, and_assoc]
    refine and_congr_right fun _ => ?_
    rw [VectorClock.isReady_iff_next (m := record.message) hne]
    refine and_congr_right fun _ => ⟨fun h t n hg ht => ?_, fun h p hp hs => ?_⟩
    · exact h (t, n) ((Dict.mem_items_iff _).2 hg) ht
    · exact h p.1 p.2 ((Dict.mem_items_iff _).1 hp) hs
  · intro t
    have hd : ∀ t, (dependencyLoop pod record record.vc.items (touch r.delivered record.sender) []).1.count t =
        vc.count t := by
      intro t
      rw [hcount, count_touch, hvc]
    exact (count_advance hd record.vc t).trans (count_raise vc record.vc t)

/-- The loop over a log, from any point of a replay. -/
theorem replay_agrees (pod : String) : ∀ (records : List Record) {r : Replay} {vc : VectorClock},
    (∀ t, r.delivered.count t = vc.count t) → (∀ record ∈ records, record.vc.items.isEmpty = false) →
    ((records.foldl (checkRecord pod) r).violations = [] ↔
      r.violations = [] ∧ ReadyRun vc (records.map Record.message)) ∧
      ∀ t, (records.foldl (checkRecord pod) r).delivered.count t = (vc.mergeAll (records.map Record.message)).count t
  | [], r, vc, hvc, _ => by simpa [ReadyRun, VectorClock.mergeAll] using hvc
  | record :: records, r, vc, hvc, hne => by
    obtain ⟨hone, hcount⟩ := checkRecord_agrees pod hvc (hne record (by simp))
    obtain ⟨hrest, hfinal⟩ := replay_agrees pod records hcount fun x hx => hne x (by simp [hx])
    refine ⟨?_, hfinal⟩
    rw [List.foldl_cons, hrest, hone, and_assoc]
    rfl

/-- **The checker agrees with the live predicate.** -/
theorem checkPeerLog_iff_ready (pod : String) (records : List Record) (baseline : VectorClock)
    (hne : ∀ record ∈ records, record.vc.items.isEmpty = false) :
    ((checkPeerLog pod records baseline).violations = [] ↔ ReadyRun baseline (records.map Record.message)) ∧
      ∀ t, (checkPeerLog pod records baseline).finalClock.count t =
        (baseline.mergeAll (records.map Record.message)).count t := by
  have hstart : ∀ t, (Replay.mk baseline [] ∅ 0).delivered.count t = baseline.count t := fun _ => rfl
  obtain ⟨hquiet, hclock⟩ := replay_agrees pod records hstart hne
  exact ⟨hquiet.trans (and_iff_right rfl), hclock⟩

/-- A log in which the second message of `a:1` came twice. -/
def repeated : List Record :=
  [⟨0, "1", "a:1", (nth 1).vectorClock, 0, 0⟩, ⟨1, "2", "a:1", (nth 2).vectorClock, 0, 0⟩,
    ⟨2, "2", "a:1", (nth 2).vectorClock, 0, 0⟩]

theorem checkPeerLog_iff_ready_repeated :
    ((checkPeerLog "a" repeated Dict.empty).violations = [] ↔ ReadyRun Dict.empty (repeated.map Record.message)) ∧
      (checkPeerLog "a" repeated Dict.empty).violations ≠ [] ∧
      (checkPeerLog "a" repeated Dict.empty).finalClock.count "a:1" = 2 :=
  ⟨(checkPeerLog_iff_ready "a" repeated Dict.empty (by decide +kernel)).1, by decide +kernel, by decide +kernel⟩

end PeerChat.Harness
