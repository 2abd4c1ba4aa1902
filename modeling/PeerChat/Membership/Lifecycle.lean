/-
The life of a member in the snapshot (`MembershipSnapshot.apply_event`).

Of the events given to a snapshot some are applied, and those of one user
walk the user through the table of allowed states. `Lived` says what the
walk has been when it stands at a state: what came since the last accepted
join. `active_is_backfilled`: a member is active only after its backfill
has started and completed, with every suspicion taken back and no leave.
-/
import PeerChat.Membership.Ledger

namespace PeerChat.Membership

open Lib

/-- The events of a list that pass the stale and the transition check of
`apply_event`, each in the snapshot it meets. -/
def appliedEvents : Snapshot → List MembershipEvent → List MembershipEvent
  | _, [] => []
  | s, e :: es => (if s.Accepts e then [e] else []) ++ appliedEvents (s.applyEvent e).1 es

/-- The events of a list since its last accepted join, which none of them
ends. -/
structure Since (es since : List MembershipEvent) : Prop where
  joined : ∃ before join, es = before ++ join :: since ∧ join.eventType = .joinAccepted
  stays : ∀ e ∈ since, e.eventType ≠ .joinAccepted ∧ e.eventType ≠ .leaveRequested ∧
    e.eventType ≠ .leaveConfirmed ∧ e.eventType ≠ .disconnectTimeout

/-- Every suspicion is followed by a reconnection. -/
def Answered (es : List MembershipEvent) : Prop :=
  ∀ before suspicion after, es = before ++ suspicion :: after → suspicion.eventType = .disconnectSuspected →
    ∃ e ∈ after, e.eventType = .reconnected

/-- A backfill starts, and later completes. -/
def Backfilled (es : List MembershipEvent) : Prop :=
  [EventType.historyBackfillStarted, .historyBackfillComplete].Sublist (es.map (·.eventType))

/-- What has been applied of the events of a user in a state. -/
def Lived (es : List MembershipEvent) : Option MemberState → Prop
  | some .joining => ∃ since, Since es since ∧ Answered since
  | some .backfilling =>
    ∃ since, Since es since ∧ Answered since ∧ .historyBackfillStarted ∈ since.map (·.eventType)
  | some .active => ∃ since, Since es since ∧ Answered since ∧ Backfilled since
  | some .suspected => ∃ since, Since es since ∧ Backfilled since
  | some .disconnected | some .leaving | some .left | none => True

variable {s : Snapshot} {es since : List MembershipEvent} {e : MembershipEvent}

theorem Since.join (h : e.eventType = .joinAccepted) : Since (es ++ [e]) [] :=
  ⟨⟨es, e, rfl, h⟩, by simp⟩

theorem Since.snoc (h : Since es since) (he : e.eventType ≠ .joinAccepted ∧ e.eventType ≠ .leaveRequested ∧
    e.eventType ≠ .leaveConfirmed ∧ e.eventType ≠ .disconnectTimeout) : Since (es ++ [e]) (since ++ [e]) := by
  obtain ⟨before, join, rfl, hj⟩ := h.joined
  refine ⟨⟨before, join, by simp, hj⟩, fun x hx => ?_⟩
  rcases List.mem_append.1 hx with hx | hx
  · exact h.stays x hx
  · rw [List.mem_singleton.1 hx]
    exact he

theorem Answered.nil : Answered [] := by
  intro before suspicion after h _
  simp at h

/-- Where an element stands in a list with one element more. -/
theorem split_snoc {before after : List MembershipEvent} {x : MembershipEvent} (h : es ++ [e] = before ++ x :: after) :
    (x = e ∧ after = []) ∨ ∃ rest, after = rest ++ [e] ∧ es = before ++ x :: rest := by
  rcases List.eq_nil_or_concat after with rfl | ⟨rest, y, rfl⟩
  · obtain ⟨-, hlast⟩ := List.append_inj' h rfl
    simp only [List.cons.injEq, and_true] at hlast
    exact .inl ⟨hlast.symm, rfl⟩
  · have h' : es ++ [e] = (before ++ x :: rest) ++ [y] := by simpa using h
    obtain ⟨hinit, hlast⟩ := List.append_inj' h' rfl
    simp only [List.cons.injEq, and_true] at hlast
    exact .inr ⟨rest, by rw [hlast, List.concat_eq_append], hinit⟩

/-- A reconnection answers all that came before it. -/
theorem Answered.reconnected (es : List MembershipEvent) (he : e.eventType = .reconnected) :
    Answered (es ++ [e]) := by
  intro before suspicion after h hs
  obtain ⟨rfl, -⟩ | ⟨rest, rfl, -⟩ := split_snoc h
  · rw [hs] at he
    cases he
  · exact ⟨e, by simp, he⟩

theorem Answered.snoc (h : Answered es) (he : e.eventType ≠ .disconnectSuspected) : Answered (es ++ [e]) := by
  intro before suspicion after heq hs
  obtain ⟨rfl, -⟩ | ⟨rest, rfl, heq'⟩ := split_snoc heq
  · exact absurd hs he
  · obtain ⟨r, hr, ht⟩ := h before suspicion rest heq' hs
    exact ⟨r, by simp [hr], ht⟩

theorem Backfilled.snoc (h : Backfilled es) : Backfilled (es ++ [e]) := by
  rw [Backfilled, List.map_append]
  exact List.Sublist.trans h (List.sublist_append_left _ _)

theorem Backfilled.complete (h : .historyBackfillStarted ∈ es.map (·.eventType))
    (he : e.eventType = .historyBackfillComplete) : Backfilled (es ++ [e]) := by
  rw [Backfilled, List.map_append, List.map_singleton, he]
  exact (List.singleton_sublist.2 h).append (List.Sublist.refl _)

/-! ## One event -/

/-- An event that is in no row of the table leaves its user where it was. -/
theorem Lived.idle {c : Option MemberState} (h : Lived es c)
    (he : e.eventType = .joinRequested ∨ e.eventType = .joinRejected ∨ e.eventType = .heartbeat) :
    Lived (es ++ [e]) c := by
  have hstay : e.eventType ≠ .joinAccepted ∧ e.eventType ≠ .leaveRequested ∧
      e.eventType ≠ .leaveConfirmed ∧ e.eventType ≠ .disconnectTimeout := by
    rcases he with he | he | he <;> simp [he]
  have hsus : e.eventType ≠ .disconnectSuspected := by rcases he with he | he | he <;> simp [he]
  match c, h with
  | some .joining, ⟨since, h, ha⟩ => exact ⟨_, h.snoc hstay, ha.snoc hsus⟩
  | some .backfilling, ⟨since, h, ha, hb⟩ =>
    refine ⟨_, h.snoc hstay, ha.snoc hsus, ?_⟩
    rw [List.map_append]
    exact List.mem_append_left _ hb
  | some .active, ⟨since, h, ha, hb⟩ => exact ⟨_, h.snoc hstay, ha.snoc hsus, hb.snoc⟩
  | some .suspected, ⟨since, h, hb⟩ => exact ⟨_, h.snoc hstay, hb.snoc⟩
  | some .disconnected, _ | some .leaving, _ | some .left, _ | none, _ => trivial

/-- The state from which an event of the table is allowed. -/
theorem from_of_valid {t : EventType} {c : Option MemberState} {m : MemberState}
    (ht : allowedFromStates t = some [m]) (h : isTransitionValid t c = true) : c = some m := by
  revert ht h
  cases t <;> cases m <;> rcases c with _ | (_ | _ | _ | _ | _ | _ | _) <;> decide

/-- An allowed event takes the life of its user on. -/
theorem Lived.event {c : Option MemberState} (h : Lived es c) (hv : isTransitionValid e.eventType c = true) :
    Lived (es ++ [e]) (target e.eventType c) := by
  cases ht : e.eventType with
  | joinRequested => exact h.idle (by simp [ht])
  | joinRejected => exact h.idle (by simp [ht])
  | heartbeat => exact h.idle (by simp [ht])
  | joinAccepted => exact ⟨[], .join ht, .nil⟩
  | leaveRequested => trivial
  | leaveConfirmed => trivial
  | disconnectTimeout => trivial
  | historyBackfillStarted =>
    obtain rfl := from_of_valid (m := .joining) (by rw [ht]; rfl) hv
    obtain ⟨since, hs, ha⟩ := h
    exact ⟨_, hs.snoc (by simp [ht]), ha.snoc (by simp [ht]), by simp [ht]⟩
  | historyBackfillComplete =>
    obtain rfl := from_of_valid (m := .backfilling) (by rw [ht]; rfl) hv
    obtain ⟨since, hs, ha, hb⟩ := h
    exact ⟨_, hs.snoc (by simp [ht]), ha.snoc (by simp [ht]), .complete hb ht⟩
  | disconnectSuspected =>
    obtain rfl := from_of_valid (m := .active) (by rw [ht]; rfl) hv
    obtain ⟨since, hs, -, hb⟩ := h
    exact ⟨_, hs.snoc (by simp [ht]), hb.snoc⟩
  | reconnected =>
    obtain rfl := from_of_valid (m := .suspected) (by rw [ht]; rfl) hv
    obtain ⟨since, hs, hb⟩ := h
    exact ⟨_, hs.snoc (by simp [ht]), .reconnected _ ht, hb.snoc⟩

/-- One event, for every user. -/
theorem Lived.applyEvent {past : List MembershipEvent}
    (h : ∀ u, Lived (past.filter (·.userId = u)) (s.stateOf u)) (e : MembershipEvent) (u : String) :
    Lived ((past ++ if s.Accepts e then [e] else []).filter (·.userId = u)) ((s.applyEvent e).1.stateOf u) := by
  by_cases ha : s.Accepts e
  · rw [Snapshot.stateOf_applyEvent, if_pos ha, List.filter_append]
    by_cases hu : u = e.userId
    · subst hu
      have hstep := (h e.userId).event ha.2
      simp only [ha.1, and_self, if_true, transition, ha.2, List.filter_singleton, decide_true]
      exact hstep
    · have hne : (e.userId = u) = False := by simp [Ne.symm hu]
      simp only [hu, and_false, if_false, List.filter_singleton, hne, decide_false, cond_false, List.append_nil]
      exact h u
  · rw [Snapshot.applyEvent_of_not_accepts ha, if_neg ha, List.append_nil]
    exact h u

/-! ## All events -/

theorem lived_advance : ∀ (es : List MembershipEvent) (s : Snapshot) (past : List MembershipEvent),
    (∀ u, Lived (past.filter (·.userId = u)) (s.stateOf u)) →
      ∀ u, Lived ((past ++ appliedEvents s es).filter (·.userId = u)) ((advance s es).stateOf u)
  | [], s, past, h, u => by
    rw [appliedEvents, List.append_nil]
    exact h u
  | e :: es, s, past, h, u => by
    have hrest := lived_advance es (s.applyEvent e).1 _ (Lived.applyEvent h e) u
    rw [List.append_assoc] at hrest
    exact hrest

/-- **No member is active without a completed backfill.** The second part is
about the events that are not applied. -/
theorem active_is_backfilled (roomId : String) (es : List MembershipEvent) :
    (∀ u, (advance (.new roomId) es).stateOf u = some .active →
      ∃ before join since,
        (appliedEvents (.new roomId) es).filter (·.userId = u) = before ++ join :: since ∧
        join.eventType = .joinAccepted ∧
        (∀ e ∈ since, e.eventType ≠ .joinAccepted ∧ e.eventType ≠ .leaveRequested ∧
          e.eventType ≠ .leaveConfirmed ∧ e.eventType ≠ .disconnectTimeout) ∧
        Backfilled since ∧ Answered since) ∧
    ∀ es₁ e es₂, es = es₁ ++ e :: es₂ → ¬ (advance (.new roomId) es₁).Accepts e →
      ((advance (.new roomId) es₁).applyEvent e).1 = advance (.new roomId) es₁ := by
  constructor
  · intro u hu
    have h := lived_advance es (.new roomId) [] (fun _ => trivial) u
    rw [hu, List.nil_append] at h
    obtain ⟨since, hs, ha, hb⟩ := h
    obtain ⟨before, join, heq, hj⟩ := hs.joined
    exact ⟨before, join, since, heq, hj, hs.stays, hb, ha⟩
  · intro es₁ e es₂ _ hna
    rw [Snapshot.applyEvent_of_not_accepts hna]

/-- A user that joins, is backfilled, is suspected and comes back. -/
def comeback : List MembershipEvent :=
  [(1, .joinAccepted), (2, .historyBackfillStarted), (2, .historyBackfillComplete), (3, .historyBackfillComplete),
    (4, .disconnectSuspected), (5, .leaveRequested), (6, .reconnected)].map fun p =>
      { seqNo := p.1, roomId := "room", userId := "b:1", eventType := p.2, timestamp := 0
        membershipVersion := p.1, source := "test", term := 1 }

theorem active_is_backfilled_comeback :
    (advance (.new "room") comeback).stateOf "b:1" = some .active ∧
    (∃ before join since, (appliedEvents (.new "room") comeback).filter (·.userId = "b:1") = before ++ join :: since ∧
      join.eventType = .joinAccepted ∧ Backfilled since ∧ Answered since) ∧
    ¬ (advance (.new "room") (comeback.take 5)).Accepts (comeback.get ⟨5, by decide⟩) := by
  have hactive : (advance (.new "room") comeback).stateOf "b:1" = some .active := by decide +kernel
  obtain ⟨before, join, since, heq, hj, -, hb, ha⟩ := (active_is_backfilled "room" comeback).1 "b:1" hactive
  exact ⟨hactive, ⟨before, join, since, heq, hj, hb, ha⟩, by decide +kernel⟩

end PeerChat.Membership
