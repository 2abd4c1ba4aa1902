/-
What the steps of the coordinator's operations do, as rules for `wp`.

`Sane` is what holds of every coordinator between its steps: events are
numbered in order and the snapshot is not ahead of the log. `Logged` is the
effect of one event, appended and applied: it moves its user along
`transition` and leaves the presence alone.
-/
import PeerChat.Membership.Coordinator

namespace PeerChat.Membership

open Lib

/-- A log and a snapshot that belong together: the numbers given out are
below the next one. -/
structure Numbered (events : List MembershipEvent) (s : Snapshot) (next : Int) : Prop where
  log : ∀ e ∈ events, e.seqNo < next
  snapshot : s.asOfSeqNo < next

/-- The invariant of a coordinator and of its checkpoints. -/
structure Sane (c : Coordinator) : Prop where
  numbered : Numbered c.log.log c.snapshot c.log.nextSeqNo
  files : ∀ k cp, c.durability.files.get? k = some (some cp) → Numbered cp.logTail cp.snapshot cp.nextSeqNo

theorem Sane.new (cfg : Settings) : Sane (.new cfg Dict.empty) where
  numbered := ⟨by simp [Coordinator.new, EventLog.new], by simp [Coordinator.new, EventLog.new, Snapshot.new]⟩
  files k cp h := by simp [Coordinator.new] at h

theorem Numbered.apply {events : List MembershipEvent} {s : Snapshot} {next : Int} (h : Numbered events s next)
    {e : MembershipEvent} (he : e.seqNo = next) :
    Numbered (events ++ [e]) (s.applyEvent e).1 (next + 1) where
  log x hx := by
    rcases List.mem_append.1 hx with hx | hx
    · have := h.log x hx
      omega
    · rw [List.mem_singleton.1 hx]
      omega
  snapshot := by
    have := h.snapshot
    have := Snapshot.asOfSeqNo_applyEvent_le (s := s) (e := e) (n := next) (by omega) (by omega)
    omega

/-- The effect of an event on the coordinator: `out` is what was dispatched
with it. -/
structure Logged (c c' : Coordinator) (e : MembershipEvent) (term : Int)
    (out : List (MembershipEvent × MembershipDelta)) : Prop where
  sane : Sane c'
  seqNo : e.seqNo = c.log.nextSeqNo
  version : e.membershipVersion = c.log.nextSeqNo
  log : c'.log = c.log.push e term
  snapshot : c'.snapshot = (c.snapshot.applyEvent e).1
  nextSeqNo : c'.log.nextSeqNo = c.log.nextSeqNo + 1
  term : c'.log.currentTerm = max term c.log.currentTerm
  state : ∀ v, c'.snapshot.stateOf v =
    if v = e.userId then transition e.eventType (c.snapshot.stateOf v) else c.snapshot.stateOf v
  presence : c'.presence = c.presence
  settings : c'.settings = c.settings
  durability : c'.durability = c.durability
  dispatched : c'.dispatched = c.dispatched ++ out

/-- The steps an event takes have this effect: it is numbered by the log,
pushed and applied. -/
theorem Sane.logged {c : Coordinator} (h : Sane c) (e : MembershipEvent) (term : Int) (r : Nat)
    (out : List (MembershipEvent × MembershipDelta)) (hseq : e.seqNo = c.log.nextSeqNo)
    (hver : e.membershipVersion = c.log.nextSeqNo) :
    Logged c { c with
      log := c.log.push e term
      snapshot := (c.snapshot.applyEvent e).1
      dispatched := c.dispatched ++ out
      reads := r } e term out where
  sane := ⟨h.numbered.apply hseq, h.files⟩
  seqNo := hseq
  version := hver
  log := rfl
  snapshot := rfl
  nextSeqNo := rfl
  term := rfl
  state v := by
    have hlt : c.snapshot.asOfSeqNo < e.seqNo := hseq ▸ h.numbered.snapshot
    simp only [Snapshot.stateOf_applyEvent, hlt, true_and]
  presence := rfl
  settings := rfl
  durability := rfl
  dispatched := rfl

/-! ## The rules -/

variable {clock : Nat → Time} {c : Coordinator}

/-- The delta of an event, if its user is in a state that allows it. -/
def deltaOf (s : Snapshot) (e : MembershipEvent) : Option MembershipDelta :=
  if isTransitionValid e.eventType (s.stateOf e.userId) then (deltaType e.eventType).map (⟨·, e.userId, e⟩) else none

theorem delta_of_newer {s : Snapshot} {e : MembershipEvent} (h : s.asOfSeqNo < e.seqNo) :
    (s.applyEvent e).2 = deltaOf s e := by
  simp only [Snapshot.delta_applyEvent, Snapshot.Accepts, h, true_and, deltaOf]

/-- What is dispatched for an event, with its delta. -/
def deltas (s : Snapshot) (e : MembershipEvent) : List (MembershipEvent × MembershipDelta) :=
  ((deltaOf s e).map fun d => (e, d)).toList

/-- An event appended and applied, without a dispatch. -/
theorem wp_append_apply (h : Sane c) {a : NewEvent} {α : Type} {f : MembershipEvent → Action α}
    {Q : α → Coordinator → Prop} {E : Coordinator → Prop} (hE : a.term < c.log.currentTerm → E c)
    (hQ : ¬ a.term < c.log.currentTerm → ∀ e c', e = c.log.stamp (clock c.reads) a → Logged c c' e a.term [] →
      Prog.wp (exec clock) (f e) Q E c') :
    Prog.wp (exec clock) (do
      let e ← .lift (.append a)
      let _ ← .lift (.applyEvent e)
      f e) Q E c := by
  by_cases ht : a.term < c.log.currentTerm
  · simpa [exec, EventLog.append, ht] using hE ht
  · have hl := h.logged (c.log.stamp (clock c.reads) a) a.term (c.reads + 1) [] rfl rfl
    simp only [List.append_nil] at hl
    simpa [exec, EventLog.append, ht] using hQ ht _ _ rfl hl

/-- An event appended, applied and dispatched. -/
theorem wp_record (h : Sane c) {a : NewEvent} {Q : MembershipEvent → Coordinator → Prop}
    {E : Coordinator → Prop} (hE : a.term < c.log.currentTerm → E c)
    (hQ : ¬ a.term < c.log.currentTerm → ∀ e c', e = c.log.stamp (clock c.reads) a →
      Logged c c' e a.term (deltas c.snapshot e) → Q e c') :
    Prog.wp (exec clock) (record a) Q E c := by
  unfold record
  by_cases ht : a.term < c.log.currentTerm
  · simpa [exec, EventLog.append, ht] using hE ht
  · have hlt : c.snapshot.asOfSeqNo < (c.log.stamp (clock c.reads) a).seqNo := h.numbered.snapshot
    have hl := h.logged (c.log.stamp (clock c.reads) a) a.term (c.reads + 1)
      (deltas c.snapshot (c.log.stamp (clock c.reads) a)) rfl rfl
    have hq := hQ ht _ _ rfl hl
    rw [deltas, ← delta_of_newer hlt] at hq
    simpa [exec, EventLog.append, ht] using hq

/-- An event from another node appended, applied and dispatched. -/
theorem wp_remote (h : Sane c) {event : MembershipEvent} {α : Type} {f : MembershipEvent → Action α}
    {Q : α → Coordinator → Prop} {E : Coordinator → Prop}
    (hQ : ∀ e c', e = c.log.localize event →
      Logged c c' e event.term (deltas c.snapshot e) →
        Prog.wp (exec clock) (f e) Q E c') :
    Prog.wp (exec clock) (do
      let e ← .lift (.appendRemote event)
      let delta ← .lift (.applyEvent e)
      .lift (.dispatch e delta)
      f e) Q E c := by
  have hlt : c.snapshot.asOfSeqNo < (c.log.localize event).seqNo := h.numbered.snapshot
  have hl := h.logged (c.log.localize event) event.term c.reads (deltas c.snapshot (c.log.localize event)) rfl rfl
  have hq := hQ _ _ rfl hl
  rw [deltas, ← delta_of_newer hlt] at hq
  simpa [exec, EventLog.appendRemote] using hq

/-! ## Presence and checkpoints -/

@[simp] theorem watching_log (p : PresenceManager) : (c.watching p).log = c.log := rfl
@[simp] theorem watching_snapshot (p : PresenceManager) : (c.watching p).snapshot = c.snapshot := rfl
@[simp] theorem watching_presence (p : PresenceManager) : (c.watching p).presence = p := rfl
@[simp] theorem watching_settings (p : PresenceManager) : (c.watching p).settings = c.settings := rfl
@[simp] theorem watching_dispatched (p : PresenceManager) : (c.watching p).dispatched = c.dispatched := rfl
@[simp] theorem watching_reads (p : PresenceManager) : (c.watching p).reads = c.reads := rfl
@[simp] theorem watching_self : c.watching c.presence = c := rfl
@[simp] theorem checkpointed_log : c.checkpointed.log = c.log := rfl
@[simp] theorem checkpointed_snapshot : c.checkpointed.snapshot = c.snapshot := rfl
@[simp] theorem checkpointed_presence : c.checkpointed.presence = c.presence := rfl
@[simp] theorem checkpointed_settings : c.checkpointed.settings = c.settings := rfl
@[simp] theorem checkpointed_dispatched : c.checkpointed.dispatched = c.dispatched := rfl
@[simp] theorem checkpointed_reads : c.checkpointed.reads = c.reads := rfl

theorem Sane.watching (h : Sane c) (p : PresenceManager) : Sane (c.watching p) := ⟨h.numbered, h.files⟩

theorem Sane.reading (h : Sane c) (r : Nat) : Sane { c with reads := r } := ⟨h.numbered, h.files⟩

theorem Sane.checkpointed (h : Sane c) : Sane c.checkpointed := by
  refine ⟨h.numbered, fun k cp hk => ?_⟩
  simp only [Coordinator.checkpointed, Durability.maybeCheckpoint] at hk
  split at hk
  · have hk := Dict.get?_of_foldl_erase hk
    rw [Dict.get?_set] at hk
    split at hk
    · cases hk
      refine ⟨fun e he => ?_, ?_⟩
      · have := h.numbered.log e (List.mem_of_mem_filter he)
        simp only [EventLog.getLatestSeqNo]
        omega
      · have := h.numbered.snapshot
        simp only [EventLog.getLatestSeqNo]
        omega
    · exact h.files k cp hk
  · exact h.files k cp hk

theorem Numbered.reconstruct {cp : Checkpoint} (h : Numbered cp.logTail cp.snapshot cp.nextSeqNo) (roomId : String) :
    Numbered (Durability.reconstruct roomId cp).1.log (Durability.reconstruct roomId cp).2 cp.nextSeqNo := by
  have htail : ∀ e ∈ (Durability.reconstruct roomId cp).1.log, e.seqNo < cp.nextSeqNo := by
    intro e he
    simp only [Durability.reconstruct, List.mem_mergeSort, List.mem_map] at he
    obtain ⟨e', he', rfl⟩ := he
    exact h.log e' he'
  refine ⟨htail, ?_⟩
  have hreplay : ∀ (l : List MembershipEvent) (s : Snapshot), (∀ e ∈ l, e.seqNo < cp.nextSeqNo) →
      s.asOfSeqNo < cp.nextSeqNo →
      (l.foldl (fun s e => if s.asOfSeqNo < e.seqNo then (s.applyEvent e).1 else s) s).asOfSeqNo < cp.nextSeqNo := by
    intro l
    induction l with
    | nil => exact fun _ _ hs => hs
    | cons e l ih =>
      intro s hl hs
      refine ih _ (fun x hx => hl x (List.mem_cons_of_mem _ hx)) ?_
      simp only
      split
      · have he := hl e (by simp)
        have := Snapshot.asOfSeqNo_applyEvent_le (s := s) (e := e) (n := cp.nextSeqNo - 1) (by omega) (by omega)
        omega
      · exact hs
  exact hreplay _ _ htail h.snapshot

/-- What `recover` finds in the checkpoints of a sane coordinator. -/
theorem Sane.restore (h : Sane c) {log : EventLog} {s : Snapshot}
    (hr : c.durability.recover c.settings.roomId = some (log, s)) : Sane { c with log, snapshot := s } := by
  refine ⟨?_, h.files⟩
  obtain ⟨⟨k, file⟩, hmem, hfile⟩ := List.exists_of_findSome?_eq_some hr
  simp only [Option.map_eq_some_iff] at hfile
  obtain ⟨cp, rfl, hcp⟩ := hfile
  simp only [Durability.listCheckpoints, List.mem_mergeSort] at hmem
  have hn := (h.files k cp ((Dict.mem_items_iff _).1 hmem)).reconstruct c.settings.roomId
  rw [hcp] at hn
  have hnext : log.nextSeqNo = cp.nextSeqNo := by
    have := congrArg (·.1.nextSeqNo) hcp
    exact this.symm
  show Numbered log.log s log.nextSeqNo
  rw [hnext]
  exact hn

/-! ## The operations -/

theorem getMember_eq_none {s : Snapshot} {u : String} (h : s.getMember u = none) : s.stateOf u = none := by
  simp [Snapshot.stateOf, show s.members.get? u = none from h]

theorem getMember_eq_some {s : Snapshot} {u : String} {m : MemberInfo} (h : s.getMember u = some m) :
    s.stateOf u = some m.state := by
  simp [Snapshot.stateOf, show s.members.get? u = some m from h]

variable {u : String} {E : Coordinator → Prop}

theorem wp_handlePresenceChange (h : Sane c) {ch : ChangeType} {Q : Unit → Coordinator → Prop}
    (hnone : c.snapshot.stateOf u = none → Q () c) (hE : 1 < c.log.currentTerm → E c)
    (hQ : ¬ 1 < c.log.currentTerm → ∀ e c', e.userId = u → e.eventType = ch.eventType → e.source = "presence" →
      e.originator = none → Logged c c' e 1 (deltas c.snapshot e) →
      Q () (c'.watching (if ch = .timeout then c'.presence.unregisterMember u else c'.presence)).checkpointed) :
    Prog.wp (exec clock) (handlePresenceChange u ch) Q E c := by
  simp only [handlePresenceChange, Prog.wp_bind, Prog.wp_lift, exec]
  cases hm : c.snapshot.getMember u with
  | none => exact hnone (getMember_eq_none hm)
  | some m =>
    simp only [Prog.wp_bind]
    refine wp_record h hE fun ht e c' he hl => ?_
    subst he
    have hq := hQ ht _ _ rfl rfl rfl rfl hl
    simp only [Prog.wp_when, Prog.wp_lift, exec]
    by_cases hch : ch = .timeout
    · simpa [hch] using hq
    · simpa [hch] using hq

theorem wp_moveBackfill (h : Sane c) {from_ : MemberState} {t : EventType} {Q : Unit → Coordinator → Prop}
    (hidle : c.snapshot.stateOf u ≠ some from_ → Q () c) (hE : 1 < c.log.currentTerm → E c)
    (hQ : ¬ 1 < c.log.currentTerm → c.snapshot.stateOf u = some from_ → ∀ e c', e.userId = u → e.eventType = t →
      e.source = "coordinator" → e.originator = none → Logged c c' e 1 (deltas c.snapshot e) → Q () c'.checkpointed) :
    Prog.wp (exec clock) (moveBackfill from_ t u) Q E c := by
  simp only [moveBackfill, Prog.wp_bind, Prog.wp_lift, exec]
  cases hm : c.snapshot.getMember u with
  | none => exact hidle (by simp [getMember_eq_none hm])
  | some m =>
    simp only [Prog.wp_when, Prog.wp_bind, Prog.wp_lift, exec]
    have hst := getMember_eq_some hm
    refine ⟨fun hs => wp_record h hE fun ht e c' he hl => ?_, fun hs => hidle (by simpa [hst] using hs)⟩
    subst he
    exact hQ ht (by rw [hst, hs]) _ _ rfl rfl rfl rfl hl

theorem wp_handleHeartbeat (h : Sane c) {Q : Unit → Coordinator → Prop}
    (hnone : c.snapshot.stateOf u = none → Q () c) (hE : 1 < c.log.currentTerm → E c)
    (hQ : ¬ 1 < c.log.currentTerm → ∀ e c', e.userId = u → e.eventType = .heartbeat →
      Logged c c' e 1 [] →
      let c₁ := { c'.watching (c'.presence.recordHeartbeat (clock c'.reads) u).1 with reads := c'.reads + 1 }
      if (c'.presence.recordHeartbeat (clock c'.reads) u).2 = true then
        Prog.wp (exec clock) (handlePresenceChange u .reconnected) (fun _ c => Q () c.checkpointed) E c₁
      else Q () c₁.checkpointed) :
    Prog.wp (exec clock) (handleHeartbeat u) Q E c := by
  simp only [handleHeartbeat]
  rw [Prog.wp_bind, Prog.wp_lift]
  simp only [exec]
  cases hm : c.snapshot.getMember u with
  | none => exact hnone (getMember_eq_none hm)
  | some m =>
    refine wp_append_apply h hE fun ht e c' he hl => ?_
    subst he
    have hq := hQ ht _ _ rfl rfl hl
    simp only [Prog.wp_bind, Prog.wp_lift, exec, Prog.wp_when] at hq ⊢
    split at hq
    · next hr => exact ⟨fun _ => hq, fun hn => absurd hr hn⟩
    · next hr => exact ⟨fun hn => absurd hn hr, fun _ => hq⟩

theorem wp_handleLeave (h : Sane c) {Q : Unit → Coordinator → Prop}
    (hgone : c.snapshot.stateOf u = none ∨ c.snapshot.stateOf u = some .left ∨
      c.snapshot.stateOf u = some .disconnected → Q () c)
    (hE : 1 < c.log.currentTerm → E c)
    (hleaving : ¬ 1 < c.log.currentTerm → c.snapshot.stateOf u = some .leaving → ∀ e c', e.userId = u →
      e.eventType = .leaveConfirmed → e.source = "coordinator" → e.originator = none →
      Logged c c' e 1 (deltas c.snapshot e) → Q () (c'.watching (c'.presence.unregisterMember u)).checkpointed)
    (hother : ¬ 1 < c.log.currentTerm → ∀ st, c.snapshot.stateOf u = some st → st ≠ .left → st ≠ .disconnected →
      st ≠ .leaving → ∀ e₁ c₁ e₂ c₂, e₁.userId = u → e₁.eventType = .leaveRequested → e₂.userId = u →
      e₂.eventType = .leaveConfirmed → e₂.source = "coordinator" → e₂.originator = none →
      Logged c c₁ e₁ 1 [] → Logged c₁ c₂ e₂ 1 (deltas c₁.snapshot e₂) →
      Q () (c₂.watching (c₂.presence.unregisterMember u)).checkpointed) :
    Prog.wp (exec clock) (handleLeave u) Q E c := by
  simp only [handleLeave]
  rw [Prog.wp_bind, Prog.wp_lift]
  simp only [exec]
  cases hm : c.snapshot.getMember u with
  | none => exact hgone (.inl (getMember_eq_none hm))
  | some m =>
    have hst := getMember_eq_some hm
    simp only
    split
    · next hg =>
      refine hgone (.inr ?_)
      rw [hst]
      exact hg.imp (congrArg some) (congrArg some)
    · next hg =>
      rw [not_or] at hg
      rw [Prog.wp_bind, Prog.wp_when]
      constructor
      · intro hl
        refine wp_append_apply h hE fun ht e₁ c₁ he₁ hl₁ => ?_
        have ht₁ : ¬ 1 < c₁.log.currentTerm := by
          rw [hl₁.term]
          simpa using ht
        rw [Prog.wp_pure, Prog.wp_bind]
        refine wp_record hl₁.sane (fun hlt => absurd hlt ht₁) fun _ e₂ c₂ he₂ hl₂ => ?_
        subst he₁ he₂
        simp only [Prog.wp_bind, Prog.wp_lift, exec]
        exact hother ht m.state hst hg.1 hg.2 hl _ _ _ _ rfl rfl rfl rfl rfl rfl hl₁ hl₂
      · intro hl
        rw [Prog.wp_bind]
        refine wp_record h hE fun ht e c' he hlog => ?_
        subst he
        simp only [Prog.wp_bind, Prog.wp_lift, exec]
        exact hleaving ht (by rw [hst, not_not.1 hl]) _ _ rfl rfl rfl rfl hlog

/-- The coordinator with the guard that `handle_join` leaves. -/
def Coordinator.guarded (c : Coordinator) (u : String) : Coordinator :=
  { c with duplicateGuard := (c.duplicateGuard.isDuplicate u EventType.joinRequested.value).1 }

theorem Sane.guarded (h : Sane c) (u : String) : Sane (c.guarded u) := ⟨h.numbered, h.files⟩

theorem Logged.dispatch {c' : Coordinator} {e : MembershipEvent} {t : Int} (h : Logged c c' e t [])
    (d : MembershipDelta) :
    Logged c { c' with dispatched := c'.dispatched ++ (Option.map (fun d => (e, d)) (some d)).toList } e t
      [(e, d)] where
  sane := ⟨h.sane.numbered, h.sane.files⟩
  seqNo := h.seqNo
  version := h.version
  log := h.log
  snapshot := h.snapshot
  nextSeqNo := h.nextSeqNo
  term := h.term
  state := h.state
  presence := h.presence
  settings := h.settings
  durability := h.durability
  dispatched := by
    rw [h.dispatched, List.append_nil]
    rfl

/-- `handle_join` with its result: a duplicate, an exception, a rejection, or
an accepted join. -/
theorem wp_handleJoin (h : Sane c) {name : String} {key : Option Bytes} {trace : Option String} {v : Verdict}
    {Q : JoinResult → Coordinator → Prop}
    (hdup : (u, EventType.joinRequested.value) ∈ c.duplicateGuard.recent →
      Q ⟨false, 0, c.snapshot.version, c.snapshot.getActiveMembers, some "Duplicate join request"⟩ (c.guarded u))
    (hE : (u, EventType.joinRequested.value) ∉ c.duplicateGuard.recent → v = .raises ∨ 1 < c.log.currentTerm →
      E (c.guarded u))
    (hrej : (u, EventType.joinRequested.value) ∉ c.duplicateGuard.recent → ¬ 1 < c.log.currentTerm →
      ∀ reason, v = .rejects reason → ∀ e c', e.userId = u → e.eventType = .joinRejected →
      e.source = "coordinator" → e.originator = none → Logged (c.guarded u) c' e 1 [(e, ⟨.rejected, u, e⟩)] →
      Q ⟨false, e.seqNo, e.membershipVersion, c'.snapshot.getActiveMembers, reason⟩ c')
    (hacc : (u, EventType.joinRequested.value) ∉ c.duplicateGuard.recent → ¬ 1 < c.log.currentTerm →
      v = .accepts → ∀ e c', e = c.log.stamp (clock c.reads)
        { eventType := .joinAccepted, userId := u, source := "coordinator", term := 1, displayName := name,
          traceId := trace, publicKey := key } →
      Logged (c.guarded u) c' e 1 (deltas (c.guarded u).snapshot e) →
      Q ⟨true, e.seqNo, e.membershipVersion, c'.snapshot.getActiveMembers, none⟩
        (if some u ≠ c.settings.localUserId then
          ({ c'.watching (c'.presence.registerMember (clock c'.reads) u) with reads := c'.reads + 1 }).checkpointed
        else c'.checkpointed)) :
    Prog.wp (exec clock) (handleJoin c.settings u name key trace v) Q E c := by
  simp only [handleJoin]
  rw [Prog.wp_bind, Prog.wp_lift]
  simp only [exec]
  rw [show { c with duplicateGuard := (c.duplicateGuard.isDuplicate u EventType.joinRequested.value).1 } =
    c.guarded u from rfl]
  by_cases hmem : (u, EventType.joinRequested.value) ∈ c.duplicateGuard.recent
  · have hd : (c.duplicateGuard.isDuplicate u EventType.joinRequested.value).2 = true := by
      simp [DuplicateGuard.isDuplicate, hmem]
    simp only [hd, if_true, Prog.wp_bind, Prog.wp_lift, exec, Prog.wp_pure]
    exact hdup hmem
  · have hd : (c.duplicateGuard.isDuplicate u EventType.joinRequested.value).2 = false := by
      simp [DuplicateGuard.isDuplicate, hmem]
    simp only [hd, Bool.false_eq_true, if_false]
    cases v with
    | raises => exact hE hmem (.inl rfl)
    | rejects reason =>
      refine wp_append_apply (h.guarded u) (fun ht => hE hmem (.inr ht)) fun ht e c' he hl => ?_
      subst he
      simp only [Prog.wp_bind, Prog.wp_lift, exec, Prog.wp_pure]
      exact hrej hmem ht reason rfl _ _ rfl rfl rfl rfl (hl.dispatch _)
    | accepts =>
      simp only
      rw [Prog.wp_bind]
      refine wp_record (h.guarded u) (fun ht => hE hmem (.inr ht)) fun ht e c' he hl => ?_
      have hq := hacc hmem ht rfl e c' he hl
      simp only [Prog.wp_bind, Prog.wp_lift, exec, Prog.wp_pure, Prog.wp_when]
      split at hq
      · next hu => exact ⟨fun _ => hq, fun hn => absurd hu hn⟩
      · next hu => exact ⟨fun hn => absurd hn hu, fun _ => hq⟩

theorem wp_join (h : Sane c) {name : String} {key : Option Bytes} {trace : Option String} {v : Verdict}
    {Q : Unit → Coordinator → Prop} (hdup : Q () (c.guarded u)) (hE : E (c.guarded u))
    (hrej : ∀ e c', e.userId = u → e.eventType = .joinRejected → e.source = "coordinator" → e.originator = none →
      Logged (c.guarded u) c' e 1 [(e, ⟨.rejected, u, e⟩)] → Q () c')
    (hacc : ∀ e c', e.userId = u → e.eventType = .joinAccepted → e.source = "coordinator" → e.originator = none →
      Logged (c.guarded u) c' e 1 (deltas (c.guarded u).snapshot e) →
      Q () (if some u ≠ c.settings.localUserId then
        ({ c'.watching (c'.presence.registerMember (clock c'.reads) u) with reads := c'.reads + 1 }).checkpointed
      else c'.checkpointed)) :
    Prog.wp (exec clock) (Op.prog c.settings (.join u name key trace v)) Q E c := by
  simp only [Op.prog]
  rw [Prog.wp_bind]
  refine wp_handleJoin h (fun _ => hdup) (fun _ _ => hE) (fun _ _ _ _ e c' heu het hes heo hl => ?_)
    fun _ _ _ e c' he hl => ?_
  · exact hrej e c' heu het hes heo hl
  · subst he
    exact hacc _ _ rfl rfl rfl rfl hl

theorem wp_checkMember (h : Sane c) {now : Time} {Q : Unit → Coordinator → Prop}
    (hE : 1 < c.log.currentTerm → E (c.watching (c.presence.checkEntry now u).1))
    (hquiet : (c.presence.checkEntry now u).2 = none ∨ c.snapshot.stateOf u = none →
      Q () (c.watching (c.presence.checkEntry now u).1))
    (hQ : ∀ ch, (c.presence.checkEntry now u).2 = some ch → ¬ 1 < c.log.currentTerm → ∀ e c', e.userId = u →
      e.eventType = ch.eventType → e.source = "presence" → e.originator = none →
      Logged (c.watching (c.presence.checkEntry now u).1) c' e 1 (deltas c.snapshot e) →
      Q () (c'.watching (if ch = .timeout then c'.presence.unregisterMember u else c'.presence)).checkpointed) :
    Prog.wp (exec clock) (checkMember now u) Q E c := by
  simp only [checkMember, Prog.wp_bind, Prog.wp_lift, exec]
  cases hc : (c.presence.checkEntry now u).2 with
  | none => exact hquiet (.inl hc)
  | some ch =>
    refine wp_handlePresenceChange (h.watching _) (fun hn => hquiet (.inr hn)) hE fun ht => ?_
    exact hQ ch hc ht

theorem wp_sweepMember (h : Sane c) {cfg : Settings} {now : Time} {p : String × MemberInfo}
    {Q : Unit → Coordinator → Prop} (hE : 1 < c.log.currentTerm → E c)
    (hquiet : p.2.state ≠ .backfilling ∨ now - p.2.joinedAt ≤ cfg.backfillTimeoutS → Q () c)
    (hQ : p.2.state = .backfilling → ¬ 1 < c.log.currentTerm → ∀ e c', e.userId = p.1 →
      e.eventType = .disconnectTimeout → e.source = "coordinator" → e.originator = none →
      Logged c c' e 1 (deltas c.snapshot e) → Q () (c'.watching (c'.presence.unregisterMember p.1)).checkpointed) :
    Prog.wp (exec clock) (sweepMember cfg now p) Q E c := by
  simp only [sweepMember, Prog.wp_when, Prog.wp_bind, Prog.wp_lift, exec]
  constructor
  · intro hb
    refine wp_record h hE fun ht e c' he hl => ?_
    subst he
    exact hQ hb.1 ht _ _ rfl rfl rfl rfl hl
  · intro hb
    rw [not_and_or, not_lt] at hb
    exact hquiet hb

theorem wp_tick (cfg : Settings) {Q : Unit → Coordinator → Prop} {R : Coordinator → Prop}
    (hlive : Prog.wp (exec clock) (Prog.forEach (checkMember (clock c.reads)) c.presence.members.keys)
      (fun _ => R) E { c with reads := c.reads + 1 })
    (hsweep : ∀ c', R c' → Prog.wp (exec clock) (Prog.forEach (sweepMember cfg (clock c'.reads))
      c'.snapshot.members.items) Q E { c' with reads := c'.reads + 1 }) :
    Prog.wp (exec clock) (tick cfg) Q E c := by
  simp only [tick, checkLiveness, sweepBackfillTimeouts, Prog.wp_bind, Prog.wp_lift, exec]
  exact Prog.wp_mono (fun _ c' hc' => hsweep c' hc') (fun _ he => he) hlive

/-! ## Every run is sane -/

theorem Sane.presenceChange (h : Sane c) (ch : ChangeType) :
    Prog.wp (exec clock) (handlePresenceChange u ch) (fun _ => Sane) Sane c :=
  wp_handlePresenceChange h (fun _ => h) (fun _ => h) fun _ _ _ _ _ _ _ hl => (hl.sane.watching _).checkpointed

theorem Sane.tick (h : Sane c) (cfg : Settings) :
    Prog.wp (exec clock) (Membership.tick cfg) (fun _ => Sane) Sane c := by
  refine wp_tick (R := Sane) cfg ?_ fun c₁ h₁ => ?_
  · refine Prog.wp_forEach (I := fun _ => Sane) (h.reading _) fun v _ c₁ _ h₁ => ?_
    exact wp_checkMember h₁ (fun _ => h₁.watching _) (fun _ => h₁.watching _)
      fun _ _ _ _ _ _ _ _ _ hl => (hl.sane.watching _).checkpointed
  · refine Prog.wp_forEach (I := fun _ => Sane) (h₁.reading _) fun v _ c₂ _ h₂ => ?_
    exact wp_sweepMember h₂ (fun _ => h₂) (fun _ => h₂) fun _ _ _ _ _ _ _ _ hl => (hl.sane.watching _).checkpointed

theorem Sane.remote (h : Sane c) (event : MembershipEvent) :
    Prog.wp (exec clock) (applyRemoteEvent event) (fun _ => Sane) Sane c := by
  refine wp_remote h fun e c' _ hl => ?_
  simp only [Prog.wp_bind, Prog.wp_when, Prog.wp_lift, exec]
  have h₁ : ∀ p r, Sane { c'.watching p with reads := r } := fun p r => (hl.sane.watching p).reading r
  refine ⟨fun _ => ⟨fun _ => ⟨fun _ => ?_, fun _ => ?_⟩, fun _ => ?_⟩, fun _ => hl.sane.checkpointed⟩
  · exact Prog.wp_mono (fun _ _ hi => hi.checkpointed) (fun _ hi => hi)
      ((((h₁ _ _).watching _).reading _).presenceChange _)
  · exact (((h₁ _ _).watching _).reading _).checkpointed
  · exact (h₁ _ _).checkpointed

theorem Sane.recover (h : Sane c) :
    Prog.wp (exec clock) (Membership.recover c.settings) (fun _ => Sane) Sane c := by
  simp only [Membership.recover]
  rw [Prog.wp_bind, Prog.wp_lift]
  simp only [exec]
  cases hr : c.durability.recover c.settings.roomId with
  | none => simpa using h
  | some found =>
    obtain ⟨log, s⟩ := found
    simp only [Prog.wp_when, Prog.wp_bind, Prog.wp_lift, exec]
    refine ⟨fun _ => Prog.wp_forEach (I := fun _ => Sane) (h.restore hr) fun p _ c₁ _ h₁ => ?_,
      fun hn => absurd trivial hn⟩
    simp only [Prog.wp_when, Prog.wp_lift, exec]
    exact ⟨fun _ => (h₁.watching _).reading _, fun _ => h₁⟩

theorem Sane.step (h : Sane c) (op : Op) : Sane (c.step clock op) := by
  refine Prog.wp_run (E := Sane) ?_
  cases op with
  | join u name key trace v =>
    refine wp_join h (h.guarded u) (h.guarded u) (fun _ _ _ _ _ _ hl => hl.sane) fun _ _ _ _ _ _ hl => ?_
    split
    · exact ((hl.sane.watching _).reading _).checkpointed
    · exact hl.sane.checkpointed
  | startBackfill u | completeBackfill u =>
    exact wp_moveBackfill h (fun _ => h) (fun _ => h) fun _ _ _ _ _ _ _ _ hl => hl.sane.checkpointed
  | heartbeat u =>
    refine wp_handleHeartbeat h (fun _ => h) (fun _ => h) fun _ e c' _ _ hl => ?_
    have h₁ := (hl.sane.watching (c'.presence.recordHeartbeat (clock c'.reads) u).1).reading (c'.reads + 1)
    simp only
    split
    · exact Prog.wp_mono (fun _ _ hi => hi.checkpointed) (fun _ hi => hi) (h₁.presenceChange _)
    · exact h₁.checkpointed
  | leave u =>
    exact wp_handleLeave h (fun _ => h) (fun _ => h) (fun _ _ _ _ _ _ _ _ hl => (hl.sane.watching _).checkpointed)
      fun _ _ _ _ _ _ _ _ _ _ _ _ _ _ _ _ _ hl => (hl.sane.watching _).checkpointed
  | tick => exact h.tick _
  | remote e => exact h.remote e
  | recover => exact h.recover

/-- What happens to a node: a call, or a restart over the checkpoints it
has written. -/
inductive Life
  | call (op : Op)
  | restart

/-- A coordinator constructed anew over the same directory. -/
def Coordinator.restarted (c : Coordinator) : Coordinator :=
  { Coordinator.new c.settings c.durability.files with reads := c.reads }

/-- One event of a node's life. -/
def Coordinator.live (clock : Nat → Time) (c : Coordinator) : Life → Coordinator
  | .call op => c.step clock op
  | .restart => c.restarted

theorem Sane.restarted (h : Sane c) : Sane c.restarted :=
  ⟨⟨(Sane.new c.settings).numbered.log, (Sane.new c.settings).numbered.snapshot⟩, h.files⟩

theorem Sane.live (h : Sane c) (l : Life) : Sane (c.live clock l) := by
  cases l with
  | call op => exact h.step op
  | restart => exact h.restarted

/-- The states a coordinator reaches from a fresh start. -/
def Reached (clock : Nat → Time) (c : Coordinator) : Prop :=
  ∃ cfg ls, c = List.foldl (Coordinator.live clock) (.new cfg Dict.empty) ls

theorem Reached.sane (h : Reached clock c) : Sane c := by
  obtain ⟨cfg, ls, rfl⟩ := h
  have key : ∀ (ls : List Life) (c : Coordinator), Sane c → Sane (ls.foldl (Coordinator.live clock) c) := by
    intro ls
    induction ls with
    | nil => exact fun _ h => h
    | cons l ls ih => exact fun c h => ih _ (h.live l)
  exact key ls _ (Sane.new cfg)

end PeerChat.Membership
