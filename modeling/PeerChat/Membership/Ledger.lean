/-
What an operation of the coordinator logs, and what its subscribers hear of
it (`MembershipCoordinator.subscribe`, `_synthesize_delta_for_event`).

Between its first and its last step an operation appends some events, and
`Ledger` says that the rest is a function of these: the snapshot is advanced
by them, and what is dispatched is what each announces in the snapshot it
meets. A subscriber that comes later gets the logged events from a version
on, with a delta by their type alone: `catchUp_iff`, it hears what it would
have heard exactly when none of these was refused and none was the
rejection of a join.
-/
import PeerChat.Membership.Gossip
import PeerChat.Membership.Threads

namespace PeerChat.Membership

open Lib

/-- The snapshot after a list of events. -/
def advance (s : Snapshot) (es : List MembershipEvent) : Snapshot := es.foldl (fun s e => (s.applyEvent e).1) s

theorem replay_eq_advance (roomId : String) (es : List MembershipEvent) :
    replay roomId es = advance (.new roomId) es := rfl

theorem advance_append (s : Snapshot) (es es' : List MembershipEvent) :
    advance s (es ++ es') = advance (advance s es) es' := List.foldl_append

/-- What is dispatched for an event, where it meets a snapshot: the
rejection of a join has a delta of its own. -/
def announced (s : Snapshot) (e : MembershipEvent) : List (MembershipEvent × MembershipDelta) :=
  if e.eventType = .joinRejected ∧ e.source ≠ "remote" then [(e, ⟨.rejected, e.userId, e⟩)] else deltas s e

theorem announced_eq_deltas {e : MembershipEvent} (s : Snapshot) (h : e.eventType ≠ .joinRejected) :
    announced s e = deltas s e :=
  if_neg fun hr => h hr.1

theorem deltas_eq_nil {e : MembershipEvent} (s : Snapshot) (h : deltaType e.eventType = none) : deltas s e = [] := by
  simp [deltas, deltaOf, h]

/-- What is dispatched for a list of events. -/
def announcements (s : Snapshot) : List MembershipEvent → List (MembershipEvent × MembershipDelta)
  | [] => []
  | e :: es => announced s e ++ announcements (s.applyEvent e).1 es

theorem announcements_append (s : Snapshot) (es es' : List MembershipEvent) :
    announcements s (es ++ es') = announcements s es ++ announcements (advance s es) es' := by
  induction es generalizing s with
  | nil => rfl
  | cons e es ih =>
    rw [List.cons_append, announcements, announcements, ih, List.append_assoc]
    rfl

/-- Events numbered from one number to another. -/
structure Consecutive (first next : Int) (es : List MembershipEvent) : Prop where
  length : next = first + es.length
  sorted : es.Pairwise (·.seqNo < ·.seqNo)
  bounds : ∀ e ∈ es, first ≤ e.seqNo ∧ e.seqNo < next
  version : ∀ e ∈ es, e.membershipVersion = e.seqNo

theorem Consecutive.nil (n : Int) : Consecutive n n [] := ⟨by simp, .nil, by simp, by simp⟩

theorem Consecutive.append {a b d : Int} {es es' : List MembershipEvent} (h : Consecutive a b es)
    (h' : Consecutive b d es') : Consecutive a d (es ++ es') where
  length := by
    have := h.length
    have := h'.length
    simp only [List.length_append]
    omega
  sorted := List.pairwise_append.2 ⟨h.sorted, h'.sorted, fun x hx y hy => by
    have := h.bounds x hx
    have := h'.bounds y hy
    omega⟩
  bounds e he := by
    have := h.length
    have := h'.length
    rcases List.mem_append.1 he with he | he
    · have := h.bounds e he
      omega
    · have := h'.bounds e he
      omega
  version e he := by
    rcases List.mem_append.1 he with he | he
    · exact h.version e he
    · exact h'.version e he

/-- A checkpoint of a coordinator that has logged these events since. -/
structure Archived (c : Coordinator) (es : List MembershipEvent) (cp : Checkpoint) : Prop where
  snapshot : cp.snapshot = advance c.snapshot es
  logTail : cp.logTail = (c.log.log ++ es).filter (·.seqNo > cp.snapshot.asOfSeqNo)

/-- The events logged between two states of a coordinator, and what they
did. -/
structure Ledger (c : Coordinator) (es : List MembershipEvent) (c' : Coordinator) : Prop where
  log : c'.log.log = c.log.log ++ es
  numbered : Consecutive c.log.nextSeqNo c'.log.nextSeqNo es
  snapshot : c'.snapshot = advance c.snapshot es
  dispatched : c'.dispatched = c.dispatched ++ announcements c.snapshot es
  settings : c'.settings = c.settings
  files : ∀ k cp, c'.durability.files.get? k = some (some cp) →
    c.durability.files.get? k = some (some cp) ∨ ∃ pre, pre <+: es ∧ Archived c pre cp

theorem Ledger.refl (c : Coordinator) : Ledger c [] c :=
  ⟨by simp, .nil _, rfl, by simp [announcements], rfl, fun _ _ h => .inl h⟩

theorem Ledger.trans {c c₁ c₂ : Coordinator} {es es' : List MembershipEvent} (h : Ledger c es c₁)
    (h' : Ledger c₁ es' c₂) : Ledger c (es ++ es') c₂ where
  log := by rw [h'.log, h.log, List.append_assoc]
  numbered := h.numbered.append h'.numbered
  snapshot := by rw [h'.snapshot, h.snapshot, advance_append]
  dispatched := by rw [h'.dispatched, h.dispatched, h.snapshot, announcements_append, List.append_assoc]
  settings := h'.settings.trans h.settings
  files k cp hk := by
    rcases h'.files k cp hk with hk | ⟨pre, hpre, ha⟩
    · rcases h.files k cp hk with hk | ⟨pre, hpre, ha⟩
      · exact .inl hk
      · exact .inr ⟨pre, hpre.trans (List.prefix_append _ _), ha⟩
    · refine .inr ⟨es ++ pre, (List.prefix_append_right_inj es).2 hpre, ?_, ?_⟩
      · rw [ha.snapshot, h.snapshot, advance_append]
      · rw [ha.logTail, h.log, List.append_assoc]

/-- Steps that keep the log, the snapshot, what was dispatched and the
checkpoints. -/
theorem Ledger.congr {c c₁ c₂ : Coordinator} {es : List MembershipEvent} (h : Ledger c es c₁) (hlog : c₂.log = c₁.log)
    (hsnap : c₂.snapshot = c₁.snapshot) (hd : c₂.dispatched = c₁.dispatched) (hset : c₂.settings = c₁.settings)
    (hf : c₂.durability = c₁.durability) : Ledger c es c₂ :=
  ⟨hlog ▸ h.log, hlog ▸ h.numbered, hsnap ▸ h.snapshot, hd ▸ h.dispatched, hset ▸ h.settings, hf ▸ h.files⟩

/-- A checkpoint, if one is due. -/
theorem Ledger.checkpointed {c c' : Coordinator} {es : List MembershipEvent} (h : Ledger c es c') :
    Ledger c es c'.checkpointed where
  log := h.log
  numbered := h.numbered
  snapshot := h.snapshot
  dispatched := h.dispatched
  settings := h.settings
  files k cp hk := by
    simp only [Coordinator.checkpointed, Durability.maybeCheckpoint] at hk
    split at hk
    · have hk := Dict.get?_of_foldl_erase hk
      rw [Dict.get?_set] at hk
      split at hk
      · cases hk
        refine .inr ⟨es, List.prefix_rfl, h.snapshot, ?_⟩
        rw [← h.log]
        rfl
      · exact h.files k cp hk
    · exact h.files k cp hk

/-- One event, appended and applied. -/
theorem Logged.ledger {c c' : Coordinator} {e : MembershipEvent} {t : Int}
    (h : Logged c c' e t (announced c.snapshot e)) : Ledger c [e] c' where
  log := by rw [h.log]; rfl
  numbered := by
    have hseq := h.seqNo
    have hver := h.version
    refine ⟨by rw [h.nextSeqNo]; rfl, List.pairwise_singleton _ _, fun x hx => ?_, fun x hx => ?_⟩
    · rw [List.mem_singleton.1 hx, h.nextSeqNo]
      omega
    · rw [List.mem_singleton.1 hx]
      omega
  snapshot := h.snapshot
  dispatched := by rw [h.dispatched, announcements, announcements, List.append_nil]
  settings := h.settings
  files k cp hk := .inl (h.durability ▸ hk)

/-- An event of this node, as far as it is passed on: it names no
originator. -/
def Own (e : MembershipEvent) : Prop :=
  e.eventType ≠ .heartbeat → e.eventType ≠ .leaveRequested → e.originator = none

/-- Events of this node, in which the request to leave comes with its
confirmation. -/
inductive Paired : List MembershipEvent → Prop
  | nil : Paired []
  | one {es : List MembershipEvent} {e : MembershipEvent} (h : Paired es) (ht : e.eventType ≠ .leaveRequested)
    (ho : Own e) : Paired (es ++ [e])
  | leave {es : List MembershipEvent} {e₁ e₂ : MembershipEvent} (h : Paired es) (hu : e₂.userId = e₁.userId)
    (h₁ : e₁.eventType = .leaveRequested) (h₂ : e₂.eventType = .leaveConfirmed) (ho : Own e₂) : Paired (es ++ [e₁, e₂])

theorem Paired.own {es : List MembershipEvent} (h : Paired es) : ∀ e ∈ es, Own e := by
  induction h with
  | nil => simp
  | one _ _ ho ih =>
    intro x hx
    rcases List.mem_append.1 hx with hx | hx
    · exact ih x hx
    · rw [List.mem_singleton.1 hx]
      exact ho
  | leave _ _ h₁ _ ho ih =>
    intro x hx
    rcases List.mem_append.1 hx with hx | hx
    · exact ih x hx
    · rcases List.mem_cons.1 hx with rfl | hx
      · exact fun _ hne => absurd h₁ hne
      · rw [List.mem_singleton.1 hx]
        exact ho

/-- A sane coordinator, with what was logged since another one. -/
structure Grown (c₀ c : Coordinator) : Prop where
  sane : Sane c
  ledger : ∃ es, Ledger c₀ es c ∧ Paired es

namespace Grown

variable {clock : Nat → Time} {c₀ c c' : Coordinator} {e : MembershipEvent} {t : Int} {u : String}

theorem refl (h : Sane c) : Grown c c := ⟨h, [], .refl c, .nil⟩

theorem congr (h : Grown c₀ c) (hs : Sane c') (hlog : c'.log = c.log) (hsnap : c'.snapshot = c.snapshot)
    (hd : c'.dispatched = c.dispatched) (hset : c'.settings = c.settings) (hf : c'.durability = c.durability) :
    Grown c₀ c' := by
  obtain ⟨es, hes, hp⟩ := h.ledger
  exact ⟨hs, es, hes.congr hlog hsnap hd hset hf, hp⟩

theorem watching (h : Grown c₀ c) (p : PresenceManager) : Grown c₀ (c.watching p) :=
  h.congr (h.sane.watching p) rfl rfl rfl rfl rfl

theorem reading (h : Grown c₀ c) (r : Nat) : Grown c₀ { c with reads := r } :=
  h.congr (h.sane.reading r) rfl rfl rfl rfl rfl

theorem checkpointed (h : Grown c₀ c) : Grown c₀ c.checkpointed := by
  obtain ⟨es, hes, hp⟩ := h.ledger
  exact ⟨h.sane.checkpointed, es, hes.checkpointed, hp⟩

theorem guarded (h : Grown c₀ c) (u : String) : Grown c₀ (c.guarded u) :=
  h.congr (h.sane.guarded u) rfl rfl rfl rfl rfl

theorem logged (h : Grown c₀ c) (hl : Logged c c' e t (announced c.snapshot e)) (ht : e.eventType ≠ .leaveRequested)
    (ho : Own e) : Grown c₀ c' := by
  obtain ⟨es, hes, hp⟩ := h.ledger
  exact ⟨hl.sane, es ++ [e], hes.trans hl.ledger, hp.one ht ho⟩

/-- An event that was recorded with its delta. -/
theorem recorded (h : Grown c₀ c) (hl : Logged c c' e t (deltas c.snapshot e))
    (ht : e.eventType ≠ .joinRejected ∧ e.eventType ≠ .leaveRequested) (ho : Own e) : Grown c₀ c' :=
  h.logged (announced_eq_deltas c.snapshot ht.1 ▸ hl) ht.2 ho

theorem presenceChange (h : Grown c₀ c) (ch : ChangeType) :
    Prog.wp (exec clock) (handlePresenceChange u ch) (fun _ => Grown c₀) (Grown c₀) c := by
  refine wp_handlePresenceChange h.sane (fun _ => h) (fun _ => h) fun _ e c' _ het _ heo hl => ?_
  refine ((h.recorded hl ?_ fun _ _ => heo).watching _).checkpointed
  rw [het]
  cases ch <;> decide

theorem tick (h : Grown c₀ c) (cfg : Settings) :
    Prog.wp (exec clock) (Membership.tick cfg) (fun _ => Grown c₀) (Grown c₀) c := by
  refine wp_tick (R := Grown c₀) cfg ?_ fun c₁ h₁ => ?_
  · refine Prog.wp_forEach (I := fun _ => Grown c₀) (h.reading _) fun v _ c₁ _ h₁ => ?_
    refine wp_checkMember h₁.sane (fun _ => h₁.watching _) (fun _ => h₁.watching _)
      fun ch _ _ e c' _ het _ heo hl => ?_
    refine (((h₁.watching _).recorded hl ?_ fun _ _ => heo).watching _).checkpointed
    rw [het]
    cases ch <;> decide
  · refine Prog.wp_forEach (I := fun _ => Grown c₀) (h₁.reading _) fun v _ c₂ _ h₂ => ?_
    refine wp_sweepMember h₂.sane (fun _ => h₂) (fun _ => h₂) fun _ _ e c' _ het _ heo hl => ?_
    exact ((h₂.recorded hl (by rw [het]; decide) fun _ _ => heo).watching _).checkpointed

theorem heartbeat (h : Grown c₀ c) :
    Prog.wp (exec clock) (handleHeartbeat u) (fun _ => Grown c₀) (Grown c₀) c := by
  refine wp_handleHeartbeat h.sane (fun _ => h) (fun _ => h) fun _ e c' _ het hl => ?_
  have heq : deltas c.snapshot e = [] := deltas_eq_nil _ (by rw [het]; rfl)
  have hr : Grown c₀ c' := h.recorded (heq.symm ▸ hl) (by rw [het]; decide) fun hne _ => absurd het hne
  have h₁ := (hr.watching (c'.presence.recordHeartbeat (clock c'.reads) u).1).reading (c'.reads + 1)
  simp only
  split
  · exact Prog.wp_mono (fun _ _ hi => hi.checkpointed) (fun _ hi => hi) (h₁.presenceChange _)
  · exact h₁.checkpointed

theorem leave (h : Grown c₀ c) : Prog.wp (exec clock) (handleLeave u) (fun _ => Grown c₀) (Grown c₀) c := by
  refine wp_handleLeave h.sane (fun _ => h) (fun _ => h) (fun _ _ e c' _ het _ heo hl => ?_)
    (fun _ st _ _ _ _ e₁ c₁ e₂ c₂ heu₁ het₁ heu₂ het₂ _ heo hl₁ hl₂ => ?_)
  · exact ((h.recorded hl (by rw [het]; decide) fun _ _ => heo).watching _).checkpointed
  · obtain ⟨es, hes, hp⟩ := h.ledger
    have heq₁ : announced c.snapshot e₁ = [] := by
      rw [announced_eq_deltas _ (by rw [het₁]; decide), deltas_eq_nil _ (by rw [het₁]; rfl)]
    have heq₂ : announced c₁.snapshot e₂ = deltas c₁.snapshot e₂ := announced_eq_deltas _ (by rw [het₂]; decide)
    have hled : Ledger c [e₁, e₂] c₂ := (heq₁.symm ▸ hl₁).ledger.trans (heq₂.symm ▸ hl₂).ledger
    have hp₂ : Paired (es ++ [e₁, e₂]) := hp.leave (heu₂.trans heu₁.symm) het₁ het₂ fun _ _ => heo
    have h₂ : Grown c₀ c₂ := ⟨hl₂.sane, _, hes.trans hled, hp₂⟩
    exact (h₂.watching _).checkpointed

theorem join (h : Grown c₀ c) (name : String) (key : Option Bytes) (trace : Option String) (v : Verdict) :
    Prog.wp (exec clock) (Op.prog c.settings (.join u name key trace v)) (fun _ => Grown c₀) (Grown c₀) c := by
  have hg := h.guarded u
  refine wp_join h.sane hg hg (fun e c' heu het hes heo hl => ?_) (fun e c' _ het _ heo hl => ?_)
  · have heq : announced (c.guarded u).snapshot e = [(e, ⟨.rejected, u, e⟩)] := by
      simp [announced, het, hes, heu]
    exact hg.logged (heq ▸ hl) (by rw [het]; decide) fun _ _ => heo
  · have hr := hg.recorded hl (by rw [het]; decide) fun _ _ => heo
    split
    · exact ((hr.watching _).reading _).checkpointed
    · exact hr.checkpointed

end Grown

variable {clock : Nat → Time} {c : Coordinator}

/-- A member that has just been registered does not reconnect. -/
theorem recordHeartbeat_registerMember (p : PresenceManager) (now now' : Time) (u : String) :
    ((p.registerMember now u).recordHeartbeat now' u).2 = false := by
  simp [PresenceManager.recordHeartbeat, PresenceManager.registerMember]

/-- **A remote event logs its local copy and nothing else.** -/
theorem Ledger.remote (h : Sane c) (e : MembershipEvent) : Ledger c [c.log.localize e] (c.step clock (.remote e)) := by
  refine Prog.wp_run (E := Ledger c [c.log.localize e]) ?_
  refine wp_remote h fun e' c' he' hl => ?_
  subst he'
  have heq : announced c.snapshot (c.log.localize e) = deltas c.snapshot (c.log.localize e) :=
    if_neg fun hr => hr.2 rfl
  have hled : Ledger c [c.log.localize e] c' := (heq ▸ hl).ledger
  simp only [Prog.wp_bind, Prog.wp_when, Prog.wp_lift, exec]
  refine ⟨fun _ => ⟨fun _ => ⟨fun hr => ?_, fun _ => ?_⟩, fun _ => ?_⟩, fun _ => ?_⟩
  · rw [watching_presence, recordHeartbeat_registerMember] at hr
    cases hr
  · exact Ledger.checkpointed (hled.congr rfl rfl rfl rfl rfl)
  · exact Ledger.checkpointed (hled.congr rfl rfl rfl rfl rfl)
  · exact hled.checkpointed

/-- **Every operation of the node itself keeps the ledger.** -/
theorem Grown.step (h : Sane c) {op : Op} (hop : op.isLocal = true) : Grown c (c.step clock op) := by
  have hg : Grown c c := .refl h
  refine Prog.wp_run (E := Grown c) ?_
  cases op with
  | join u name key trace v => exact hg.join name key trace v
  | startBackfill u | completeBackfill u =>
    refine wp_moveBackfill h (fun _ => hg) (fun _ => hg) fun _ _ e c' _ het _ heo hl => ?_
    exact (hg.recorded hl (by rw [het]; decide) fun _ _ => heo).checkpointed
  | heartbeat u => exact hg.heartbeat
  | leave u => exact hg.leave
  | tick => exact hg.tick _
  | remote e => cases hop
  | recover => cases hop

/-- Every operation but a recovery keeps the ledger. -/
theorem Ledger.step (h : Sane c) {op : Op} (hop : op ≠ .recover) : ∃ es, Ledger c es (c.step clock op) := by
  by_cases hloc : op.isLocal = true
  · obtain ⟨es, hes, -⟩ := (Grown.step h hloc).ledger
    exact ⟨es, hes⟩
  · cases op with
    | remote e => exact ⟨_, Ledger.remote h e⟩
    | recover => exact absurd rfl hop
    | _ => exact absurd rfl hloc

/-- A sequence of operations. -/
theorem Ledger.run : ∀ {ops : List Op} {c : Coordinator}, Sane c → (∀ op ∈ ops, op ≠ .recover) →
    ∃ es, Ledger c es (c.run clock ops)
  | [], c, _, _ => ⟨[], .refl c⟩
  | op :: ops, c, h, hops => by
    obtain ⟨es, hes⟩ := Ledger.step h (hops op (by simp))
    obtain ⟨es', hes'⟩ : ∃ es', Ledger (c.step clock op) es' ((c.step clock op).run clock ops) :=
      Ledger.run (h.step op) fun x hx => hops x (List.mem_cons_of_mem _ hx)
    exact ⟨es ++ es', hes.trans hes'⟩

theorem Sane.run : ∀ (ops : List Op) {c : Coordinator}, Sane c → Sane (c.run clock ops)
  | [], _, h => h
  | op :: ops, _, h => Sane.run ops (h.step op)

/-- What `recover` restores, if a checkpoint decodes; it dispatches nothing. -/
structure Restored (c c' : Coordinator) : Prop where
  dispatched : c'.dispatched = c.dispatched
  settings : c'.settings = c.settings
  durability : c'.durability = c.durability
  found : (c.durability.recover c.settings.roomId).elim (c'.log = c.log ∧ c'.snapshot = c.snapshot)
    fun p => c'.log = p.1 ∧ c'.snapshot = p.2

theorem Restored.recover (c : Coordinator) : Restored c (c.step clock .recover) := by
  refine Prog.wp_run (E := Restored c) ?_
  simp only [Op.prog, Membership.recover]
  rw [Prog.wp_bind, Prog.wp_lift]
  simp only [exec]
  cases hr : c.durability.recover c.settings.roomId with
  | none => exact ⟨rfl, rfl, rfl, by rw [hr]; exact ⟨rfl, rfl⟩⟩
  | some found =>
    obtain ⟨log, s⟩ := found
    simp only [Prog.wp_when, Prog.wp_bind, Prog.wp_lift, exec]
    refine ⟨fun _ => ?_, fun hn => absurd trivial hn⟩
    refine Prog.wp_forEach (I := fun _ => Restored c) ⟨rfl, rfl, rfl, by rw [hr]; exact ⟨rfl, rfl⟩⟩
      fun p _ c₁ _ h₁ => ?_
    simp only [Prog.wp_when, Prog.wp_lift, exec]
    exact ⟨fun _ => ⟨h₁.dispatched, h₁.settings, h₁.durability, h₁.found⟩, fun _ => h₁⟩

/-! ## Catching up -/

/-- `_EVENT_TO_DELTA_TYPE`. -/
def eventToDeltaType : EventType → Option DeltaType
  | .joinAccepted => some .joined
  | .historyBackfillComplete => some .active
  | .leaveConfirmed => some .left
  | .disconnectSuspected => some .suspected
  | .disconnectTimeout => some .disconnected
  | .reconnected => some .reconnected
  | .joinRequested | .joinRejected | .leaveRequested | .heartbeat | .historyBackfillStarted => none

/-- `_synthesize_delta_for_event`. -/
def synthesizeDelta (e : MembershipEvent) : Option MembershipDelta :=
  (eventToDeltaType e.eventType).map (⟨·, e.userId, e⟩)

/-- The calls `subscribe` makes. -/
def EventLog.catchUp (l : EventLog) (fromVersion : Int) : List (MembershipEvent × MembershipDelta) :=
  (l.getEventsSince fromVersion).filterMap fun e => (synthesizeDelta e).map fun d => (e, d)

/-- What a subscriber hears that comes at `c` and listens until `c'`. -/
def heard (c : Coordinator) (fromVersion : Int) (c' : Coordinator) : List (MembershipEvent × MembershipDelta) :=
  c.log.catchUp fromVersion ++ c'.dispatched.drop c.dispatched.length

/-- An event that has a delta was allowed in the snapshot it met, and it is
no rejection of a join by this node. -/
def Visible (s : Snapshot) (e : MembershipEvent) : Prop :=
  ((deltaType e.eventType).isSome = true → isTransitionValid e.eventType (s.stateOf e.userId) = true) ∧
    (e.eventType = .joinRejected → e.source = "remote")

/-- The two tables are the same. -/
theorem eventToDeltaType_eq (t : EventType) : eventToDeltaType t = deltaType t := by cases t <;> rfl

/-- What a subscriber that catches up hears of an event. -/
def replayed (e : MembershipEvent) : List (MembershipEvent × MembershipDelta) :=
  ((synthesizeDelta e).map fun d => (e, d)).toList

theorem replayed_eq_announced_iff (s : Snapshot) (e : MembershipEvent) :
    replayed e = announced s e ↔ Visible s e := by
  simp only [replayed, synthesizeDelta, eventToDeltaType_eq, announced, deltas, deltaOf, Visible]
  cases hd : deltaType e.eventType with
  | none =>
    by_cases hr : e.eventType = .joinRejected
    · by_cases hs : e.source = "remote" <;> simp [hr, hs]
    · simp [hr]
  | some d =>
    have hne : e.eventType ≠ .joinRejected := by
      intro he
      rw [he] at hd
      cases hd
    by_cases hv : isTransitionValid e.eventType (s.stateOf e.userId) = true <;> simp [hne, hv]

/-- Lists of pairs that each element of a list contributes under its own
key. -/
theorem flatMap_eq_flatMap_iff {α β κ : Type} [DecidableEq κ] (key : α → κ) {f g : α → List (κ × β)} :
    ∀ {l : List α}, (l.map key).Nodup → (∀ x ∈ l, ∀ p ∈ f x, p.1 = key x) → (∀ x ∈ l, ∀ p ∈ g x, p.1 = key x) →
      (l.flatMap f = l.flatMap g ↔ ∀ x ∈ l, f x = g x)
  | [], _, _, _ => by simp
  | x :: l, hn, hf, hg => by
    rw [List.map_cons, List.nodup_cons] at hn
    have hrest := flatMap_eq_flatMap_iff key hn.2 (fun y hy => hf y (List.mem_cons_of_mem _ hy))
      fun y hy => hg y (List.mem_cons_of_mem _ hy)
    have hown {h : α → List (κ × β)} (hh : ∀ y ∈ x :: l, ∀ p ∈ h y, p.1 = key y) :
        ((x :: l).flatMap h).filter (·.1 = key x) = h x := by
      have hself : (h x).filter (·.1 = key x) = h x :=
        List.filter_eq_self.2 fun p hp => decide_eq_true (hh x (by simp) p hp)
      have hnone : (l.flatMap h).filter (·.1 = key x) = [] := by
        refine List.filter_eq_nil_iff.2 fun p hp he => hn.1 ?_
        obtain ⟨y, hy, hpy⟩ := List.mem_flatMap.1 hp
        rw [← of_decide_eq_true he, hh y (List.mem_cons_of_mem _ hy) p hpy]
        exact List.mem_map_of_mem hy
      rw [List.flatMap_cons, List.filter_append, hself, hnone, List.append_nil]
    constructor
    · intro he
      have hx : f x = g x := by
        rw [← hown hf, ← hown hg, he]
      rw [List.flatMap_cons, List.flatMap_cons, hx] at he
      have hl := hrest.1 (List.append_cancel_left he)
      intro y hy
      rcases List.mem_cons.1 hy with rfl | hy
      · exact hx
      · exact hl y hy
    · intro hall
      rw [List.flatMap_cons, List.flatMap_cons, hall x (by simp),
        hrest.2 fun y hy => hall y (List.mem_cons_of_mem _ hy)]

/-- The events, each with the snapshot it meets. -/
def meetings (s : Snapshot) : List MembershipEvent → List (Snapshot × MembershipEvent)
  | [] => []
  | e :: es => (s, e) :: meetings (s.applyEvent e).1 es

theorem map_snd_meetings : ∀ (es : List MembershipEvent) (s : Snapshot), (meetings s es).map Prod.snd = es
  | [], _ => rfl
  | e :: es, s => by rw [meetings, List.map_cons, map_snd_meetings es]

theorem announcements_eq : ∀ (es : List MembershipEvent) (s : Snapshot),
    announcements s es = (meetings s es).flatMap fun p => announced p.1 p.2
  | [], _ => rfl
  | e :: es, s => by rw [announcements, meetings, List.flatMap_cons, announcements_eq es]

theorem mem_meetings : ∀ {es : List MembershipEvent} {s s' : Snapshot} {e : MembershipEvent},
    (s', e) ∈ meetings s es ↔ ∃ pre post, es = pre ++ e :: post ∧ s' = advance s pre
  | [], s, s', e => by simp [meetings]
  | x :: es, s, s', e => by
    rw [meetings, List.mem_cons, mem_meetings]
    constructor
    · intro h
      rcases h with h | h
      · cases h
        exact ⟨[], es, rfl, rfl⟩
      · obtain ⟨pre, post, rfl, rfl⟩ := h
        exact ⟨x :: pre, post, rfl, rfl⟩
    · intro h
      obtain ⟨pre, post, he, rfl⟩ := h
      cases pre with
      | nil =>
        cases he
        exact .inl rfl
      | cons y pre =>
        cases he
        exact .inr ⟨pre, post, rfl, rfl⟩

theorem fst_of_mem_announced {s : Snapshot} {e : MembershipEvent} {p : MembershipEvent × MembershipDelta}
    (h : p ∈ announced s e) : p.1 = e := by
  simp only [announced, deltas] at h
  split at h
  · cases List.mem_singleton.1 h
    rfl
  · simp only [Option.mem_toList, Option.map_eq_some_iff] at h
    obtain ⟨d, -, rfl⟩ := h
    rfl

theorem fst_of_mem_replayed {e : MembershipEvent} {p : MembershipEvent × MembershipDelta} (h : p ∈ replayed e) :
    p.1 = e := by
  simp only [replayed, Option.mem_toList, Option.map_eq_some_iff] at h
  obtain ⟨d, -, rfl⟩ := h
  rfl

/-- The pairs above a version come from the events above it. -/
theorem filter_flatMap_of_key {α β κ : Type} (key : α → κ) {f : α → List (κ × β)} {p : κ → Bool} :
    ∀ {l : List α}, (∀ x ∈ l, ∀ y ∈ f x, y.1 = key x) →
      (l.flatMap f).filter (fun y => p y.1) = (l.filter fun x => p (key x)).flatMap f
  | [], _ => rfl
  | x :: l, h => by
    have hl := filter_flatMap_of_key (p := p) key fun y hy => h y (List.mem_cons_of_mem _ hy)
    have hx : (f x).filter (fun y => p y.1) = if p (key x) = true then f x else [] := by
      have heq : (f x).filter (fun y => p y.1) = (f x).filter fun _ => p (key x) :=
        List.filter_congr fun y hy => by rw [h x (by simp) y hy]
      rw [heq]
      cases p (key x) <;> simp
    rw [List.flatMap_cons, List.filter_append, hl, hx, List.filter_cons]
    split <;> simp

/-- What a subscriber that catches up on these events hears, and what was
announced of them. -/
theorem Consecutive.catchUp_eq_iff {es : List MembershipEvent} {a b : Int} (h : Consecutive a b es) (s : Snapshot)
    (v : Int) :
    (es.filter (·.seqNo > v)).filterMap (fun e => (synthesizeDelta e).map fun d => (e, d)) =
        (announcements s es).filter (fun p => v < p.1.membershipVersion) ↔
      ∀ pre e post, es = pre ++ e :: post → v < e.seqNo → Visible (advance s pre) e := by
  have hmem {p : Snapshot × MembershipEvent} (hp : p ∈ meetings s es) : p.2 ∈ es := by
    have := List.mem_map_of_mem (f := Prod.snd) hp
    rwa [map_snd_meetings] at this
  have hleft : (es.filter (·.seqNo > v)).filterMap (fun e => (synthesizeDelta e).map fun d => (e, d)) =
      ((meetings s es).filter fun p => decide (v < p.2.seqNo)).flatMap fun p => replayed p.2 := by
    conv_lhs => rw [← map_snd_meetings es s]
    rw [List.filter_map, List.filterMap_map, List.filterMap_eq_flatMap_toList]
    rfl
  have hright : (announcements s es).filter (fun p => v < p.1.membershipVersion) =
      ((meetings s es).filter fun p => decide (v < p.2.seqNo)).flatMap fun p => announced p.1 p.2 := by
    rw [announcements_eq]
    have hkey := filter_flatMap_of_key (p := fun e : MembershipEvent => decide (v < e.membershipVersion))
      (fun p : Snapshot × MembershipEvent => p.2) (f := fun p => announced p.1 p.2) (l := meetings s es)
      fun x _ y hy => fst_of_mem_announced hy
    refine hkey.trans ?_
    congr 1
    exact List.filter_congr fun p hp => by rw [h.version p.2 (hmem hp)]
  rw [hleft, hright, flatMap_eq_flatMap_iff (fun p : Snapshot × MembershipEvent => p.2)]
  · simp only [List.mem_filter, decide_eq_true_eq, Prod.forall, replayed_eq_announced_iff]
    constructor
    · intro hall pre e post he hv
      exact hall _ _ ⟨mem_meetings.2 ⟨pre, post, he, rfl⟩, hv⟩
    · intro hall s' e hp
      obtain ⟨pre, post, he, rfl⟩ := mem_meetings.1 hp.1
      exact hall pre e post he hp.2
  · refine List.Nodup.sublist (List.filter_sublist.map _) ?_
    rw [map_snd_meetings]
    exact h.sorted.imp fun hlt he => by rw [he] at hlt; omega
  · exact fun x _ p hp => fst_of_mem_replayed hp
  · exact fun x _ p hp => fst_of_mem_announced hp

/-- The version of a snapshot is that of an event it has applied, and so is
the number up to which it has applied them. -/
theorem version_advance : ∀ (es : List MembershipEvent) (s : Snapshot),
    ((advance s es).version = s.version ∧ (advance s es).asOfSeqNo = s.asOfSeqNo) ∨
      ∃ e ∈ es, (advance s es).version = e.membershipVersion ∧ (advance s es).asOfSeqNo = e.seqNo
  | [], _ => .inl ⟨rfl, rfl⟩
  | e :: es, s => by
    rcases version_advance es (s.applyEvent e).1 with h | ⟨x, hx, h⟩
    · by_cases ha : s.Accepts e
      · refine .inr ⟨e, by simp, h.1.trans ?_, h.2.trans ?_⟩
        · rw [Snapshot.applyEvent_of_accepts ha]
        · rw [Snapshot.applyEvent_of_accepts ha]
      · rw [Snapshot.applyEvent_of_not_accepts ha] at h
        refine .inl ?_
        rw [advance, List.foldl_cons, Snapshot.applyEvent_of_not_accepts ha]
        exact h
    · exact .inr ⟨x, List.mem_cons_of_mem _ hx, h⟩

/-- The coordinator after operations of a fresh start. -/
structure Recorded (cfg : Settings) (c : Coordinator) : Prop where
  sane : Sane c
  numbered : Consecutive 1 c.log.nextSeqNo c.log.log
  snapshot : c.snapshot = advance (.new cfg.roomId) c.log.log
  dispatched : c.dispatched = announcements (.new cfg.roomId) c.log.log

theorem Recorded.new (cfg : Settings) : Recorded cfg (.new cfg Dict.empty) :=
  ⟨Sane.new cfg, .nil 1, rfl, rfl⟩

theorem Recorded.run (clock : Nat → Time) {cfg : Settings} (h : Recorded cfg c) (ops : List Op)
    (hops : ∀ op ∈ ops, op ≠ .recover) :
    Recorded cfg (c.run clock ops) ∧ ∃ es, Ledger c es (c.run clock ops) := by
  obtain ⟨es, hes⟩ := Ledger.run h.sane hops
  refine ⟨⟨h.sane.run ops, ?_, ?_, ?_⟩, es, hes⟩
  · rw [hes.log]
    exact h.numbered.append hes.numbered
  · rw [hes.snapshot, h.snapshot, hes.log, advance_append]
  · rw [hes.dispatched, h.dispatched, h.snapshot, hes.log, announcements_append]

/-- No version is ahead of the log. -/
theorem Recorded.version_lt {cfg : Settings} (h : Recorded cfg c) : c.snapshot.version < c.log.nextSeqNo := by
  rw [h.snapshot]
  rcases version_advance c.log.log (.new cfg.roomId) with ⟨hv, -⟩ | ⟨e, he, hv, -⟩
  · have hlen := h.numbered.length
    rw [hv]
    show (0 : Int) < _
    omega
  · have hb := h.numbered.bounds e he
    rw [hv, h.numbered.version e he]
    exact hb.2

/-- **Catching up is hearing what was dispatched**: a subscriber that asks
for the events above the version of an earlier moment hears, then and from
then on, what one that was there all the time heard above that version,
exactly when every event logged above it by then was visible. -/
theorem catchUp_iff (clock : Nat → Time) (cfg : Settings) (ops₁ ops₂ ops₃ : List Op)
    (h : ∀ op ∈ ops₁ ++ (ops₂ ++ ops₃), op ≠ .recover) :
    let c₁ := (Coordinator.new cfg Dict.empty).run clock ops₁
    let c₂ := c₁.run clock ops₂
    let c₃ := c₂.run clock ops₃
    heard c₂ c₁.snapshot.version c₃ = c₃.dispatched.filter (fun p => c₁.snapshot.version < p.1.membershipVersion) ↔
      ∀ pre e post, c₂.log.log = pre ++ e :: post → c₁.snapshot.version < e.seqNo →
        Visible (replay cfg.roomId pre) e := by
  intro c₁ c₂ c₃
  have h₁ : Recorded cfg c₁ := ((Recorded.new cfg).run clock ops₁ fun op hop => h op (by simp [hop])).1
  have hrun₂ : Recorded cfg c₂ ∧ ∃ es, Ledger c₁ es c₂ := h₁.run clock ops₂ fun op hop => h op (by simp [hop])
  obtain ⟨h₂, es₂, hes₂⟩ := hrun₂
  have hrun₃ : Recorded cfg c₃ ∧ ∃ es, Ledger c₂ es c₃ := h₂.run clock ops₃ fun op hop => h op (by simp [hop])
  obtain ⟨-, es₃, hes₃⟩ := hrun₃
  -- what comes after the subscription is above the version
  have hlater : (announcements c₂.snapshot es₃).filter (fun p => c₁.snapshot.version < p.1.membershipVersion) =
      announcements c₂.snapshot es₃ := by
    refine List.filter_eq_self.2 fun p hp => decide_eq_true ?_
    rw [announcements_eq] at hp
    obtain ⟨⟨s', e⟩, hm, hp⟩ := List.mem_flatMap.1 hp
    obtain ⟨pre, post, he, -⟩ := mem_meetings.1 hm
    have hmem : e ∈ es₃ := by rw [he]; simp
    have hb := (hes₃.numbered.bounds e hmem).1
    have hlen := hes₂.numbered.length
    have hv := h₁.version_lt
    have hn : c₁.log.nextSeqNo ≤ c₂.log.nextSeqNo := by omega
    rw [fst_of_mem_announced hp, hes₃.numbered.version e hmem]
    omega
  have hheard : heard c₂ c₁.snapshot.version c₃ =
      c₂.log.catchUp c₁.snapshot.version ++ announcements c₂.snapshot es₃ := by
    rw [heard, hes₃.dispatched, List.drop_left]
  rw [hheard, hes₃.dispatched, List.filter_append, hlater, List.append_cancel_right_eq, h₂.dispatched]
  simp only [replay_eq_advance]
  exact h₂.numbered.catchUp_eq_iff (.new cfg.roomId) c₁.snapshot.version

theorem catchUp_iff_join :
    let c₁ := Coordinator.new ⟨"room", some "a:1", 1⟩ Dict.empty
    let c₂ := c₁.run (fun _ => 0) [.join "b:1" "B" none none .accepts]
    let c₃ := c₂.run (fun _ => 0) [.startBackfill "b:1", .completeBackfill "b:1"]
    heard c₂ c₁.snapshot.version c₃ =
      c₃.dispatched.filter (fun p => c₁.snapshot.version < p.1.membershipVersion) := by
  intro c₁ c₂ c₃
  refine (catchUp_iff (fun _ => 0) ⟨"room", some "a:1", 1⟩ [] [.join "b:1" "B" none none .accepts]
    [.startBackfill "b:1", .completeBackfill "b:1"] (by simp)).2 fun pre e post he hv => ?_
  cases pre with
  | nil =>
    cases (List.cons.inj he).1
    exact ⟨by decide, by decide⟩
  | cons x pre =>
    have hone : c₂.log.log.length = 1 := by decide
    have hlen := congrArg List.length he
    simp only [List.cons_append, List.length_cons, List.length_append] at hlen
    exact absurd (hlen.symm.trans hone) (by omega)

/-- **Catching up brings what nobody heard**, here the leave of a member
that had only just joined, **and leaves out what was heard**, here the
rejection of a join. -/
theorem refused_leave_replayed :
    let c₁ := Coordinator.new ⟨"room", some "a:1", 1⟩ Dict.empty
    let c₂ := c₁.run (fun _ => 0) [.join "b:1" "B" none none .accepts, .leave "b:1"]
    let c₃ := c₁.run (fun _ => 0) [.join "b:1" "B" none none (.rejects none)]
    heard c₂ c₁.snapshot.version c₂ ≠
        c₂.dispatched.filter (fun p => c₁.snapshot.version < p.1.membershipVersion) ∧
      (heard c₂ c₁.snapshot.version c₂).map (·.2.type) = [.joined, .left] ∧
      (c₂.dispatched.filter (fun p => c₁.snapshot.version < p.1.membershipVersion)).map (·.2.type) = [.joined] ∧
      (heard c₃ c₁.snapshot.version c₃).map (·.2.type) = [] ∧
      (c₃.dispatched.filter (fun p => c₁.snapshot.version < p.1.membershipVersion)).map (·.2.type) = [.rejected] := by
  decide

end PeerChat.Membership
