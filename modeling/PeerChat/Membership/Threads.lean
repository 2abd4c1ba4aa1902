/-
The coordinator's operations run from several threads.

`append` and `apply_event` are atomic, an operation is not: between the two
another thread may append and apply an event with a higher number, and
`apply_event` then drops the first one as stale. Every operation applies
each event right after it has appended it (`Bracketed`), so what has been
applied and what is pending are together the log; when the events are
applied in the order of their numbers, the snapshot is the replay of the
log (`snapshot_eq_replay`).
-/
import PeerChat.Membership.Coordinator

namespace PeerChat.Membership

open Lib

/-- The snapshot obtained by applying events to an empty one. -/
def replay (roomId : String) (events : List MembershipEvent) : Snapshot :=
  events.foldl (fun s e => (s.applyEvent e).1) (.new roomId)

/-- The event a step applies. -/
def appliedBy : Sigma Cmd → Option MembershipEvent
  | ⟨_, .applyEvent e⟩ => some e
  | _ => none

/-- The events given to `apply_event` in a run, in order. -/
def applied (tr : List (Sigma Cmd)) : List MembershipEvent := tr.filterMap appliedBy

/-- The steps that touch neither the log nor the snapshot. -/
def Neutral : {β : Type} → Cmd β → Prop
  | _, .append _ | _, .appendRemote _ | _, .applyEvent _ | _, .restore => False
  | _, .now | _, .getMember _ | _, .members | _, .version | _, .activeMembers | _, .isDuplicate _ _
  | _, .dispatch _ _ | _, .registerMember _ | _, .unregisterMember _ | _, .recordHeartbeat _ | _, .trackedIds
  | _, .checkEntry _ _ | _, .maybeCheckpoint => True

theorem exec_neutral (clock : Nat → Time) {β : Type} {cmd : Cmd β} (h : Neutral cmd) (c : Coordinator) :
    (exec clock cmd c).2.log = c.log ∧ (exec clock cmd c).2.snapshot = c.snapshot := by
  cases cmd with
  | append _ | appendRemote _ | applyEvent _ | restore => exact absurd h (by simp [Neutral])
  | _ => exact ⟨rfl, rfl⟩

theorem appliedBy_neutral {β : Type} {cmd : Cmd β} (h : Neutral cmd) : appliedBy ⟨β, cmd⟩ = none := by
  cases cmd with
  | applyEvent _ => exact absurd h (by simp [Neutral])
  | _ => rfl

/-! ## Append, then apply -/

/-- A program whose next step applies the pending event, if there is one,
and that applies every event right after it has appended it. -/
inductive Bracketed {α : Type} : Option MembershipEvent → Action α → Prop
  | pure (a : α) : Bracketed none (.pure a)
  | raise (x : Exn) : Bracketed none (.raise x)
  | append (a : NewEvent) (k : MembershipEvent → Action α) :
    (∀ e, Bracketed (some e) (k e)) → Bracketed none (.op (.append a) k)
  | appendRemote (a : MembershipEvent) (k : MembershipEvent → Action α) :
    (∀ e, Bracketed (some e) (k e)) → Bracketed none (.op (.appendRemote a) k)
  | apply (e : MembershipEvent) (k : Option MembershipDelta → Action α) :
    (∀ d, Bracketed none (k d)) → Bracketed (some e) (.op (.applyEvent e) k)
  | other {β : Type} (c : Cmd β) (k : β → Action α) :
    Neutral c → (∀ b, Bracketed none (k b)) → Bracketed none (.op c k)

/-- The next step of the program applies an event. -/
def Applies {α : Type} (p : Action α) : Prop :=
  match p with
  | .op (.applyEvent _) _ => True
  | _ => False

theorem Neutral.not_applies {α β : Type} {cmd : Cmd β} (h : Neutral cmd) (k : β → Action α) :
    ¬ Applies (.op cmd k) := by
  cases cmd with
  | applyEvent _ => exact absurd h (by simp [Neutral])
  | _ => exact id

namespace Bracketed

variable {α β : Type}

/-- Only a program that applies next has an event pending. -/
theorem eq_none {o : Option MembershipEvent} {p : Action α} (h : Bracketed o p) (hp : ¬ Applies p) : o = none := by
  cases h with
  | apply e k hk => exact absurd trivial hp
  | _ => rfl

theorem bind {o : Option MembershipEvent} {p : Action α} {f : α → Action β} (hp : Bracketed o p)
    (hf : ∀ a, Bracketed none (f a)) : Bracketed o (p >>= f) := by
  show Bracketed o (p.bind f)
  induction hp with
  | pure a => exact hf a
  | raise x => exact .raise x
  | append a k _ ih => exact .append a _ ih
  | appendRemote a k _ ih => exact .appendRemote a _ ih
  | apply e k _ ih => exact .apply e _ ih
  | other c k hc _ ih => exact .other c _ hc ih

theorem lift {c : Cmd α} (h : Neutral c) : Bracketed none (.lift c : Action α) := .other c _ h .pure

theorem next {c : Cmd α} {f : α → Action β} (h : Neutral c) (hf : ∀ a, Bracketed none (f a)) :
    Bracketed none (.lift c >>= f) := .other c _ h hf

theorem when {b : Prop} [Decidable b] {p : Action Unit} (h : Bracketed none p) : Bracketed none (.when b p) := by
  unfold Prog.when
  split
  · exact h
  · exact .pure ()

theorem forEach {τ : Type} {f : τ → Action Unit} (h : ∀ x, Bracketed none (f x)) :
    ∀ l : List τ, Bracketed none (Prog.forEach f l)
  | [] => .pure ()
  | x :: l => (h x).bind fun _ => forEach h l

/-- An event appended and applied at once. -/
theorem append_apply {a : NewEvent} {f : MembershipEvent → Option MembershipDelta → Action α}
    (h : ∀ e d, Bracketed none (f e d)) :
    Bracketed none (do
      let e ← .lift (.append a)
      let d ← .lift (.applyEvent e)
      f e d) :=
  .append a _ fun e => .apply e _ (h e)

theorem record (a : NewEvent) : Bracketed none (Membership.record a) :=
  append_apply fun e _ => next trivial fun _ => .pure e

theorem handlePresenceChange (u : String) (ch : ChangeType) :
    Bracketed none (Membership.handlePresenceChange u ch) := by
  refine next trivial fun current => ?_
  cases current with
  | none => exact .pure ()
  | some m => exact (record _).bind fun _ => .bind (when (lift trivial)) fun _ => lift trivial

theorem handleJoin (cfg : Settings) (u name : String) (key : Option Bytes) (trace : Option String) (v : Verdict) :
    Bracketed none (Membership.handleJoin cfg u name key trace v) := by
  refine next trivial fun duplicate => ?_
  cases duplicate with
  | true => exact next trivial fun _ => next trivial fun _ => .pure _
  | false =>
    cases v with
    | raises => exact .raise _
    | rejects reason =>
      exact append_apply fun _ _ => next trivial fun _ => next trivial fun _ => .pure _
    | accepts =>
      exact (record _).bind fun _ => .bind (when (lift trivial)) fun _ => next trivial fun _ =>
        next trivial fun _ => .pure _

theorem handleLeave (u : String) : Bracketed none (Membership.handleLeave u) := by
  refine next trivial fun current => ?_
  cases current with
  | none => exact .pure ()
  | some m =>
    simp only
    split
    · exact .pure ()
    · exact (when (append_apply fun _ _ => .pure ())).bind fun _ => (record _).bind fun _ =>
        next trivial fun _ => lift trivial

theorem handleHeartbeat (u : String) : Bracketed none (Membership.handleHeartbeat u) := by
  refine next trivial fun current => ?_
  cases current with
  | none => exact .pure ()
  | some m =>
    exact append_apply fun _ _ => next trivial fun _ => (when (handlePresenceChange u _)).bind fun _ =>
      lift trivial

theorem moveBackfill (from_ : MemberState) (t : EventType) (u : String) :
    Bracketed none (Membership.moveBackfill from_ t u) := by
  refine next trivial fun current => ?_
  cases current with
  | none => exact .pure ()
  | some m => exact when ((record _).bind fun _ => lift trivial)

theorem checkMember (now : Time) (u : String) : Bracketed none (Membership.checkMember now u) := by
  refine next trivial fun change => ?_
  cases change with
  | none => exact .pure ()
  | some ch => exact handlePresenceChange u ch

theorem tick (cfg : Settings) : Bracketed none (Membership.tick cfg) := by
  refine Bracketed.bind ?_ fun _ => ?_
  · exact next trivial fun now => next trivial fun ids => forEach (checkMember now) ids
  · refine next trivial fun now => next trivial fun members => forEach (fun p => ?_) members
    exact when ((record _).bind fun _ => next trivial fun _ => lift trivial)

theorem applyRemoteEvent (e : MembershipEvent) : Bracketed none (Membership.applyRemoteEvent e) := by
  refine .appendRemote e _ fun e => .apply e _ fun _ => ?_
  refine next trivial fun _ => (when ?_).bind fun _ => lift trivial
  exact next trivial fun _ => when (next trivial fun _ => when (handlePresenceChange _ _))

/-- **Every operation applies each event right after it has appended it.** -/
theorem prog (cfg : Settings) {op : Op} (h : op ≠ .recover) : Bracketed none (op.prog cfg) := by
  cases op with
  | join u name key trace v => exact (handleJoin cfg u name key trace v).bind fun _ => .pure ()
  | startBackfill u => exact moveBackfill _ _ u
  | completeBackfill u => exact moveBackfill _ _ u
  | heartbeat u => exact handleHeartbeat u
  | leave u => exact handleLeave u
  | tick => exact tick cfg
  | remote e => exact applyRemoteEvent e
  | recover => exact absurd rfl h

end Bracketed

/-! ## Interleavings -/

/-- What holds of the threads after the steps `tr`. -/
structure ThreadsInv (cfg : Settings) (tr : List (Sigma Cmd)) (x : Prog.Config Cmd Exn Coordinator) : Prop where
  /-- The threads with their pending events: these and the applied ones are
  the log. -/
  threads : ∃ qs : List (Option MembershipEvent × Action Unit), qs.map Prod.snd = x.1 ∧
    (∀ q ∈ qs, Bracketed q.1 q.2) ∧ (applied tr ++ qs.filterMap Prod.fst).Perm x.2.log.log
  snapshot : x.2.snapshot = replay cfg.roomId (applied tr)
  sorted : x.2.log.log.Pairwise (·.seqNo < ·.seqNo)
  below : ∀ e ∈ x.2.log.log, e.seqNo < x.2.log.nextSeqNo

theorem ThreadsInv.init (cfg : Settings) (files : Dict Int (Option Checkpoint)) {ops : List Op}
    (h : Op.recover ∉ ops) : ThreadsInv cfg [] (ops.map (Op.prog cfg), .new cfg files) where
  threads := by
    refine ⟨ops.map fun op => (none, op.prog cfg), by simp, fun q hq => ?_, ?_⟩
    · obtain ⟨op, hop, rfl⟩ := List.mem_map.1 hq
      exact Bracketed.prog cfg fun he => h (he ▸ hop)
    · have hnone : (ops.map fun op => ((none : Option MembershipEvent), op.prog cfg)).filterMap Prod.fst = [] := by
        simp [List.filterMap_map]
      rw [hnone]
      exact .refl _
  snapshot := rfl
  sorted := .nil
  below := by simp [Coordinator.new, EventLog.new]

/-- One thread takes a step: its pending event becomes `o`. -/
theorem pending_set {qs : List (Option MembershipEvent × Action Unit)} {i : Nat} {t : Action Unit}
    (hi : (qs.map Prod.snd)[i]? = some t) (hb : ∀ q ∈ qs, Bracketed q.1 q.2) :
    ∃ o, Bracketed o t ∧ ∀ o' t', Bracketed o' t' →
      (qs.set i (o', t')).map Prod.snd = (qs.map Prod.snd).set i t' ∧
      (∀ q ∈ qs.set i (o', t'), Bracketed q.1 q.2) ∧
      (o.toList ++ (qs.set i (o', t')).filterMap Prod.fst).Perm (o'.toList ++ qs.filterMap Prod.fst) := by
  rw [List.getElem?_map, Option.map_eq_some_iff] at hi
  obtain ⟨q, hq, rfl⟩ := hi
  refine ⟨q.1, hb q (List.mem_of_getElem? hq), fun o' t' hb' => ⟨?_, fun r hr => ?_, ?_⟩⟩
  · rw [List.map_set]
  · cases List.mem_or_eq_of_mem_set hr with
    | inl hr => exact hb r hr
    | inr hr => rw [hr]; exact hb'
  · exact Prog.filterMap_set_perm (f := Prod.fst) (x := q) (y := (o', t')) hq

theorem applied_snoc (tr : List (Sigma Cmd)) (l : Sigma Cmd) :
    applied (tr ++ [l]) = applied tr ++ (appliedBy l).toList := by
  simp only [applied, List.filterMap_append, List.filterMap_cons, List.filterMap_nil]
  cases appliedBy l <;> rfl

/-- An append, by a thread that had nothing pending. -/
theorem ThreadsInv.append {cfg : Settings} {tr : List (Sigma Cmd)} {ts : List (Action Unit)} {c : Coordinator}
    (h : ThreadsInv cfg tr (ts, c)) {l : Sigma Cmd} (hl : appliedBy l = none) {i : Nat} {t t' : Action Unit}
    (hi : ts[i]? = some t) (hnone : ¬ Applies t) {e : MembershipEvent} {term : Int} {r : Nat}
    (hseq : e.seqNo = c.log.nextSeqNo) (ht' : Bracketed (some e) t') :
    ThreadsInv cfg (tr ++ [l]) (ts.set i t', { c with log := c.log.push e term, reads := r }) := by
  obtain ⟨qs, rfl, hb, hperm⟩ := h.threads
  obtain ⟨o, ho, hset⟩ := pending_set hi hb
  obtain ⟨hmap, hb', hp⟩ := hset (some e) t' ht'
  rw [ho.eq_none hnone] at hp
  have happ : applied (tr ++ [l]) = applied tr := by rw [applied_snoc, hl]; simp
  refine ⟨⟨_, hmap, hb', ?_⟩, by rw [happ]; exact h.snapshot, ?_, fun x hx => ?_⟩
  · rw [happ]
    have h1 : ((qs.set i (some e, t')).filterMap Prod.fst).Perm (e :: qs.filterMap Prod.fst) := hp
    refine (h1.append_left _).trans (List.perm_middle.trans ?_)
    exact (hperm.cons e).trans (List.perm_append_singleton e _).symm
  · refine List.pairwise_append.2 ⟨h.sorted, List.pairwise_singleton _ _, fun x hx y hy => ?_⟩
    rw [List.mem_singleton.1 hy, hseq]
    exact h.below x hx
  · show x.seqNo < c.log.nextSeqNo + 1
    cases List.mem_append.1 hx with
    | inl hx =>
      have := h.below x hx
      have : x.seqNo < c.log.nextSeqNo := this
      omega
    | inr hx =>
      rw [List.mem_singleton.1 hx, hseq]
      omega

/-- A step that leaves the log and the snapshot alone. -/
theorem ThreadsInv.quiet {cfg : Settings} {tr : List (Sigma Cmd)} {ts : List (Action Unit)} {c c' : Coordinator}
    (h : ThreadsInv cfg tr (ts, c)) {l : Sigma Cmd} (hl : appliedBy l = none) {i : Nat} {t t' : Action Unit}
    (hi : ts[i]? = some t) (hnone : ¬ Applies t) (hlog : c'.log = c.log)
    (hsnap : c'.snapshot = c.snapshot) (ht' : Bracketed none t') :
    ThreadsInv cfg (tr ++ [l]) (ts.set i t', c') := by
  obtain ⟨qs, rfl, hb, hperm⟩ := h.threads
  obtain ⟨o, ho, hset⟩ := pending_set hi hb
  obtain ⟨hmap, hb', hp⟩ := hset none t' ht'
  rw [ho.eq_none hnone] at hp
  have happ : applied (tr ++ [l]) = applied tr := by rw [applied_snoc, hl]; simp
  refine ⟨⟨_, hmap, hb', ?_⟩, ?_, ?_, ?_⟩
  · rw [happ, hlog]
    exact (List.Perm.append_left _ hp).trans hperm
  · rw [happ]
    exact hsnap.trans h.snapshot
  · rw [hlog]; exact h.sorted
  · rw [hlog]; exact h.below

theorem ThreadsInv.step {cfg : Settings} {clock : Nat → Time} {tr : List (Sigma Cmd)}
    {x y : Prog.Config Cmd Exn Coordinator} {l : Sigma Cmd} (h : ThreadsInv cfg tr x)
    (hs : Prog.Step (exec clock) x l y) : ThreadsInv cfg (tr ++ [l]) y := by
  cases hs with
  | @ok ts c c' i β cmd k b hi he =>
    obtain ⟨qs, hqs, hb, hperm⟩ := h.threads
    have hts : qs.map Prod.snd = ts := hqs
    obtain ⟨o, ho, hset⟩ := pending_set (hts ▸ hi) hb
    cases ho with
    | append a k hk =>
      simp only [exec, EventLog.append] at he
      split at he
      · cases he
      · next heq =>
        split at heq
        · cases heq
        · cases heq
          cases he
          exact h.append rfl hi id rfl (hk _)
    | appendRemote a k hk =>
      simp only [exec, EventLog.appendRemote] at he
      cases he
      exact h.append rfl hi id rfl (hk _)
    | apply e k hk =>
      simp only [exec] at he
      cases he
      obtain ⟨hmap, hb', hp⟩ := hset none _ (hk _)
      have happ : applied (tr ++ [⟨_, Cmd.applyEvent e⟩]) = applied tr ++ [e] := applied_snoc tr _
      refine ⟨⟨_, hmap.trans (by rw [hts]), hb', ?_⟩, ?_, h.sorted, h.below⟩
      · rw [happ, List.append_assoc]
        exact (List.Perm.append_left _ hp).trans hperm
      · rw [happ, replay, List.foldl_append]
        exact congrArg (fun s : Snapshot => (s.applyEvent e).1) h.snapshot
    | other cmd k hn hk =>
      have hex := exec_neutral clock hn c
      rw [he] at hex
      exact h.quiet (appliedBy_neutral hn) hi (hn.not_applies k) hex.1 hex.2 (hk b)
  | @error ts c c' i β cmd k x hi he =>
    cases cmd with
    | append a =>
      simp only [exec, EventLog.append] at he
      split at he
      · cases he
        exact h.quiet rfl hi id rfl rfl (.raise _)
      · cases he
    | restore =>
      simp only [exec] at he
      split at he <;> cases he
    | _ => cases he

theorem ThreadsInv.steps {cfg : Settings} {clock : Nat → Time} {x y : Prog.Config Cmd Exn Coordinator}
    {tr : List (Sigma Cmd)} (h : ThreadsInv cfg [] x) (hs : Prog.Steps (exec clock) x tr y) :
    ThreadsInv cfg tr y := by
  induction hs with
  | refl => exact h
  | snoc _ hstep ih => exact ih.step hstep

theorem Applies.not_done {α : Type} {p : Action α} (h : Applies p) : ¬ Prog.Done p := by
  cases p with
  | pure _ | raise _ => exact absurd h id
  | op _ _ => exact id

/-- **The snapshot is the replay of the log**, whatever the threads do,
once all have finished, when `apply_event` was called in the order of the
sequence numbers; no event is lost on the way. -/
theorem snapshot_eq_replay (clock : Nat → Time) (cfg : Settings) (files : Dict Int (Option Checkpoint))
    (ops : List Op) (hops : Op.recover ∉ ops) {tr : List (Sigma Cmd)} {ts : List (Action Unit)} {c : Coordinator}
    (hs : Prog.Steps (exec clock) (ops.map (Op.prog cfg), .new cfg files) tr (ts, c))
    (hdone : ∀ t ∈ ts, Prog.Done t) (horder : (applied tr).Pairwise (·.seqNo < ·.seqNo)) :
    c.snapshot = replay cfg.roomId c.log.log ∧ applied tr = c.log.log ∧
      c.log.log.Pairwise (·.seqNo < ·.seqNo) := by
  have h := (ThreadsInv.init cfg files hops).steps hs
  obtain ⟨qs, hqs, hb, hperm⟩ := h.threads
  have hnone : qs.filterMap Prod.fst = [] := by
    refine List.filterMap_eq_nil_iff.2 fun q hq => (hb q hq).eq_none fun happ => ?_
    refine happ.not_done (hdone q.2 ?_)
    rw [← show qs.map Prod.snd = ts from hqs]
    exact List.mem_map_of_mem hq
  rw [hnone, List.append_nil] at hperm
  have heq : applied tr = c.log.log :=
    hperm.eq_of_pairwise (fun a b _ _ hab hba => absurd hab (not_lt.2 hba.le)) horder h.sorted
  exact ⟨by rw [← heq]; exact h.snapshot, heq, h.sorted⟩

/-- Two joins from two threads. -/
def twoJoins : List Op := [.join "b:1" "B" none none .accepts, .join "c:1" "C" none none .accepts]

/-- The node the threads share. -/
def room : Settings := ⟨"room", some "a:1", 1⟩

/-- A clock that is read once a second. -/
def seconds (n : Nat) : Time := n

/-- The two joins, with the threads taking turns. -/
def twoJoinsRun (turns : List Nat) : Prog.Config Cmd Exn Coordinator × List (Sigma Cmd) :=
  Prog.schedule (exec seconds) turns (twoJoins.map (Op.prog room), .new room Dict.empty)

/-- The second join starts once the first one's event is applied, and runs
on beside it. -/
def inOrder : List Nat := [0, 0, 0, 1, 1, 0, 1, 0, 1, 0, 1, 0, 1, 1]

/-- The second join runs between the two steps of the first. -/
def overtaking : List Nat := [0, 0, 1, 1, 1, 1, 1, 1, 1, 0, 0, 0, 0, 0]

theorem snapshot_eq_replay_inOrder :
    (twoJoinsRun inOrder).1.2.snapshot.stateOf "c:1" = some .joining ∧
    (twoJoinsRun inOrder).1.2.snapshot = replay "room" (twoJoinsRun inOrder).1.2.log.log :=
  ⟨by decide, (snapshot_eq_replay seconds room Dict.empty twoJoins (by simp [twoJoins])
    (Prog.steps_schedule inOrder _) (by decide) (by decide)).1⟩

/-- **An overtaken event is lost.** -/
theorem overtaken_event_lost :
    ∃ tr ts c, Prog.Steps (exec seconds) (twoJoins.map (Op.prog room), .new room Dict.empty) tr (ts, c) ∧
      (∀ t ∈ ts, Prog.Done t) ∧ c.snapshot.stateOf "b:1" = none ∧
      (replay "room" c.log.log).stateOf "b:1" = some .joining ∧ c.snapshot ≠ replay "room" c.log.log := by
  have hlost : (twoJoinsRun overtaking).1.2.snapshot.stateOf "b:1" = none := by decide
  have hkept : (replay "room" (twoJoinsRun overtaking).1.2.log.log).stateOf "b:1" = some .joining := by decide
  have hne : (twoJoinsRun overtaking).1.2.snapshot ≠ replay "room" (twoJoinsRun overtaking).1.2.log.log := by
    intro he
    rw [he, hkept] at hlost
    cases hlost
  exact ⟨_, _, _, Prog.steps_schedule overtaking _, by decide, hlost, hkept, hne⟩

end PeerChat.Membership
