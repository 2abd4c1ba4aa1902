/-
What a joiner learns of the room (`DiscoveryNode._handle_join_request` and
`_handle_join_response`, `network/discovery_node.py`).

The response to a join carries the log of the seed, and the joiner applies
it to an empty snapshot. The snapshot of the seed is the log applied to the
snapshot it started from: an empty one, or that of the checkpoint it was
restored from (`Seeded`), whose events are no longer in the log. A member
is then the same on both sides once the log holds a join of it that both
allow. `joiner_learns_room`: all members are the same when this is so for
every member of the checkpoint.
-/
import PeerChat.Membership.Ledger

namespace PeerChat.Membership

open Lib

/-! ## Profiles -/

/-- What a joiner learns of a member; an empty key is none. -/
structure Profile where
  state : MemberState
  displayName : String
  joinedAt : Time
  publicKey : Option Bytes
  deriving DecidableEq, Repr

/-- The profile of a member. -/
def MemberInfo.profile (m : MemberInfo) : Profile :=
  ⟨m.state, m.displayName, m.joinedAt, m.publicKey.filter (!·.isEmpty)⟩

/-- The profile of a user, if the snapshot has a record of them. -/
def Snapshot.profileOf (s : Snapshot) (u : String) : Option Profile := (s.members.get? u).map MemberInfo.profile

/-- The profile an accepted join gives its user. -/
def MembershipEvent.newcomer (e : MembershipEvent) : Profile :=
  ⟨.joining, e.displayName, e.timestamp, e.publicKey.filter (!·.isEmpty)⟩

/-- What an event does to the profile of its user. -/
def profileStep (p : Option Profile) (e : MembershipEvent) : Option Profile :=
  if isTransitionValid e.eventType (p.map (·.state)) then
    if e.eventType = .joinAccepted then some e.newcomer
    else p.map fun q => { q with state := (target e.eventType (some q.state)).getD q.state }
  else p

namespace Snapshot

theorem map_state_profileOf (s : Snapshot) (u : String) : (s.profileOf u).map (·.state) = s.stateOf u := by
  simp only [profileOf, stateOf, Option.map_map]
  rfl

theorem profileOf_update (s : Snapshot) (u v : String) (f : MemberInfo → MemberInfo) :
    (s.update u (s.members.get? u) f).profileOf v =
      if v = u then (s.members.get? u).map (fun m => (f m).profile) else s.profileOf v := by
  unfold update profileOf
  cases hm : s.members.get? u with
  | none =>
    by_cases hv : v = u
    · subst hv
      simp [hm]
    · simp [hv]
  | some m =>
    simp only [Dict.get?_set]
    split <;> rfl

/-- The effect of a valid event on the profiles. -/
theorem profileOf_dispatch {s : Snapshot} {e : MembershipEvent}
    (hv : isTransitionValid e.eventType (s.stateOf e.userId) = true) (u : String) :
    (s.dispatch e (s.members.get? e.userId)).1.profileOf u =
      if u = e.userId then profileStep (s.profileOf u) e else s.profileOf u := by
  by_cases hu : u = e.userId
  · subst hu
    rw [if_pos rfl, profileStep, map_state_profileOf, if_pos hv]
    unfold dispatch
    cases ht : e.eventType
    case joinAccepted => simp [profileOf, MemberInfo.profile, MembershipEvent.newcomer]
    all_goals
      simp only [profileOf_update, reduceCtorEq, if_true, if_false, target, Option.getD_some]
      simp only [profileOf, Option.map_map]
      rfl
  · rw [if_neg hu]
    unfold dispatch
    cases ht : e.eventType
    case joinAccepted => simp [profileOf, Dict.get?_set, hu]
    all_goals simp [profileOf_update, hu]

/-- **The profiles follow the events.** -/
theorem profileOf_applyEvent {s : Snapshot} {e : MembershipEvent} (h : s.asOfSeqNo < e.seqNo) (u : String) :
    (s.applyEvent e).1.profileOf u = if u = e.userId then profileStep (s.profileOf u) e else s.profileOf u := by
  by_cases ha : s.Accepts e
  · rw [applyEvent_of_accepts ha]
    exact profileOf_dispatch ha.2 u
  · rw [applyEvent_of_not_accepts ha]
    split
    · next hu =>
      subst hu
      have hv : ¬ isTransitionValid e.eventType (s.stateOf e.userId) = true := fun hv => ha ⟨h, hv⟩
      rw [profileStep, map_state_profileOf, if_neg hv]
    · rfl

end Snapshot

/-- Nothing that the profile depends on is lost on the way. -/
theorem profileStep_reread (p : Option Profile) (e : MembershipEvent) : profileStep p e.reread = profileStep p e := by
  have hkey : e.reread.newcomer = e.newcomer := by
    simp only [MembershipEvent.newcomer, MembershipEvent.reread, Option.filter_filter, Bool.and_self]
  simp only [profileStep, hkey]
  rfl

/-- The profile of a user after a list of events. -/
def profileAfter (u : String) (p : Option Profile) (es : List MembershipEvent) : Option Profile :=
  es.foldl (fun p e => if u = e.userId then profileStep p e else p) p

/-- A list of events that a snapshot can take one after the other. -/
structure Chronicle (s : Snapshot) (es : List MembershipEvent) : Prop where
  start : 0 ≤ s.asOfSeqNo
  sorted : es.Pairwise (·.seqNo < ·.seqNo)
  newer : ∀ e ∈ es, s.asOfSeqNo < e.seqNo

variable {clock : Nat → Time} {c c' : Coordinator} {s base : Snapshot} {es : List MembershipEvent}

theorem Chronicle.le_advance (h : Chronicle s es) : s.asOfSeqNo ≤ (advance s es).asOfSeqNo := by
  rcases version_advance es s with ⟨-, hv⟩ | ⟨e, he, -, hv⟩
  · omega
  · have := h.newer e he
    omega

theorem Chronicle.profileOf_advance (u : String) : ∀ {es : List MembershipEvent} {s : Snapshot}, Chronicle s es →
    (advance s es).profileOf u = profileAfter u (s.profileOf u) es
  | [], _, _ => rfl
  | e :: es, s, h => by
    have hlt := h.newer e (by simp)
    have hsorted := List.pairwise_cons.1 h.sorted
    have hle := Snapshot.asOfSeqNo_applyEvent_le (s := s) (e := e) (n := e.seqNo) (by omega) le_rfl
    have hone : Chronicle s [e] := by
      refine ⟨h.start, List.pairwise_singleton _ _, fun x hx => ?_⟩
      rw [List.mem_singleton.1 hx]
      exact hlt
    have hstart : s.asOfSeqNo ≤ (s.applyEvent e).1.asOfSeqNo := hone.le_advance
    have hrest : Chronicle (s.applyEvent e).1 es := by
      refine ⟨h.start.trans hstart, hsorted.2, fun x hx => ?_⟩
      have := hsorted.1 x hx
      omega
    have hprof := hrest.profileOf_advance u
    rw [Snapshot.profileOf_applyEvent hlt] at hprof
    exact hprof

/-- The joiner, which numbers the events itself. -/
theorem profileOf_remote (h : Sane c) (e : MembershipEvent) (u : String) :
    (c.step clock (.remote e)).snapshot.profileOf u =
      if u = e.userId then profileStep (c.snapshot.profileOf u) e else c.snapshot.profileOf u := by
  have hl : Ledger c [c.log.localize e] (c.step clock (.remote e)) := Ledger.remote h e
  have hlt : c.snapshot.asOfSeqNo < (c.log.localize e).seqNo := h.numbered.snapshot
  have hp := Snapshot.profileOf_applyEvent hlt u
  rw [hl.snapshot]
  exact hp

theorem profileOf_remotes (u : String) : ∀ {es : List MembershipEvent} {c : Coordinator}, Sane c →
    (c.run clock (es.map .remote)).snapshot.profileOf u = profileAfter u (c.snapshot.profileOf u) es
  | [], _, _ => rfl
  | e :: es, c, h => by
    have h₁ : Sane (c.step clock (.remote e)) := h.step _
    have hrest : ((c.step clock (.remote e)).run clock (es.map .remote)).snapshot.profileOf u = _ :=
      profileOf_remotes u h₁
    rw [profileOf_remote h] at hrest
    exact hrest

theorem profileAfter_reread (u : String) : ∀ (es : List MembershipEvent) (p : Option Profile),
    profileAfter u p (es.map MembershipEvent.reread) = profileAfter u p es
  | [], _ => rfl
  | e :: es, p => by
    have hstep : (if u = e.reread.userId then profileStep p e.reread else p) =
        if u = e.userId then profileStep p e else p := by
      rw [profileStep_reread]
      rfl
    have hrest := profileAfter_reread u es (if u = e.userId then profileStep p e else p)
    rw [List.map_cons, profileAfter, List.foldl_cons, hstep]
    exact hrest

/-! ## The seed -/

/-- The checkpoint `recover` restores: the newest one that decodes. -/
def Durability.newest (d : Durability) : Option Checkpoint := d.listCheckpoints.findSome? (·.2)

theorem Durability.recover_eq (d : Durability) (roomId : String) :
    d.recover roomId = d.newest.map (reconstruct roomId) := by
  rw [newest, List.map_findSome?]
  rfl

/-- A seed, and the snapshot that its log starts from. -/
structure Seed where
  coordinator : Coordinator
  base : Snapshot

/-- A seed that has just been constructed. -/
def Seed.new (cfg : Settings) : Seed := ⟨.new cfg Dict.empty, .new cfg.roomId⟩

/-- One event of the life of a seed. -/
def Seed.live (clock : Nat → Time) (seed : Seed) (l : Life) : Seed where
  coordinator := seed.coordinator.live clock l
  base :=
    match l with
    | .restart => .new seed.coordinator.settings.roomId
    | .call .recover => seed.coordinator.durability.newest.elim seed.base (·.snapshot.reread)
    | .call _ => seed.base

/-- A sequence of these. -/
def Seed.run (clock : Nat → Time) (seed : Seed) (ls : List Life) : Seed := ls.foldl (live clock) seed

/-- The states a seed reaches from a fresh start. -/
def Seed.Reached (clock : Nat → Time) (seed : Seed) : Prop := ∃ cfg ls, seed = (Seed.new cfg).run clock ls

theorem Seed.Reached.live {seed : Seed} (h : seed.Reached clock) (l : Life) : (seed.live clock l).Reached clock := by
  obtain ⟨cfg, ls, rfl⟩ := h
  refine ⟨cfg, ls ++ [l], ?_⟩
  rw [Seed.run, Seed.run, List.foldl_append]
  rfl

/-- The snapshot is the log applied to the base, and so it will be after a
recovery. -/
structure Seeded (c : Coordinator) (base : Snapshot) : Prop where
  sane : Sane c
  log : Chronicle base c.log.log
  snapshot : c.snapshot = advance base c.log.log
  files : ∀ k cp, c.durability.files.get? k = some (some cp) → Chronicle cp.snapshot cp.logTail

theorem Seeded.new (cfg : Settings) : Seeded (.new cfg Dict.empty) (.new cfg.roomId) where
  sane := Sane.new cfg
  log := ⟨le_rfl, .nil, by simp [Coordinator.new, EventLog.new]⟩
  snapshot := rfl
  files k cp h := by simp [Coordinator.new] at h

/-- What is logged next goes on with the chronicle. -/
theorem Seeded.chronicle (h : Seeded c base) (hes : Ledger c es c') : Chronicle base (c.log.log ++ es) := by
  have hnext := h.sane.numbered.snapshot
  have hle : base.asOfSeqNo ≤ c.snapshot.asOfSeqNo := by
    rw [h.snapshot]
    exact h.log.le_advance
  refine ⟨h.log.start, ?_, fun e he => ?_⟩
  · refine List.pairwise_append.2 ⟨h.log.sorted, hes.numbered.sorted, fun x hx y hy => ?_⟩
    have := h.sane.numbered.log x hx
    have := hes.numbered.bounds y hy
    omega
  · rcases List.mem_append.1 he with he | he
    · exact h.log.newer e he
    · have := hes.numbered.bounds e he
      omega

theorem Chronicle.initial {es' : List MembershipEvent} (h : Chronicle s es) (hp : es' <+: es) : Chronicle s es' :=
  ⟨h.start, h.sorted.sublist hp.sublist, fun e he => h.newer e (hp.subset he)⟩

/-- The checkpoint of a chronicle. -/
theorem Chronicle.archived (h : Chronicle base es) {cp : Checkpoint} (hs : cp.snapshot = advance base es)
    (ht : cp.logTail = es.filter (·.seqNo > cp.snapshot.asOfSeqNo)) : Chronicle cp.snapshot cp.logTail := by
  refine ⟨?_, ?_, fun e he => ?_⟩
  · rw [hs]
    exact h.start.trans h.le_advance
  · rw [ht]
    exact h.sorted.sublist List.filter_sublist
  · rw [ht] at he
    exact of_decide_eq_true (List.mem_filter.1 he).2

theorem Seeded.ledger (h : Seeded c base) (hs : Sane c') (hes : Ledger c es c') : Seeded c' base where
  sane := hs
  log := by
    rw [hes.log]
    exact h.chronicle hes
  snapshot := by rw [hes.snapshot, h.snapshot, hes.log, advance_append]
  files k cp hk := by
    rcases hes.files k cp hk with hk | ⟨pre, hpre, ha⟩
    · exact h.files k cp hk
    · have hpart : Chronicle base (c.log.log ++ pre) :=
        (h.chronicle hes).initial ((List.prefix_append_right_inj _).2 hpre)
      refine hpart.archived ?_ ha.logTail
      rw [ha.snapshot, h.snapshot, advance_append]

/-- The tail is in order, and replaying it is advancing the snapshot. -/
theorem Chronicle.reconstruct {cp : Checkpoint} (h : Chronicle cp.snapshot cp.logTail) (roomId : String) :
    (Durability.reconstruct roomId cp).1.log = cp.logTail.map MembershipEvent.reread ∧
      (Durability.reconstruct roomId cp).2 =
        advance cp.snapshot.reread (cp.logTail.map MembershipEvent.reread) := by
  have hsorted : (cp.logTail.map MembershipEvent.reread).Pairwise fun a b => decide (a.seqNo ≤ b.seqNo) = true :=
    List.pairwise_map.2 (h.sorted.imp fun hlt => decide_eq_true (Int.le_of_lt hlt))
  have htail : (cp.logTail.map MembershipEvent.reread).mergeSort (fun a b => decide (a.seqNo ≤ b.seqNo)) =
      cp.logTail.map MembershipEvent.reread := List.mergeSort_of_pairwise hsorted
  have hreplay : (fun (s : Snapshot) (e : MembershipEvent) =>
      if s.asOfSeqNo < e.seqNo then (s.applyEvent e).1 else s) = fun s e => (s.applyEvent e).1 := by
    funext s e
    split
    · rfl
    · next hle => rw [Snapshot.applyEvent_of_not_accepts fun ha => hle ha.1]
  simp only [Durability.reconstruct, htail, hreplay, advance, and_self]

theorem Seeded.restored (h : Seeded c base) (hs : Sane c') (hr : Restored c c') :
    Seeded c' (c.durability.newest.elim base (·.snapshot.reread)) := by
  have hfiles := hr.durability ▸ h.files
  have hfound := hr.found
  rw [Durability.recover_eq] at hfound
  cases hn : c.durability.newest with
  | none =>
    rw [hn] at hfound
    exact ⟨hs, hfound.1 ▸ h.log, hfound.1 ▸ hfound.2 ▸ h.snapshot, hfiles⟩
  | some cp =>
    rw [hn] at hfound
    obtain ⟨⟨k, file⟩, hmem, rfl⟩ := List.exists_of_findSome?_eq_some hn
    simp only [Durability.listCheckpoints, List.mem_mergeSort] at hmem
    have hcp := h.files k cp ((Dict.mem_items_iff _).1 hmem)
    obtain ⟨hlog, hsnap⟩ := hcp.reconstruct c.settings.roomId
    have hlog' : c'.log.log = cp.logTail.map MembershipEvent.reread := (congrArg EventLog.log hfound.1).trans hlog
    refine ⟨hs, ⟨hcp.start, ?_, fun e he => ?_⟩, ?_, hfiles⟩
    · rw [hlog']
      exact List.pairwise_map.2 hcp.sorted
    · rw [hlog'] at he
      obtain ⟨e', he', rfl⟩ := List.mem_map.1 he
      exact hcp.newer e' he'
    · rw [hlog']
      exact hfound.2.trans hsnap

theorem Seeded.live {seed : Seed} (h : Seeded seed.coordinator seed.base) (l : Life) :
    Seeded (seed.live clock l).coordinator (seed.live clock l).base := by
  have hs : Sane (seed.coordinator.live clock l) := h.sane.live l
  cases l with
  | restart => exact ⟨hs, (Seeded.new _).log, rfl, h.files⟩
  | call op =>
    by_cases hop : op = .recover
    · subst hop
      exact h.restored hs (.recover _)
    · obtain ⟨es, hes⟩ : ∃ es, Ledger seed.coordinator es (seed.coordinator.step clock op) :=
        Ledger.step h.sane hop
      have hbase : (seed.live clock (.call op)).base = seed.base := by
        cases op with
        | recover => exact absurd rfl hop
        | _ => rfl
      rw [hbase]
      exact h.ledger hs hes

theorem Seeded.run (clock : Nat → Time) : ∀ (ls : List Life) {seed : Seed}, Seeded seed.coordinator seed.base →
    Seeded (seed.run clock ls).coordinator (seed.run clock ls).base
  | [], _, h => h
  | l :: ls, _, h => Seeded.run clock ls (h.live l)

/-! ## The joiner -/

/-- The profile does not come to be without a join. -/
theorem profileAfter_none {u : String} : ∀ {es : List MembershipEvent},
    (∀ e ∈ es, e.userId = u → e.eventType ≠ .joinAccepted) → profileAfter u none es = none
  | [], _ => rfl
  | e :: es, h => by
    have hrest := profileAfter_none fun x hx => h x (List.mem_cons_of_mem _ hx)
    have hstep : (if u = e.userId then profileStep none e else none) = none := by
      split
      · next hu =>
        have hne := h e (by simp) hu.symm
        simp only [profileStep, hne, if_false, Option.map_none, ite_self]
      · rfl
    rw [profileAfter, List.foldl_cons, hstep]
    exact hrest

theorem profileStep_join {p : Option Profile} {e : MembershipEvent} (ht : e.eventType = .joinAccepted)
    (hv : isTransitionValid .joinAccepted (p.map (·.state)) = true) : profileStep p e = some e.newcomer := by
  simp only [profileStep, ht, hv, if_true]

/-- Every member of the base has joined anew: the first join of it that was
logged since was allowed. -/
def Renewed (base : Snapshot) (log : List MembershipEvent) : Prop :=
  ∀ u, (base.members.get? u).isSome = true → ∃ pre e post, log = pre ++ e :: post ∧ e.userId = u ∧
    e.eventType = .joinAccepted ∧ (∀ x ∈ pre, x.userId = u → x.eventType ≠ .joinAccepted) ∧
    isTransitionValid .joinAccepted ((advance base pre).stateOf u) = true

/-- The log tells the same of every user, with the base and without it. -/
theorem profileAfter_of_renewed (h : Chronicle base es) (hr : Renewed base es) (u : String) :
    profileAfter u none es = profileAfter u (base.profileOf u) es := by
  cases hu : base.members.get? u with
  | none => rw [Snapshot.profileOf, hu, Option.map_none]
  | some m =>
    obtain ⟨pre, e, post, rfl, heu, het, hpre, hv⟩ := hr u (by rw [hu]; rfl)
    have hbase := (h.initial (List.prefix_append _ _)).profileOf_advance u
    have hseed : profileStep (profileAfter u (base.profileOf u) pre) e = some e.newcomer := by
      rw [← hbase]
      exact profileStep_join het (by rw [Snapshot.map_state_profileOf]; exact hv)
    have hjoiner : profileStep (profileAfter u none pre) e = some e.newcomer := by
      rw [profileAfter_none hpre]
      exact profileStep_join het (by decide)
    simp only [profileAfter, List.foldl_append, List.foldl_cons, heu, if_true] at hseed hjoiner ⊢
    rw [hseed, hjoiner]

/-- `_handle_join_request`, with what else the seed does before it builds
the response; the events of the response, or `none` for a refusal. -/
def handleJoinRequest (clock : Nat → Time) (c : Coordinator) (senderId displayName : String) (key : Option Bytes)
    (traceId : Option String) (validator : Verdict) (meanwhile : List Op) :
    Coordinator × Option (List MembershipEvent) :=
  match (handleJoin c.settings senderId displayName key traceId validator).run (exec clock) c with
  | (.ok res, c₁) =>
    if res.accepted then
      let c₂ := c₁.run clock meanwhile
      (c₂, some ((c₂.log.getEventsSince 0).map MembershipEvent.reread))
    else (c₁, none)
  | (.error _, c₁) => (c₁, none)

/-- `_handle_join_response` of an accepted join. -/
def handleJoinResponse (clock : Nat → Time) (c : Coordinator) (events : List MembershipEvent) : Coordinator :=
  c.run clock (events.map .remote)

/-- The seed that answers a request has made the join and the rest. -/
theorem handleJoinRequest_eq {senderId displayName : String} {key : Option Bytes} {traceId : Option String}
    {v : Verdict} {meanwhile : List Op} {events : List MembershipEvent}
    (h : handleJoinRequest clock c senderId displayName key traceId v meanwhile = (c', some events)) :
    c' = (c.step clock (.join senderId displayName key traceId v)).run clock meanwhile ∧
      events = (c'.log.getEventsSince 0).map MembershipEvent.reread := by
  have hstep : c.step clock (.join senderId displayName key traceId v) =
      ((handleJoin c.settings senderId displayName key traceId v).run (exec clock) c).2 :=
    Prog.snd_run_bind_pure _ () c
  rw [hstep]
  unfold handleJoinRequest at h
  split at h
  · next hrun =>
    rw [hrun]
    split at h
    · cases h
      exact ⟨rfl, rfl⟩
    · cases h
  · cases h

theorem Seed.run_call (clock : Nat → Time) : ∀ (ops : List Op) (seed : Seed),
    (seed.run clock (ops.map .call)).coordinator = seed.coordinator.run clock ops
  | [], _ => rfl
  | op :: ops, seed => Seed.run_call clock ops (seed.live clock (.call op))

/-- The seed when it responds to a join. -/
def Seed.responding (clock : Nat → Time) (seed : Seed) (senderId displayName : String) (key : Option Bytes)
    (traceId : Option String) (validator : Verdict) (meanwhile : List Op) : Seed :=
  seed.run clock ((Op.join senderId displayName key traceId validator :: meanwhile).map .call)

/-- **A joiner learns the whole room**: after any life of the seed, and
whatever it does between the join and the response, the joiner has every
member with the profile that the seed has, when each member of the snapshot
the seed was restored from has joined anew. -/
theorem joiner_learns_room (clock clockJ : Nat → Time) (cfgJ : Settings) (seed : Seed)
    (senderId displayName : String) (key : Option Bytes) (traceId : Option String) (validator : Verdict)
    (meanwhile : List Op) (c : Coordinator) (events : List MembershipEvent) (hseed : seed.Reached clock)
    (hreq : handleJoinRequest clock seed.coordinator senderId displayName key traceId validator meanwhile =
      (c, some events))
    (hbase : Renewed (seed.responding clock senderId displayName key traceId validator meanwhile).base c.log.log)
    (u : String) :
    (handleJoinResponse clockJ (.new cfgJ Dict.empty) events).snapshot.profileOf u = c.snapshot.profileOf u := by
  obtain ⟨hc, rfl⟩ := handleJoinRequest_eq hreq
  have hlife : Seeded seed.coordinator seed.base := by
    obtain ⟨cfg, ls, rfl⟩ := hseed
    exact (Seeded.new cfg).run clock ls
  have hseed : Seeded c (seed.responding clock senderId displayName key traceId validator meanwhile).base := by
    have hrun := hlife.run clock ((Op.join senderId displayName key traceId validator :: meanwhile).map .call)
    rw [Seed.run_call] at hrun
    rw [hc]
    exact hrun
  have hall : c.log.getEventsSince 0 = c.log.log := by
    refine List.filter_eq_self.2 fun e he => decide_eq_true ?_
    have := hseed.log.start
    have := hseed.log.newer e he
    omega
  rw [hall, handleJoinResponse, profileOf_remotes u (Sane.new cfgJ), profileAfter_reread, hseed.snapshot,
    hseed.log.profileOf_advance]
  exact profileAfter_of_renewed hseed.log hbase u

/-- A seed restored from the checkpoint that it wrote after the hundredth
event, which holds one member. -/
def restoredSeed : Seed :=
  (Seed.new ⟨"room", some "a:1", 1⟩).run (fun _ => 0)
    (.call (.join "b:1" "B" none none .accepts) :: .call (.startBackfill "b:1") ::
      (List.replicate 98 (.call (.heartbeat "b:1")) ++ [.restart, .call .recover]))

theorem reached_restoredSeed : restoredSeed.Reached fun _ => 0 := ⟨⟨"room", some "a:1", 1⟩, _, rfl⟩

/-- The member of the checkpoint, given up by another node and joining again. -/
def rejoinedSeed : Seed :=
  restoredSeed.live (fun _ => 0) (.call (.remote
    ⟨7, "room", "b:1", .disconnectTimeout, 0, 7, "coordinator", 1, none, "", none, none⟩))

theorem joiner_learns_room_rejoined :
    ∃ c events, handleJoinRequest (fun _ => 0) rejoinedSeed.coordinator "b:1" "Bo" (some [1]) none .accepts [] =
        (c, some events) ∧
      ∀ u, (handleJoinResponse (fun _ => 0) (.new ⟨"room", some "b:1", 1⟩ Dict.empty) events).snapshot.profileOf u =
        c.snapshot.profileOf u := by
  have hreached : rejoinedSeed.Reached fun _ => 0 := reached_restoredSeed.live _
  have hsome : (handleJoinRequest (fun _ => 0) rejoinedSeed.coordinator "b:1" "Bo" (some [1]) none .accepts
      []).2.isSome = true := by decide +kernel
  have hlog : (handleJoinRequest (fun _ => 0) rejoinedSeed.coordinator "b:1" "Bo" (some [1]) none .accepts
      []).1.log.log = [⟨101, "room", "b:1", .disconnectTimeout, 0, 101, "remote", 1, none, "", none, none⟩,
        ⟨102, "room", "b:1", .joinAccepted, 0, 102, "coordinator", 1, none, "Bo", none, some [1]⟩] := by
    decide +kernel
  have hkeys : (rejoinedSeed.responding (fun _ => 0) "b:1" "Bo" (some [1]) none .accepts []).base.members.keys =
      ["b:1"] := by decide +kernel
  have hvalid : isTransitionValid .joinAccepted
      ((advance (rejoinedSeed.responding (fun _ => 0) "b:1" "Bo" (some [1]) none .accepts []).base
        [⟨101, "room", "b:1", .disconnectTimeout, 0, 101, "remote", 1, none, "", none, none⟩]).stateOf
          "b:1") = true := by
    decide +kernel
  rcases hans : handleJoinRequest (fun _ => 0) rejoinedSeed.coordinator "b:1" "Bo" (some [1]) none .accepts [] with
    ⟨c, _ | events⟩
  · rw [hans] at hsome
    cases hsome
  · rw [hans] at hlog
    refine ⟨c, events, rfl, joiner_learns_room (fun _ => 0) (fun _ => 0) ⟨"room", some "b:1", 1⟩ rejoinedSeed
      "b:1" "Bo" (some [1]) none .accepts [] c events hreached hans fun v hv => ?_⟩
    obtain ⟨m, hm⟩ := Option.isSome_iff_exists.1 hv
    have hmem := (Dict.mem_keys_iff _).2 ⟨m, hm⟩
    obtain rfl : v = "b:1" := by simpa [hkeys] using hmem
    exact ⟨[_], _, [], hlog, rfl, rfl, by simp, hvalid⟩

/-- **A restored seed leaves out its older members**: the checkpoint holds
the member, the log that is sent does not. -/
theorem restored_members_missing :
    let answer := handleJoinRequest (fun _ => 0) restoredSeed.coordinator "c:1" "C" (some [1]) none .accepts []
    restoredSeed.Reached (fun _ => 0) ∧ answer.1.snapshot.profileOf "b:1" = some ⟨.backfilling, "B", 0, none⟩ ∧
      answer.2.map (fun events => (handleJoinResponse (fun _ => 0) (.new ⟨"room", some "c:1", 1⟩ Dict.empty)
        events).snapshot.profileOf "b:1") = some none := by
  exact ⟨reached_restoredSeed, by decide +kernel⟩

end PeerChat.Membership
