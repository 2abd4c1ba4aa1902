/-
What the answer of `handle_join` says about the snapshot, from any state
that a node can be in (`handle_join` of
`peer_discovery/membership_integration/coordinator.py`).

The answer is decided by the duplicate guard and the validator, the effect
by the snapshot, which refuses a user that it already has. Nothing compares
the two: `acceptance_iff` says when they agree.

An event that the snapshot refuses leaves the record of its user. To tell
the old record from a new one takes that the versions in a snapshot are
numbers of events that it has applied (`Dated`).
-/
import PeerChat.Membership.Calls

namespace PeerChat.Membership

open Lib

variable {clock : Nat → Time} {c c' : Coordinator} {u : String}

/-! ## Versions -/

/-- Versions are the numbers of events, and a member's is of one that was
applied. -/
structure Dated (events : List MembershipEvent) (s : Snapshot) : Prop where
  log : ∀ e ∈ events, e.membershipVersion = e.seqNo
  members : ∀ u m, s.members.get? u = some m → m.membershipVersion ≤ s.asOfSeqNo

/-- The versions of a snapshot, when one record is written. -/
theorem version_set {members : Dict String MemberInfo} {n k : Int} {v : String} {m : MemberInfo}
    (h : ∀ u m, members.get? u = some m → m.membershipVersion ≤ n) (hnk : n ≤ k) (hm : m.membershipVersion ≤ k)
    (u : String) (m' : MemberInfo) (hget : (members.set v m).get? u = some m') : m'.membershipVersion ≤ k := by
  rw [Dict.get?_set] at hget
  split at hget
  · cases hget
    exact hm
  · exact (h u m' hget).trans hnk

theorem version_update {s : Snapshot} {n k : Int} {v : String} {f : MemberInfo → MemberInfo}
    (h : ∀ u m, s.members.get? u = some m → m.membershipVersion ≤ n) (hnk : n ≤ k)
    (hf : ∀ m, m.membershipVersion ≤ n → (f m).membershipVersion ≤ k) (u : String) (m' : MemberInfo)
    (hget : (s.update v (s.members.get? v) f).members.get? u = some m') : m'.membershipVersion ≤ k := by
  unfold Snapshot.update at hget
  cases hv : s.members.get? v with
  | none =>
    rw [hv] at hget
    exact (h u m' hget).trans hnk
  | some m =>
    rw [hv] at hget
    exact version_set h hnk (hf m (h v m hv)) u m' hget

theorem version_dispatch {s : Snapshot} {e : MembershipEvent}
    (h : ∀ u m, s.members.get? u = some m → m.membershipVersion ≤ s.asOfSeqNo) (he : e.membershipVersion = e.seqNo)
    (hlt : s.asOfSeqNo < e.seqNo) (u : String) (m : MemberInfo)
    (hget : (s.dispatch e (s.members.get? e.userId)).1.members.get? u = some m) : m.membershipVersion ≤ e.seqNo := by
  have hle : s.asOfSeqNo ≤ e.seqNo := hlt.le
  unfold Snapshot.dispatch at hget
  cases ht : e.eventType <;> simp only [ht] at hget
  case joinRequested | joinRejected => exact (h u m hget).trans hle
  case joinAccepted => exact version_set h hle he.le u m hget
  case heartbeat =>
    have hkeep : ∀ m : MemberInfo, m.membershipVersion ≤ s.asOfSeqNo →
        ({ m with lastHeartbeat := e.timestamp } : MemberInfo).membershipVersion ≤ e.seqNo := fun m hm => hm.trans hle
    exact version_update h hle hkeep u m hget
  all_goals exact version_update h hle (fun _ _ => he.le) u m hget

theorem Dated.applyEvent {events : List MembershipEvent} {s : Snapshot} {e : MembershipEvent} (h : Dated events s)
    (he : e.membershipVersion = e.seqNo) : Dated events (s.applyEvent e).1 := by
  refine ⟨h.log, ?_⟩
  by_cases ha : s.Accepts e
  · rw [Snapshot.applyEvent_of_accepts ha]
    exact version_dispatch h.members he ha.1
  · rw [Snapshot.applyEvent_of_not_accepts ha]
    exact h.members

theorem Dated.advance {events : List MembershipEvent} : ∀ {es : List MembershipEvent} {s : Snapshot}, Dated events s →
    (∀ e ∈ es, e.membershipVersion = e.seqNo) → Dated (events ++ es) (advance s es)
  | [], s, h, _ => by simpa [Membership.advance] using h
  | e :: es, s, h, hes => by
    have he := hes e List.mem_cons_self
    have h₁ : Dated (events ++ [e]) (s.applyEvent e).1 := by
      refine ⟨fun x hx => ?_, (h.applyEvent he).members⟩
      rcases List.mem_append.1 hx with hx | hx
      · exact h.log x hx
      · rw [List.mem_singleton.1 hx]
        exact he
    have ih := Dated.advance h₁ fun x hx => hes x (List.mem_cons_of_mem _ hx)
    rwa [List.append_assoc] at ih

theorem Dated.reconstruct {cp : Checkpoint} (h : Dated cp.logTail cp.snapshot) (roomId : String) :
    Dated (Durability.reconstruct roomId cp).1.log (Durability.reconstruct roomId cp).2 := by
  have htail : ∀ e ∈ (Durability.reconstruct roomId cp).1.log, e.membershipVersion = e.seqNo := by
    intro e he
    simp only [Durability.reconstruct, List.mem_mergeSort, List.mem_map] at he
    obtain ⟨e', he', rfl⟩ := he
    exact h.log e' he'
  refine ⟨htail, ?_⟩
  have hreplay : ∀ (l : List MembershipEvent) (s : Snapshot), (∀ e ∈ l, e.membershipVersion = e.seqNo) →
      Dated [] s → Dated [] (l.foldl (fun s e => if s.asOfSeqNo < e.seqNo then (s.applyEvent e).1 else s) s) := by
    intro l
    induction l with
    | nil => exact fun _ _ hs => hs
    | cons e l ih =>
      intro s hl hs
      refine ih _ (fun x hx => hl x (List.mem_cons_of_mem _ hx)) ?_
      simp only
      split
      · exact hs.applyEvent (hl e List.mem_cons_self)
      · exact hs
  have hstart : Dated [] cp.snapshot.reread := by
    refine ⟨fun e he => absurd he List.not_mem_nil, fun u m hm => ?_⟩
    simp only [Snapshot.reread, Dict.get?_mapValues, Option.map_eq_some_iff] at hm
    obtain ⟨m', hm', rfl⟩ := hm
    exact h.members u m' hm'
  exact (hreplay _ _ htail hstart).members

/-- The versions of a coordinator and of its checkpoints. -/
structure Coordinator.Dates (c : Coordinator) : Prop where
  sane : Sane c
  books : Dated c.log.log c.snapshot
  files : ∀ k cp, c.durability.files.get? k = some (some cp) → Dated cp.logTail cp.snapshot

theorem Coordinator.Dates.new (cfg : Settings) : (Coordinator.new cfg Dict.empty).Dates where
  sane := Sane.new cfg
  books := ⟨by simp [Coordinator.new, EventLog.new], by simp [Coordinator.new, Snapshot.new]⟩
  files k cp h := by simp [Coordinator.new] at h

theorem Coordinator.Dates.ledger {es : List MembershipEvent} (h : c.Dates) (hs : Sane c') (hes : Ledger c es c') :
    c'.Dates where
  sane := hs
  books := by
    rw [hes.log, hes.snapshot]
    exact h.books.advance hes.numbered.version
  files k cp hk := by
    rcases hes.files k cp hk with hk | ⟨pre, hpre, ha⟩
    · exact h.files k cp hk
    · have hpart : Dated (c.log.log ++ pre) (advance c.snapshot pre) :=
        h.books.advance fun e he => hes.numbered.version e (hpre.subset he)
      rw [ha.logTail, ha.snapshot]
      exact ⟨fun e he => hpart.log e (List.mem_of_mem_filter he), hpart.members⟩

theorem Coordinator.Dates.restored (h : c.Dates) (hs : Sane c') (hr : Restored c c') : c'.Dates := by
  have hfound := hr.found
  refine ⟨hs, ?_, hr.durability ▸ h.files⟩
  cases hrec : c.durability.recover c.settings.roomId with
  | none =>
    rw [hrec] at hfound
    rw [hfound.1, hfound.2]
    exact h.books
  | some p =>
    rw [hrec] at hfound
    obtain ⟨⟨k, file⟩, hmem, hfile⟩ := List.exists_of_findSome?_eq_some hrec
    obtain ⟨cp, rfl, hcp⟩ := Option.map_eq_some_iff.1 hfile
    rw [Durability.listCheckpoints, List.mem_mergeSort] at hmem
    rw [hfound.1, hfound.2, ← hcp]
    exact (h.files k cp ((Dict.mem_items_iff _).1 hmem)).reconstruct c.settings.roomId

theorem Coordinator.Dates.live (h : c.Dates) (l : Life) : (c.live clock l).Dates := by
  have hs : Sane (c.live clock l) := h.sane.live l
  cases l with
  | restart => exact ⟨hs, (Coordinator.Dates.new c.settings).books, h.files⟩
  | call op =>
    by_cases hop : op = .recover
    · subst hop
      exact h.restored hs (.recover _)
    · obtain ⟨es, hes⟩ : ∃ es, Ledger c es (c.step clock op) := Ledger.step h.sane hop
      exact h.ledger hs hes

theorem Reached.dates (h : Reached clock c) : c.Dates := by
  obtain ⟨cfg, ls, rfl⟩ := h
  have key : ∀ (ls : List Life) (c : Coordinator), c.Dates → (ls.foldl (Coordinator.live clock) c).Dates := by
    intro ls
    induction ls with
    | nil => exact fun _ h => h
    | cons l ls ih => exact fun c h => ih _ (h.live l)
  exact key ls _ (Coordinator.Dates.new cfg)

/-! ## The answer and the effect -/

/-- The JOIN_ACCEPTED event of the call was logged and applied: the user is
joining with the name and the key of the request, as of this version. -/
def JoinApplied (c c' : Coordinator) (u name : String) (key : Option Bytes) (version : Int) : Prop :=
  ∃ e m, c'.log.log = c.log.log ++ [e] ∧ e.eventType = .joinAccepted ∧ e.userId = u ∧
    e.membershipVersion = version ∧ c'.snapshot.getMember u = some m ∧ m.state = .joining ∧
    m.displayName = name ∧ m.publicKey = key ∧ m.membershipVersion = version

/-- `handle_join` answers that the user is accepted exactly when its event
was applied; when it answers no, the members and the presence of the user
are as before; and a call that raises has applied nothing. -/
def AnswersTrue (clock : Nat → Time) (c : Coordinator) (u name : String) (key : Option Bytes)
    (trace : Option String) (v : Verdict) : Prop :=
  Prog.wp (exec clock) (handleJoin c.settings u name key trace v)
    (fun r c' => (r.accepted = true ↔ JoinApplied c c' u name key r.membershipVersion) ∧
      (r.accepted = false → c'.snapshot.members = c.snapshot.members ∧
        c'.presence.members.get? u = c.presence.members.get? u))
    (fun c' => c'.log = c.log ∧ c'.snapshot = c.snapshot) c

/-- The answer can only be wrong for a join that goes through to a user whom
the snapshot has. -/
def JoinAgrees (c : Coordinator) (u : String) (v : Verdict) : Prop :=
  Gone c u ∨ (u, EventType.joinRequested.value) ∈ c.duplicateGuard.recent ∨ v ≠ .accepts ∨ 1 < c.log.currentTerm

instance (c : Coordinator) (u : String) (v : Verdict) : Decidable (JoinAgrees c u v) :=
  inferInstanceAs (Decidable (_ ∨ _ ∨ _ ∨ _))

theorem not_joinApplied_of_rejected {e : MembershipEvent} {name : String} {key : Option Bytes} {n : Int}
    (hlog : c'.log.log = c.log.log ++ [e]) (he : e.eventType = .joinRejected) :
    ¬ JoinApplied c c' u name key n := by
  rintro ⟨e', m, hlog', he', -⟩
  rw [hlog, List.append_cancel_left_eq, List.cons.injEq] at hlog'
  rw [← hlog'.1, he] at he'
  cases he'

/-- The event of a join that the snapshot refuses leaves an older record. -/
theorem not_joinApplied_of_refused (h : c.Dates) {name : String} {key : Option Bytes} {n : Int}
    (hsnap : c'.snapshot = c.snapshot) (hn : n = c.log.nextSeqNo) : ¬ JoinApplied c c' u name key n := by
  rintro ⟨e, m, -, -, -, -, hm, -, -, -, hver⟩
  rw [hsnap] at hm
  have hle := h.books.members u m hm
  have hlt := h.sane.numbered.snapshot
  omega

theorem members_applyEvent_rejected {s : Snapshot} {e : MembershipEvent} (he : e.eventType = .joinRejected) :
    (s.applyEvent e).1.members = s.members := by
  by_cases ha : s.Accepts e
  · rw [Snapshot.applyEvent_of_accepts ha]
    simp only [Snapshot.dispatch, he]
  · rw [Snapshot.applyEvent_of_not_accepts ha]

theorem not_gone_iff : ¬ Gone c u ↔ isTransitionValid .joinAccepted (c.snapshot.stateOf u) = false := by
  unfold Gone isTransitionValid
  rw [if_pos rfl, decide_eq_false_iff_not]
  constructor
  · rintro h (hn | hd | hl)
    · exact h (.inl hn)
    · exact h (.inr (.inr hd))
    · exact h (.inr (.inl hl))
  · rintro h (hn | hl | hd)
    · exact h (.inl hn)
    · exact h (.inr (.inr hl))
    · exact h (.inr (.inl hd))

/-- A user whom the snapshot has is answered as accepted, and not let in. -/
theorem AnswersTrue.agrees (h : Reached clock c) {name : String} {key : Option Bytes} {trace : Option String}
    {v : Verdict} (hans : AnswersTrue clock c u name key trace v) : JoinAgrees c u v := by
  by_contra hcon
  simp only [JoinAgrees, not_or, not_not] at hcon
  obtain ⟨hgone, hdup, rfl, hterm⟩ := hcon
  -- the event is logged and answered with, but the snapshot refuses it
  refine Prog.wp_absurd (wp_handleJoin h.sane (fun hd => absurd hd hdup) (fun _ hx => ?_) (fun _ _ _ hv => ?_)
    fun _ _ _ e c₁ he hl => ?_) (Prog.wp_mono (fun _ _ hq => not_not.2 hq) (fun _ he => he) hans)
  · exact hx.elim nofun hterm
  · cases hv
  · have hsnap : c₁.snapshot = c.snapshot := by
      refine hl.snapshot.trans ?_
      subst he
      refine congrArg Prod.fst (Snapshot.applyEvent_of_not_accepts fun ha => ?_)
      exact absurd ha.2 (Bool.eq_false_iff.1 (not_gone_iff.1 hgone))
    rintro ⟨hiff, -⟩
    refine not_joinApplied_of_refused h.dates ?_ hl.version (hiff.1 rfl)
    split <;> exact hsnap

/-- **When the answer of `handle_join` is true.** -/
theorem acceptance_iff (h : Reached clock c) (u name : String) (key : Option Bytes) (trace : Option String)
    (v : Verdict) : AnswersTrue clock c u name key trace v ↔ JoinAgrees c u v := by
  constructor
  · exact AnswersTrue.agrees h
  · intro hagree
    refine wp_handleJoin h.sane (fun _ => ?_) (fun _ _ => ⟨rfl, rfl⟩) (fun _ _ reason _ e c₁ _ het _ _ hl => ?_)
      fun hdup hterm hv e c₁ he hl => ?_
    · refine ⟨⟨fun hf => absurd hf Bool.false_ne_true, ?_⟩, fun _ => ⟨rfl, rfl⟩⟩
      rintro ⟨e, m, hlog, -⟩
      simp [Coordinator.guarded] at hlog
    · have hlog : c₁.log.log = c.log.log ++ [e] := by
        rw [hl.log]
        rfl
      refine ⟨⟨fun hf => absurd hf Bool.false_ne_true, fun happ => absurd happ ?_⟩, fun _ => ?_⟩
      · exact not_joinApplied_of_rejected hlog het
      · exact ⟨by rw [hl.snapshot, members_applyEvent_rejected het]; rfl, by rw [hl.presence]; rfl⟩
    · have hgone : Gone c u := by
        rcases hagree with hg | hd | hn | ht
        · exact hg
        · exact absurd hd hdup
        · exact absurd hv hn
        · exact absurd ht hterm
      have hacc : c.snapshot.Accepts e := by
        subst he
        exact ⟨h.sane.numbered.snapshot, hgone.joinable⟩
      obtain ⟨m, hm, hst, hname, hkey, hver⟩ := getMember_joined hacc (by subst he; rfl)
      have hsnap : c₁.snapshot = (c.snapshot.applyEvent e).1 := hl.snapshot
      have hlog : c₁.log.log = c.log.log ++ [e] := by
        rw [hl.log]
        rfl
      have happ : JoinApplied c c₁ u name key e.membershipVersion := by
        subst he
        exact ⟨_, m, hlog, rfl, rfl, rfl, by rw [hsnap]; exact hm, hst, hname, hkey, hver⟩
      refine ⟨⟨fun _ => ?_, fun _ => rfl⟩, fun hf => absurd hf.symm Bool.false_ne_true⟩
      split <;> exact happ

/-- A user whom another node let in leaves, and comes back through this one. -/
theorem acceptance_iff_returning :
    Reached still (lived still [.call (.remote (reported .joinAccepted)), .call (.startBackfill "b:1"),
      .call (.completeBackfill "b:1"), .call (.leave "b:1")]) ∧
    AnswersTrue still (lived still [.call (.remote (reported .joinAccepted)), .call (.startBackfill "b:1"),
      .call (.completeBackfill "b:1"), .call (.leave "b:1")]) "b:1" "B" none none .accepts :=
  ⟨reached_lived still _, (acceptance_iff (reached_lived still _) "b:1" "B" none none .accepts).2 (by decide +kernel)⟩

/-- The node has heard of `b:1` from another one. -/
def introduced : Coordinator := lived still [.call (.remote (reported .joinAccepted))]

/-- A join of a user whom another node has announced is answered as
accepted; the name that it gives is not in the snapshot. -/
theorem accepted_not_applied :
    Reached still introduced ∧
      (((handleJoin introduced.settings "b:1" "Bob" none none .accepts).run (exec still) introduced).1.toOption.map
        (·.accepted)) = some true ∧
      (((handleJoin introduced.settings "b:1" "Bob" none none .accepts).run (exec still)
        introduced).2.snapshot.getMember "b:1").map (·.displayName) = some "" ∧
      ¬ AnswersTrue still introduced "b:1" "Bob" none none .accepts := by
  refine ⟨reached_lived still _, by decide +kernel, by decide +kernel, fun hans => ?_⟩
  have hcond : ¬ JoinAgrees introduced "b:1" .accepts := by decide +kernel
  exact hcond (hans.agrees (reached_lived still _))

end PeerChat.Membership
