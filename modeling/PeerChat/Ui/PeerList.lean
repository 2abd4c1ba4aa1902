/-
The peer list of the chat, driven by the membership of the node (`connect`
of `ui/services/service.py`).

The callback of the service hears every event that the coordinator passes
on, and nothing else of the membership. `listed_iff`: whom messages go to
are the members that have joined and not left, those that were timed out
included, and those whom a discovery message has entered since they left.
-/
import PeerChat.Lib.Since
import PeerChat.Membership.LocalUser
import PeerChat.Membership.Router
import PeerChat.Ui.Service

namespace PeerChat.Ui

open Lib FirstUse PeerChat.Membership
open Service (Act)

/-- The coordinator of a node with the chat service that it calls. -/
structure ChatNode (κ : Type) where
  coordinator : Coordinator
  service : Service κ

/-- What happens at a node. -/
inductive Turn
  | call (op : Op)
  | frame (m : Message)
  | hello (p : Peer)

namespace ChatNode

variable {κ : Type}

/-- What the service is told: the events of a call, in the order of their
dispatch. -/
def told (clock : Nat → Time) (c : Coordinator) : Turn → List Act
  | .call op => ((c.step clock op).dispatched.drop c.dispatched.length).map fun x => .event x.1
  | .frame m => [.frame m]
  | .hello p => [.hello p]

/-- The coordinator afterwards. -/
def turned (clock : Nat → Time) (c : Coordinator) : Turn → Coordinator
  | .call op => c.step clock op
  | .frame _ | .hello _ => c

def step (C : Crypto κ) (clock : Nat → Time) (n : ChatNode κ) (t : Turn) : ChatNode κ :=
  ⟨turned clock n.coordinator t, n.service.run C (told clock n.coordinator t)⟩

def run (C : Crypto κ) (clock : Nat → Time) (n : ChatNode κ) (turns : List Turn) : ChatNode κ :=
  turns.foldl (step C clock) n

/-- What the service is told in a run. -/
def tale (clock : Nat → Time) : Coordinator → List Turn → List Act
  | _, [] => []
  | c, t :: turns => told clock c t ++ tale clock (turned clock c t) turns

theorem service_run (C : Crypto κ) (clock : Nat → Time) : ∀ (turns : List Turn) (n : ChatNode κ),
    (n.run C clock turns).service = n.service.run C (tale clock n.coordinator turns)
  | [], _ => rfl
  | t :: turns, n => by
    rw [tale, Service.run_append]
    exact service_run C clock turns (n.step C clock t)

/-! ## Members -/

/-- A user has joined and not left. -/
def Present (st : Option MemberState) : Prop := st ≠ none ∧ st ≠ some .left

instance (st : Option MemberState) : Decidable (Present st) := inferInstanceAs (Decidable (_ ∧ _))

/-- Only the events that the service looks at bring a user in or take one
out. -/
theorem present_transition (t : EventType) (st : Option MemberState) : Present (transition t st) ↔
    t = .joinAccepted ∧ isTransitionValid t st = true ∨
      Present st ∧ ¬ (t = .leaveConfirmed ∧ isTransitionValid t st = true) := by
  cases st with
  | none => cases t <;> decide
  | some st => cases t <;> cases st <;> decide

/-- An event is passed on at most once; one that the service looks at, when
the state of its user allows it. -/
theorem announced_cases (s : Snapshot) (e : MembershipEvent) :
    let seen := e.eventType = .joinAccepted ∨ e.eventType = .leaveConfirmed
    (announced s e = [] ∧ (seen → isTransitionValid e.eventType (s.stateOf e.userId) = false)) ∨
      ∃ d, announced s e = [(e, d)] ∧ (seen → isTransitionValid e.eventType (s.stateOf e.userId) = true) := by
  intro seen
  have hdelta (hs : seen) : (deltaType e.eventType).isSome = true := by
    rcases hs with hs | hs <;> rw [hs] <;> rfl
  unfold announced
  split
  · next hr =>
    refine .inr ⟨_, rfl, fun hs => ?_⟩
    rcases hs with hs | hs <;> rw [hr.1] at hs <;> cases hs
  · by_cases hv : isTransitionValid e.eventType (s.stateOf e.userId) = true
    · cases hd : deltaType e.eventType with
      | none =>
        refine .inl ⟨by simp [deltas, deltaOf, hd], fun hs => ?_⟩
        have := hdelta hs
        rw [hd] at this
        cases this
      | some d => exact .inr ⟨⟨d, e.userId, e⟩, by simp [deltas, deltaOf, hv, hd], fun _ => hv⟩
    · exact .inl ⟨by simp [deltas, deltaOf, hv], fun _ => by simpa using hv⟩

/-! ## The list -/

/-- A discovery message has entered the peer, after the user last left. -/
def Planted (C : Crypto κ) (s₀ : Service κ) (u : String) (p : Peer) (acts : List Act) : Prop :=
  Since (fun _ x => ∀ e, x = .event e → e.userId = u → e.eventType ≠ .leaveConfirmed)
    (fun h x => ∃ m, x = .frame m ∧ (s₀.run C h).pins C p x ≠ []) acts

/-- The service lists the peer exactly when its user is there, or was
planted. -/
def Lists (C : Crypto κ) (s₀ : Service κ) (u : String) (p : Peer) (st : Option MemberState) (acts : List Act) : Prop :=
  (pinned none (Service.entries C p s₀ acts)).isSome = true ↔ Present st ∨ Planted C s₀ u p acts

/-- The host of a user. -/
def hostOf (u : String) : Option String := (rsplit ':' u).map Prod.fst

variable {C : Crypto κ} {s₀ : Service κ} {u host : String} {st : Option MemberState} {acts : List Act}
  {s : Snapshot} {e : MembershipEvent} {clock : Nat → Time} {c : Coordinator}

theorem pinned_entries_concat (p : Peer) (x : Act) : pinned none (Service.entries C p s₀ (acts ++ [x])) =
    pinned (pinned none (Service.entries C p s₀ acts)) ((s₀.run C acts).pins C p x) := by
  rw [Service.entries_append, Service.entries_singleton, pinned_append]

/-- A frame, or a greeting. -/
theorem Lists.quiet {p : Peer} (h : Lists C s₀ u p st acts) {x : Act} (hx : ∀ e, x ≠ .event e) :
    Lists C s₀ u p st (acts ++ [x]) := by
  have hplanted : Planted C s₀ u p (acts ++ [x]) ↔
      (∃ m, x = .frame m ∧ (s₀.run C acts).pins C p x ≠ []) ∨ Planted C s₀ u p acts := by
    refine since_concat.trans (or_congr Iff.rfl (and_iff_right fun e he => ?_))
    exact absurd he (hx e)
  rw [Lists] at h
  rw [Lists, hplanted, pinned_entries_concat]
  cases x with
  | event e => exact absurd rfl (hx e)
  | hello q => simpa [Service.pins] using h
  | frame m =>
    by_cases hpin : (s₀.run C acts).pins C p (.frame m) = []
    · rw [hpin, pinned_nil]
      simpa [hpin] using h
    · refine iff_of_true ?_ (.inr (.inl ⟨m, rfl, hpin⟩))
      rw [Service.pins] at hpin ⊢
      split at hpin
      · next hc =>
        rw [if_pos hc, pinned_singleton]
        exact isSome_step_bind _ _
      · exact absurd rfl hpin

/-- What an event does to the entry of a user who is alone on a host. -/
theorem pins_event {s : Service κ} (hu : hostOf u = some host) (halone : hostOf e.userId = some host → e.userId = u) :
    s.pins C (host, s.chatPort) (.event e) =
      if e.userId = u then Service.eventPins e else [] := by
  have hiff : (rsplit ':' e.userId).map (fun x => (x.1, s.chatPort)) = some (host, s.chatPort) ↔ e.userId = u := by
    have hhost : (rsplit ':' e.userId).map (fun x => (x.1, s.chatPort)) = some (host, s.chatPort) ↔
        hostOf e.userId = some host := by
      rw [hostOf]
      cases rsplit ':' e.userId <;> simp
    rw [hhost]
    exact ⟨halone, fun he => he ▸ hu⟩
  simp only [Service.pins, hiff]

/-- An event of the log, and what the service hears of it. -/
theorem Lists.logged (hu : hostOf u = some host) (halone : hostOf e.userId = some host → e.userId = u)
    (hlt : s.asOfSeqNo < e.seqNo) (h : Lists C s₀ u (host, s₀.chatPort) (s.stateOf u) acts) :
    Lists C s₀ u (host, s₀.chatPort) ((s.applyEvent e).1.stateOf u)
      (acts ++ (announced s e).map fun x => .event x.1) := by
  have hstate := MembershipRouter.stateOf_newer hlt u
  have hplanted : Planted C s₀ u (host, s₀.chatPort) (acts ++ [.event e]) ↔
      (e.userId = u → e.eventType ≠ .leaveConfirmed) ∧ Planted C s₀ u (host, s₀.chatPort) acts := by
    refine since_concat.trans ((or_iff_right ?_).trans (and_congr_left' ?_))
    · intro hm
      obtain ⟨m, hm, -⟩ := hm
      cases hm
    · exact ⟨fun hp => hp e rfl, fun hp _ he => by cases he; exact hp⟩
  have hpins := pins_event (C := C) (s := s₀.run C acts) hu halone
  rw [(Service.like_run s₀ acts).chatPort] at hpins
  obtain ⟨hnil, hvalid⟩ | ⟨d, hone, hvalid⟩ := announced_cases s e
  · -- nothing is heard, and nobody comes or goes
    rw [hnil, List.map_nil, List.append_nil, Lists, hstate]
    split
    · next hu' =>
      rw [present_transition]
      have hno (t : EventType) (ht : t = .joinAccepted ∨ t = .leaveConfirmed) :
          ¬ (e.eventType = t ∧ isTransitionValid e.eventType (s.stateOf u) = true) := fun hc => by
        rw [hu', hvalid (hc.1 ▸ ht)] at hc
        cases hc.2
      rw [or_iff_right (hno _ (.inl rfl)), and_iff_left (hno _ (.inr rfl))]
      exact h
    · exact h
  · rw [Lists] at h
    rw [hone, List.map_cons, List.map_nil, Lists, pinned_entries_concat, hplanted, hpins, hstate]
    by_cases hu' : e.userId = u
    · rw [if_pos hu', if_pos hu'.symm, present_transition]
      rw [hu'] at hvalid
      by_cases hj : e.eventType = .joinAccepted
      · rw [hj] at hvalid
        rw [Service.eventPins, hj]
        refine iff_of_true ?_ (.inl (.inl ⟨rfl, hvalid (.inl rfl)⟩))
        exact isSome_step_bind _ _
      · by_cases hl : e.eventType = .leaveConfirmed
        · rw [hl] at hvalid
          rw [Service.eventPins, hl]
          refine iff_of_false ?_ ?_
          · simp [step_release]
          · simp [hvalid (.inr rfl), hu']
        · have hnone : Service.eventPins e = [] := by
            unfold Service.eventPins
            split
            · next ht => exact absurd ht hj
            · next ht => exact absurd ht hl
            · rfl
          rw [hnone, pinned_nil]
          simpa [hj, hl] using h
    · rw [if_neg hu', if_neg (Ne.symm hu'), pinned_nil]
      simpa [hu'] using h

/-- The events that an operation logs. -/
theorem Lists.announcements (hu : hostOf u = some host) :
    ∀ {es : List MembershipEvent} {s : Snapshot} {acts : List Act},
    (∀ e ∈ es, hostOf e.userId = some host → e.userId = u) → (∀ e ∈ es, s.asOfSeqNo < e.seqNo) →
      es.Pairwise (·.seqNo < ·.seqNo) → Lists C s₀ u (host, s₀.chatPort) (s.stateOf u) acts →
        Lists C s₀ u (host, s₀.chatPort) ((advance s es).stateOf u)
          (acts ++ (Membership.announcements s es).map fun x => .event x.1)
  | [], s, acts, _, _, _, h => by
    rw [Membership.announcements, List.map_nil, List.append_nil]
    exact h
  | e :: es, s, acts, halone, hnew, hsorted, h => by
    obtain ⟨hfirst, hsorted⟩ := List.pairwise_cons.1 hsorted
    have hlogged := h.logged hu (halone e List.mem_cons_self) (hnew e List.mem_cons_self)
    rw [Membership.announcements, List.map_append, ← List.append_assoc]
    refine Lists.announcements hu (fun x hx => halone x (List.mem_cons_of_mem _ hx)) (fun x hx => ?_) hsorted hlogged
    have hone : ∀ y ∈ [e], y.seqNo < x.seqNo := fun y hy => by rw [List.mem_singleton.1 hy]; exact hfirst x hx
    exact MembershipRouter.asOfSeqNo_advance_lt (hnew x (List.mem_cons_of_mem _ hx)) hone

/-! ## Runs -/

/-- A turn that restores no checkpoint. -/
def Regular (t : Turn) : Prop := ∀ op, t = .call op → op ≠ .recover

theorem Lists.turn (hu : hostOf u = some host) (hs : Sane c) {t : Turn} (ht : Regular t)
    (halone : ∀ e ∈ (turned clock c t).log.log, hostOf e.userId = some host → e.userId = u)
    (h : Lists C s₀ u (host, s₀.chatPort) (c.snapshot.stateOf u) acts) :
    Lists C s₀ u (host, s₀.chatPort) ((turned clock c t).snapshot.stateOf u) (acts ++ told clock c t) := by
  cases t with
  | call op =>
    obtain ⟨es, hes⟩ : ∃ es, Ledger c es (c.step clock op) := Ledger.step hs (ht op rfl)
    rw [turned, told, hes.dispatched, List.drop_left, hes.snapshot]
    refine h.announcements hu (fun e he => halone e ?_) (fun e he => ?_) hes.numbered.sorted
    · rw [turned, hes.log]
      exact List.mem_append_right _ he
    · have := hs.numbered.snapshot
      have := (hes.numbered.bounds e he).1
      omega
  | frame m => exact h.quiet (by simp)
  | hello p => exact h.quiet (by simp)

/-- The coordinator after a run. -/
def turnedBy (clock : Nat → Time) (c : Coordinator) (turns : List Turn) : Coordinator := turns.foldl (turned clock) c

theorem coordinator_run (C : Crypto κ) (clock : Nat → Time) : ∀ (turns : List Turn) (n : ChatNode κ),
    (n.run C clock turns).coordinator = turnedBy clock n.coordinator turns
  | [], _ => rfl
  | t :: _, n => coordinator_run C clock _ (n.step C clock t)

theorem Sane.turned (h : Sane c) (t : Turn) : Sane (turned clock c t) := by
  cases t with
  | call op => exact h.step op
  | frame m => exact h
  | hello p => exact h

theorem log_turned (hs : Sane c) {t : Turn} (ht : Regular t) : c.log.log <+: (turned clock c t).log.log := by
  cases t with
  | call op =>
    obtain ⟨es, hes⟩ : ∃ es, Ledger c es (c.step clock op) := Ledger.step hs (ht op rfl)
    exact ⟨es, hes.log.symm⟩
  | frame m => exact List.prefix_rfl
  | hello p => exact List.prefix_rfl

theorem log_turnedBy : ∀ {turns : List Turn} {c : Coordinator}, Sane c → (∀ t ∈ turns, Regular t) →
    c.log.log <+: (turnedBy clock c turns).log.log
  | [], _, _, _ => List.prefix_rfl
  | t :: _, _, hs, ht =>
    (log_turned hs (ht t List.mem_cons_self)).trans
      (log_turnedBy (Sane.turned hs t) fun x hx => ht x (List.mem_cons_of_mem _ hx))

theorem Lists.run (hu : hostOf u = some host) : ∀ {turns : List Turn} {c : Coordinator} {acts : List Act}, Sane c →
    (∀ t ∈ turns, Regular t) →
      (∀ e ∈ (turnedBy clock c turns).log.log, hostOf e.userId = some host → e.userId = u) →
        Lists C s₀ u (host, s₀.chatPort) (c.snapshot.stateOf u) acts →
          Lists C s₀ u (host, s₀.chatPort) ((turnedBy clock c turns).snapshot.stateOf u) (acts ++ tale clock c turns)
  | [], c, acts, _, _, _, h => by
    rw [tale, List.append_nil]
    exact h
  | t :: turns, c, acts, hs, ht, halone, h => by
    have hrest : ∀ x ∈ turns, Regular x := fun x hx => ht x (List.mem_cons_of_mem _ hx)
    have hs' : Sane (turned clock c t) := Sane.turned hs t
    rw [tale, ← List.append_assoc]
    refine Lists.run hu hs' hrest halone (h.turn hu hs (ht t List.mem_cons_self) fun e he => halone e ?_)
    exact (log_turnedBy hs' hrest).subset he

/-- A node that has just been connected: the coordinator is new, and the
service has met nobody. -/
structure Connected (n : ChatNode κ) : Prop where
  coordinator : ∃ cfg, n.coordinator = .new cfg Dict.empty
  hasSecurity : n.service.receiver.hasSecurity = true
  registry : n.service.receiver.registry = ⟨[]⟩
  publicKeys : n.service.receiver.publicKeys = Dict.empty

variable {n : ChatNode κ} {turns : List Turn}

theorem Connected.sane (h : Connected n) : Sane n.coordinator := by
  obtain ⟨cfg, hcfg⟩ := h.coordinator
  rw [hcfg]
  exact Sane.new cfg

/-- The entry of a user who is alone on a host, after a run. -/
theorem Connected.lists (h : Connected n) (hturns : ∀ t ∈ turns, Regular t) (hu : hostOf u = some host)
    (halone : ∀ e ∈ (n.run C clock turns).coordinator.log.log, hostOf e.userId = some host → e.userId = u) :
    Lists C n.service u (host, n.service.chatPort) ((n.run C clock turns).coordinator.snapshot.stateOf u)
      (tale clock n.coordinator turns) := by
  have hstart : Lists C n.service u (host, n.service.chatPort) (n.coordinator.snapshot.stateOf u) [] := by
    obtain ⟨cfg, hcfg⟩ := h.coordinator
    refine iff_of_false (by simp [Service.entries]) fun hc => ?_
    rcases hc with hc | hc
    · exact hc.1 (by rw [hcfg]; rfl)
    · exact not_since_nil hc
  rw [coordinator_run] at halone ⊢
  exact Lists.run hu h.sane hturns halone hstart

/-- **The peer list of the chat.** After any calls, frames and greetings
since a node was connected, it lists a user whose host no other user of the
log has exactly when the user has joined and not left, or a discovery
message has entered them since they left. A member that was timed out is
there. -/
theorem listed_iff (C : Crypto κ) (clock : Nat → Time) (n : ChatNode κ) (h : Connected n) (turns : List Turn)
    (hturns : ∀ t ∈ turns, Regular t) (u host : String) (hu : hostOf u = some host)
    (halone : ∀ e ∈ (n.run C clock turns).coordinator.log.log, hostOf e.userId = some host → e.userId = u) :
    (host, n.service.chatPort) ∈ (n.run C clock turns).service.receiver.registry.getPeers ↔
      Present ((n.run C clock turns).coordinator.snapshot.stateOf u) ∨
        Planted C n.service u (host, n.service.chatPort) (tale clock n.coordinator turns) := by
  have hentered := Service.entered_run (C := C) h.hasSecurity h.registry h.publicKeys (tale clock n.coordinator turns)
  refine Iff.trans ?_ (h.lists hturns hu halone)
  rw [← hentered.entry, ← service_run, Service.isSome_keyOf_iff]

/-- A node with the chat of `lobby`. -/
def cafe : ChatNode Pem := ⟨.new ⟨"room", some "a:1", 1⟩ Dict.empty, Service.lobby⟩

/-- The user `b:1` becomes active and is timed out. -/
def lost : List Turn :=
  [.call (.join "b:1" "B" (some [75, 69, 89]) none .accepts), .call (.startBackfill "b:1"),
    .call (.completeBackfill "b:1"), .hello ("b", 1), .call .tick, .call .tick]

theorem connected_cafe : Connected cafe := ⟨⟨_, rfl⟩, rfl, rfl, rfl⟩

theorem regular_lost : ∀ t ∈ lost, Regular t := by
  simp [lost, Regular]

theorem alone_lost : ∀ e ∈ (turnedBy twentySeconds cafe.coordinator lost).log.log, hostOf e.userId = some "b" →
    e.userId = "b:1" := by decide +kernel

/-- Messages go to a member that was timed out, until it leaves. -/
theorem listed_iff_lost :
    (cafe.run Receiver.plainKeys twentySeconds lost).coordinator.snapshot.stateOf "b:1" = some .disconnected ∧
      ("b", 1) ∈ (cafe.run Receiver.plainKeys twentySeconds lost).service.receiver.registry.getPeers := by
  have hstate : (turnedBy twentySeconds cafe.coordinator lost).snapshot.stateOf "b:1" = some .disconnected := by
    decide +kernel
  rw [coordinator_run]
  refine ⟨hstate, (listed_iff Receiver.plainKeys twentySeconds cafe connected_cafe lost regular_lost "b:1" "b"
    (by decide +kernel) ?_).2 (.inl ?_)⟩
  · rw [coordinator_run]
    exact alone_lost
  · rw [coordinator_run, hstate]
    decide

/-! ## Signatures -/

/-- A key that is bound is one of a discovery message or of a join. -/
theorem bind_mem_entries {p : Peer} {pem : Pem} : ∀ {acts : List Act} {s : Service κ},
    .bind pem ∈ Service.entries C p s acts → pem ≠ [] ∨ ∃ e, Act.event e ∈ acts ∧ e.eventType = .joinAccepted ∧
      (rsplit ':' e.userId).map (fun x => (x.1, s.chatPort)) = some p ∧ pem = e.publicKey.getD []
  | [], _, h => by simp [Service.entries] at h
  | x :: acts, s, h => by
    rcases List.mem_append.1 h with h | h
    · cases x with
      | frame m =>
        rw [Service.pins] at h
        split at h
        · next hc =>
          cases List.mem_singleton.1 h
          exact .inl hc.2.2.2.2
        · cases h
      | event e =>
        rw [Service.pins] at h
        split at h
        · next hp =>
          rw [Service.eventPins] at h
          split at h
          · next ht =>
            cases List.mem_singleton.1 h
            exact .inr ⟨e, List.mem_cons_self, ht, hp, rfl⟩
          · simp at h
          · cases h
        · cases h
      | hello q => cases h
    · rcases bind_mem_entries h with h | h
      · exact .inl h
      · obtain ⟨e, he, ht, hp, hpem⟩ := h
        rw [(Service.like_step s x).chatPort] at hp
        exact .inr ⟨e, List.mem_cons_of_mem _ he, ht, hp, hpem⟩

theorem mem_announcements {x : MembershipEvent × MembershipDelta} : ∀ {es : List MembershipEvent} {s : Snapshot},
    x ∈ Membership.announcements s es → x.1 ∈ es
  | [], _, h => by cases h
  | e :: es, s, h => by
    rcases List.mem_append.1 h with h | h
    · obtain ⟨hnil, -⟩ | ⟨d, hone, -⟩ := announced_cases s e
      · rw [hnil] at h
        cases h
      · rw [hone] at h
        rw [List.mem_singleton.1 h]
        exact List.mem_cons_self
    · exact List.mem_cons_of_mem _ (mem_announcements h)

/-- The service hears of logged events only. -/
theorem mem_log_of_tale : ∀ {turns : List Turn} {c : Coordinator}, Sane c → (∀ t ∈ turns, Regular t) →
    Act.event e ∈ tale clock c turns → e ∈ (turnedBy clock c turns).log.log
  | [], _, _, _, h => by cases h
  | t :: turns, c, hs, ht, h => by
    have hrest : ∀ x ∈ turns, Regular x := fun x hx => ht x (List.mem_cons_of_mem _ hx)
    have hs' : Sane (turned clock c t) := Sane.turned hs t
    rcases List.mem_append.1 h with h | h
    · refine (log_turnedBy hs' hrest).subset ?_
      cases t with
      | call op =>
        obtain ⟨es, hes⟩ : ∃ es, Ledger c es (c.step clock op) := Ledger.step hs (ht _ List.mem_cons_self op rfl)
        rw [told, hes.dispatched, List.drop_left] at h
        obtain ⟨x, hx, hxe⟩ := List.mem_map.1 h
        cases hxe
        rw [turned, hes.log]
        exact List.mem_append_right _ (mem_announcements hx)
      | frame m => simp [told] at h
      | hello p => simp [told] at h
    · show e ∈ (turnedBy clock (turned clock c t) turns).log.log
      exact mem_log_of_tale hs' hrest h

/-- **No unsigned message is accepted as long as a member with a key is
there.** The members that were timed out count, and so does the user of the
node itself. -/
theorem unsigned_refused (C : Crypto κ) (clock : Nat → Time) (n : ChatNode κ) (h : Connected n) (turns : List Turn)
    (hturns : ∀ t ∈ turns, Regular t) (u host : String) (hu : hostOf u = some host)
    (halone : ∀ e ∈ (n.run C clock turns).coordinator.log.log, hostOf e.userId = some host → e.userId = u)
    (hkeys : ∀ e ∈ (n.run C clock turns).coordinator.log.log, e.userId = u → e.eventType = .joinAccepted →
      e.publicKey.getD [] ≠ [])
    (hpresent : Present ((n.run C clock turns).coordinator.snapshot.stateOf u)) (m : Message) (hm : m.signature = "") :
    ((n.run C clock turns).service.receiver.verifyIncoming C m) =
      (some false, (n.run C clock turns).service.receiver) := by
  have hentered := Service.entered_run (C := C) h.hasSecurity h.registry h.publicKeys (tale clock n.coordinator turns)
  have hlike := Service.like_run (C := C) n.service (tale clock n.coordinator turns)
  obtain ⟨pem, hpem⟩ := Option.isSome_iff_exists.1 ((h.lists (C := C) hturns hu halone).2 (.inl hpresent))
  have hne : pem ≠ [] := by
    rcases bind_mem_entries (Service.bind_mem_of_pinned hpem) with hne | hjoin
    · exact hne
    · obtain ⟨e, he, ht, hp, rfl⟩ := hjoin
      have hlog := mem_log_of_tale h.sane hturns he
      rw [← coordinator_run C] at hlog
      refine hkeys e hlog (halone e hlog ?_) ht
      obtain ⟨x, hx, hxp⟩ := Option.map_eq_some_iff.1 hp
      rw [hostOf, hx, Option.map_some, congrArg Prod.fst hxp]
  rw [← hentered.entry, ← service_run] at hpem
  rw [← service_run] at hlike
  have hasks := (Service.hasAnyPeerKey_iff _).2 ⟨_, pem, hpem, hne⟩
  unfold Receiver.verifyIncoming
  rw [hlike.hasSecurity, h.hasSecurity, hasks, Bool.or_true, if_neg (by decide), if_neg (by decide), if_pos hm]

/-- Neither is one after the only member was timed out. -/
theorem unsigned_refused_lost :
    ((cafe.run Receiver.plainKeys twentySeconds lost).service.receiver.verifyIncoming Receiver.plainKeys
      (Receiver.joinRequest "1" "QkFE" "")).1 = some false := by
  have hkeys : ∀ e ∈ (turnedBy twentySeconds cafe.coordinator lost).log.log, e.userId = "b:1" →
      e.eventType = .joinAccepted → e.publicKey.getD [] ≠ [] := by decide +kernel
  have hpresent : Present ((turnedBy twentySeconds cafe.coordinator lost).snapshot.stateOf "b:1") := by decide +kernel
  refine congrArg Prod.fst (unsigned_refused Receiver.plainKeys twentySeconds cafe connected_cafe lost regular_lost
    "b:1" "b" (by decide +kernel) ?_ ?_ ?_ (Receiver.joinRequest "1" "QkFE" "") rfl)
  · rw [coordinator_run]
    exact alone_lost
  · rw [coordinator_run]
    exact hkeys
  · rw [coordinator_run]
    exact hpresent

end ChatNode

end PeerChat.Ui
