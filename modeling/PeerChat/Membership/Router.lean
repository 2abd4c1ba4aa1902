/-
The routing table that follows the membership (`distribution/membership_router.py`).

The router keeps each member in one of two sets: those it routes to and
those it holds until they are ready. It is filled from a snapshot and then
moves a member by the type of each event it hears (`move`), and what it
hears first are the events logged above the version of that snapshot. The
snapshot has applied none of these. `mirrors_of_settled`: the table holds
the active members after every operation, as long as no such event would
move its user and no member is asked to leave without the confirmation.
-/
import PeerChat.Lib.Decimal
import PeerChat.Membership.Ledger
import Mathlib.Data.Finset.Basic

namespace PeerChat.Membership

open Lib

/-- `MembershipRouter`; an address is `_parse_address` of a user. -/
structure MembershipRouter where
  selfAddress : String
  active : Dict String (String × Int)
  hold : Finset String

namespace MembershipRouter

/-- `get_peers`. -/
def getPeers (r : MembershipRouter) : List (String × Int) := r.active.values

/-- `_handle_join_accepted`. -/
def handleJoinAccepted (r : MembershipRouter) (u : String) : MembershipRouter :=
  if u = r.selfAddress then r
  else
    match hostPort u with
    | none => r
    | some _ => { r with active := r.active.erase u, hold := insert u r.hold }

/-- What `_handle_backfill_complete` and `_handle_reconnected` do. -/
def promote (r : MembershipRouter) (u : String) : MembershipRouter :=
  if u ∈ r.hold then
    match hostPort u with
    | none => { r with hold := r.hold.erase u }
    | some addr => { r with hold := r.hold.erase u, active := r.active.set u addr }
  else r

/-- `_handle_backfill_complete`. -/
def handleBackfillComplete : MembershipRouter → String → MembershipRouter := promote

/-- `_handle_reconnected`. -/
def handleReconnected : MembershipRouter → String → MembershipRouter := promote

/-- `_handle_disconnect_suspected`. -/
def handleDisconnectSuspected (r : MembershipRouter) (u : String) : MembershipRouter :=
  if (r.active.get? u).isSome then { r with active := r.active.erase u, hold := insert u r.hold } else r

/-- What `_handle_leave_confirmed` and `_handle_disconnect_timeout` do. -/
def discard (r : MembershipRouter) (u : String) : MembershipRouter :=
  { r with active := r.active.erase u, hold := r.hold.erase u }

/-- `_handle_leave_confirmed`. -/
def handleLeaveConfirmed : MembershipRouter → String → MembershipRouter := discard

/-- `_handle_disconnect_timeout`. -/
def handleDisconnectTimeout : MembershipRouter → String → MembershipRouter := discard

/-- `_on_membership_event`. -/
def onMembershipEvent (r : MembershipRouter) (e : MembershipEvent) : MembershipRouter :=
  match e.eventType with
  | .joinAccepted => r.handleJoinAccepted e.userId
  | .historyBackfillComplete => r.handleBackfillComplete e.userId
  | .disconnectSuspected => r.handleDisconnectSuspected e.userId
  | .reconnected => r.handleReconnected e.userId
  | .leaveConfirmed => r.handleLeaveConfirmed e.userId
  | .disconnectTimeout => r.handleDisconnectTimeout e.userId
  | .joinRequested | .joinRejected | .leaveRequested | .heartbeat | .historyBackfillStarted => r

/-- The router after a sequence of callbacks. -/
def hear (r : MembershipRouter) (calls : List (MembershipEvent × MembershipDelta)) : MembershipRouter :=
  calls.foldl (fun r p => r.onMembershipEvent p.1) r

/-- The body of the loop of `_initialize_from_membership`. -/
def load (r : MembershipRouter) (p : String × MemberInfo) : MembershipRouter :=
  match hostPort p.1 with
  | none => r
  | some addr =>
    if p.1 = r.selfAddress then r
    else
      match p.2.state with
      | .active => { r with active := r.active.set p.1 addr }
      | .joining | .backfilling | .suspected => { r with hold := insert p.1 r.hold }
      | .disconnected | .left | .leaving => r

/-- A router created on a coordinator: the members of its snapshot, and
what `subscribe` replays above the version of that. -/
def new (c : Coordinator) (selfAddress : String) : MembershipRouter :=
  (c.snapshot.members.items.foldl load ⟨selfAddress, Dict.empty, ∅⟩).hear (c.log.catchUp c.snapshot.version)

/-- The router after an operation of its coordinator. -/
def after (clock : Nat → Time) (c : Coordinator) (r : MembershipRouter) (op : Op) : MembershipRouter :=
  r.hear ((c.step clock op).dispatched.drop c.dispatched.length)

end MembershipRouter

/-! ## Places -/

/-- Where a router has a user. -/
inductive Place
  | routed
  | held
  | out
  deriving DecidableEq, Repr

/-- Where an event takes its user. -/
def move : EventType → Place → Place
  | .joinAccepted, _ => .held
  | .historyBackfillComplete, .held | .reconnected, .held => .routed
  | .disconnectSuspected, .routed => .held
  | .leaveConfirmed, _ | .disconnectTimeout, _ => .out
  | _, p => p

/-- The place a router gives a state at its creation. -/
def placeOf : Option MemberState → Place
  | some .active => .routed
  | some .joining | some .backfilling | some .suspected => .held
  | some .disconnected | some .left | some .leaving | none => .out

/-- A place from which the events to come lead on with the state. -/
def Fits : Option MemberState → Place → Prop
  | some .active, p => p = .routed
  | some .joining, p | some .backfilling, p | some .suspected, p => p = .held
  | some .disconnected, p | some .left, p | some .leaving, p | none, p => p ≠ .routed

instance : (st : Option MemberState) → (p : Place) → Decidable (Fits st p)
  | some .active, p => inferInstanceAs (Decidable (p = .routed))
  | some .joining, p | some .backfilling, p | some .suspected, p => inferInstanceAs (Decidable (p = .held))
  | some .disconnected, p | some .left, p | some .leaving, p | none, p => inferInstanceAs (Decidable (p ≠ .routed))

theorem fits_placeOf (st : Option MemberState) : Fits st (placeOf st) := by
  cases st with
  | none => decide
  | some st => cases st <;> decide

/-- The effect of a logged event on the place of its user, who is in the
given state: it is heard when it was allowed. -/
def moveIfValid (t : EventType) (st : Option MemberState) (p : Place) : Place :=
  if isTransitionValid t st then move t p else p

theorem Fits.transition {t : EventType} {st : Option MemberState} {p : Place} (h : Fits st p)
    (hl : t = .leaveRequested → st ≠ some .active) : Fits (transition t st) (moveIfValid t st p) := by
  revert h hl
  cases st with
  | none => cases t <;> cases p <;> decide
  | some st => cases st <;> cases t <;> cases p <;> decide

/-- A request to leave with its confirmation. -/
theorem Fits.leave {st : Option MemberState} {p : Place} (h : Fits st p) :
    Fits (Membership.transition .leaveConfirmed (Membership.transition .leaveRequested st))
      (moveIfValid .leaveConfirmed (Membership.transition .leaveRequested st) (moveIfValid .leaveRequested st p)) := by
  revert h
  cases st with
  | none => cases p <;> decide
  | some st => cases st <;> cases p <;> decide

namespace MembershipRouter

/-- The users a router at an address ever keeps. -/
def Eligible (selfAddress u : String) : Prop := u ≠ selfAddress ∧ (hostPort u).isSome = true

instance (selfAddress u : String) : Decidable (Eligible selfAddress u) :=
  inferInstanceAs (Decidable (u ≠ selfAddress ∧ (hostPort u).isSome = true))

/-- Where the router has a user. -/
def place (r : MembershipRouter) (u : String) : Place :=
  if (r.active.get? u).isSome then .routed else if u ∈ r.hold then .held else .out

/-- The table holds eligible users only, each with its own address, and the
two sets are disjoint. -/
structure OK (r : MembershipRouter) : Prop where
  active : ∀ u a, r.active.get? u = some a → u ≠ r.selfAddress ∧ hostPort u = some a
  hold : ∀ u ∈ r.hold, Eligible r.selfAddress u ∧ r.active.get? u = none

variable {r : MembershipRouter} {u v : String}

theorem OK.isSome_hostPort (h : r.OK) {a : String × Int} (ha : r.active.get? u = some a) :
    (hostPort u).isSome = true := by
  rw [(h.active u a ha).2]
  rfl

theorem place_eq_routed_iff {r : MembershipRouter} : r.place u = .routed ↔ (r.active.get? u).isSome = true := by
  unfold place
  split
  · next hu => simp [hu]
  · next hu => split <;> simp [hu]

/-- A user who is not eligible is nowhere. -/
theorem OK.place_eq_out (h : r.OK) (hu : ¬ Eligible r.selfAddress u) : r.place u = .out := by
  have hactive : r.active.get? u = none := by
    cases ha : r.active.get? u with
    | none => rfl
    | some a => exact absurd ⟨(h.active u a ha).1, h.isSome_hostPort ha⟩ hu
  have hhold : u ∉ r.hold := fun hm => hu (h.hold u hm).1
  simp [place, hactive, hhold]

theorem OK.place_eq_held (h : r.OK) (hu : u ∈ r.hold) : r.place u = .held := by
  simp [place, (h.hold u hu).2, hu]

/-- A user moved among the held ones. -/
theorem OK.toHold (h : r.OK) (hu : Eligible r.selfAddress u) {d : Dict String (String × Int)}
    (hd : ∀ v, d.get? v = if v = u then none else r.active.get? v) :
    OK { r with active := d, hold := insert u r.hold } where
  active v a hv := by
    rw [hd] at hv
    split at hv
    · cases hv
    · exact h.active v a hv
  hold v hv := by
    rcases Finset.mem_insert.1 hv with rfl | hv
    · exact ⟨hu, (hd v).trans (if_pos rfl)⟩
    · refine ⟨(h.hold v hv).1, ?_⟩
      rw [hd, (h.hold v hv).2, ite_self]

theorem place_toHold {r : MembershipRouter} {d : Dict String (String × Int)}
    (hd : ∀ v, d.get? v = if v = u then none else r.active.get? v) (v : String) :
    place { r with active := d, hold := insert u r.hold } v = if v = u then .held else r.place v := by
  by_cases hv : v = u
  · subst hv
    simp [place, hd]
  · simp [place, hd, hv]

/-- A user moved among those that are routed to. -/
theorem OK.toActive (h : r.OK) (hu : u ≠ r.selfAddress) {a : String × Int} (ha : hostPort u = some a) :
    OK { r with active := r.active.set u a, hold := r.hold.erase u } where
  active v b hv := by
    rw [Dict.get?_set] at hv
    split at hv
    · next he =>
      subst he
      cases hv
      exact ⟨hu, ha⟩
    · exact h.active v b hv
  hold v hv := by
    obtain ⟨hne, hv⟩ := Finset.mem_erase.1 hv
    refine ⟨(h.hold v hv).1, ?_⟩
    rw [Dict.get?_set_of_ne _ _ hne]
    exact (h.hold v hv).2

theorem place_toActive (r : MembershipRouter) (u v : String) (a : String × Int) :
    place { r with active := r.active.set u a, hold := r.hold.erase u } v = if v = u then .routed else r.place v := by
  by_cases hv : v = u
  · subst hv
    simp [place]
  · simp [place, Dict.get?_set_of_ne _ _ hv, hv]

theorem OK.discard (h : r.OK) (u : String) : (r.discard u).OK where
  active v a hv := by
    rw [MembershipRouter.discard, Dict.get?_erase] at hv
    split at hv
    · cases hv
    · exact h.active v a hv
  hold v hv := by
    have hv := (Finset.mem_erase.1 hv).2
    refine ⟨(h.hold v hv).1, ?_⟩
    rw [MembershipRouter.discard, Dict.get?_erase, (h.hold v hv).2, ite_self]

theorem place_discard (r : MembershipRouter) (u v : String) :
    (r.discard u).place v = if v = u then .out else r.place v := by
  by_cases hv : v = u
  · subst hv
    simp [place, MembershipRouter.discard]
  · simp [place, MembershipRouter.discard, Dict.get?_erase, hv]

/-- The router after a user may have been moved. -/
structure Moves (r : MembershipRouter) (u : String) (f : Place → Place) (r' : MembershipRouter) : Prop where
  ok : r'.OK
  selfAddress : r'.selfAddress = r.selfAddress
  place : ∀ v, r'.place v = if v = u ∧ Eligible r.selfAddress v then f (r.place v) else r.place v

/-- The handler moves an eligible user, and leaves everybody else. -/
theorem OK.moves (h : r.OK) {r' : MembershipRouter} {f : Place → Place} (hok : r'.OK)
    (hself : r'.selfAddress = r.selfAddress) (hplace : ∀ v, v ≠ u → r'.place v = r.place v)
    (hu : Eligible r.selfAddress u → r'.place u = f (r.place u)) : Moves r u f r' := by
  refine ⟨hok, hself, fun v => ?_⟩
  split
  · next hv =>
    obtain ⟨rfl, he⟩ := hv
    exact hu he
  · next hv =>
    by_cases he : v = u
    · have hne : ¬ Eligible r.selfAddress v := fun hel => hv ⟨he, hel⟩
      rw [h.place_eq_out hne, hok.place_eq_out (hself ▸ hne)]
    · exact hplace v he

theorem OK.idle (h : r.OK) {f : Place → Place} (hu : Eligible r.selfAddress u → r.place u = f (r.place u)) :
    Moves r u f r :=
  h.moves h rfl (fun _ _ => rfl) hu

theorem OK.handleJoinAccepted (h : r.OK) (u : String) :
    Moves r u (move .joinAccepted) (r.handleJoinAccepted u) := by
  unfold MembershipRouter.handleJoinAccepted
  split
  · next hself => exact h.idle fun he => absurd hself he.1
  · next hself =>
    cases hp : hostPort u with
    | none => exact h.idle fun he => by simp [Eligible, hp] at he
    | some a =>
      have hd := Dict.get?_erase r.active u
      refine h.moves (h.toHold ⟨hself, by rw [hp]; rfl⟩ hd) rfl (fun v hv => ?_) fun _ => ?_
      · rw [place_toHold hd, if_neg hv]
      · rw [place_toHold hd, if_pos rfl]
        rfl

/-- Both handlers that promote a user. -/
theorem OK.promote (h : r.OK) (u : String) {f : Place → Place} (hheld : f .held = .routed)
    (hrouted : f .routed = .routed) (hout : f .out = .out) : Moves r u f (r.promote u) := by
  unfold MembershipRouter.promote
  split
  · next hu =>
    have helig := (h.hold u hu).1
    obtain ⟨a, ha⟩ := Option.isSome_iff_exists.1 helig.2
    simp only [ha]
    refine h.moves (h.toActive helig.1 ha) rfl (fun v hv => ?_) fun _ => ?_
    · rw [place_toActive, if_neg hv]
    · rw [place_toActive, if_pos rfl, h.place_eq_held hu, hheld]
  · next hu =>
    refine h.idle fun _ => ?_
    unfold place
    split
    · exact hrouted.symm
    · exact hout.symm

theorem OK.handleDisconnectSuspected (h : r.OK) (u : String) :
    Moves r u (move .disconnectSuspected) (r.handleDisconnectSuspected u) := by
  unfold MembershipRouter.handleDisconnectSuspected
  split
  · next hu =>
    obtain ⟨a, ha⟩ := Option.isSome_iff_exists.1 hu
    have helig : Eligible r.selfAddress u := ⟨(h.active u a ha).1, h.isSome_hostPort ha⟩
    have hd := Dict.get?_erase r.active u
    refine h.moves (h.toHold helig hd) rfl (fun v hv => ?_) fun _ => ?_
    · rw [place_toHold hd, if_neg hv]
    · rw [place_toHold hd, if_pos rfl, place, if_pos hu]
      rfl
  · next hu =>
    refine h.idle fun _ => ?_
    rw [place, if_neg hu]
    split <;> rfl

/-- Both handlers that drop a user. -/
theorem OK.discarding (h : r.OK) (u : String) {f : Place → Place} (hf : ∀ p, f p = .out) :
    Moves r u f (r.discard u) := by
  refine h.moves (h.discard u) rfl (fun v hv => ?_) fun _ => ?_
  · rw [place_discard, if_neg hv]
  · rw [place_discard, if_pos rfl, hf]

/-- **A callback moves the user of its event.** -/
theorem OK.onMembershipEvent (h : r.OK) (e : MembershipEvent) :
    Moves r e.userId (move e.eventType) (r.onMembershipEvent e) := by
  unfold MembershipRouter.onMembershipEvent
  cases ht : e.eventType with
  | joinAccepted => exact h.handleJoinAccepted _
  | historyBackfillComplete | reconnected => exact h.promote _ rfl rfl rfl
  | disconnectSuspected => exact h.handleDisconnectSuspected _
  | leaveConfirmed | disconnectTimeout => exact h.discarding _ fun _ => rfl
  | joinRequested | joinRejected | leaveRequested | heartbeat | historyBackfillStarted => exact h.idle fun _ => rfl

/-- What is announced of an event that meets a snapshot moves its user, if
the snapshot allows it. -/
theorem OK.hear_announced (h : r.OK) (s : Snapshot) (e : MembershipEvent) :
    Moves r e.userId (moveIfValid e.eventType (s.stateOf e.userId)) (r.hear (announced s e)) := by
  unfold announced deltas deltaOf moveIfValid
  by_cases hr : e.eventType = .joinRejected ∧ e.source ≠ "remote"
  · rw [if_pos hr, hr.1]
    have hm := h.onMembershipEvent e
    rw [hr.1] at hm
    exact hm
  · rw [if_neg hr]
    split
    · next hv =>
      cases hd : deltaType e.eventType with
      | some d => exact h.onMembershipEvent e
      | none =>
        refine h.idle fun _ => ?_
        revert hd
        cases e.eventType <;> simp [deltaType, move]
    · exact h.idle fun _ => rfl

/-! ## Following a snapshot -/

theorem hear_append (r : MembershipRouter) (l₁ l₂ : List (MembershipEvent × MembershipDelta)) :
    r.hear (l₁ ++ l₂) = (r.hear l₁).hear l₂ := List.foldl_append

@[simp] theorem selfAddress_onMembershipEvent (r : MembershipRouter) (e : MembershipEvent) :
    (r.onMembershipEvent e).selfAddress = r.selfAddress := by
  unfold onMembershipEvent handleJoinAccepted handleBackfillComplete handleReconnected promote
    handleDisconnectSuspected handleLeaveConfirmed handleDisconnectTimeout discard
  repeat' split
  all_goals rfl

@[simp] theorem selfAddress_hear : ∀ (calls : List (MembershipEvent × MembershipDelta)) (r : MembershipRouter),
    (r.hear calls).selfAddress = r.selfAddress
  | [], _ => rfl
  | p :: calls, r => (selfAddress_hear calls (r.onMembershipEvent p.1)).trans (selfAddress_onMembershipEvent r p.1)

/-- A router that has every eligible user where its state wants it. -/
structure Follows (s : Snapshot) (r : MembershipRouter) : Prop where
  ok : r.OK
  fits : ∀ u, Eligible r.selfAddress u → Fits (s.stateOf u) (r.place u)

variable {s : Snapshot} {e : MembershipEvent}

/-- What an event and its announcement do to the state and the place of a
user. -/
theorem OK.place_hear_announced (h : r.OK) (hu : Eligible r.selfAddress u) (s : Snapshot) (e : MembershipEvent) :
    (r.hear (announced s e)).place u =
      if u = e.userId then moveIfValid e.eventType (s.stateOf u) (r.place u) else r.place u := by
  rw [(h.hear_announced s e).place u]
  by_cases he : u = e.userId
  · simp only [he, true_and, if_true]
    rw [if_pos (he ▸ hu)]
  · simp only [he, false_and, if_false]

theorem stateOf_newer (hlt : s.asOfSeqNo < e.seqNo) (u : String) :
    (s.applyEvent e).1.stateOf u =
      if u = e.userId then Membership.transition e.eventType (s.stateOf u) else s.stateOf u := by
  simp only [Snapshot.stateOf_applyEvent, hlt, true_and]

theorem Follows.event (h : Follows s r) (hlt : s.asOfSeqNo < e.seqNo)
    (hl : e.eventType = .leaveRequested → Eligible r.selfAddress e.userId → s.stateOf e.userId ≠ some .active) :
    Follows (s.applyEvent e).1 (r.hear (announced s e)) := by
  have hm := h.ok.hear_announced s e
  refine ⟨hm.ok, fun u hu => ?_⟩
  rw [hm.selfAddress] at hu
  rw [h.ok.place_hear_announced hu, stateOf_newer hlt]
  split
  · next he =>
    subst he
    exact (h.fits _ hu).transition fun ht => hl ht hu
  · exact h.fits u hu

/-- In between the two events the table routes to a member that is leaving. -/
theorem Follows.leave (h : Follows s r) {e₁ e₂ : MembershipEvent} (hlt₁ : s.asOfSeqNo < e₁.seqNo)
    (hlt₂ : (s.applyEvent e₁).1.asOfSeqNo < e₂.seqNo) (hu : e₂.userId = e₁.userId)
    (h₁ : e₁.eventType = .leaveRequested) (h₂ : e₂.eventType = .leaveConfirmed) :
    Follows (advance s [e₁, e₂]) (r.hear (announcements s [e₁, e₂])) := by
  have hm₁ := h.ok.hear_announced s e₁
  have hm₂ := hm₁.ok.hear_announced (s.applyEvent e₁).1 e₂
  rw [← hear_append] at hm₂
  have hself := hm₂.selfAddress.trans hm₁.selfAddress
  rw [announcements, announcements, announcements, List.append_nil]
  refine ⟨hm₂.ok, fun v hv => ?_⟩
  rw [hself] at hv
  show Fits (((s.applyEvent e₁).1.applyEvent e₂).1.stateOf v) _
  rw [hear_append, hm₁.ok.place_hear_announced (hm₁.selfAddress.symm ▸ hv), h.ok.place_hear_announced hv,
    stateOf_newer hlt₂, stateOf_newer hlt₁, hu, h₁, h₂]
  split
  · exact (h.fits v hv).leave
  · exact h.fits v hv

theorem hear_announcements_append (r : MembershipRouter) (s : Snapshot) (es es' : List MembershipEvent) :
    r.hear (announcements s (es ++ es')) = (r.hear (announcements s es)).hear (announcements (advance s es) es') := by
  rw [announcements_append, hear_append]

theorem asOfSeqNo_advance_lt {es : List MembershipEvent} {n : Int} (hs : s.asOfSeqNo < n)
    (hes : ∀ e ∈ es, e.seqNo < n) : (advance s es).asOfSeqNo < n := by
  rcases version_advance es s with ⟨-, h⟩ | ⟨e, he, -, h⟩
  · omega
  · have := hes e he
    omega

/-- **The table follows what an operation of the node logs.** -/
theorem Follows.paired {es : List MembershipEvent} (hp : Paired es) (h : Follows s r)
    (hnew : ∀ e ∈ es, s.asOfSeqNo < e.seqNo) (hsorted : es.Pairwise (·.seqNo < ·.seqNo)) :
    Follows (advance s es) (r.hear (announcements s es)) := by
  induction hp with
  | nil => exact h
  | one _ ht _ ih =>
    rw [List.pairwise_append] at hsorted
    have hes := ih (fun e he => hnew e (by simp [he])) hsorted.1
    rw [advance_append, hear_announcements_append, announcements, announcements, List.append_nil]
    refine hes.event (asOfSeqNo_advance_lt (hnew _ (by simp)) fun x hx => ?_) fun hl => absurd hl ht
    exact hsorted.2.2 x hx _ (by simp)
  | @leave es e₁ e₂ _ hu h₁ h₂ _ ih =>
    rw [List.pairwise_append] at hsorted
    have hes := ih (fun e he => hnew e (by simp [he])) hsorted.1
    have hlt : e₁.seqNo < e₂.seqNo := by simpa using hsorted.2.1
    have hlt₁ : (advance s es).asOfSeqNo < e₁.seqNo :=
      asOfSeqNo_advance_lt (hnew _ (by simp)) fun x hx => hsorted.2.2 x hx _ (by simp)
    have hlt₂ : (advance (advance s es) [e₁]).asOfSeqNo < e₂.seqNo :=
      asOfSeqNo_advance_lt (by omega) fun x hx => by rw [List.mem_singleton.1 hx]; exact hlt
    rw [advance_append, hear_announcements_append]
    exact hes.leave hlt₁ hlt₂ hu h₁ h₂

/-! ## Creation -/

/-- A member that the table does not hold yet. -/
theorem OK.load (h : r.OK) {p : String × MemberInfo} (hfresh : r.place p.1 = .out) :
    Moves r p.1 (fun _ => placeOf (some p.2.state)) (r.load p) := by
  obtain ⟨u, m⟩ := p
  have hactive : r.active.get? u = none := by
    rw [← Option.not_isSome_iff_eq_none, ← place_eq_routed_iff, hfresh]
    decide
  have hhold : u ∉ r.hold := by
    intro hu
    rw [h.place_eq_held hu] at hfresh
    cases hfresh
  unfold MembershipRouter.load
  cases hp : hostPort u with
  | none => exact h.idle fun he => by simp [Eligible, hp] at he
  | some a =>
    simp only
    split
    · next hself => exact h.idle fun he => absurd hself he.1
    · next hself =>
      have hheld : Moves r u (fun _ => .held) { r with hold := insert u r.hold } := by
        have hd : ∀ v, r.active.get? v = if v = u then none else r.active.get? v := by
          intro v
          split
          · next hv => rw [hv, hactive]
          · rfl
        refine h.moves (h.toHold ⟨hself, by rw [hp]; rfl⟩ hd) rfl (fun v hv => ?_) fun _ => ?_
        · rw [place_toHold hd, if_neg hv]
        · rw [place_toHold hd, if_pos rfl]
      cases m.state with
      | active =>
        have hset : ({ r with active := r.active.set u a } : MembershipRouter) =
            { r with active := r.active.set u a, hold := r.hold.erase u } := by
          rw [Finset.erase_eq_of_notMem hhold]
        rw [hset]
        refine h.moves (h.toActive hself hp) rfl (fun v hv => ?_) fun _ => ?_
        · rw [place_toActive, if_neg hv]
        · rw [place_toActive, if_pos rfl]
          rfl
      | joining | backfilling | suspected => exact hheld
      | disconnected | left | leaving => exact h.idle fun _ => hfresh

/-- All members of a snapshot. -/
theorem OK.loads : ∀ {l : List (String × MemberInfo)} {r : MembershipRouter}, r.OK → (l.map Prod.fst).Nodup →
    (∀ p ∈ l, r.place p.1 = .out) → (l.foldl MembershipRouter.load r).OK ∧
      (l.foldl MembershipRouter.load r).selfAddress = r.selfAddress ∧
      ∀ v, Eligible r.selfAddress v →
        (l.foldl MembershipRouter.load r).place v = (l.lookup v).elim (r.place v) fun m => placeOf (some m.state)
  | [], r, h, _, _ => ⟨h, rfl, fun _ _ => rfl⟩
  | (u, m) :: l, r, h, hnd, hfresh => by
    rw [List.map_cons, List.nodup_cons] at hnd
    have hm := h.load (hfresh (u, m) (by simp))
    have hne : ∀ p ∈ l, p.1 ≠ u := by
      intro p hp he
      have hmem := List.mem_map_of_mem (f := Prod.fst) hp
      rw [he] at hmem
      exact hnd.1 hmem
    have hrest := OK.loads (l := l) hm.ok hnd.2 fun p hp => by
      rw [hm.place, if_neg fun hv => hne p hp hv.1]
      exact hfresh p (List.mem_cons_of_mem _ hp)
    refine ⟨hrest.1, hrest.2.1.trans hm.selfAddress, fun v hv => ?_⟩
    rw [List.foldl_cons, hrest.2.2 v (hm.selfAddress.symm ▸ hv), List.lookup_cons, hm.place]
    by_cases he : v = u
    · subst he
      have hnone : l.lookup v = none := by
        rw [List.lookup_eq_none_iff]
        intro p hp
        simpa using (hne p hp).symm
      simp [hnone, hv]
    · have hbeq : (v == u) = false := beq_eq_false_iff_ne.2 he
      simp [he, hbeq]

/-- Callbacks that leave every user where it is. -/
theorem OK.hear_settled : ∀ (calls : List (MembershipEvent × MembershipDelta)) {r : MembershipRouter}, r.OK →
    (∀ p ∈ calls, Eligible r.selfAddress p.1.userId →
      move p.1.eventType (r.place p.1.userId) = r.place p.1.userId) →
    (r.hear calls).OK ∧ (r.hear calls).selfAddress = r.selfAddress ∧ ∀ v, (r.hear calls).place v = r.place v
  | [], r, h, _ => ⟨h, rfl, fun _ => rfl⟩
  | p :: calls, r, h, hs => by
    have hm := h.onMembershipEvent p.1
    have hplace : ∀ v, (r.onMembershipEvent p.1).place v = r.place v := by
      intro v
      rw [hm.place]
      split
      · next hv =>
        obtain ⟨rfl, he⟩ := hv
        exact hs p (by simp) he
      · rfl
    have hrest := OK.hear_settled calls hm.ok fun q hq he => by
      rw [hplace]
      exact hs q (List.mem_cons_of_mem _ hq) (hm.selfAddress ▸ he)
    exact ⟨hrest.1, hrest.2.1.trans hm.selfAddress, fun v => (hrest.2.2 v).trans (hplace v)⟩

end MembershipRouter

open MembershipRouter

/-- No event above the version of the snapshot would move its user away
from the place of the state it is in. -/
def Settled (c : Coordinator) (selfAddress : String) : Prop :=
  ∀ e ∈ c.log.log, c.snapshot.version < e.seqNo → Eligible selfAddress e.userId →
    move e.eventType (placeOf (c.snapshot.stateOf e.userId)) = placeOf (c.snapshot.stateOf e.userId)

/-- A router follows the snapshot it was created from. -/
theorem MembershipRouter.Follows.new {c : Coordinator} {selfAddress : String} (hs : Settled c selfAddress) :
    Follows c.snapshot (.new c selfAddress) ∧ (MembershipRouter.new c selfAddress).selfAddress = selfAddress := by
  have hempty : OK ⟨selfAddress, Dict.empty, ∅⟩ := ⟨fun u a hu => by simp at hu, fun u hu => by simp at hu⟩
  have hload := OK.loads hempty c.snapshot.members.nodup fun p _ => rfl
  obtain ⟨hok, hself, hplace⟩ := hload
  have hplaceOf : ∀ v, Eligible selfAddress v →
      (c.snapshot.members.items.foldl MembershipRouter.load ⟨selfAddress, Dict.empty, ∅⟩).place v =
        placeOf (c.snapshot.stateOf v) := by
    intro v hv
    rw [hplace v hv, Snapshot.stateOf, Dict.get?]
    cases List.lookup v c.snapshot.members.items <;> rfl
  have hear := OK.hear_settled (c.log.catchUp c.snapshot.version) hok fun p hp he => by
    rw [hself] at he
    rw [hplaceOf _ he]
    obtain ⟨e, hmem, hd⟩ := List.mem_filterMap.1 hp
    obtain ⟨d, -, rfl⟩ := Option.map_eq_some_iff.1 hd
    obtain ⟨hlog, hv⟩ := List.mem_filter.1 hmem
    exact hs e hlog (of_decide_eq_true hv) he
  have hnew : (MembershipRouter.new c selfAddress).selfAddress = selfAddress := hear.2.1.trans hself
  refine ⟨⟨hear.1, fun u hu => ?_⟩, hnew⟩
  rw [hnew] at hu
  rw [MembershipRouter.new, hear.2.2, hplaceOf u hu]
  exact fits_placeOf _

/-! ## Runs -/

/-- `get_peers` returns the addresses of the active members but this one. -/
def Mirrors (c : Coordinator) (r : MembershipRouter) : Prop :=
  ∀ a, a ∈ r.getPeers ↔ ∃ u, u ≠ r.selfAddress ∧ c.snapshot.stateOf u = some .active ∧ hostPort u = some a

theorem MembershipRouter.Follows.mirrors {c : Coordinator} {r : MembershipRouter} (h : Follows c.snapshot r) :
    Mirrors c r := by
  intro a
  rw [getPeers, Dict.mem_values_iff]
  constructor
  · intro hu
    obtain ⟨u, hu⟩ := hu
    obtain ⟨hself, hp⟩ := h.ok.active u a hu
    have hfit := h.fits u ⟨hself, by rw [hp]; rfl⟩
    rw [place_eq_routed_iff.2 (by rw [hu]; rfl)] at hfit
    refine ⟨u, hself, ?_, hp⟩
    revert hfit
    cases c.snapshot.stateOf u with
    | none => decide
    | some st => cases st <;> decide
  · intro hu
    obtain ⟨u, hself, hst, hp⟩ := hu
    have hfit := h.fits u ⟨hself, by rw [hp]; rfl⟩
    rw [hst] at hfit
    obtain ⟨b, ha⟩ := Option.isSome_iff_exists.1 (place_eq_routed_iff.1 hfit)
    have hb := (h.ok.active u b ha).2
    rw [hp] at hb
    cases hb
    exact ⟨u, ha⟩

/-- The operation asks no active member to leave that another node has not
confirmed, and restores no other states than those of now. -/
def Mirrorable (selfAddress : String) (c : Coordinator) : Op → Prop
  | .remote e => e.eventType = .leaveRequested → Eligible selfAddress e.userId →
    c.snapshot.stateOf e.userId ≠ some .active
  | .recover => ∀ log s, c.durability.recover c.settings.roomId = some (log, s) →
    ∀ u, s.stateOf u = c.snapshot.stateOf u
  | .join .. | .startBackfill _ | .completeBackfill _ | .heartbeat _ | .leave _ | .tick => True

/-- The condition, at each operation of a run. -/
def RunMirrorable (clock : Nat → Time) (selfAddress : String) (c : Coordinator) : List Op → Prop
  | [] => True
  | op :: ops => Mirrorable selfAddress c op ∧ RunMirrorable clock selfAddress (c.step clock op) ops

/-- The table mirrors the membership now and after each operation. -/
def StaysMirrored (clock : Nat → Time) (c : Coordinator) (r : MembershipRouter) : List Op → Prop
  | [] => Mirrors c r
  | op :: ops => Mirrors c r ∧ StaysMirrored clock (c.step clock op) (r.after clock c op) ops

variable {clock : Nat → Time} {c : Coordinator} {r : MembershipRouter}

/-- What the router hears of an operation that logs these events. -/
theorem after_ledger {op : Op} {es : List MembershipEvent} (h : Ledger c es (c.step clock op)) :
    r.after clock c op = r.hear (announcements c.snapshot es) := by
  rw [MembershipRouter.after, h.dispatched, List.drop_left]

/-- **One operation.** -/
theorem MembershipRouter.Follows.step (h : Follows c.snapshot r) (hs : Sane c) {op : Op}
    (hop : Mirrorable r.selfAddress c op) :
    Follows (c.step clock op).snapshot (r.after clock c op) := by
  by_cases hloc : op.isLocal = true
  · obtain ⟨es, hes, hp⟩ := (Grown.step (c := c) hs hloc).ledger
    rw [after_ledger hes, hes.snapshot]
    have hnum := hs.numbered.snapshot
    refine h.paired hp (fun e he => ?_) hes.numbered.sorted
    have := (hes.numbered.bounds e he).1
    omega
  · cases op with
    | remote e =>
      have hes : Ledger c [c.log.localize e] (c.step clock (.remote e)) := Ledger.remote hs e
      rw [after_ledger hes, hes.snapshot, announcements, announcements, List.append_nil]
      exact h.event hs.numbered.snapshot hop
    | recover =>
      have hr : Restored c (c.step clock .recover) := .recover c
      have hafter : r.after clock c .recover = r := by
        rw [MembershipRouter.after, hr.dispatched, List.drop_length]
        rfl
      have hfound := hr.found
      rw [hafter]
      cases hrec : c.durability.recover c.settings.roomId with
      | none =>
        rw [hrec] at hfound
        rw [hfound.2]
        exact h
      | some found =>
        rw [hrec] at hfound
        refine ⟨h.ok, fun u hu => ?_⟩
        rw [hfound.2, hop found.1 found.2 hrec u]
        exact h.fits u hu
    | _ => exact absurd rfl hloc

/-- **The routing table mirrors the membership.** A router that is created
at any moment of a node's life returns the active members, then and after
each operation, when no event above the version of the snapshot would move
its user and each operation is one that the table can follow. -/
theorem mirrors_of_settled (selfAddress : String) (ops : List Op) (hc : Reached clock c)
    (hset : Settled c selfAddress) (hops : RunMirrorable clock selfAddress c ops) :
    StaysMirrored clock c (.new c selfAddress) ops := by
  have key : ∀ (ops : List Op) (c : Coordinator) (r : MembershipRouter), Sane c → Follows c.snapshot r →
      RunMirrorable clock r.selfAddress c ops → StaysMirrored clock c r ops := by
    intro ops
    induction ops with
    | nil => exact fun _ _ _ h _ => h.mirrors
    | cons op ops ih =>
      intro c r hs h hrun
      refine ⟨h.mirrors, ih _ _ (hs.step op) (h.step hs hrun.1) ?_⟩
      rw [MembershipRouter.after, selfAddress_hear]
      exact hrun.2
  obtain ⟨hnew, hself⟩ := Follows.new hset
  exact key ops c _ hc.sane hnew (hself.symm ▸ hops)

theorem mirrors_of_settled_join :
    let c := (Coordinator.new ⟨"room", some "a:1", 1⟩ Dict.empty).run (fun _ => 0) [.join "b:1" "B" none none .accepts]
    StaysMirrored (fun _ => 0) c (.new c "a:1") [.startBackfill "b:1", .completeBackfill "b:1", .leave "b:1"] := by
  intro c
  refine mirrors_of_settled "a:1" _ ⟨⟨"room", some "a:1", 1⟩, [.call (.join "b:1" "B" none none .accepts)], rfl⟩
    (fun e he hv => ?_) ⟨trivial, trivial, trivial, trivial⟩
  have hall : ∀ e ∈ c.log.log, e.seqNo ≤ c.snapshot.version := by decide
  exact absurd hv (not_lt.2 (hall e he))

/-- **A refused leave takes its user off the table.** The router is created
after the leave of a member that had only just joined; the leave was
refused, but it is in the log. Once the member is active the router does
not return it. -/
theorem refused_leave_unroutes :
    let c := (Coordinator.new ⟨"room", some "a:1", 1⟩ Dict.empty).run (fun _ => 0)
      [.join "b:1" "B" none none .accepts, .leave "b:1"]
    Reached (fun _ => 0) c ∧ c.snapshot.stateOf "b:1" = some .joining ∧
      ¬ StaysMirrored (fun _ => 0) c (.new c "a:1") [.startBackfill "b:1", .completeBackfill "b:1"] := by
  intro c
  refine ⟨⟨⟨"room", some "a:1", 1⟩, [.call (.join "b:1" "B" none none .accepts), .call (.leave "b:1")], rfl⟩,
    by decide, fun h => ?_⟩
  have hend := (h.2.2 ("b", 1)).2 ⟨"b:1", ?_, ?_, ?_⟩
  · revert hend
    decide
  · decide
  · decide
  · decide

end PeerChat.Membership
