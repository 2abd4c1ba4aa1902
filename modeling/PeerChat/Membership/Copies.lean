/-
Events that a router hears twice (`_on_membership_event`,
`distribution/membership_router.py`).

The handlers decide from the tables alone, so that an old event moves its user
again: a copy of `JOIN_ACCEPTED` behind the backfill takes a member out of the
table that is routed to. `copy_harmless_iff`: a copy makes no difference exactly
when it moves nobody where it comes, or when the events behind it bring its user
to one place from both.
-/
import PeerChat.Membership.Router

namespace PeerChat.Membership

open Lib

/-- The events that move somebody. -/
def EventType.moves : EventType → Bool
  | .joinAccepted | .historyBackfillComplete | .disconnectSuspected | .reconnected | .leaveConfirmed
  | .disconnectTimeout => true
  | .joinRequested | .joinRejected | .leaveRequested | .heartbeat | .historyBackfillStarted => false

/-- The events that move their user to one place from anywhere. -/
def EventType.settles : EventType → Bool
  | .joinAccepted | .leaveConfirmed | .disconnectTimeout => true
  | .historyBackfillComplete | .disconnectSuspected | .reconnected | .joinRequested | .joinRejected | .leaveRequested
  | .heartbeat | .historyBackfillStarted => false

/-- The events behind make no difference between two places of a user: one of
them settles where he is, or both are places of a member and one moves him. -/
def Forgotten (u : String) (es : List MembershipEvent) (p q : Place) : Prop :=
  (∃ e ∈ es, e.userId = u ∧ e.eventType.settles = true) ∨
    p ≠ .out ∧ q ≠ .out ∧ ∃ e ∈ es, e.userId = u ∧ e.eventType.moves = true

/-- Where the events take a user. -/
def path (u : String) (es : List MembershipEvent) (p : Place) : Place :=
  es.foldl (fun p e => if e.userId = u then move e.eventType p else p) p

namespace MembershipRouter

/-- The tables after `_initialize_from_membership`. -/
def loaded (selfAddress : String) (members : Dict String MemberInfo) : MembershipRouter :=
  members.items.foldl load ⟨selfAddress, Dict.empty, ∅⟩

/-- The router after a sequence of events. -/
def deliver (r : MembershipRouter) (es : List MembershipEvent) : MembershipRouter := es.foldl onMembershipEvent r

/-- `_active` and `_hold` are the same. -/
def SameTables (r r' : MembershipRouter) : Prop := (∀ u, r.active.get? u = r'.active.get? u) ∧ r.hold = r'.hold

end MembershipRouter

/-! ## Places -/

variable {u : String} {p q : Place} {t : EventType} {e : MembershipEvent} {es : List MembershipEvent}

theorem move_of_not_moves (h : t.moves = false) (p : Place) : move t p = p := by
  revert h
  cases t <;> cases p <;> decide

theorem move_of_settles (h : t.settles = true) (p q : Place) : move t p = move t q := by
  revert h
  cases t <;> cases p <;> cases q <;> decide

/-- Events that settle nothing keep members and others apart. -/
theorem move_eq_out_iff (h : t.settles = false) : move t p = .out ↔ p = .out := by
  revert h
  cases t <;> cases p <;> decide

/-- Members are taken to one place, and stay apart from those who are out. -/
theorem move_eq_move_iff (hs : t.settles = false) (hm : t.moves = true) :
    move t p = move t q ↔ p = q ∨ p ≠ .out ∧ q ≠ .out := by
  revert hs hm
  cases t <;> cases p <;> cases q <;> decide

/-- An event moves its user once. -/
theorem move_move (t : EventType) (p : Place) : move t (move t p) = move t p := by
  cases t <;> cases p <;> rfl

theorem forgotten_cons_of_ne (h : e.userId ≠ u) : Forgotten u (e :: es) p q ↔ Forgotten u es p q := by
  simp [Forgotten, h]

theorem forgotten_cons_self (h : e.userId = u) : Forgotten u (e :: es) p q ↔
    e.eventType.settles = true ∨ (p ≠ .out ∧ q ≠ .out ∧ e.eventType.moves = true) ∨ Forgotten u es p q := by
  simp only [Forgotten, List.mem_cons, exists_eq_or_imp, h, true_and]
  constructor
  · rintro ((hs | hs) | ⟨hp, hq, hm | hm⟩)
    · exact .inl hs
    · exact .inr (.inr (.inl hs))
    · exact .inr (.inl ⟨hp, hq, hm⟩)
    · exact .inr (.inr (.inr ⟨hp, hq, hm⟩))
  · rintro (hs | ⟨hp, hq, hm⟩ | hs | ⟨hp, hq, hm⟩)
    · exact .inl (.inl hs)
    · exact .inr ⟨hp, hq, .inl hm⟩
    · exact .inl (.inr hs)
    · exact .inr ⟨hp, hq, .inr hm⟩

theorem forgotten_move (h : t.settles = false) : Forgotten u es (move t p) (move t q) ↔ Forgotten u es p q := by
  simp only [Forgotten, ne_eq, move_eq_out_iff h]

/-- Two places lead to one exactly when they are one or the difference is
forgotten. -/
theorem path_eq_iff (u : String) (es : List MembershipEvent) (p q : Place) :
    path u es p = path u es q ↔ p = q ∨ Forgotten u es p q := by
  induction es generalizing p q with
  | nil => simp [path, Forgotten]
  | cons e es ih =>
    have hcons : ∀ p, path u (e :: es) p = path u es (if e.userId = u then move e.eventType p else p) := fun _ => rfl
    rw [hcons, hcons]
    by_cases hu : e.userId = u
    · rw [if_pos hu, if_pos hu, ih, forgotten_cons_self hu]
      cases hs : e.eventType.settles with
      | true => exact iff_of_true (.inl (move_of_settles hs p q)) (.inr (.inl rfl))
      | false =>
        rw [forgotten_move hs, or_iff_right Bool.false_ne_true, ← or_assoc]
        refine or_congr_left ?_
        cases hm : e.eventType.moves with
        | false =>
          rw [move_of_not_moves hm, move_of_not_moves hm]
          simp
        | true => simpa using move_eq_move_iff hs hm
    · rw [if_neg hu, if_neg hu, ih, forgotten_cons_of_ne hu]

namespace MembershipRouter

variable {r r' : MembershipRouter}

/-! ## Tables -/

theorem OK.loaded (selfAddress : String) (members : Dict String MemberInfo) :
    (MembershipRouter.loaded selfAddress members).OK ∧
      (MembershipRouter.loaded selfAddress members).selfAddress = selfAddress := by
  have hempty : OK ⟨selfAddress, Dict.empty, ∅⟩ := ⟨nofun, nofun⟩
  obtain ⟨hok, hself, -⟩ := hempty.loads members.nodup fun _ _ => rfl
  exact ⟨hok, hself⟩

/-- Events move their users one after the other. -/
theorem OK.deliver (h : r.OK) (es : List MembershipEvent) :
    (r.deliver es).OK ∧ (r.deliver es).selfAddress = r.selfAddress ∧
    ∀ u, (r.deliver es).place u = if Eligible r.selfAddress u then path u es (r.place u) else r.place u := by
  induction es generalizing r with
  | nil => exact ⟨h, rfl, fun u => (ite_self _).symm⟩
  | cons e es ih =>
    have hm := h.onMembershipEvent e
    obtain ⟨hok, hself, hplace⟩ := ih hm.ok
    refine ⟨hok, hself.trans hm.selfAddress, fun u => ?_⟩
    refine (hplace u).trans ?_
    rw [hm.selfAddress, hm.place u]
    by_cases hu : Eligible r.selfAddress u
    · rw [if_pos hu, if_pos hu]
      show _ = path u es (if e.userId = u then move e.eventType (r.place u) else r.place u)
      simp [hu, @eq_comm _ u]
    · rw [if_neg hu, if_neg hu, if_neg fun h => hu h.2]

/-- The tables are where the users are. -/
theorem sameTables_iff (h : r.OK) (h' : r'.OK) : SameTables r r' ↔ ∀ u, r.place u = r'.place u := by
  constructor
  · rintro ⟨hactive, hhold⟩ u
    simp only [place, hactive, hhold]
  · intro hplace
    have hrouted : ∀ u, (r.active.get? u).isSome = true ↔ (r'.active.get? u).isSome = true := by
      intro u
      rw [← place_eq_routed_iff, ← place_eq_routed_iff, hplace]
    have hheld : ∀ {r : MembershipRouter}, r.OK → ∀ u, u ∈ r.hold ↔ r.place u = .held := by
      intro r h u
      refine ⟨h.place_eq_held, fun hp => ?_⟩
      unfold place at hp
      split at hp
      · cases hp
      · split at hp
        · assumption
        · cases hp
    refine ⟨fun u => ?_, Finset.ext fun u => ?_⟩
    · cases ha : r.active.get? u with
      | none =>
        cases ha' : r'.active.get? u with
        | none => rfl
        | some a' =>
          have := (hrouted u).2 (by rw [ha']; rfl)
          rw [ha] at this
          cases this
      | some a =>
        obtain ⟨a', ha'⟩ := Option.isSome_iff_exists.1 ((hrouted u).1 (by rw [ha]; rfl))
        rw [ha', ← (h.active u a ha).2, (h'.active u a' ha').2]
    · rw [hheld h, hheld h', hplace]

theorem deliver_append (r : MembershipRouter) (es es' : List MembershipEvent) :
    r.deliver (es ++ es') = (r.deliver es).deliver es' := List.foldl_append

/-- A copy that comes before its user is moved by another event moves nobody. -/
theorem OK.move_place_deliver (h : r.OK) {mid : List MembershipEvent}
    (hmid : ∀ x ∈ mid, x.userId = e.userId → x.eventType.moves = false) (hu : Eligible r.selfAddress e.userId) :
    move e.eventType ((r.deliver (e :: mid)).place e.userId) = (r.deliver (e :: mid)).place e.userId := by
  have hpath : ∀ p, path e.userId mid p = p := by
    intro p
    induction mid generalizing p with
    | nil => rfl
    | cons x mid ih =>
      have hx : (if x.userId = e.userId then move x.eventType p else p) = p := by
        split
        · next hxu => exact move_of_not_moves (hmid x List.mem_cons_self hxu) p
        · rfl
      show path e.userId mid (if x.userId = e.userId then move x.eventType p else p) = p
      rw [hx]
      exact ih (fun y hy => hmid y (List.mem_cons_of_mem _ hy)) p
  rw [(h.deliver _).2.2, if_pos hu]
  show move e.eventType (path e.userId mid (if e.userId = e.userId then move e.eventType (r.place e.userId) else _)) =
    path e.userId mid (if e.userId = e.userId then move e.eventType (r.place e.userId) else _)
  rw [if_pos rfl, hpath, move_move]

end MembershipRouter

/-- **A copy makes no difference exactly when it moves nobody where it comes, or
the difference is forgotten.** -/
theorem copy_harmless_iff (selfAddress : String) (members : Dict String MemberInfo)
    (before mid after : List MembershipEvent) (e : MembershipEvent) :
    let r := MembershipRouter.loaded selfAddress members
    let p := (r.deliver (before ++ e :: mid)).place e.userId
    MembershipRouter.SameTables (r.deliver (before ++ e :: (mid ++ e :: after)))
      (r.deliver (before ++ e :: (mid ++ after))) ↔
    ¬ MembershipRouter.Eligible selfAddress e.userId ∨ move e.eventType p = p ∨
      Forgotten e.userId after (move e.eventType p) p := by
  intro r p
  obtain ⟨hr, hself⟩ := MembershipRouter.OK.loaded selfAddress members
  obtain ⟨hok, hself', -⟩ := hr.deliver (before ++ e :: mid)
  let s := r.deliver (before ++ e :: mid)
  have hs : s.selfAddress = selfAddress := hself'.trans hself
  have hwith : r.deliver (before ++ e :: (mid ++ e :: after)) = s.deliver (e :: after) := by
    rw [← MembershipRouter.deliver_append, List.append_assoc, List.cons_append]
  have hwithout : r.deliver (before ++ e :: (mid ++ after)) = s.deliver after := by
    rw [← MembershipRouter.deliver_append, List.append_assoc, List.cons_append]
  obtain ⟨hok₁, -, hplace₁⟩ := MembershipRouter.OK.deliver (r := s) hok (e :: after)
  obtain ⟨hok₂, -, hplace₂⟩ := MembershipRouter.OK.deliver (r := s) hok after
  rw [hwith, hwithout, MembershipRouter.sameTables_iff hok₁ hok₂]
  simp only [hplace₁, hplace₂, hs]
  have hothers : ∀ u, u ≠ e.userId → path u (e :: after) (s.place u) = path u after (s.place u) := by
    intro u hu
    show path u after (if e.userId = u then _ else _) = _
    rw [if_neg hu.symm]
  have hself : path e.userId (e :: after) p = path e.userId after (move e.eventType p) := by
    show path e.userId after (if e.userId = e.userId then _ else _) = _
    rw [if_pos rfl]
  rw [← path_eq_iff, ← hself, ← imp_iff_not_or]
  constructor
  · intro h hu
    have := h e.userId
    rwa [if_pos hu, if_pos hu] at this
  · intro h u
    by_cases hu : u = e.userId
    · subst hu
      split
      · next he => exact h he
      · rfl
    · rw [hothers u hu]

def peerEvent (seqNo : Int) (eventType : EventType) : MembershipEvent :=
  ⟨seqNo, "room", "127.0.0.1:5002", eventType, 0, seqNo, "coordinator", 1, none, "B", none, none⟩

/-- A copy of the acceptance behind the backfill: the member is held, and no
longer routed to. -/
theorem copy_unroutes_member :
    (((MembershipRouter.loaded "127.0.0.1:5001" Dict.empty).deliver
      [peerEvent 1 .joinAccepted, peerEvent 2 .historyBackfillComplete]).getPeers = [("127.0.0.1", 5002)]) ∧
    (((MembershipRouter.loaded "127.0.0.1:5001" Dict.empty).deliver
      [peerEvent 1 .joinAccepted, peerEvent 2 .historyBackfillComplete, peerEvent 1 .joinAccepted]).getPeers = []) ∧
    ¬ MembershipRouter.SameTables
      ((MembershipRouter.loaded "127.0.0.1:5001" Dict.empty).deliver
        [peerEvent 1 .joinAccepted, peerEvent 2 .historyBackfillComplete, peerEvent 1 .joinAccepted])
      ((MembershipRouter.loaded "127.0.0.1:5001" Dict.empty).deliver
        [peerEvent 1 .joinAccepted, peerEvent 2 .historyBackfillComplete]) := by
  refine ⟨by decide +kernel, by decide +kernel, fun h => ?_⟩
  have := h.1 "127.0.0.1:5002"
  revert this
  decide +kernel

end PeerChat.Membership
