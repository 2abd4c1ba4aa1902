/-
What a node does with a message of peer discovery, whatever its content is
(`handle_message` and its handlers in
`peer_discovery/network/discovery_node.py`).

Gossip is decoded under a guard and the events of a JOIN_RESPONSE are not,
so that what `from_dict` raises ends the handler before it wakes the
bootstrap that waits. And an event of the wrong types is logged.
`harmless_iff`: a message is harmless exactly when neither happens, and no
join or heartbeat raises. `handleMessage_gossip`: on gossip that is an event
of a node the handler is `DiscoveryNode.handleGossip`.
-/
import PeerChat.Membership.Envelope
import PeerChat.Membership.Ledger

namespace PeerChat.Membership

open Lib JsonText
open FirstUse (isDiscoveryMessage)
open History (PyError Decoding itemD isTruthy bind_eq_ok)

/-! ## The node -/

/-- A `DiscoveryNode` with its transport and the bootstraps that wait, each
for an address, with whether it has been woken. -/
structure Participant where
  node : DiscoveryNode
  hasBroadcastNode : Bool
  pendingJoins : Dict String Bool

/-- What a handler sends. -/
inductive Outgoing
  | gossip (e : MembershipEvent)
  | joinResponse (target : Peer) (accepted : Bool) (reason : Option String) (events : List MembershipEvent)

/-- What ends a handler that does not return. -/
inductive Raised
  | data (e : PyError)
  | coordinator (e : Exn)
  deriving DecidableEq

/-- What `handle_message` ends with. -/
inductive Handled
  | returned (handled : Bool) (reason : Option String) (p : Participant) (sent : List Outgoing)
  | raised (e : Raised) (p : Participant)

section

variable (clock : Nat → Time)

/-- `_apply_remote_event`. What is no newer than the snapshot is not looked up
in it. -/
def applyRemote (c : Coordinator) (r : RemoteEvent) : Except Raised Unit × Coordinator :=
  if !r.termOrdered then (.error (.data .typeError), c)
  else if r.userHashes then
    match (applyRemoteEvent r.event).run (exec clock) c with
    | (.ok (), c) => (.ok (), c)
    | (.error e, c) => (.error (.coordinator e), c)
  else
    let (event, log) := c.log.appendRemote r.event
    let c := { c with log }
    if event.seqNo ≤ c.snapshot.asOfSeqNo ∧ event.eventType ≠ .joinAccepted ∧ event.eventType ≠ .heartbeat then
      (.ok (), c.checkpointed)
    else (.error (.data .typeError), c)

/-- `_apply_remote_snapshot`. -/
def applyRemoteSnapshot : List RemoteEvent → Coordinator → Except Raised Unit × Coordinator
  | [], c => (.ok (), c)
  | r :: rs, c =>
    match applyRemote clock c r with
    | (.ok (), c) => applyRemoteSnapshot rs c
    | (.error e, c) => (.error e, c)

end

namespace Participant

/-- The participant with another coordinator. What that has dispatched is
gossiped, but for the events from other nodes. -/
def moved (p : Participant) (c : Coordinator) : Participant × List Outgoing :=
  let sent := envelopes (c.dispatched.drop p.node.coordinator.dispatched.length)
  if p.hasBroadcastNode then
    ({ p with node := ⟨c, sent.foldl (fun seen e => (markSeen seen (eventId e)).1) p.node.seenEventIds⟩ },
      sent.map .gossip)
  else ({ p with node := ⟨c, p.node.seenEventIds⟩ }, [])

/-- `_send_join_response`. -/
def sendJoinResponse (p : Participant) (target : String) (accepted : Bool) (reason : Option String)
    (events : List MembershipEvent) : List Outgoing :=
  if p.hasBroadcastNode then
    match hostPort target with
    | none => []
    | some peer => [.joinResponse peer accepted reason events]
  else []

/-- `_handle_join_request`, with what the validator answers. -/
def handleJoinRequest (D : Decoding) (clock : Nat → Time) (v : Verdict) (p : Participant) (sender : String)
    (env : Envelope) : Handled :=
  let displayName := D.textOf (itemD env.payload "display_name" (.str (codePoints "Unknown")))
  let join := handleJoin p.node.coordinator.settings sender displayName (some env.publicKey) none v
  match join.run (exec clock) p.node.coordinator with
  | (.error e, c) => .raised (.coordinator e) (p.moved c).1
  | (.ok res, c) =>
    let (p, gossip) := p.moved c
    if res.accepted then .returned true none p (gossip ++ p.sendJoinResponse sender true none (c.log.getEventsSince 0))
    else .returned true none p (gossip ++ p.sendJoinResponse sender false res.reason [])

/-- Sets the event that a bootstrap waits for, if one does. -/
def wake (p : Participant) (sender : String) : Participant :=
  match p.pendingJoins.get? sender with
  | some _ => { p with pendingJoins := p.pendingJoins.set sender true }
  | none => p

/-- `_handle_join_response`. -/
def handleJoinResponse (D : Decoding) (clock : Nat → Time) (p : Participant) (sender : String) (env : Envelope) :
    Handled :=
  if isTruthy (itemD env.payload "accepted" (.bool false)) then
    match iterate (itemD env.payload "events" (.arr [])) >>= eventsFromDicts D with
    | .error e => .raised (.data e) p
    | .ok events =>
      -- what is raised from here on is logged
      let c := (applyRemoteSnapshot clock events p.node.coordinator).2
      .returned true none ({ p with node := { p.node with coordinator := c } }.wake sender) []
  else .returned true none (p.wake sender) []

/-- `_handle_gossip`. -/
def handleGossip (D : Decoding) (clock : Nat → Time) (p : Participant) (env : Envelope) : Handled :=
  let eventData := itemD env.payload "event" .null
  if isTruthy eventData then
    match eventFromDict D eventData with
    | .error _ => .returned true none p []
    | .ok r =>
      match markSeen p.node.seenEventIds r.id with
      | (seen, true) => .returned true none { p with node := { p.node with seenEventIds := seen } } []
      | (seen, false) =>
        match applyRemote clock p.node.coordinator r with
        | (.ok (), c) => .returned true none { p with node := ⟨c, seen⟩ } []
        | (.error e, c) => .raised e { p with node := ⟨c, seen⟩ }
  else .returned true none p []

/-- `_handle_heartbeat`. -/
def handleHeartbeat (clock : Nat → Time) (p : Participant) (sender : String) : Handled :=
  match p.node.coordinator.snapshot.getMember sender with
  | none => .returned true none p []
  | some _ =>
    match (Membership.handleHeartbeat sender).run (exec clock) p.node.coordinator with
    | (.ok (), c) =>
      let (p, gossip) := p.moved c
      .returned true none p gossip
    | (.error e, c) => .raised (.coordinator e) (p.moved c).1

/-- `handle_message`. -/
def handleMessage (D : Decoding) (clock : Nat → Time) (v : Verdict) (p : Participant) (sender content : String) :
    Handled :=
  if !isDiscoveryMessage content then .returned false none p []
  else
    match decodeEnvelope D content with
    | none => .returned false (some "malformed_discovery_envelope") p []
    | some env =>
      match kindOf env.subtype with
      | some .joinRequest => p.handleJoinRequest D clock v sender env
      | some .joinResponse => p.handleJoinResponse D clock sender env
      | some .gossip => p.handleGossip D clock env
      | some .heartbeat => p.handleHeartbeat clock sender
      | none => .returned false (some ("unknown_subtype:" ++ D.textOf (.str env.subtype))) p []

end Participant

/-! ## Harmless messages -/

/-- The id of the event is one of these. -/
def Seen (D : Decoding) (seen : List String) (d : Doc) : Prop :=
  ∃ l t, d = .obj l ∧ typeOf (itemD l "event_type" .null) = .ok t ∧ dedupId D l t ∈ seen

/-- An event that the envelope carries is malformed, or what carries it is. -/
def Malformed (env : Envelope) : Option Kind → Prop
  | some .joinResponse =>
    ∀ ds, get? env.payload (codePoints "events") = some (.arr ds) → ∃ d ∈ ds, wellTyped d = false
  | some .gossip => wellTyped (itemD env.payload "event" .null) = false
  | _ => False

/-- It returns, and the participant is left with `Q`. -/
def Handled.Ensures (Q : Participant → Prop) : Handled → Prop
  | .returned _ _ p _ => Q p
  | .raised _ _ => False

def Handled.isRaised : Handled → Bool
  | .returned _ _ _ _ => false
  | .raised _ _ => true

namespace Participant

/-- The log and the snapshot are the same. -/
def SameRecords (p p' : Participant) : Prop :=
  p'.node.coordinator.log = p.node.coordinator.log ∧ p'.node.coordinator.snapshot = p.node.coordinator.snapshot

/-- No bootstrap waits for the sender any more. -/
def Woken (p p' : Participant) (sender : String) : Prop :=
  (p.pendingJoins.get? sender).isSome = true → p'.pendingJoins.get? sender = some true

/-- `handle_message` returns; and when an event in the envelope is
malformed, the records are left as they are and the bootstrap that waits for
a response of the sender is woken. -/
def Harmless (D : Decoding) (clock : Nat → Time) (v : Verdict) (p : Participant) (sender content : String) : Prop :=
  (p.handleMessage D clock v sender content).Ensures fun p' =>
    ∀ env, received D content = some env → Malformed env (kindOf env.subtype) →
      p.SameRecords p' ∧ (kindOf env.subtype = some .joinResponse → p.Woken p' sender)

/-- What the message is harmless under. A join request is one that the guard
still remembers, or neither the validator raises nor is the term of the log
above that of the coordinator; a heartbeat comes from nobody that is known,
or the term is not above. The events of a response that is accepted can be
gone over and are all decoded, and all have the right types, or else the
first has a term that cannot be compared. An event that is gossiped has the
right types if it is decoded, or was seen before. -/
def Tame (D : Decoding) (v : Verdict) (p : Participant) (sender : String) (env : Envelope) : Option Kind → Prop
  | some .joinRequest =>
    (sender, EventType.joinRequested.value) ∈ p.node.coordinator.duplicateGuard.recent ∨
      v ≠ .raises ∧ ¬ 1 < p.node.coordinator.log.currentTerm
  | some .joinResponse =>
    isTruthy (itemD env.payload "accepted" (.bool false)) = true →
      ∃ ds, iterate (itemD env.payload "events" (.arr [])) = .ok ds ∧ (∀ d ∈ ds, decodes d = true) ∧
        ((∀ d ∈ ds, wellTyped d = true) ∨ ∃ d, ds.head? = some d ∧ termOrdered d = false)
  | some .gossip =>
    isTruthy (itemD env.payload "event" .null) = true → decodes (itemD env.payload "event" .null) = true →
      wellTyped (itemD env.payload "event" .null) = true ∨
        Seen D p.node.seenEventIds (itemD env.payload "event" .null)
  | some .heartbeat =>
    p.node.coordinator.snapshot.getMember sender = none ∨ ¬ 1 < p.node.coordinator.log.currentTerm
  | none => True

end Participant

/-! ## The operations -/

variable {clock : Nat → Time} {c : Coordinator}

variable (clock) in
/-- A join returns where the guard refuses it, or nothing raises. -/
theorem handleJoin_returns_iff (cfg : Settings) (u name : String) (key : Option Bytes) (trace : Option String)
    (v : Verdict) :
    Prog.wp (exec clock) (handleJoin cfg u name key trace v) (fun _ _ => True) (fun _ => False) c ↔
      (u, EventType.joinRequested.value) ∈ c.duplicateGuard.recent ∨ v ≠ .raises ∧ ¬ 1 < c.log.currentTerm := by
  by_cases hdup : (u, EventType.joinRequested.value) ∈ c.duplicateGuard.recent
  · simp [handleJoin, exec, DuplicateGuard.isDuplicate, hdup]
  · by_cases hterm : 1 < c.log.currentTerm <;> cases v <;>
      simp [handleJoin, record, exec, DuplicateGuard.isDuplicate, hdup, EventLog.append, hterm]

theorem handlePresenceChange_returns (u : String) (ch : ChangeType) (h : ¬ 1 < c.log.currentTerm) :
    Prog.wp (exec clock) (handlePresenceChange u ch) (fun _ _ => True) (fun _ => False) c := by
  cases hm : c.snapshot.getMember u <;> simp [handlePresenceChange, record, exec, hm, EventLog.append, h]

variable (clock) in
/-- A heartbeat returns where its user is unknown, or the term is not above. -/
theorem handleHeartbeat_returns_iff (u : String) :
    Prog.wp (exec clock) (handleHeartbeat u) (fun _ _ => True) (fun _ => False) c ↔
      c.snapshot.getMember u = none ∨ ¬ 1 < c.log.currentTerm := by
  cases hm : c.snapshot.getMember u with
  | none => simp [handleHeartbeat, exec, hm]
  | some m =>
    by_cases hterm : 1 < c.log.currentTerm
    · simp [handleHeartbeat, exec, hm, EventLog.append, hterm]
    · have hafter : ∀ e, ¬ 1 < (c.log.push e 1).currentTerm := fun e => not_lt.2 (max_le le_rfl (not_lt.1 hterm))
      simp only [handleHeartbeat, Prog.wp_bind, Prog.wp_lift, exec, hm, EventLog.append, hterm, if_false]
      simp only [Prog.wp_when, implies_true, and_true, not_false_eq_true, or_true, iff_true]
      exact fun _ => handlePresenceChange_returns u .reconnected (hafter _)

variable (clock c) in
/-- A remote event is logged, and nothing raises. -/
theorem run_applyRemoteEvent (e : MembershipEvent) :
    ∃ c', (applyRemoteEvent e).run (exec clock) c = (.ok (), c') ∧ c'.log = (c.log.appendRemote e).2 := by
  have hwp : Prog.wp (exec clock) (applyRemoteEvent e) (fun _ c' => c'.log = (c.log.appendRemote e).2)
      (fun _ => False) c := by
    simp only [applyRemoteEvent, Prog.wp_bind, Prog.wp_when, Prog.wp_lift, exec]
    refine ⟨fun _ => ⟨fun _ => ⟨fun hr => ?_, fun _ => rfl⟩, fun _ => rfl⟩, fun _ => rfl⟩
    rw [watching_presence, recordHeartbeat_registerMember] at hr
    cases hr
  simp only [Prog.wp] at hwp
  split at hwp
  · next c' heq => exact ⟨c', heq, hwp⟩
  · exact hwp.elim

/-! ## Events from another node -/

section

variable {r : RemoteEvent} (clock)

theorem applyRemote_of_unordered (h : r.termOrdered = false) :
    applyRemote clock c r = (.error (.data .typeError), c) := by
  simp [applyRemote, h]

/-- An event with a term is logged, also where its user is no key. -/
theorem log_applyRemote (h : r.termOrdered = true) :
    (applyRemote clock c r).2.log = (c.log.appendRemote r.event).2 := by
  obtain ⟨c', hrun, hlog⟩ := run_applyRemoteEvent clock c r.event
  unfold applyRemote
  cases hu : r.userHashes with
  | true =>
    simp only [h, hrun, Bool.not_true, Bool.false_eq_true, if_false, if_true]
    exact hlog
  | false =>
    simp only [h, Bool.not_true, Bool.false_eq_true, if_false]
    split <;> rfl

/-- An event with a term leaves a trace. -/
theorem length_applyRemote_lt (h : r.termOrdered = true) :
    c.log.log.length < (applyRemote clock c r).2.log.log.length := by
  rw [log_applyRemote clock h]
  simp [EventLog.appendRemote, EventLog.push]

theorem log_applyRemote_ne (h : r.termOrdered = true) : (applyRemote clock c r).2.log ≠ c.log := by
  intro he
  have hlt := length_applyRemote_lt clock (c := c) h
  rw [he] at hlt
  exact lt_irrefl _ hlt

theorem applyRemote_returns (h : r.termOrdered = true) (hu : r.userHashes = true) :
    ∃ c', applyRemote clock c r = (.ok (), c') ∧ (applyRemoteEvent r.event).run (exec clock) c = (.ok (), c') := by
  obtain ⟨c', hrun, -⟩ := run_applyRemoteEvent clock c r.event
  exact ⟨c', by simp [applyRemote, h, hu, hrun], hrun⟩

/-- The log only grows. -/
theorem length_applyRemote : c.log.log.length ≤ (applyRemote clock c r).2.log.log.length := by
  cases h : r.termOrdered with
  | false => rw [applyRemote_of_unordered clock h]
  | true => exact (length_applyRemote_lt clock h).le

theorem length_applyRemoteSnapshot : ∀ (rs : List RemoteEvent) (c : Coordinator),
    c.log.log.length ≤ (applyRemoteSnapshot clock rs c).2.log.log.length
  | [], _ => le_rfl
  | r :: rs, c => by
    have hone : c.log.log.length ≤ (applyRemote clock c r).2.log.log.length := length_applyRemote clock
    unfold applyRemoteSnapshot
    split
    · next c' heq =>
      rw [heq] at hone
      exact hone.trans (length_applyRemoteSnapshot rs c')
    · next heq =>
      rw [heq] at hone
      exact hone

/-- A batch whose first event has a term is not left without a trace. -/
theorem log_applyRemoteSnapshot_ne (rs : List RemoteEvent) (h : r.termOrdered = true) :
    (applyRemoteSnapshot clock (r :: rs) c).2.log ≠ c.log := by
  have hone : c.log.log.length < (applyRemote clock c r).2.log.log.length := length_applyRemote_lt clock h
  have hall : c.log.log.length < (applyRemoteSnapshot clock (r :: rs) c).2.log.log.length := by
    unfold applyRemoteSnapshot
    split
    · next c' heq =>
      rw [heq] at hone
      exact hone.trans_le (length_applyRemoteSnapshot clock rs c')
    · next heq =>
      rw [heq] at hone
      exact hone
  intro he
  rw [he] at hall
  exact lt_irrefl _ hall

theorem applyRemoteSnapshot_of_unordered (rs : List RemoteEvent) (h : r.termOrdered = false) :
    (applyRemoteSnapshot clock (r :: rs) c).2 = c := by
  rw [applyRemoteSnapshot, applyRemote_of_unordered clock h]

end

/-! ## The handlers -/

namespace Participant

variable {D : Decoding} {v : Verdict} {p q : Participant} {sender content : String} {env : Envelope}

@[simp] theorem wake_node : (p.wake sender).node = p.node := by
  unfold wake
  split <;> rfl

/-- The bootstrap that waits for a sender is woken. -/
theorem woken_wake (h : q.pendingJoins = p.pendingJoins) : p.Woken (q.wake sender) sender := by
  intro hwaits
  rw [← h] at hwaits
  obtain ⟨b, hb⟩ := Option.isSome_iff_exists.1 hwaits
  rw [wake, hb]
  exact Dict.get?_set_self _ _ _

theorem handleJoinRequest_tame : (p.handleJoinRequest D clock v sender env).Ensures (fun _ => True) ↔
    p.Tame D v sender env (some .joinRequest) := by
  rw [Tame, ← handleJoin_returns_iff clock p.node.coordinator.settings sender
    (D.textOf (itemD env.payload "display_name" (.str (codePoints "Unknown")))) (some env.publicKey) none v]
  unfold handleJoinRequest Prog.wp
  simp only
  split
  · next heq =>
    rw [heq]
    exact Iff.rfl
  · next heq =>
    rw [heq]
    dsimp only
    split <;> exact Iff.rfl

theorem handleHeartbeat_tame : (p.handleHeartbeat clock sender).Ensures (fun _ => True) ↔
    p.Tame D v sender env (some .heartbeat) := by
  unfold handleHeartbeat
  split
  · next hm => exact iff_of_true trivial (.inl hm)
  · rw [Tame, ← handleHeartbeat_returns_iff clock]
    unfold Prog.wp
    split
    · next heq =>
      rw [heq]
      exact Iff.rfl
    · next heq =>
      rw [heq]
      exact Iff.rfl

/-- Gossip of no event, of one that is not decoded, or of one seen before
leaves the records as they are; the rest is logged. -/
theorem handleGossip_tame : (p.handleGossip D clock env).Ensures (fun p' => Malformed env (some .gossip) →
    p.SameRecords p') ↔ p.Tame D v sender env (some .gossip) := by
  unfold handleGossip Tame Malformed
  generalize itemD env.payload "event" .null = d
  dsimp only
  cases ht : isTruthy d with
  | false => simp [Handled.Ensures, SameRecords]
  | true =>
    cases hr : eventFromDict D d with
    | error e =>
      have hnot : decodes d ≠ true := fun hd => by
        obtain ⟨r, hr'⟩ := eventFromDict_of_decodes (D := D) hd
        rw [hr] at hr'
        cases hr'
      simp [Handled.Ensures, SameRecords, hnot]
    | ok r =>
      obtain ⟨hd, -, l, rfl, htype, hid, -⟩ := eventFromDict_eq_ok hr
      have hseen : Seen D p.node.seenEventIds (.obj l) ↔ r.id ∈ p.node.seenEventIds := by
        constructor
        · rintro ⟨l', t, heq, ht, hmem⟩
          cases heq
          rw [htype] at ht
          cases ht
          rwa [hid]
        · exact fun hmem => ⟨l, _, rfl, htype, hid ▸ hmem⟩
      by_cases hin : r.id ∈ p.node.seenEventIds
      · simp [markSeen, hin, hseen, Handled.Ensures, SameRecords]
      simp only [markSeen, hin, if_false, if_true, hseen, hd, or_false, forall_const]
      cases hw : wellTyped (.obj l) with
      | true =>
        obtain ⟨hterm, huser⟩ := eventFromDict_wellTyped hw hr
        obtain ⟨c', happly, -⟩ := applyRemote_returns clock (c := p.node.coordinator) hterm huser
        simp [happly, Handled.Ensures]
      | false =>
        refine iff_of_false (fun hens => ?_) (by simp)
        cases hterm : r.termOrdered with
        | false =>
          rw [applyRemote_of_unordered clock hterm] at hens
          exact hens
        | true =>
          have hne := log_applyRemote_ne clock (c := p.node.coordinator) hterm
          split at hens
          · next c' heq =>
            rw [heq] at hne
            exact hne (hens rfl).1
          · exact hens

/-- A list of events is malformed where one of them is. -/
theorem malformed_iff {d : Doc} {ds : List Doc} (h : itemD env.payload "events" (.arr []) = .arr (d :: ds)) :
    Malformed env (some .joinResponse) ↔ ¬ ∀ x ∈ d :: ds, wellTyped x = true := by
  have hget : get? env.payload (codePoints "events") = some (.arr (d :: ds)) := by
    unfold itemD at h
    cases hg : get? env.payload (codePoints "events") with
    | none =>
      rw [hg] at h
      cases h
    | some x =>
      rw [hg] at h
      exact congrArg some h
  simp only [Malformed, hget, Option.some.injEq, Doc.arr.injEq, not_forall, Bool.not_eq_true, exists_prop,
    forall_eq']

/-- A response that is rejected wakes the bootstrap and no more. One that is
accepted is decoded as a whole before any of its events is applied. -/
theorem handleJoinResponse_tame : (p.handleJoinResponse D clock sender env).Ensures
    (fun p' => Malformed env (some .joinResponse) → p.SameRecords p' ∧ p.Woken p' sender) ↔
      p.Tame D v sender env (some .joinResponse) := by
  unfold handleJoinResponse Tame
  cases hacc : isTruthy (itemD env.payload "accepted" (.bool false)) with
  | false =>
    simp only [Bool.false_eq_true, if_false, false_imp_iff, iff_true]
    exact fun _ => ⟨by simp [SameRecords], woken_wake rfl⟩
  | true =>
    simp only [if_true, forall_const]
    cases hit : iterate (itemD env.payload "events" (.arr [])) with
    | error e => exact iff_of_false id (by simp)
    | ok ds =>
      have hbind : (Except.ok ds : Except PyError (List Doc)) >>= eventsFromDicts D = eventsFromDicts D ds := rfl
      rw [hbind]
      simp only [Except.ok.injEq, exists_eq_left']
      cases hrs : eventsFromDicts D ds with
      | error e =>
        refine iff_of_false id fun h => ?_
        obtain ⟨rs, hrs'⟩ := (eventsFromDicts_isOk (D := D)).2 h.1
        rw [hrs] at hrs'
        cases hrs'
      | ok rs =>
        have hall : ∀ d ∈ ds, decodes d = true := eventsFromDicts_isOk.1 ⟨rs, hrs⟩
        simp only [Handled.Ensures]
        cases ds with
        | nil =>
          cases hrs
          exact iff_of_true (fun _ => ⟨by simp [SameRecords, applyRemoteSnapshot], woken_wake rfl⟩)
            ⟨hall, .inl fun _ hd => absurd hd List.not_mem_nil⟩
        | cons d ds =>
          simp only [eventsFromDicts, bind_eq_ok, Except.ok.injEq] at hrs
          obtain ⟨r, hr, rs', -, rfl⟩ := hrs
          obtain ⟨-, hhead, -⟩ := eventFromDict_eq_ok hr
          cases hterm : r.termOrdered with
          | false =>
            rw [hterm] at hhead
            rw [applyRemoteSnapshot_of_unordered clock rs' hterm]
            exact iff_of_true (fun _ => ⟨by simp [SameRecords], woken_wake rfl⟩) ⟨hall, .inr ⟨d, rfl, hhead⟩⟩
          | true =>
            rw [hterm] at hhead
            rw [malformed_iff (iterate_of_decodes hit (hall d List.mem_cons_self))]
            constructor
            · intro hens
              refine ⟨hall, .inl ?_⟩
              by_contra hill
              have hsame := (hens hill).1.1
              rw [wake_node] at hsame
              exact log_applyRemoteSnapshot_ne clock rs' hterm hsame
            · rintro ⟨-, hwell | ⟨d', hd', hfirst⟩⟩
              · exact fun hill => absurd hwell hill
              · cases hd'
                rw [hhead] at hfirst
                cases hfirst

/-- **When a message of peer discovery is harmless.** -/
theorem harmless_iff (D : Decoding) (clock : Nat → Time) (v : Verdict) (p : Participant) (sender content : String) :
    p.Harmless D clock v sender content ↔
      ∀ env, received D content = some env → p.Tame D v sender env (kindOf env.subtype) := by
  unfold Harmless handleMessage
  cases hdisc : isDiscoveryMessage content with
  | false => simp [received, hdisc, Handled.Ensures]
  | true =>
    cases henv : decodeEnvelope D content with
    | none => simp [received, hdisc, henv, Handled.Ensures]
    | some env =>
      have hrec : received D content = some env := by simp [received, hdisc, henv]
      simp only [hrec, Bool.not_true, Bool.false_eq_true, if_false, Option.some.injEq, forall_eq']
      cases hkind : kindOf env.subtype with
      | none => exact iff_of_true (fun hm => hm.elim) trivial
      | some k =>
        cases k with
        | joinRequest => simpa [Malformed] using handleJoinRequest_tame
        | joinResponse => simpa using handleJoinResponse_tame
        | gossip => simpa using handleGossip_tame
        | heartbeat => simpa [Malformed] using handleHeartbeat_tame

/-- A node that waits for the response of a seed. -/
def joining : Participant :=
  ⟨⟨.new ⟨"room", some "a:1", 1⟩ Dict.empty, []⟩, true, (Dict.empty : Dict String Bool).set "s:1" false⟩

/-- A response that is accepted, with an event in it that has no fields. -/
def fieldless : String :=
  "\x7b\"type\": \"discovery_join_response\", \"payload\": " ++
    "\x7b\"accepted\": true, \"events\": [\x7b\x7d]\x7d\x7d"

/-- `from_dict` raises a `KeyError`, and the bootstrap waits on. -/
theorem fieldless_is_not_harmless :
    ¬ joining.Harmless History.Decoding.plain (fun _ => 0) .accepts "s:1" fieldless := by
  have hraises :
      (joining.handleMessage History.Decoding.plain (fun _ => 0) .accepts "s:1" fieldless).isRaised = true := by
    decide +kernel
  intro h
  unfold Harmless at h
  generalize joining.handleMessage History.Decoding.plain (fun _ => 0) .accepts "s:1" fieldless = x at h hraises
  cases x with
  | returned => cases hraises
  | raised => exact h

end Participant

/-! ## Gossip of a node -/

/-- **Gossip of a node arrives as `DiscoveryNode.handleGossip` has it.** -/
theorem handleMessage_gossip (D : Decoding) (clock : Nat → Time) (v : Verdict) (p : Participant) (sender : String)
    (publicKey : Bytes) (e : MembershipEvent) (hlimit : D.limit (gossipContent D.floats publicKey e).toList = none) :
    p.handleMessage D clock v sender (gossipContent D.floats publicKey e) =
      .returned true none { p with node := p.node.handleGossip clock e.reread } [] := by
  have hwritten : (Doc.obj [(codePoints "event", .obj (e.toDict D.floats))]).Written :=
    written_object fun q hq => List.mem_singleton.1 hq ▸ ⟨⟨_, rfl⟩, written_toDict D.floats e⟩
  have hdisc : isDiscoveryMessage (gossipContent D.floats publicKey e) = true :=
    isDiscoveryMessage_encodeEnvelope .gossip publicKey _
  have hrec : decodeEnvelope D (gossipContent D.floats publicKey e) =
      some ⟨codePoints Kind.gossip.subtype, publicKey, [(codePoints "event", .obj (e.toDict D.floats))]⟩ := by
    have hreceived := received_encodeEnvelope D .gossip publicKey hwritten hlimit
    unfold received at hreceived
    rwa [show encodeEnvelope Kind.gossip.subtype publicKey _ = gossipContent D.floats publicKey e from rfl, hdisc,
      if_pos rfl] at hreceived
  have hevent : itemD [(codePoints "event", .obj (e.toDict D.floats))] "event" .null = .obj (e.toDict D.floats) := rfl
  have hkind : kindOf (codePoints Kind.gossip.subtype) = some .gossip := by decide +kernel
  have htruthy : isTruthy (.obj (e.toDict D.floats)) = true := by
    simp [isTruthy, MembershipEvent.toDict, MembershipEvent.fields]
  unfold Participant.handleMessage
  simp only [hdisc, hrec, hkind, Bool.not_true, Bool.false_eq_true, if_false, Participant.handleGossip, hevent, htruthy,
    if_true, eventFromDict_toDict]
  unfold DiscoveryNode.handleGossip
  rw [show eventId e.reread = eventId e from rfl]
  rcases markSeen p.node.seenEventIds (eventId e) with ⟨seen, _ | _⟩
  · obtain ⟨c', happly, hrun⟩ := applyRemote_returns clock (c := p.node.coordinator)
      (r := ⟨e.reread, eventId e, true, true⟩) rfl rfl
    have hstep : p.node.coordinator.step clock (.remote e.reread) = c' := congrArg Prod.snd hrun
    simp only [happly, hstep]
  · rfl

end PeerChat.Membership
