/-
`MembershipCoordinator`
(`peer_discovery/membership_integration/coordinator.py`): its state, and
its operations as programs over the steps that its parts make atomic. The
log and the snapshot each take a lock of their own, so an operation is not
atomic as a whole: `Coordinator.step` runs one alone, and the threads of
`Membership.Threads` interleave them.

The clock is a sequence of readings; `reads` counts how many were taken.
Tracing is left out but for the trace id, and the history handler, whose
calls are operations of their own.
-/
import PeerChat.Lib.Prog
import PeerChat.Membership.EventLog
import PeerChat.Membership.Presence

namespace PeerChat.Membership

open Lib

/-- What a coordinator is constructed with. Times are in a unit of which a
second has `second`. -/
structure Settings where
  roomId : String
  localUserId : Option String
  second : Time
  deriving DecidableEq, Repr

/-- `BACKFILL_TIMEOUT_S`. -/
def Settings.backfillTimeoutS (cfg : Settings) : Time := 30 * cfg.second

/-- `MembershipCoordinator`. -/
structure Coordinator where
  settings : Settings
  log : EventLog
  snapshot : Snapshot
  duplicateGuard : DuplicateGuard
  presence : PresenceManager
  durability : Durability
  /-- What the notifier has passed to its subscribers, in order. -/
  dispatched : List (MembershipEvent × MembershipDelta)
  reads : Nat

/-- A coordinator that has just been constructed, over the checkpoints that
its directory holds. -/
def Coordinator.new (cfg : Settings) (files : Dict Int (Option Checkpoint)) : Coordinator where
  settings := cfg
  log := .new cfg.roomId
  snapshot := .new cfg.roomId
  duplicateGuard := .new
  presence := .new cfg.second
  durability := ⟨100, files⟩
  dispatched := []
  reads := 0

/-- The coordinator with another presence. -/
def Coordinator.watching (c : Coordinator) (p : PresenceManager) : Coordinator := { c with presence := p }

/-- The coordinator after `maybe_checkpoint`. -/
def Coordinator.checkpointed (c : Coordinator) : Coordinator :=
  { c with durability := c.durability.maybeCheckpoint c.log c.snapshot }

/-- The exceptions that end an operation. -/
inductive Exn
  | staleTerm
  | validator
  deriving DecidableEq, Repr

/-- The atomic steps of the operations. -/
inductive Cmd : Type → Type
  | now : Cmd Time
  | getMember (userId : String) : Cmd (Option MemberInfo)
  | members : Cmd (List (String × MemberInfo))
  | version : Cmd Int
  | activeMembers : Cmd (List MemberInfo)
  | isDuplicate (userId eventType : String) : Cmd Bool
  | append (a : NewEvent) : Cmd MembershipEvent
  | appendRemote (e : MembershipEvent) : Cmd MembershipEvent
  | applyEvent (e : MembershipEvent) : Cmd (Option MembershipDelta)
  | dispatch (e : MembershipEvent) (delta : Option MembershipDelta) : Cmd Unit
  | registerMember (userId : String) : Cmd Unit
  | unregisterMember (userId : String) : Cmd Unit
  | recordHeartbeat (userId : String) : Cmd Bool
  | trackedIds : Cmd (List String)
  | checkEntry (now : Time) (userId : String) : Cmd (Option ChangeType)
  | maybeCheckpoint : Cmd Unit
  | restore : Cmd Bool

/-- What a step does, with `clock i` the reading number `i` of the clock. -/
def exec (clock : Nat → Time) : {β : Type} → Cmd β → Coordinator → Except Exn β × Coordinator
  | _, .now, c => (.ok (clock c.reads), { c with reads := c.reads + 1 })
  | _, .getMember u, c => (.ok (c.snapshot.getMember u), c)
  | _, .members, c => (.ok c.snapshot.members.items, c)
  | _, .version, c => (.ok c.snapshot.version, c)
  | _, .activeMembers, c => (.ok c.snapshot.getActiveMembers, c)
  | _, .isDuplicate u t, c =>
    let (guard, dup) := c.duplicateGuard.isDuplicate u t
    (.ok dup, { c with duplicateGuard := guard })
  | _, .append a, c =>
    match c.log.append (clock c.reads) a with
    | none => (.error .staleTerm, c)
    | some (event, log) => (.ok event, { c with log, reads := c.reads + 1 })
  | _, .appendRemote e, c =>
    let (event, log) := c.log.appendRemote e
    (.ok event, { c with log })
  | _, .applyEvent e, c =>
    let (snapshot, delta) := c.snapshot.applyEvent e
    (.ok delta, { c with snapshot })
  | _, .dispatch e delta, c =>
    (.ok (), { c with dispatched := c.dispatched ++ (delta.map fun d => (e, d)).toList })
  | _, .registerMember u, c =>
    (.ok (), { c.watching (c.presence.registerMember (clock c.reads) u) with reads := c.reads + 1 })
  | _, .unregisterMember u, c => (.ok (), c.watching (c.presence.unregisterMember u))
  | _, .recordHeartbeat u, c =>
    let (presence, reconnected) := c.presence.recordHeartbeat (clock c.reads) u
    (.ok reconnected, { c.watching presence with reads := c.reads + 1 })
  | _, .trackedIds, c => (.ok c.presence.members.keys, c)
  | _, .checkEntry now u, c =>
    let (presence, change) := c.presence.checkEntry now u
    (.ok change, c.watching presence)
  | _, .maybeCheckpoint, c => (.ok (), c.checkpointed)
  | _, .restore, c =>
    match c.durability.recover c.settings.roomId with
    | none => (.ok false, c)
    | some (log, snapshot) => (.ok true, { c with log, snapshot })

/-! ## The operations -/

/-- A program of the coordinator. -/
abbrev Action (α : Type) := Prog Cmd Exn α

/-- What a registered join validator answers; none registered is `accepts`. -/
inductive Verdict
  | accepts
  | rejects (reason : Option String)
  | raises
  deriving DecidableEq, Repr

/-- The steps every event takes: append, apply, dispatch its delta. -/
def record (a : NewEvent) : Action MembershipEvent := do
  let event ← .lift (.append a)
  let delta ← .lift (.applyEvent event)
  .lift (.dispatch event delta)
  pure event

/-- `handle_join`. -/
def handleJoin (cfg : Settings) (userId displayName : String) (publicKey : Option Bytes)
    (traceId : Option String) (validator : Verdict) : Action JoinResult := do
  let duplicate ← .lift (.isDuplicate userId EventType.joinRequested.value)
  if duplicate then
    let version ← .lift .version
    let members ← .lift .activeMembers
    pure ⟨false, 0, version, members, some "Duplicate join request"⟩
  else
    match validator with
    | .raises => .raise .validator
    | .rejects reason => do
      let event ← .lift (.append
        { eventType := .joinRejected, userId, source := "coordinator", term := 1, displayName })
      let _ ← .lift (.applyEvent event)
      .lift (.dispatch event (some ⟨.rejected, userId, event⟩))
      let members ← .lift .activeMembers
      pure ⟨false, event.seqNo, event.membershipVersion, members, reason⟩
    | .accepts => do
      let event ← record
        { eventType := .joinAccepted, userId, source := "coordinator", term := 1, displayName, traceId, publicKey }
      .when (some userId ≠ cfg.localUserId) (.lift (.registerMember userId))
      .lift .maybeCheckpoint
      let members ← .lift .activeMembers
      pure ⟨true, event.seqNo, event.membershipVersion, members, none⟩

/-- `handle_leave`. -/
def handleLeave (userId : String) : Action Unit := do
  let current ← .lift (.getMember userId)
  match current with
  | none => pure ()
  | some m =>
    if m.state = .left ∨ m.state = .disconnected then pure ()
    else do
      .when (m.state ≠ .leaving) do
        let req ← .lift (.append
          { eventType := .leaveRequested, userId, source := "coordinator", term := 1, displayName := m.displayName })
        let _ ← .lift (.applyEvent req)
        pure ()
      let _ ← record
        { eventType := .leaveConfirmed, userId, source := "coordinator", term := 1, displayName := m.displayName }
      .lift (.unregisterMember userId)
      .lift .maybeCheckpoint

/-- The event a presence change is logged as. -/
def ChangeType.eventType : ChangeType → EventType
  | .suspected => .disconnectSuspected
  | .timeout => .disconnectTimeout
  | .reconnected => .reconnected

/-- `_handle_presence_change`. -/
def handlePresenceChange (userId : String) (change : ChangeType) : Action Unit := do
  let current ← .lift (.getMember userId)
  match current with
  | none => pure ()
  | some m => do
    let _ ← record
      { eventType := change.eventType, userId, source := "presence", term := 1, displayName := m.displayName }
    .when (change = .timeout) (.lift (.unregisterMember userId))
    .lift .maybeCheckpoint

/-- `handle_heartbeat`. -/
def handleHeartbeat (userId : String) : Action Unit := do
  let current ← .lift (.getMember userId)
  match current with
  | none => pure ()
  | some m => do
    let event ← .lift (.append
      { eventType := .heartbeat, userId, source := "coordinator", term := 1, displayName := m.displayName })
    let _ ← .lift (.applyEvent event)
    let reconnected ← .lift (.recordHeartbeat userId)
    .when (reconnected = true) (handlePresenceChange userId .reconnected)
    .lift .maybeCheckpoint

/-- What `handle_start_backfill` and `handle_complete_backfill` do for a
user who is in state `from_`. -/
def moveBackfill (from_ : MemberState) (eventType : EventType) (userId : String) : Action Unit := do
  let current ← .lift (.getMember userId)
  match current with
  | none => pure ()
  | some m =>
    .when (m.state = from_) do
      let _ ← record { eventType, userId, source := "coordinator", term := 1, displayName := m.displayName }
      .lift .maybeCheckpoint

/-- `handle_start_backfill`. -/
def handleStartBackfill : String → Action Unit := moveBackfill .joining .historyBackfillStarted

/-- `handle_complete_backfill`. -/
def handleCompleteBackfill : String → Action Unit := moveBackfill .backfilling .historyBackfillComplete

/-- One round of `check_liveness`, with its callback. -/
def checkMember (now : Time) (uid : String) : Action Unit := do
  let change ← .lift (.checkEntry now uid)
  match change with
  | none => pure ()
  | some change => handlePresenceChange uid change

/-- `check_liveness`. -/
def checkLiveness : Action Unit := do
  let now ← .lift .now
  let ids ← .lift .trackedIds
  Prog.forEach (checkMember now) ids

/-- One round of `_sweep_backfill_timeouts`. -/
def sweepMember (cfg : Settings) (now : Time) (p : String × MemberInfo) : Action Unit :=
  .when (p.2.state = .backfilling ∧ now - p.2.joinedAt > cfg.backfillTimeoutS) do
    let _ ← record
      { eventType := .disconnectTimeout, userId := p.1, source := "coordinator", term := 1
        displayName := p.2.displayName }
    .lift (.unregisterMember p.1)
    .lift .maybeCheckpoint

/-- `_sweep_backfill_timeouts`. -/
def sweepBackfillTimeouts (cfg : Settings) : Action Unit := do
  let now ← .lift .now
  let members ← .lift .members
  Prog.forEach (sweepMember cfg now) members

/-- `tick`. -/
def tick (cfg : Settings) : Action Unit := do
  checkLiveness
  sweepBackfillTimeouts cfg

/-- `_apply_remote_event`. -/
def applyRemoteEvent (event : MembershipEvent) : Action Unit := do
  let localEvent ← .lift (.appendRemote event)
  let delta ← .lift (.applyEvent localEvent)
  .lift (.dispatch localEvent delta)
  .when (localEvent.eventType = .joinAccepted ∨ localEvent.eventType = .heartbeat) do
    .lift (.registerMember localEvent.userId)
    .when (localEvent.eventType = .heartbeat) do
      let reconnected ← .lift (.recordHeartbeat localEvent.userId)
      .when (reconnected = true) (handlePresenceChange localEvent.userId .reconnected)
  .lift .maybeCheckpoint

/-- The states `recover` watches again. -/
def MemberState.live : MemberState → Bool
  | .active | .joining | .backfilling | .suspected => true
  | .disconnected | .leaving | .left => false

/-- `recover`. -/
def recover (cfg : Settings) : Action Unit := do
  let found ← .lift .restore
  .when (found = true) do
    let members ← .lift .members
    Prog.forEach (fun p : String × MemberInfo =>
      .when (some p.1 ≠ cfg.localUserId ∧ p.2.state.live = true) (.lift (.registerMember p.1))) members

/-- A call of the coordinator. -/
inductive Op
  | join (userId displayName : String) (publicKey : Option Bytes) (traceId : Option String) (validator : Verdict)
  | startBackfill (userId : String)
  | completeBackfill (userId : String)
  | heartbeat (userId : String)
  | leave (userId : String)
  | tick
  | remote (event : MembershipEvent)
  | recover

/-- The program of a call, without its result. -/
def Op.prog (cfg : Settings) : Op → Action Unit
  | .join u name key trace v => do let _ ← handleJoin cfg u name key trace v; pure ()
  | .startBackfill u => handleStartBackfill u
  | .completeBackfill u => handleCompleteBackfill u
  | .heartbeat u => handleHeartbeat u
  | .leave u => handleLeave u
  | .tick => Membership.tick cfg
  | .remote e => applyRemoteEvent e
  | .recover => Membership.recover cfg

/-- One call, run alone; an exception keeps what was done before it. -/
def Coordinator.step (clock : Nat → Time) (c : Coordinator) (op : Op) : Coordinator :=
  ((op.prog c.settings).run (exec clock) c).2

/-- A sequence of calls. -/
def Coordinator.run (clock : Nat → Time) (c : Coordinator) (ops : List Op) : Coordinator :=
  ops.foldl (step clock) c

end PeerChat.Membership
