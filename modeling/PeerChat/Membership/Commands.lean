/-
Which commands the operations of the coordinator may run, whatever their
commands answer (`Op.all_usual`): every event is appended in the term 1,
only `_apply_remote_event` appends an event from elsewhere, and it is the
only one that registers the local user with the presence.
-/
import PeerChat.Membership.Effects

namespace PeerChat.Membership

open Lib

/-- The commands of a call; `r` is the event it is given from another
node. -/
def Usual (cfg : Settings) (r : Option MembershipEvent) : {β : Type} → Cmd β → Prop
  | _, .append a => a.term = 1
  | _, .appendRemote e => r = some e
  | _, .registerMember u => r = none → some u ≠ cfg.localUserId
  | _, _ => True

/-- Any exception but a `StaleTermError`. -/
def NotStale (x : Exn) : Prop := x ≠ .staleTerm

variable {cfg : Settings} {r : Option MembershipEvent}

theorem all_record {a : NewEvent} (ha : a.term = 1) : (record a).All (Usual cfg r) NotStale := by
  refine .bind ((Prog.all_lift _).2 ha) fun e => .bind ((Prog.all_lift _).2 trivial) fun d => ?_
  exact .bind ((Prog.all_lift _).2 trivial) fun _ => trivial

theorem all_presenceChange (u : String) (ch : ChangeType) : (handlePresenceChange u ch).All (Usual cfg r) NotStale := by
  refine .bind ((Prog.all_lift _).2 trivial) fun m => ?_
  cases m with
  | none => trivial
  | some m =>
    refine .bind (all_record rfl) fun _ => .bind (.when fun _ => ?_) fun _ => ?_
    · exact (Prog.all_lift _).2 trivial
    · exact (Prog.all_lift _).2 trivial

theorem all_join (u name : String) (key : Option Bytes) (trace : Option String) (v : Verdict) :
    (handleJoin cfg u name key trace v).All (Usual cfg r) NotStale := by
  refine .bind ((Prog.all_lift _).2 trivial) fun dup => ?_
  split
  · exact .bind ((Prog.all_lift _).2 trivial) fun _ => .bind ((Prog.all_lift _).2 trivial) fun _ => trivial
  · cases v with
    | raises => exact fun h => by cases h
    | rejects reason =>
      refine .bind ((Prog.all_lift _).2 rfl) fun e => .bind ((Prog.all_lift _).2 trivial) fun _ => ?_
      exact .bind ((Prog.all_lift _).2 trivial) fun _ => .bind ((Prog.all_lift _).2 trivial) fun _ => trivial
    | accepts =>
      refine .bind (all_record rfl) fun e => .bind (.when fun hu => (Prog.all_lift _).2 fun _ => hu) fun _ => ?_
      exact .bind ((Prog.all_lift _).2 trivial) fun _ => .bind ((Prog.all_lift _).2 trivial) fun _ => trivial

theorem all_leave (u : String) : (handleLeave u).All (Usual cfg r) NotStale := by
  refine .bind ((Prog.all_lift _).2 trivial) fun m => ?_
  cases m with
  | none => trivial
  | some m =>
    simp only
    split
    · trivial
    · refine .bind (.when fun _ => ?_) fun _ => .bind (all_record rfl) fun _ => ?_
      · exact .bind ((Prog.all_lift _).2 rfl) fun _ => .bind ((Prog.all_lift _).2 trivial) fun _ => trivial
      · exact .bind ((Prog.all_lift _).2 trivial) fun _ => (Prog.all_lift _).2 trivial

theorem all_heartbeat (u : String) : (handleHeartbeat u).All (Usual cfg r) NotStale := by
  refine .bind ((Prog.all_lift _).2 trivial) fun m => ?_
  cases m with
  | none => trivial
  | some m =>
    refine .bind ((Prog.all_lift _).2 rfl) fun e => .bind ((Prog.all_lift _).2 trivial) fun _ => ?_
    refine .bind ((Prog.all_lift _).2 trivial) fun r => .bind (.when fun _ => all_presenceChange u _) fun _ => ?_
    exact (Prog.all_lift _).2 trivial

theorem all_moveBackfill (from_ : MemberState) (t : EventType) (u : String) :
    (moveBackfill from_ t u).All (Usual cfg r) NotStale := by
  refine .bind ((Prog.all_lift _).2 trivial) fun m => ?_
  cases m with
  | none => trivial
  | some m => exact .when fun _ => .bind (all_record rfl) fun _ => (Prog.all_lift _).2 trivial

theorem all_tick : (tick cfg).All (Usual cfg r) NotStale := by
  refine .bind ?_ fun _ => ?_
  · refine .bind ((Prog.all_lift _).2 trivial) fun now => .bind ((Prog.all_lift _).2 trivial) fun ids => ?_
    refine .forEach (fun v => .bind ((Prog.all_lift _).2 trivial) fun ch => ?_) ids
    cases ch with
    | none => trivial
    | some ch => exact all_presenceChange v ch
  · refine .bind ((Prog.all_lift _).2 trivial) fun now => .bind ((Prog.all_lift _).2 trivial) fun ms => ?_
    refine .forEach (fun p => .when fun _ => .bind (all_record rfl) fun _ => ?_) ms
    exact .bind ((Prog.all_lift _).2 trivial) fun _ => (Prog.all_lift _).2 trivial

theorem all_remote (e : MembershipEvent) : (applyRemoteEvent e).All (Usual cfg (some e)) NotStale := by
  refine .bind ((Prog.all_lift _).2 rfl) fun e' => .bind ((Prog.all_lift _).2 trivial) fun _ => ?_
  refine .bind ((Prog.all_lift _).2 trivial) fun _ => .bind (.when fun _ => ?_) fun _ => ?_
  · refine .bind ((Prog.all_lift _).2 fun h => by cases h) fun _ => .when fun _ => ?_
    exact .bind ((Prog.all_lift _).2 trivial) fun _ => .when fun _ => all_presenceChange _ _
  · exact (Prog.all_lift _).2 trivial

theorem all_recover : (recover cfg).All (Usual cfg r) NotStale := by
  refine .bind ((Prog.all_lift _).2 trivial) fun found => .when fun _ => ?_
  refine .bind ((Prog.all_lift _).2 trivial) fun ms => .forEach (fun p => .when fun hp => ?_) ms
  exact (Prog.all_lift _).2 fun _ => hp.1

/-- The event that a call is given from another node. -/
def Op.remoteEvent : Op → Option MembershipEvent
  | .remote e => some e
  | _ => none

/-- **What the operations do, by their commands.** -/
theorem Op.all_usual (cfg : Settings) (op : Op) : (op.prog cfg).All (Usual cfg op.remoteEvent) NotStale := by
  cases op with
  | join u name key trace v => exact .bind (all_join u name key trace v) fun _ => trivial
  | startBackfill u => exact all_moveBackfill _ _ u
  | completeBackfill u => exact all_moveBackfill _ _ u
  | heartbeat u => exact all_heartbeat u
  | leave u => exact all_leave u
  | tick => exact all_tick
  | remote e => exact all_remote e
  | recover => exact all_recover

end PeerChat.Membership
