/-
The term of the log (`MembershipEventLog`, `_current_term`).

`append_remote` raises the term of the log to that of the event, and every
operation of the coordinator appends with the term 1. `stays_served_iff`:
the operations go through in every state of a run exactly when no event
from another node had a term above 1.
-/
import PeerChat.Membership.Commands
import PeerChat.Membership.Ledger
import Mathlib.Data.Fintype.EquivFin

namespace PeerChat.Membership

open Lib

/-- A coordinator that has seen no term but the first. -/
structure FirstTerm (c : Coordinator) : Prop where
  log : c.log.currentTerm = 1
  events : ∀ e ∈ c.log.log, e.term = 1
  files : ∀ k cp, c.durability.files.get? k = some (some cp) →
    cp.currentTerm = 1 ∧ ∀ e ∈ cp.logTail, e.term = 1

variable {clock : Nat → Time} {cfg : Settings} {c : Coordinator} {e : MembershipEvent}

theorem FirstTerm.new (cfg : Settings) : FirstTerm (.new cfg Dict.empty) :=
  ⟨rfl, by simp [Coordinator.new, EventLog.new], by simp [Coordinator.new]⟩

theorem FirstTerm.push (h : FirstTerm c) {e : MembershipEvent} {t : Int} (he : e.term = 1) (ht : t ≤ 1) (r : Nat) :
    FirstTerm { c with log := c.log.push e t, reads := r } := by
  refine ⟨?_, fun x hx => ?_, h.files⟩
  · show max t c.log.currentTerm = 1
    rw [h.log]
    omega
  · rcases List.mem_append.1 hx with hx | hx
    · exact h.events x hx
    · rw [List.mem_singleton.1 hx]
      exact he

theorem FirstTerm.checkpointed (h : FirstTerm c) : FirstTerm c.checkpointed := by
  refine ⟨h.log, h.events, fun k cp hk => ?_⟩
  simp only [Coordinator.checkpointed, Durability.maybeCheckpoint] at hk
  split at hk
  · have hk := Dict.get?_of_foldl_erase hk
    rw [Dict.get?_set] at hk
    split at hk
    · cases hk
      exact ⟨h.log, fun e he => h.events e (List.mem_of_mem_filter he)⟩
    · exact h.files k cp hk
  · exact h.files k cp hk

theorem FirstTerm.restore (h : FirstTerm c) {log : EventLog} {s : Snapshot}
    (hr : c.durability.recover c.settings.roomId = some (log, s)) : FirstTerm { c with log, snapshot := s } := by
  obtain ⟨⟨k, file⟩, hmem, hfile⟩ := List.exists_of_findSome?_eq_some hr
  simp only [Option.map_eq_some_iff] at hfile
  obtain ⟨cp, rfl, hcp⟩ := hfile
  simp only [Durability.listCheckpoints, List.mem_mergeSort] at hmem
  obtain ⟨hterm, htail⟩ := h.files k cp ((Dict.mem_items_iff _).1 hmem)
  have hlog : log = (Durability.reconstruct c.settings.roomId cp).1 := by rw [hcp]
  refine ⟨?_, fun e he => ?_, h.files⟩
  · rw [hlog]
    exact hterm
  · rw [hlog] at he
    simp only [Durability.reconstruct, List.mem_mergeSort, List.mem_map] at he
    obtain ⟨e', he', rfl⟩ := he
    exact htail e' he'

/-- One command: the term stays, and no event is stale. -/
theorem FirstTerm.command {r : Option MembershipEvent} (hr : ∀ e, r = some e → e.term ≤ 1) {β : Type} (cmd : Cmd β)
    (c : Coordinator) (hcmd : Usual cfg r cmd) (h : FirstTerm c) :
    FirstTerm (exec clock cmd c).2 ∧ ∀ x, (exec clock cmd c).1 = .error x → NotStale x := by
  cases cmd with
  | append a =>
    have ht : ¬ a.term < c.log.currentTerm := by
      rw [h.log, show a.term = 1 from hcmd]
      omega
    have hstamp : (c.log.stamp (clock c.reads) a).term = 1 := by
      show max a.term c.log.currentTerm = 1
      rw [h.log, show a.term = 1 from hcmd]
      rfl
    simp only [exec, EventLog.append, ht, if_false]
    exact ⟨h.push hstamp (le_of_eq hcmd) _, fun x hx => by cases hx⟩
  | appendRemote e =>
    have ht := hr e hcmd
    have hloc : (c.log.localize e).term = 1 := by
      show max e.term c.log.currentTerm = 1
      rw [h.log]
      omega
    exact ⟨h.push hloc ht c.reads, fun x hx => by cases hx⟩
  | maybeCheckpoint => exact ⟨h.checkpointed, fun x hx => by cases hx⟩
  | restore =>
    simp only [exec]
    cases hfound : c.durability.recover c.settings.roomId with
    | none => exact ⟨h, fun x hx => by cases hx⟩
    | some found => exact ⟨h.restore hfound, fun x hx => by cases hx⟩
  | _ => exact ⟨⟨h.log, h.events, h.files⟩, fun x hx => by cases hx⟩

/-- One call. -/
theorem FirstTerm.call (h : FirstTerm c) {op : Op} (hop : ∀ e, op = .remote e → e.term ≤ 1) :
    FirstTerm (c.step clock op) ∧ ((op.prog c.settings).run (exec clock) c).1 ≠ .error .staleTerm := by
  have hr : ∀ e, op.remoteEvent = some e → e.term ≤ 1 := by
    intro e he
    cases op with
    | remote e' =>
      cases he
      exact hop e rfl
    | _ => cases he
  obtain ⟨hI, hX⟩ := (op.all_usual c.settings).run (fun cmd c => FirstTerm.command hr cmd c) h
  exact ⟨hI, fun he => hX _ he rfl⟩

theorem FirstTerm.live (h : FirstTerm c) {l : Life} (hl : ∀ e, l = .call (.remote e) → e.term ≤ 1) :
    FirstTerm (c.live clock l) := by
  cases l with
  | restart => exact ⟨rfl, by simp [Coordinator.live, Coordinator.restarted, Coordinator.new, EventLog.new], h.files⟩
  | call op => exact (h.call fun e he => hl e (by rw [he])).1

theorem FirstTerm.run : ∀ {ls : List Life} {c : Coordinator}, FirstTerm c →
    (∀ e, Life.call (.remote e) ∈ ls → e.term ≤ 1) → FirstTerm (ls.foldl (Coordinator.live clock) c)
  | [], _, h, _ => h
  | l :: ls, c, h, hls => by
    have h₁ : FirstTerm (c.live clock l) := h.live fun e he => hls e (he ▸ List.mem_cons_self)
    rw [List.foldl_cons]
    exact FirstTerm.run h₁ fun e he => hls e (List.mem_cons_of_mem _ he)

/-! ## Service -/

/-- A local operation is carried out: it raises no `StaleTermError`, and what
it appends is of no smaller term than what comes before. -/
structure Served (clock : Nat → Time) (c : Coordinator) (op : Op) : Prop where
  completes : ((op.prog c.settings).run (exec clock) c).1 ≠ .error .staleTerm
  appends : c.log.log <+: (c.step clock op).log.log
  terms : (c.step clock op).log.log.Pairwise (·.term ≤ ·.term)

theorem FirstTerm.served (h : FirstTerm c) (hs : Sane c) {op : Op} (hop : op.isLocal = true) : Served clock c op := by
  obtain ⟨h', hok⟩ : FirstTerm (c.step clock op) ∧
      ((op.prog c.settings).run (exec clock) c).1 ≠ .error .staleTerm := by
    refine h.call fun e he => ?_
    rw [he] at hop
    cases hop
  obtain ⟨es, hes, -⟩ := (Grown.step hs hop).ledger
  refine ⟨hok, ⟨es, hes.log.symm⟩, List.pairwise_of_forall_mem_list fun x hx y hy => ?_⟩
  rw [h'.events x hx, h'.events y hy]

/-- Some user has not asked to join lately. -/
theorem exists_newcomer (g : DuplicateGuard) (t : String) : ∃ u, (g.isDuplicate u t).2 = false := by
  have : Infinite String := Infinite.of_injective String.ofList fun a b h => by simpa using congrArg String.toList h
  obtain ⟨u, hu⟩ := Infinite.exists_notMem_finset (g.recent.map Prod.fst).toFinset
  refine ⟨u, ?_⟩
  have hnot : (u, t) ∉ g.recent := fun hm => hu (by simpa using ⟨t, hm⟩)
  simp [DuplicateGuard.isDuplicate, hnot]

variable (clock) in
/-- After a later term nobody joins. -/
theorem join_stale (hc : 1 < c.log.currentTerm) : ∃ op : Op, op.isLocal = true ∧ ¬ Served clock c op := by
  obtain ⟨u, hu⟩ := exists_newcomer c.duplicateGuard EventType.joinRequested.value
  refine ⟨.join u "" none none .accepts, rfl, fun h => h.completes ?_⟩
  simp [Op.prog, handleJoin, record, Prog.run, Prog.lift, bind, Prog.bind, exec, hu, EventLog.append, hc]

/-- A remote event leaves its term behind. -/
theorem term_remote (h : Sane c) (e : MembershipEvent) : e.term ≤ (c.step clock (.remote e)).log.currentTerm := by
  refine Prog.wp_run (E := fun c' : Coordinator => e.term ≤ c'.log.currentTerm) ?_
  refine wp_remote h fun e' c' _ hl => ?_
  have hterm : e.term ≤ c'.log.currentTerm := by
    rw [hl.term]
    exact le_max_left _ _
  simp only [Prog.wp_bind, Prog.wp_when, Prog.wp_lift, exec]
  refine ⟨fun _ => ⟨fun _ => ⟨fun hr => ?_, fun _ => hterm⟩, fun _ => hterm⟩, fun _ => hterm⟩
  rw [watching_presence, recordHeartbeat_registerMember] at hr
  cases hr

/-- **When the operations are carried out**: in every state of a run of a
node, exactly when no event from another node has a term above 1. -/
theorem stays_served_iff (clock : Nat → Time) (cfg : Settings) (ls : List Life) :
    (∀ pre, pre <+: ls → ∀ op : Op, op.isLocal = true →
      Served clock (pre.foldl (Coordinator.live clock) (.new cfg Dict.empty)) op) ↔
    ∀ e, Life.call (.remote e) ∈ ls → e.term ≤ 1 := by
  constructor
  · intro h e he
    obtain ⟨pre, post, rfl⟩ := List.append_of_mem he
    by_contra hgt
    -- the state right after the event
    let c := pre.foldl (Coordinator.live clock) (.new cfg Dict.empty)
    have hc : Reached clock c := ⟨cfg, pre, rfl⟩
    have hterm : 1 < (c.step clock (.remote e)).log.currentTerm :=
      lt_of_lt_of_le (not_le.1 hgt) (term_remote hc.sane e)
    obtain ⟨op, hop, hns⟩ := join_stale clock hterm
    have hs := h (pre ++ [.call (.remote e)]) ⟨post, by simp⟩ op hop
    rw [List.foldl_append] at hs
    exact hns hs
  · intro h pre hpre op hop
    have hc : Reached clock (pre.foldl (Coordinator.live clock) (.new cfg Dict.empty)) := ⟨cfg, pre, rfl⟩
    exact (FirstTerm.run (.new cfg) fun e he => h e (hpre.subset he)).served hc.sane hop

/-- A join that another node logged in its second term. -/
def secondTerm : MembershipEvent where
  seqNo := 1
  roomId := "room"
  userId := "b:1"
  eventType := .joinAccepted
  timestamp := 0
  membershipVersion := 1
  source := "coordinator"
  term := 2

/-- A node that has heard of it. -/
def outrun : Coordinator := (Coordinator.new ⟨"room", some "a:1", 1⟩ Dict.empty).step still (.remote secondTerm)

theorem outrun_refuses_joins :
    ((Op.prog outrun.settings (.join "c:1" "C" none none .accepts)).run (exec still) outrun).1 =
      .error .staleTerm ∧
    ¬ ∀ pre, pre <+: [Life.call (.remote secondTerm)] → ∀ op : Op, op.isLocal = true →
      Served still (pre.foldl (Coordinator.live still) (.new ⟨"room", some "a:1", 1⟩ Dict.empty)) op := by
  have hraise : ((Op.prog outrun.settings (.join "c:1" "C" none none .accepts)).run (exec still) outrun).1 =
      .error .staleTerm := by decide +kernel
  exact ⟨hraise, fun h => (h _ List.prefix_rfl (.join "c:1" "C" none none .accepts) rfl).completes hraise⟩

end PeerChat.Membership
