/-
The ids by which gossip is deduplicated (`GossipDispatcher`,
`network/gossip.py`, and `DiscoveryNode._handle_gossip`).

Every node numbers its own log from 1, and again from its last checkpoint
after a crash. No append names its originator, so an id is the user, the
number and the type of an event and says nothing of the node.
`discards_known_iff`: a node discards only what it has handled or sent
itself, and ids tell the appends apart, exactly when no two appends that
are gossiped share the three.
-/
import PeerChat.Lib.Decimal
import PeerChat.Membership.Ledger

namespace PeerChat.Membership

open Lib

/-! ## Ids -/

theorem colon_not_mem_value (t : EventType) : ':' ∉ t.value.toList := by cases t <;> decide

theorem value_injective {t t' : EventType} (h : t.value = t'.value) : t = t' := by
  cases t <;> cases t' <;> first | rfl | exact absurd h (by decide)

theorem toList_eventId {e : MembershipEvent} (h : e.originator = none) :
    (eventId e).toList = e.userId.toList ++
      ':' :: ((toString e.seqNo).toList ++ ':' :: (e.eventType.value.toList ++ ':' :: e.userId.toList)) := by
  have horigin : e.origin = e.userId := by simp [MembershipEvent.origin, h]
  simp [eventId, horigin, String.toList_append]

/-- The user, the number and the type of an event. -/
def SameName (e e' : MembershipEvent) : Prop :=
  e.userId = e'.userId ∧ e.seqNo = e'.seqNo ∧ e.eventType = e'.eventType

/-- **The id of an event without an originator is its name.** -/
theorem eventId_eq_iff {e e' : MembershipEvent} (h : e.originator = none) (h' : e'.originator = none) :
    eventId e = eventId e' ↔ SameName e e' := by
  constructor
  · intro hid
    have hlist := congrArg String.toList hid
    rw [toList_eventId h, toList_eventId h'] at hlist
    obtain ⟨hu, hn, ht⟩ := framed_inj (colon_not_mem_toString _) (colon_not_mem_toString _) (colon_not_mem_value _)
      (colon_not_mem_value _) hlist
    have hseq := congrArg parseInt (String.toList_injective hn)
    simp only [parseInt_toString, Option.some.injEq] at hseq
    exact ⟨String.toList_injective hu, hseq, value_injective (String.toList_injective ht)⟩
  · intro hname
    obtain ⟨hu, hn, ht⟩ := hname
    apply String.toList_injective
    rw [toList_eventId h, toList_eventId h', hu, hn, ht]

/-! ## The nodes -/

/-- What a node has gossiped: an append is known by its node and its record,
which holds its number and its time. -/
abbrev Broadcast (ι : Type) := ι × MembershipEvent

/-- A node, whether its dispatcher is subscribed, and what it has handled or
sent itself so far, in all its lives. -/
structure Host (ι : Type) where
  node : DiscoveryNode
  subscribed : Bool
  known : List (Broadcast ι)

/-- The nodes of a room, and everything they have gossiped. -/
structure Net (ι : Type) where
  hosts : ι → Host ι
  sent : List (Broadcast ι)

/-- What happens in a room. A `replay` is one event of a response to a join;
a `deliver` is the broadcast with a number, at any time and any number of
times. -/
inductive Happening (ι : Type)
  | call (i : ι) (op : Op) (isLocal : op.isLocal = true)
  | replay (i : ι) (e : MembershipEvent)
  | crash (i : ι)
  | subscribe (i : ι)
  | deliver (j : ι) (k : Nat)

variable {ι : Type} [DecidableEq ι] {clock : ι → Nat → Time}

namespace Net

/-- The room with another host. -/
def place (net : Net ι) (i : ι) (h : Host ι) : Net ι := { net with hosts := Function.update net.hosts i h }

/-- A host gossips events: it marks each as seen. -/
def gossip (net : Net ι) (i : ι) (h : Host ι) (out : List MembershipEvent) : Net ι where
  hosts := Function.update net.hosts i
    { h with
      node.seenEventIds := out.foldl (fun seen e => (markSeen seen (eventId e)).1) h.node.seenEventIds
      known := out.map (i, ·) ++ h.known }
  sent := net.sent ++ out.map (i, ·)

/-- One happening. After a crash the service recovers from its checkpoint;
when the dispatcher subscribes it is called with the whole log. -/
def step (clock : ι → Nat → Time) (net : Net ι) : Happening ι → Net ι
  | .call i op _ =>
    let h := net.hosts i
    let c := h.node.coordinator.step (clock i) op
    let out := if h.subscribed then envelopes (c.dispatched.drop h.node.coordinator.dispatched.length) else []
    net.gossip i { h with node.coordinator := c } out
  | .replay i e =>
    let h := net.hosts i
    net.place i { h with node.coordinator := h.node.coordinator.step (clock i) (.remote e) }
  | .crash i =>
    let h := net.hosts i
    net.place i { h with node := ⟨h.node.coordinator.restarted.step (clock i) .recover, []⟩, subscribed := false }
  | .subscribe i =>
    let h := net.hosts i
    net.gossip i { h with subscribed := true } (envelopes (h.node.coordinator.log.catchUp 0))
  | .deliver j k =>
    match net.sent[k]? with
    | none => net
    | some m =>
      let h := net.hosts j
      net.place j
        { h with
          node := h.node.handleGossip (clock j) m.2
          known := if eventId m.2 ∈ h.node.seenEventIds then h.known else m :: h.known }

/-- A sequence of these. -/
def run (clock : ι → Nat → Time) (net : Net ι) (hs : List (Happening ι)) : Net ι := hs.foldl (step clock) net

/-- A room of nodes that have just been constructed. -/
def new (cfg : ι → Settings) : Net ι where
  hosts i := ⟨⟨.new (cfg i) Dict.empty, []⟩, false, []⟩
  sent := []

/-- What is discarded has been handled or sent by the node that discards it. -/
def DiscardsKnown (clock : ι → Nat → Time) (net : Net ι) : List (Happening ι) → Prop
  | [] => True
  | .deliver j k :: hs =>
    (∀ m, net.sent[k]? = some m → eventId m.2 ∈ (net.hosts j).node.seenEventIds → m ∈ (net.hosts j).known) ∧
      (net.step clock (.deliver j k)).DiscardsKnown clock hs
  | a :: hs => (net.step clock a).DiscardsKnown clock hs

end Net

/-! ## Events without an originator -/

/-- The events of this node in a log and in its checkpoints name no
originator. -/
structure Steady (c : Coordinator) : Prop where
  sane : Sane c
  log : ∀ e ∈ c.log.log, e.source ≠ "remote" → Own e
  files : ∀ k cp, c.durability.files.get? k = some (some cp) → ∀ e ∈ cp.logTail, e.source ≠ "remote" → Own e

variable {c c' : Coordinator} {es : List MembershipEvent}

theorem Steady.new (cfg : Settings) : Steady (.new cfg Dict.empty) :=
  ⟨Sane.new cfg, by simp [Coordinator.new, EventLog.new], fun k cp h => by simp [Coordinator.new] at h⟩

theorem Steady.ledger (h : Steady c) (hs : Sane c') (hes : Ledger c es c')
    (hown : ∀ e ∈ es, e.source ≠ "remote" → Own e) : Steady c' where
  sane := hs
  log e he := by
    rw [hes.log] at he
    rcases List.mem_append.1 he with he | he
    · exact h.log e he
    · exact hown e he
  files k cp hk e he := by
    rcases hes.files k cp hk with hk | ⟨pre, hpre, ha⟩
    · exact h.files k cp hk e he
    · rw [ha.logTail] at he
      rcases List.mem_append.1 (List.mem_of_mem_filter he) with he | he
      · exact h.log e he
      · exact hown e (hpre.subset he)

theorem Steady.remote (h : Steady c) {clock : Nat → Time} (e : MembershipEvent) :
    Steady (c.step clock (.remote e)) := by
  refine h.ledger (h.sane.step _) (Ledger.remote h.sane e) fun x hx hne => ?_
  rw [List.mem_singleton.1 hx] at hne
  exact absurd rfl hne

theorem Steady.recovered (h : Steady c) {clock : Nat → Time} : Steady (c.restarted.step clock .recover) := by
  have hr : Restored c.restarted (c.restarted.step clock .recover) := .recover _
  refine ⟨h.sane.restarted.step _, fun e he hne => ?_, ?_⟩
  · have hfound := hr.found
    cases hrec : c.restarted.durability.recover c.restarted.settings.roomId with
    | none =>
      rw [hrec] at hfound
      rw [hfound.1] at he
      cases he
    | some found =>
      rw [hrec] at hfound
      rw [hfound.1] at he
      obtain ⟨⟨k, file⟩, hmem, hfile⟩ := List.exists_of_findSome?_eq_some hrec
      simp only [Option.map_eq_some_iff] at hfile
      obtain ⟨cp, rfl, rfl⟩ := hfile
      simp only [Durability.listCheckpoints, List.mem_mergeSort] at hmem
      simp only [Durability.reconstruct, List.mem_mergeSort, List.mem_map] at he
      obtain ⟨e', he', rfl⟩ := he
      exact h.files k cp ((Dict.mem_items_iff _).1 hmem) e' he' hne
  · rw [hr.durability]
    exact h.files

/-- What is announced is of a type that has a delta. -/
theorem mem_of_mem_announcements {s : Snapshot} {p : MembershipEvent × MembershipDelta}
    (h : p ∈ announcements s es) :
    p.1 ∈ es ∧ p.1.eventType ≠ .heartbeat ∧ p.1.eventType ≠ .leaveRequested := by
  rw [announcements_eq] at h
  obtain ⟨⟨s', e⟩, hm, hp⟩ := List.mem_flatMap.1 h
  obtain ⟨pre, post, rfl, -⟩ := mem_meetings.1 hm
  have he : p.1 = e := fst_of_mem_announced hp
  refine ⟨by simp [he], ?_⟩
  rw [he]
  simp only [announced, deltas, deltaOf] at hp
  split at hp
  · next hr =>
    rw [hr.1]
    decide
  · revert hp
    cases e.eventType <;> simp [deltaType]

theorem mem_of_mem_catchUp {l : EventLog} {v : Int} {p : MembershipEvent × MembershipDelta} (h : p ∈ l.catchUp v) :
    p.1 ∈ l.log ∧ p.1.eventType ≠ .heartbeat ∧ p.1.eventType ≠ .leaveRequested := by
  obtain ⟨e, hmem, hd⟩ := List.mem_filterMap.1 h
  obtain ⟨d, hd, rfl⟩ := Option.map_eq_some_iff.1 hd
  refine ⟨List.mem_of_mem_filter hmem, ?_⟩
  simp only [synthesizeDelta, Option.map_eq_some_iff] at hd
  obtain ⟨t, ht, -⟩ := hd
  revert ht
  cases e.eventType <;> simp [eventToDeltaType]

/-- What a node gossips of events of its own. -/
theorem originator_of_mem_envelopes {out : List (MembershipEvent × MembershipDelta)}
    (h : ∀ p ∈ out, p.1.source ≠ "remote" → p.1.originator = none) : ∀ e ∈ envelopes out, e.originator = none := by
  intro e he
  obtain ⟨p, hp, rfl⟩ := List.mem_map.1 he
  obtain ⟨hp, hne⟩ := List.mem_filter.1 hp
  exact h p hp (of_decide_eq_true hne)

/-! ## Runs -/

namespace Net

/-- The ids a host has seen are those of what it knows, and what it knows
was gossiped. -/
structure HostOK (h : Host ι) (sent : List (Broadcast ι)) : Prop where
  steady : Steady h.node.coordinator
  seen : ∀ id ∈ h.node.seenEventIds, ∃ m ∈ h.known, eventId m.2 = id
  known : ∀ m ∈ h.known, m ∈ sent

structure OK (net : Net ι) : Prop where
  host : ∀ i, HostOK (net.hosts i) net.sent
  sent : ∀ m ∈ net.sent, m.2.originator = none

omit [DecidableEq ι] in
theorem OK.new (cfg : ι → Settings) : (Net.new cfg).OK where
  host i := ⟨Steady.new (cfg i), by simp [Net.new], by simp [Net.new]⟩
  sent := by simp [Net.new]

omit [DecidableEq ι] in
theorem HostOK.mono {h : Host ι} {sent sent' : List (Broadcast ι)} (hok : HostOK h sent)
    (hsub : ∀ m ∈ sent, m ∈ sent') : HostOK h sent' :=
  ⟨hok.steady, hok.seen, fun m hm => hsub m (hok.known m hm)⟩

theorem mem_markSeen {seen : List String} {id id' : String} (h : id' ∈ (markSeen seen id).1) :
    id' = id ∨ id' ∈ seen := by
  simp only [markSeen] at h
  split at h
  · next hid =>
    rcases List.mem_append.1 h with h | h
    · exact .inr (List.mem_of_mem_erase h)
    · exact .inl (List.mem_singleton.1 h)
  · simp only at h
    have hcons : id' ∈ seen ++ [id] := by
      split at h
      · exact List.mem_of_mem_tail h
      · exact h
    rcases List.mem_append.1 hcons with h | h
    · exact .inr h
    · exact .inl (List.mem_singleton.1 h)

theorem mem_foldl_markSeen {id : String} : ∀ (out : List MembershipEvent) {seen : List String},
    id ∈ out.foldl (fun seen e => (markSeen seen (eventId e)).1) seen → (∃ e ∈ out, eventId e = id) ∨ id ∈ seen
  | [], _, h => .inr h
  | e :: out, seen, h => by
    rcases mem_foldl_markSeen out h with ⟨x, hx, hid⟩ | h
    · exact .inl ⟨x, List.mem_cons_of_mem _ hx, hid⟩
    · rcases mem_markSeen h with rfl | h
      · exact .inl ⟨e, by simp, rfl⟩
      · exact .inr h

omit [DecidableEq ι] in
/-- A host that takes a broadcast knows it then, unless it has seen the id. -/
theorem HostOK.handleGossip {h : Host ι} {sent : List (Broadcast ι)} (hok : HostOK h sent) {clock : Nat → Time}
    {m : Broadcast ι} (hm : m ∈ sent) :
    HostOK { h with
      node := h.node.handleGossip clock m.2
      known := if eventId m.2 ∈ h.node.seenEventIds then h.known else m :: h.known } sent := by
  by_cases hid : eventId m.2 ∈ h.node.seenEventIds
  · rw [handleGossip_seen hid, if_pos hid]
    refine ⟨hok.steady, fun id hseen => hok.seen id ?_, hok.known⟩
    rcases mem_markSeen hseen with rfl | hseen
    · exact hid
    · exact hseen
  · rw [handleGossip_new hid, if_neg hid]
    refine ⟨hok.steady.remote m.2, fun id hseen => ?_, fun x hx => ?_⟩
    · rcases mem_markSeen hseen with rfl | hseen
      · exact ⟨m, List.mem_cons_self, rfl⟩
      · obtain ⟨x, hx, rfl⟩ := hok.seen id hseen
        exact ⟨x, List.mem_cons_of_mem _ hx, rfl⟩
    · rcases List.mem_cons.1 hx with rfl | hx
      · exact hm
      · exact hok.known x hx

variable {net : Net ι}

theorem OK.place (h : net.OK) (i : ι) (host : Host ι) (hok : HostOK host net.sent) : (net.place i host).OK := by
  refine ⟨fun j => ?_, h.sent⟩
  by_cases hj : j = i
  · subst hj
    simpa [Net.place] using hok
  · simpa [Net.place, Function.update_of_ne hj] using h.host j

theorem OK.gossip (h : net.OK) (i : ι) (host : Host ι) (hok : HostOK host net.sent) {out : List MembershipEvent}
    (hout : ∀ e ∈ out, e.originator = none) : (net.gossip i host out).OK := by
  have hsub : ∀ m ∈ net.sent, m ∈ net.sent ++ out.map (i, ·) := fun m hm => List.mem_append_left _ hm
  refine ⟨fun j => ?_, fun m hm => ?_⟩
  · by_cases hj : j = i
    · subst hj
      simp only [Net.gossip, Function.update_self]
      refine ⟨hok.steady, fun id hid => ?_, fun m hm => ?_⟩
      · rcases mem_foldl_markSeen out hid with ⟨e, he, rfl⟩ | hid
        · exact ⟨(j, e), List.mem_append_left _ (List.mem_map_of_mem he), rfl⟩
        · obtain ⟨m, hm, rfl⟩ := hok.seen id hid
          exact ⟨m, List.mem_append_right _ hm, rfl⟩
      · rcases List.mem_append.1 hm with hm | hm
        · exact List.mem_append_right _ hm
        · exact hsub m (hok.known m hm)
    · simp only [Net.gossip, Function.update_of_ne hj]
      exact (h.host j).mono hsub
  · rcases List.mem_append.1 hm with hm | hm
    · exact h.sent m hm
    · obtain ⟨e, he, rfl⟩ := List.mem_map.1 hm
      exact hout e he

/-- **What a happening keeps.** -/
theorem OK.step (h : net.OK) (a : Happening ι) : (net.step clock a).OK := by
  cases a with
  | call i op hop =>
    have hh := h.host i
    obtain ⟨es, hes, hp⟩ : ∃ es, Ledger (net.hosts i).node.coordinator es
        ((net.hosts i).node.coordinator.step (clock i) op) ∧ Paired es := (Grown.step hh.steady.sane hop).ledger
    have hsteady := hh.steady.ledger (hh.steady.sane.step op) hes fun e he _ => hp.own e he
    refine h.gossip i { net.hosts i with node.coordinator := _ } ⟨hsteady, hh.seen, hh.known⟩ ?_
    split
    · rw [hes.dispatched, List.drop_left]
      refine originator_of_mem_envelopes fun p hp' _ => ?_
      obtain ⟨hmem, hhb, hlr⟩ := mem_of_mem_announcements hp'
      exact hp.own p.1 hmem hhb hlr
    · simp
  | replay i e =>
    have hh := h.host i
    exact h.place i { net.hosts i with node.coordinator := _ } ⟨hh.steady.remote e, hh.seen, hh.known⟩
  | crash i =>
    have hh := h.host i
    exact h.place i { net.hosts i with node := ⟨_, []⟩, subscribed := false } ⟨hh.steady.recovered, by simp, hh.known⟩
  | subscribe i =>
    have hh := h.host i
    refine h.gossip i { net.hosts i with subscribed := true } ⟨hh.steady, hh.seen, hh.known⟩ ?_
    refine originator_of_mem_envelopes fun p hp hne => ?_
    obtain ⟨hmem, hhb, hlr⟩ := mem_of_mem_catchUp hp
    exact hh.steady.log p.1 hmem hne hhb hlr
  | deliver j k =>
    simp only [Net.step]
    cases hk : net.sent[k]? with
    | none => exact h
    | some m => exact h.place j _ ((h.host j).handleGossip (List.mem_of_getElem? hk))

theorem OK.run : ∀ (hs : List (Happening ι)) {net : Net ι}, net.OK → (net.run clock hs).OK
  | [], _, h => h
  | a :: hs, _, h => OK.run hs (h.step a)

theorem subset_sent_step (net : Net ι) (a : Happening ι) : ∀ m ∈ net.sent, m ∈ (net.step clock a).sent := by
  intro m hm
  cases a with
  | call i op _ | subscribe i => exact List.mem_append_left _ hm
  | replay i e | crash i => exact hm
  | deliver j k =>
    simp only [Net.step]
    split
    · exact hm
    · exact hm

theorem subset_sent_run : ∀ (hs : List (Happening ι)) (net : Net ι), ∀ m ∈ net.sent, m ∈ (net.run clock hs).sent
  | [], _, _, hm => hm
  | a :: hs, net, m, hm => subset_sent_run hs _ m (subset_sent_step net a m hm)

/-- No two appends that were gossiped share user, number and type. -/
def NamesApart (sent : List (Broadcast ι)) : Prop := ∀ m ∈ sent, ∀ m' ∈ sent, SameName m.2 m'.2 → m = m'

/-- Ids tell apart what was gossiped. -/
def IdsApart (sent : List (Broadcast ι)) : Prop := ∀ m ∈ sent, ∀ m' ∈ sent, eventId m.2 = eventId m'.2 → m = m'

omit [DecidableEq ι] in
theorem OK.idsApart_iff (h : net.OK) : IdsApart net.sent ↔ NamesApart net.sent := by
  constructor
  · exact fun hid m hm m' hm' hname => hid m hm m' hm' ((eventId_eq_iff (h.sent m hm) (h.sent m' hm')).2 hname)
  · exact fun hname m hm m' hm' hid => hname m hm m' hm' ((eventId_eq_iff (h.sent m hm) (h.sent m' hm')).1 hid)

/-- A discarded event has the id of one that the host knows. -/
theorem OK.discardsKnown : ∀ (hs : List (Happening ι)) {net : Net ι}, net.OK → IdsApart (net.run clock hs).sent →
    net.DiscardsKnown clock hs
  | [], _, _, _ => trivial
  | .deliver j k :: hs, net, h, hid => by
    refine ⟨fun m hm hseen => ?_, OK.discardsKnown hs (h.step _) hid⟩
    obtain ⟨m', hm', heq⟩ := (h.host j).seen _ hseen
    have hsent : ∀ x ∈ net.sent, x ∈ (net.run clock (.deliver j k :: hs)).sent := subset_sent_run _ net
    have hsame : m' = m := hid m' (hsent m' ((h.host j).known m' hm')) m (hsent m (List.mem_of_getElem? hm)) heq
    exact hsame ▸ hm'
  | .call .. :: hs, _, h, hid => OK.discardsKnown hs (h.step _) hid
  | .replay .. :: hs, _, h, hid => OK.discardsKnown hs (h.step _) hid
  | .crash _ :: hs, _, h, hid => OK.discardsKnown hs (h.step _) hid
  | .subscribe _ :: hs, _, h, hid => OK.discardsKnown hs (h.step _) hid

/-- **Deduplication swallows no new event**, and no two appends have one id,
exactly when no two appends that are gossiped share user, number and type. -/
theorem discards_known_iff (clock : ι → Nat → Time) (cfg : ι → Settings) (hs : List (Happening ι)) :
    (IdsApart ((Net.new cfg).run clock hs).sent ∧ (Net.new cfg).DiscardsKnown clock hs) ↔
      NamesApart ((Net.new cfg).run clock hs).sent := by
  have hok : ((Net.new cfg).run clock hs).OK := (OK.new cfg).run hs
  rw [← hok.idsApart_iff]
  exact ⟨fun h => h.1, fun h => ⟨h, (OK.new cfg).discardsKnown hs h⟩⟩

/-- The join of one user, as a node logs it first. -/
def firstJoin (now : Time) : MembershipEvent :=
  ⟨1, "room", "c:1", .joinAccepted, now, 1, "coordinator", 1, none, "C", none, none⟩

/-- **Two nodes give one id to two events**: both accept the join of a user
as the first event of their logs, at different times, and a third discards
the one that comes second. -/
theorem second_join_discarded :
    let cfg : Fin 3 → Settings := fun _ => ⟨"room", none, 1⟩
    let clock : Fin 3 → Nat → Time := fun i _ => i.val
    let hs : List (Happening (Fin 3)) :=
      [.subscribe 0, .subscribe 1, .call 0 (.join "c:1" "C" none none .accepts) rfl,
        .call 1 (.join "c:1" "C" none none .accepts) rfl, .deliver 2 0, .deliver 2 1]
    ((Net.new cfg).run clock hs).sent = [(0, firstJoin 0), (1, firstJoin 1)] ∧
      ¬ IdsApart ((Net.new cfg).run clock hs).sent ∧ ¬ (Net.new cfg).DiscardsKnown clock hs := by
  intro cfg clock hs
  have hsent : ((Net.new cfg).run clock hs).sent = [(0, firstJoin 0), (1, firstJoin 1)] := by decide
  refine ⟨hsent, fun hid => ?_, fun hd => ?_⟩
  · rw [hsent] at hid
    have heq := hid (0, firstJoin 0) (by simp) (1, firstJoin 1) (by simp) rfl
    exact absurd heq (by decide)
  · obtain ⟨-, hd, -⟩ := hd
    have hknown := hd (1, firstJoin 1) (by decide) (by decide)
    revert hknown
    decide

end Net

end PeerChat.Membership
