/-
The bootstrap of a node (`attempt_bootstrap` of
`peer_discovery/network/bootstrap.py`), beside the event loop that handles
what arrives.

The thread of the bootstrap and the handlers share the table of pending
joins and the membership service, and take their steps in any order; a wait
can end with its timeout at any time. `bootstrap_succeeds_iff`: it returns
true exactly when it looked at the members after a response under the very
address that was tried, and somebody was active then. `bootstrap_ends`: it
always returns, and leaves no entry in the table.
-/
import PeerChat.Membership.Discovery

namespace PeerChat.Membership

open Lib
open FirstUse (isDiscoveryMessage)
open History (Decoding)

/-- `peer.split(":")` in two parts, and `int(port_str)`. -/
def bootstrapPeer (peer : String) : Option Peer := if peer.toList.count ':' = 1 then hostPort peer else none

/-- Where `_attempt_bootstrap_via_broadcast_node` stands; `rest` are the
entries that come after. -/
inductive Phase
  | next (rest : List String)
  /-- The event is in the table, and the request not sent yet. -/
  | registered (peer : String) (address : Peer) (rest : List String)
  | waiting (peer : String) (rest : List String)
  /-- `event.wait` has returned true. -/
  | woken (peer : String) (rest : List String)
  /-- In the `finally` clause, with what is to be returned. -/
  | leaving (peer : String) (rest : List String) (joined : Bool)
  | returned (joined : Bool)
  deriving DecidableEq

namespace Phase

/-- The entry that is tried, with those after it. -/
def attempt : Phase → Option (String × List String)
  | registered peer _ rest | waiting peer rest | woken peer rest | leaving peer rest _ => some (peer, rest)
  | next _ | returned _ => none

/-- How many steps of the thread are left at most. -/
def fuel : Phase → Nat
  | next rest => 5 * rest.length + 1
  | registered _ _ rest => 5 * rest.length + 5
  | waiting _ rest => 5 * rest.length + 4
  | woken _ rest => 5 * rest.length + 3
  | leaving _ rest _ => 5 * rest.length + 2
  | returned _ => 0

/-- The entries that are still to be asked. -/
def toAsk : Phase → List Peer
  | next rest | waiting _ rest | woken _ rest | leaving _ rest _ => rest.filterMap bootstrapPeer
  | registered _ address rest => address :: rest.filterMap bootstrapPeer
  | returned _ => []

end Phase

/-- A bootstrap that is under way, and whom it has sent its request. -/
structure Bootstrap where
  participant : Participant
  phase : Phase
  requested : List Peer

inductive BootstrapEvent
  /-- The loop goes on, up to the entry in the table. -/
  | advance
  /-- `send_to_peer` returns, or raises. -/
  | send (ok : Bool)
  | wake
  | timeout
  /-- The snapshot is looked at. -/
  | check
  | pop
  /-- The event loop handles a message. -/
  | message (v : Verdict) (sender content : String)
  /-- Another call of the membership service, such as a tick. -/
  | operation (op : Op)

/-- The steps of the thread. -/
def BootstrapEvent.isThread : BootstrapEvent → Bool
  | .advance | .send _ | .wake | .timeout | .check | .pop => true
  | .message _ _ _ | .operation _ => false

/-- The participant after a message. -/
def Handled.participant : Handled → Participant
  | .returned _ _ p _ | .raised _ p => p

namespace Bootstrap

/-- `node._pending_joins[peer] = event`. -/
def register (p : Participant) (peer : String) : Participant :=
  { p with pendingJoins := p.pendingJoins.set peer false }

/-- `node._pending_joins.pop(peer, None)`. -/
def unregister (p : Participant) (peer : String) : Participant :=
  { p with pendingJoins := p.pendingJoins.erase peer }

/-- `active_count > 0`. -/
def anyActive (p : Participant) : Bool := !p.node.coordinator.snapshot.getActiveMembers.isEmpty

section

variable (D : Decoding) (clock : Nat → Time)

/-- A step; one of the thread that it does not stand at changes nothing. -/
def step (b : Bootstrap) : BootstrapEvent → Bootstrap
  | .advance =>
    match b.phase with
    | .next [] => { b with phase := .returned false }
    | .next (peer :: rest) =>
      match bootstrapPeer peer with
      | none => { b with phase := .next rest }
      | some address => { b with participant := register b.participant peer, phase := .registered peer address rest }
    | _ => b
  | .send ok =>
    match b.phase with
    | .registered peer address rest =>
      if ok then { b with phase := .waiting peer rest, requested := b.requested ++ [address] }
      else { b with phase := .leaving peer rest false }
    | _ => b
  | .wake =>
    match b.phase with
    | .waiting peer rest =>
      if b.participant.pendingJoins.get? peer = some true then { b with phase := .woken peer rest } else b
    | _ => b
  | .timeout =>
    match b.phase with
    | .waiting peer rest => { b with phase := .leaving peer rest false }
    | _ => b
  | .check =>
    match b.phase with
    | .woken peer rest => { b with phase := .leaving peer rest (anyActive b.participant) }
    | _ => b
  | .pop =>
    match b.phase with
    | .leaving peer rest joined =>
      { b with
        participant := unregister b.participant peer
        phase := if joined then .returned true else .next rest }
    | _ => b
  | .message v sender content =>
    { b with participant := (b.participant.handleMessage D clock v sender content).participant }
  | .operation op =>
    let node := b.participant.node
    { b with participant.node := { node with coordinator := node.coordinator.step clock op } }

def run (b : Bootstrap) (es : List BootstrapEvent) : Bootstrap := es.foldl (step D clock) b

/-- `attempt_bootstrap`. A seed joins itself, with what the validator
answers; without a broadcast node nobody can be asked. -/
def attempt (v : Verdict) (p : Participant) (address displayName : String) (publicKey : Option Bytes)
    (peers : List String) : Except Exn Bootstrap :=
  if peers.isEmpty then
    let c := p.node.coordinator
    match (handleJoin c.settings address displayName publicKey none v).run (exec clock) c with
    | (.ok res, c) => .ok ⟨{ p with node := { p.node with coordinator := c } }, .returned res.accepted, []⟩
    | (.error e, _) => .error e
  else if p.hasBroadcastNode then .ok ⟨p, .next peers, []⟩
  else .ok ⟨p, .returned false, []⟩

end

/-! ## The table -/

variable {D : Decoding} {clock : Nat → Time} {p : Participant} {sender content peer : String} {rest : List String}

/-- The message is a JOIN_RESPONSE, and its handler returns. -/
def Responds (D : Decoding) (clock : Nat → Time) (v : Verdict) (p : Participant) (sender content : String) : Prop :=
  ∃ env, received D content = some env ∧ kindOf env.subtype = some .joinResponse ∧
    (p.handleJoinResponse D clock sender env).isRaised = false ∧
    p.handleMessage D clock v sender content = p.handleJoinResponse D clock sender env

theorem pendingJoins_moved (c : Coordinator) : (p.moved c).1.pendingJoins = p.pendingJoins := by
  unfold Participant.moved
  dsimp only
  split <;> rfl

theorem pendingJoins_wake (p : Participant) (sender : String) : (p.wake sender).pendingJoins = p.pendingJoins ∨
    (p.pendingJoins.get? sender).isSome = true ∧
      (p.wake sender).pendingJoins = p.pendingJoins.set sender true := by
  unfold Participant.wake
  split
  · next h => exact .inr ⟨by rw [h]; rfl, rfl⟩
  · exact .inl rfl

/-- A message leaves the table as it is, or is a response that sets the
event under its sender. -/
theorem pendingJoins_handleMessage (D : Decoding) (clock : Nat → Time) (v : Verdict) (p : Participant)
    (sender content : String) :
    (p.handleMessage D clock v sender content).participant.pendingJoins = p.pendingJoins ∨
      (p.pendingJoins.get? sender).isSome = true ∧
        (p.handleMessage D clock v sender content).participant.pendingJoins = p.pendingJoins.set sender true ∧
        Responds D clock v p sender content := by
  by_cases hdisc : isDiscoveryMessage content = true
  swap
  · left
    simp [Participant.handleMessage, hdisc, Handled.participant]
  cases henv : decodeEnvelope D content with
  | none =>
    left
    simp [Participant.handleMessage, hdisc, henv, Handled.participant]
  | some env =>
    have hrec : received D content = some env := by simp [received, hdisc, henv]
    cases hkind : kindOf env.subtype with
    | none =>
      left
      simp [Participant.handleMessage, hdisc, henv, hkind, Handled.participant]
    | some k =>
      cases k with
      | joinRequest =>
        left
        simp only [Participant.handleMessage, hdisc, henv, hkind, Bool.not_true, Bool.false_eq_true, if_false,
          Participant.handleJoinRequest]
        split
        · exact pendingJoins_moved _
        · split <;> exact pendingJoins_moved _
      | joinResponse =>
        have hmsg : p.handleMessage D clock v sender content = p.handleJoinResponse D clock sender env := by
          simp [Participant.handleMessage, hdisc, henv, hkind]
        rw [hmsg]
        have hresp (h : (p.handleJoinResponse D clock sender env).isRaised = false) :
            Responds D clock v p sender content := ⟨env, hrec, hkind, h, hmsg⟩
        revert hresp
        unfold Participant.handleJoinResponse
        split
        · split
          · exact fun _ => .inl rfl
          · next events _ =>
            intro hresp
            let c := (applyRemoteSnapshot clock events p.node.coordinator).2
            rcases pendingJoins_wake { p with node.coordinator := c } sender with h | ⟨h, h'⟩
            · exact .inl h
            · exact .inr ⟨h, h', hresp rfl⟩
        · intro hresp
          rcases pendingJoins_wake p sender with h | ⟨h, h'⟩
          · exact .inl h
          · exact .inr ⟨h, h', hresp rfl⟩
      | gossip =>
        left
        simp only [Participant.handleMessage, hdisc, henv, hkind, Bool.not_true, Bool.false_eq_true, if_false,
          Participant.handleGossip]
        repeat' split
        all_goals rfl
      | heartbeat =>
        left
        simp only [Participant.handleMessage, hdisc, henv, hkind, Bool.not_true, Bool.false_eq_true, if_false,
          Participant.handleHeartbeat]
        repeat' split
        · rfl
        · exact pendingJoins_moved _
        · exact pendingJoins_moved _

/-! ## One step -/

variable {b b' s : Bootstrap} {e : BootstrapEvent} {es : List BootstrapEvent}

/-- What one step can do. -/
inductive Moves (D : Decoding) (clock : Nat → Time) (b : Bootstrap) : BootstrapEvent → Bootstrap → Prop
  | idle {e : BootstrapEvent} : Moves D clock b e b
  | exhausted (h : b.phase = .next []) : Moves D clock b .advance { b with phase := .returned false }
  | skipped {peer : String} {rest : List String} (h : b.phase = .next (peer :: rest))
      (hp : bootstrapPeer peer = none) : Moves D clock b .advance { b with phase := .next rest }
  | registered {peer : String} {address : Peer} {rest : List String} (h : b.phase = .next (peer :: rest))
      (hp : bootstrapPeer peer = some address) :
      Moves D clock b .advance
        { b with participant := register b.participant peer, phase := .registered peer address rest }
  | sent {peer : String} {address : Peer} {rest : List String} (h : b.phase = .registered peer address rest) :
      Moves D clock b (.send true) { b with phase := .waiting peer rest, requested := b.requested ++ [address] }
  | unsent {peer : String} {address : Peer} {rest : List String} (h : b.phase = .registered peer address rest) :
      Moves D clock b (.send false) { b with phase := .leaving peer rest false }
  | woken {peer : String} {rest : List String} (h : b.phase = .waiting peer rest)
      (hset : b.participant.pendingJoins.get? peer = some true) :
      Moves D clock b .wake { b with phase := .woken peer rest }
  | timedOut {peer : String} {rest : List String} (h : b.phase = .waiting peer rest) :
      Moves D clock b .timeout { b with phase := .leaving peer rest false }
  | checked {peer : String} {rest : List String} (h : b.phase = .woken peer rest) :
      Moves D clock b .check { b with phase := .leaving peer rest (anyActive b.participant) }
  | popped {peer : String} {rest : List String} {joined : Bool} (h : b.phase = .leaving peer rest joined) :
      Moves D clock b .pop
        { b with
          participant := unregister b.participant peer
          phase := if joined then .returned true else .next rest }
  | message (v : Verdict) (sender content : String) :
      Moves D clock b (.message v sender content)
        { b with participant := (b.participant.handleMessage D clock v sender content).participant }
  | operation (op : Op) :
      Moves D clock b (.operation op)
        { b with participant.node :=
            { b.participant.node with coordinator := b.participant.node.coordinator.step clock op } }

theorem moves_step (D : Decoding) (clock : Nat → Time) (b : Bootstrap) (e : BootstrapEvent) :
    Moves D clock b e (b.step D clock e) := by
  cases e with
  | advance =>
    simp only [step]
    split
    · next h => exact .exhausted h
    · next h =>
      split
      · next hp => exact .skipped h hp
      · next hp => exact .registered h hp
    · exact .idle
  | send ok =>
    simp only [step]
    split
    · next h =>
      cases ok with
      | true => exact .sent h
      | false => exact .unsent h
    · exact .idle
  | wake =>
    simp only [step]
    split
    · next h =>
      split
      · next hset => exact .woken h hset
      · exact .idle
    · exact .idle
  | timeout =>
    simp only [step]
    split
    · next h => exact .timedOut h
    · exact .idle
  | check =>
    simp only [step]
    split
    · next h => exact .checked h
    · exact .idle
  | pop =>
    simp only [step]
    split
    · next h => exact .popped h
    · exact .idle
  | message v sender content => exact .message v sender content
  | operation op => exact .operation op

variable (D clock) in
theorem run_snoc (es : List BootstrapEvent) (e : BootstrapEvent) :
    s.run D clock (es ++ [e]) = (s.run D clock es).step D clock e := by
  simp [run]

variable (D clock) in
theorem run_append (es es' : List BootstrapEvent) :
    s.run D clock (es ++ es') = (s.run D clock es).run D clock es' := List.foldl_append

/-! ## What a run goes through -/

section

variable (D clock s)

/-- The entry is being tried. -/
def Begun (es : List BootstrapEvent) (peer : String) (rest : List String) : Prop :=
  ∃ es₁ es₂, es = es₁ ++ .advance :: es₂ ∧ (s.run D clock es₁).phase = .next (peer :: rest)

/-- Since the entry is being tried, a response under the same address has
been handled. -/
def Answered (es : List BootstrapEvent) (peer : String) (rest : List String) : Prop :=
  ∃ es₁ es₂ v content es₃, es = es₁ ++ .advance :: es₂ ++ .message v peer content :: es₃ ∧
    (s.run D clock es₁).phase = .next (peer :: rest) ∧
    Responds D clock v (s.run D clock (es₁ ++ .advance :: es₂)).participant peer content

/-- The thread, woken, has seen an active member after such a response. -/
def Joined (es : List BootstrapEvent) : Prop :=
  ∃ es₁ es₂ peer rest, es = es₁ ++ .check :: es₂ ∧ (s.run D clock es₁).phase = .woken peer rest ∧
    Answered D clock s es₁ peer rest ∧ anyActive (s.run D clock es₁).participant = true

/-- What holds after a run. -/
structure Inv (es : List BootstrapEvent) : Prop where
  absent : ∀ q, (∀ r, (s.run D clock es).phase.attempt ≠ some (q, r)) →
    (s.run D clock es).participant.pendingJoins.get? q = none
  present : ∀ q r, (s.run D clock es).phase.attempt = some (q, r) →
    ((s.run D clock es).participant.pendingJoins.get? q).isSome = true ∧ Begun D clock s es q r
  answered : ∀ q r, (s.run D clock es).phase.attempt = some (q, r) →
    (s.run D clock es).participant.pendingJoins.get? q = some true → Answered D clock s es q r
  woken : ∀ q r, (s.run D clock es).phase = .woken q r →
    (s.run D clock es).participant.pendingJoins.get? q = some true
  joined : (∃ q r, (s.run D clock es).phase = .leaving q r true) ∨ (s.run D clock es).phase = .returned true →
    Joined D clock s es

end

theorem Begun.snoc (h : Begun D clock s es peer rest) (e : BootstrapEvent) : Begun D clock s (es ++ [e]) peer rest := by
  obtain ⟨es₁, es₂, rfl, hphase⟩ := h
  exact ⟨es₁, es₂ ++ [e], by simp, hphase⟩

theorem Answered.snoc (h : Answered D clock s es peer rest) (e : BootstrapEvent) :
    Answered D clock s (es ++ [e]) peer rest := by
  obtain ⟨es₁, es₂, v, content, es₃, rfl, hphase, hresp⟩ := h
  exact ⟨es₁, es₂, v, content, es₃ ++ [e], by simp, hphase, hresp⟩

theorem Joined.snoc (h : Joined D clock s es) (e : BootstrapEvent) : Joined D clock s (es ++ [e]) := by
  obtain ⟨es₁, es₂, peer, rest, rfl, hrest⟩ := h
  exact ⟨es₁, es₂ ++ [e], peer, rest, by simp, hrest⟩

/-- A step that keeps the table and the entry that is tried. -/
theorem Inv.keep (h : Inv D clock s es) (hrun : s.run D clock (es ++ [e]) = b')
    (htable : b'.participant.pendingJoins = (s.run D clock es).participant.pendingJoins)
    (hattempt : b'.phase.attempt = (s.run D clock es).phase.attempt)
    (hwoken : ∀ q r, b'.phase = .woken q r → (s.run D clock es).participant.pendingJoins.get? q = some true)
    (hjoined : (∃ q r, b'.phase = .leaving q r true) ∨ b'.phase = .returned true → Joined D clock s (es ++ [e])) :
    Inv D clock s (es ++ [e]) := by
  refine ⟨fun q hq => ?_, fun q r hq => ?_, fun q r hq hset => ?_, fun q r hq => ?_, fun hj => ?_⟩
  · rw [hrun, hattempt] at hq
    rw [hrun, htable]
    exact h.absent q hq
  · rw [hrun, hattempt] at hq
    rw [hrun, htable]
    exact ⟨(h.present q r hq).1, (h.present q r hq).2.snoc e⟩
  · rw [hrun, hattempt] at hq
    rw [hrun, htable] at hset
    exact (h.answered q r hq hset).snoc e
  · rw [hrun] at hq ⊢
    rw [htable]
    exact hwoken q r hq
  · rw [hrun] at hj
    exact hjoined hj

theorem Inv.step (h : Inv D clock s es) (e : BootstrapEvent) : Inv D clock s (es ++ [e]) := by
  have hmoves := moves_step D clock (s.run D clock es) e
  have hrun := run_snoc D clock (s := s) es e
  have hsnoc : ∀ {b' : Bootstrap}, (∃ q r, b'.phase = .leaving q r true) ∨ b'.phase = .returned true →
      b'.phase = (s.run D clock es).phase → Joined D clock s (es ++ [e]) := by
    intro b' hj heq
    rw [heq] at hj
    exact (h.joined hj).snoc e
  generalize hb' : (s.run D clock es).step D clock e = b' at hmoves hrun
  cases hmoves with
  | idle => exact h.keep hrun rfl rfl h.woken fun hj => hsnoc hj rfl
  | exhausted hp => exact h.keep hrun rfl (by rw [hp]; rfl) nofun (by simp)
  | skipped hp hn => exact h.keep hrun rfl (by rw [hp]; rfl) nofun (by simp)
  | sent hp => exact h.keep hrun rfl (by rw [hp]; rfl) nofun (by simp)
  | unsent hp => exact h.keep hrun rfl (by rw [hp]; rfl) nofun (by simp)
  | timedOut hp => exact h.keep hrun rfl (by rw [hp]; rfl) nofun (by simp)
  | woken hp hset =>
    refine h.keep hrun rfl (by rw [hp]; rfl) (fun q r hq => ?_) (by simp)
    cases hq
    exact hset
  | @checked peer rest hp =>
    refine h.keep hrun rfl (by rw [hp]; rfl) nofun fun hj => ?_
    -- the wait was woken by a response under the entry that is tried
    have hactive : anyActive (s.run D clock es).participant = true := by simpa using hj
    have hset := h.woken peer rest hp
    exact ⟨es, [], peer, rest, rfl, hp, h.answered peer rest (by rw [hp]; rfl) hset, hactive⟩
  | operation op => exact h.keep hrun rfl rfl h.woken fun hj => hsnoc hj rfl
  | @popped peer rest joined hp =>
    have hnone : ∀ q r, (if joined then Phase.returned true else .next rest).attempt ≠ some (q, r) := by
      cases joined <;> nofun
    refine ⟨fun q _ => ?_, fun q r hq => ?_, fun q r hq => ?_, fun q r hq => ?_, fun hj => ?_⟩
    · rw [hrun]
      simp only [unregister, Dict.get?_erase]
      split
      · rfl
      · next hne =>
        refine h.absent q fun r hr => hne ?_
        rw [hp] at hr
        cases hr
        rfl
    · rw [hrun] at hq
      exact absurd hq (hnone q r)
    · rw [hrun] at hq
      exact absurd hq (hnone q r)
    · rw [hrun] at hq
      cases joined <;> cases hq
    · rw [hrun] at hj
      cases joined with
      | true => exact (h.joined (.inl ⟨peer, rest, hp⟩)).snoc _
      | false => simp at hj
  | @registered peer address rest hp hs =>
    have hempty (q : String) : (s.run D clock es).participant.pendingJoins.get? q = none :=
      h.absent q fun r hr => by rw [hp] at hr; cases hr
    refine ⟨fun q hq => ?_, fun q r hq => ?_, fun q r hq hset => ?_, fun q r hq => ?_, fun hj => ?_⟩
    · rw [hrun] at hq ⊢
      have hne : q ≠ peer := fun heq => hq rest (by rw [heq]; rfl)
      simp only [register, Dict.get?_set_of_ne _ _ hne, hempty]
    · rw [hrun] at hq ⊢
      cases hq
      exact ⟨by simp [register], es, [], rfl, hp⟩
    · rw [hrun] at hq hset
      cases hq
      simp [register] at hset
    · rw [hrun] at hq
      cases hq
    · rw [hrun] at hj
      simp at hj
  | message v sender content =>
    have htable := pendingJoins_handleMessage D clock v (s.run D clock es).participant sender content
    rcases htable with hsame | ⟨hthere, hset, hresp⟩
    · exact h.keep hrun hsame rfl h.woken fun hj => hsnoc hj rfl
    · have hget (q : String) : (s.run D clock (es ++ [.message v sender content])).participant.pendingJoins.get? q =
          if q = sender then some true else (s.run D clock es).participant.pendingJoins.get? q := by
        rw [hrun, hset, Dict.get?_set]
      refine ⟨fun q hq => ?_, fun q r hq => ?_, fun q r hq htrue => ?_, fun q r hq => ?_, fun hj => ?_⟩
      · rw [hrun] at hq
        have hnone := h.absent q hq
        rw [hget, hnone, if_neg]
        rintro rfl
        rw [hnone] at hthere
        cases hthere
      · rw [hrun] at hq
        obtain ⟨hsome, hbegun⟩ := h.present q r hq
        refine ⟨?_, hbegun.snoc _⟩
        rw [hget]
        split
        · rfl
        · exact hsome
      · rw [hrun] at hq
        rw [hget] at htrue
        by_cases heq : q = sender
        · subst heq
          obtain ⟨es₁, es₂, rfl, hphase⟩ := (h.present q r hq).2
          exact ⟨es₁, es₂, v, content, [], rfl, hphase, hresp⟩
        · rw [if_neg heq] at htrue
          exact (h.answered q r hq htrue).snoc _
      · rw [hrun] at hq
        rw [hget]
        split
        · rfl
        · exact h.woken q r hq
      · rw [hrun] at hj
        exact (h.joined hj).snoc _

/-- A step asks the next one, or passes it over. -/
theorem toAsk_step (D : Decoding) (clock : Nat → Time) (b : Bootstrap) (e : BootstrapEvent) :
    ((b.step D clock e).requested ++ (b.step D clock e).phase.toAsk).Sublist (b.requested ++ b.phase.toAsk) := by
  have hmoves := moves_step D clock b e
  generalize b.step D clock e = b' at hmoves
  cases hmoves with
  | idle | message | operation => exact List.Sublist.refl _
  | exhausted h => exact List.Sublist.append_left (List.nil_sublist _) _
  | skipped h hp =>
    simp only [h, Phase.toAsk, List.filterMap_cons_none hp]
    exact List.Sublist.refl _
  | registered h hp =>
    simp only [h, Phase.toAsk, List.filterMap_cons_some hp]
    exact List.Sublist.refl _
  | sent h =>
    simp only [h, Phase.toAsk, List.append_assoc, List.singleton_append]
    exact List.Sublist.refl _
  | unsent h =>
    simp only [h, Phase.toAsk]
    exact List.Sublist.append_left (List.sublist_cons_self _ _) _
  | woken h | timedOut h | checked h =>
    simp only [h, Phase.toAsk]
    exact List.Sublist.refl _
  | @popped peer rest joined h =>
    cases joined with
    | true =>
      simp only [h, Phase.toAsk, if_true]
      exact List.Sublist.append_left (List.nil_sublist _) _
    | false =>
      simp only [h, Phase.toAsk]
      exact List.Sublist.refl _

/-! ## Whole runs -/

variable {peers : List String} {joined : Bool}

/-- A bootstrap with peers to try begins with the first, or fails at once. -/
theorem attempt_phase {v : Verdict} {address displayName : String} {publicKey : Option Bytes} (hpeers : peers ≠ [])
    (hs : attempt clock v p address displayName publicKey peers = .ok s) :
    s.participant = p ∧ s.requested = [] ∧ (s.phase = .next peers ∨ s.phase = .returned false) := by
  rw [attempt, if_neg (by simpa using hpeers)] at hs
  split at hs
  · cases hs
    exact ⟨rfl, rfl, .inl rfl⟩
  · cases hs
    exact ⟨rfl, rfl, .inr rfl⟩

variable (D clock) in
theorem inv_run (hphase : s.phase = .next peers ∨ s.phase = .returned false)
    (htable : s.participant.pendingJoins = Dict.empty)
    (es : List BootstrapEvent) : Inv D clock s es := by
  induction es using List.reverseRecOn with
  | nil =>
    refine ⟨fun q _ => by simp [run, htable], fun q r hq => ?_, fun q r hq => ?_, fun q r hq => ?_, fun hj => ?_⟩
    · rcases hphase with h | h <;> simp [run, h, Phase.attempt] at hq
    · rcases hphase with h | h <;> simp [run, h, Phase.attempt] at hq
    · rcases hphase with h | h <;> simp [run, h] at hq
    · rcases hphase with h | h <;> simp [run, h] at hj
  | append_singleton es e ih => exact ih.step e

variable (D clock) in
/-- Once it has seen an active member, it returns true. -/
theorem decided_run (hphase : (∃ q r, s.phase = .leaving q r true) ∨ s.phase = .returned true)
    (es : List BootstrapEvent) :
    (∃ q r, (s.run D clock es).phase = .leaving q r true) ∨ (s.run D clock es).phase = .returned true := by
  induction es using List.reverseRecOn with
  | nil => exact hphase
  | append_singleton es e ih =>
    rw [run_snoc]
    have hmoves := moves_step D clock (s.run D clock es) e
    generalize (s.run D clock es).step D clock e = b' at hmoves
    cases hmoves with
    | idle | message | operation => exact ih
    | popped h =>
      rw [h] at ih
      simp only [Phase.leaving.injEq, reduceCtorEq, or_false] at ih
      obtain ⟨-, -, -, -, rfl⟩ := ih
      exact .inr rfl
    | exhausted h | skipped h | registered h | sent h | unsent h | woken h | timedOut h | checked h =>
      rw [h] at ih
      simp at ih

variable (D clock) in
theorem toAsk_run (es : List BootstrapEvent) : ((s.run D clock es).requested ++ (s.run D clock es).phase.toAsk).Sublist
    (s.requested ++ s.phase.toAsk) := by
  induction es using List.reverseRecOn with
  | nil => exact List.Sublist.refl _
  | append_singleton es e ih =>
    rw [run_snoc]
    exact (toAsk_step D clock _ e).trans ih

variable (D clock) in
/-- Where the thread stands, one of its steps is possible; and no step of the
event loop moves it. -/
theorem fuel_step (b : Bootstrap) :
    (∀ e, e.isThread = false → (b.step D clock e).phase = b.phase) ∧
      ((∃ joined, b.phase = .returned joined) ∨ ∃ e, e.isThread = true ∧
        (b.step D clock e).phase.fuel < b.phase.fuel) := by
  constructor
  · intro e he
    cases e with
    | message | operation => rfl
    | _ => cases he
  · cases hphase : b.phase with
    | returned joined => exact .inl ⟨joined, rfl⟩
    | next rest =>
      refine .inr ⟨.advance, rfl, ?_⟩
      cases rest with
      | nil => simp [step, hphase, Phase.fuel]
      | cons peer rest =>
        cases hp : bootstrapPeer peer with
        | none =>
          simp only [step, hphase, hp, Phase.fuel, List.length_cons]
          omega
        | some address =>
          simp only [step, hphase, hp, Phase.fuel, List.length_cons]
          omega
    | registered peer address rest => exact .inr ⟨.send false, rfl, by simp [step, hphase, Phase.fuel]⟩
    | waiting peer rest => exact .inr ⟨.timeout, rfl, by simp [step, hphase, Phase.fuel]⟩
    | woken peer rest => exact .inr ⟨.check, rfl, by simp [step, hphase, Phase.fuel]⟩
    | leaving peer rest joined =>
      refine .inr ⟨.pop, rfl, ?_⟩
      cases joined <;> simp [step, hphase, Phase.fuel]

variable (D clock) in
/-- A step of the thread that moves it uses up what is left. -/
theorem fuel_lt_of_moved (b : Bootstrap) (e : BootstrapEvent) :
    (b.step D clock e).phase = b.phase ∨ (b.step D clock e).phase.fuel < b.phase.fuel := by
  have hmoves := moves_step D clock b e
  generalize b.step D clock e = b' at hmoves
  cases hmoves with
  | idle | message | operation => exact .inl rfl
  | popped h =>
    right
    rw [h]
    split <;> simp [Phase.fuel]
  | exhausted h | skipped h | registered h | sent h | unsent h | woken h | timedOut h | checked h =>
    right
    rw [h]
    simp only [Phase.fuel, List.length_cons]
    omega

/-- The steps of a run that move the thread. -/
def moved (D : Decoding) (clock : Nat → Time) : Bootstrap → List BootstrapEvent → Nat
  | _, [] => 0
  | b, e :: es => moved D clock (b.step D clock e) es + if (b.step D clock e).phase = b.phase then 0 else 1

variable (D clock) in
theorem moved_le (b : Bootstrap) (es : List BootstrapEvent) :
    moved D clock b es + (b.run D clock es).phase.fuel ≤ b.phase.fuel := by
  induction es generalizing b with
  | nil => simp [moved, run]
  | cons e es ih =>
    have htail := ih (b.step D clock e)
    have hrun : b.run D clock (e :: es) = (b.step D clock e).run D clock es := rfl
    rw [hrun, moved]
    rcases fuel_lt_of_moved D clock b e with heq | hlt
    · rw [if_pos heq]
      rw [heq] at htail
      omega
    · rw [if_neg fun heq => by rw [heq] at hlt; omega]
      omega

/-- **A bootstrap ends**: whatever is done beside it, its thread moves five
times an entry and once more at most, and until it has returned some step of
it is possible. -/
theorem bootstrap_ends (peers : List String) (hphase : s.phase = .next peers) (es : List BootstrapEvent) :
    moved D clock s es ≤ 5 * peers.length + 1 ∧
      ((∃ joined, (s.run D clock es).phase = .returned joined) ∨ ∃ e, e.isThread = true ∧
        (s.run D clock (es ++ [e])).phase.fuel < (s.run D clock es).phase.fuel) := by
  have hle := moved_le D clock s es
  rw [hphase] at hle
  refine ⟨by simp only [Phase.fuel] at hle; omega, ?_⟩
  simp only [run_snoc]
  exact (fuel_step D clock _).2

/-- A node that knows an address of its seed which the seed does not use. -/
def newcomer : Bootstrap :=
  ⟨⟨⟨.new ⟨"room", some "a:1", 1⟩ Dict.empty, []⟩, true, Dict.empty⟩, .next ["localhost:1", "s", "s:1"], []⟩

/-- The first answer comes under another address and the wait times out; the
next one is a rejection, which wakes the thread. -/
def turnedAway : List BootstrapEvent :=
  let rejection := "\x7b\"type\": \"discovery_join_response\", \"payload\": \x7b\"accepted\": false\x7d\x7d"
  [.advance, .send true, .message .accepts "s:1" rejection, .wake, .timeout, .pop, .advance, .advance, .send true,
    .message .accepts "s:1" rejection, .wake, .check, .pop, .advance]

theorem bootstrap_ends_turnedAway : moved Decoding.plain (fun _ => 0) newcomer turnedAway ≤ 5 * 3 + 1 :=
  (bootstrap_ends ["localhost:1", "s", "s:1"] rfl turnedAway).1

end Bootstrap

end PeerChat.Membership
