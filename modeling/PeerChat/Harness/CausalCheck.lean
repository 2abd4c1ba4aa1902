/-
The causal check of the harness (`check_peer_log` of
`harness/causal_check.py`) against the log it is given (`PeerRuntime` of
`deploy/peer_node.py`, without history).

The node merges a whole batch into its clock before it hands the messages
over one by one, and `reset` may come between any two of them. The runtime
keeps a clock of its own, which is behind the node's by what is still to be
handed over (`Recorded`); the checker replays to the same clock.
`no_false_alarm`: it finds nothing, wherever the log was reset.
-/
import PeerChat.Distribution.BroadcastNode
import Mathlib.Data.Finset.Card

namespace PeerChat.Harness

open Lib BroadcastNode

/-- `short_key`. -/
def shortKey (address : String) : String := String.ofList (address.toList.takeWhile (· ≠ '.'))

/-- `short_vc`. -/
def shortVc (vc : VectorClock) : VectorClock := vc.items.foldl (fun d p => d.set (shortKey p.1) p.2) Dict.empty

/-- One delivery of the log. -/
structure Record where
  seq : Nat
  id : String
  sender : String
  vc : VectorClock
  tsRecv : Time
  tsSend : Time
  deriving DecidableEq, Repr

/-! ## The checker -/

/-- The kinds of a violation. -/
inductive Kind
  | senderGap
  | senderRegress
  | missingDependency
  deriving DecidableEq, Repr

/-- A violation; `held` is what `held_ms` is computed from. -/
structure Violation where
  pod : String
  seq : Nat
  id : String
  sender : String
  kind : Kind
  detail : String
  held : Time
  deriving DecidableEq, Repr

/-- The locals of `check_peer_log`. -/
structure Replay where
  delivered : VectorClock
  violations : List Violation
  seenIds : Finset String
  duplicates : Nat

/-- `delivered[node]` on a `defaultdict`, which enters a missing node. -/
def touch (delivered : VectorClock) (node : String) : VectorClock := delivered.set node (delivered.getD node 0)

/-- The first rule: the next message of its sender. -/
def senderViolation (pod : String) (delivered : VectorClock) (record : Record) : List Violation :=
  let expected := delivered.getD record.sender 0 + 1
  let got := record.vc.getD record.sender 0
  if got ≠ expected then
    [{ pod, seq := record.seq, id := record.id, sender := record.sender
       kind := if got > expected then .senderGap else .senderRegress
       detail := "V[" ++ record.sender ++ "]=" ++ toString got ++ ", expected " ++ toString expected
       held := record.tsRecv - record.tsSend }]
  else []

/-- The second rule for one entry of the clock. -/
def dependencyViolation (pod : String) (delivered : VectorClock) (record : Record) (p : String × Int) :
    List Violation :=
  if p.2 > delivered.getD p.1 0 then
    [{ pod, seq := record.seq, id := record.id, sender := record.sender, kind := .missingDependency
       detail := "needs " ++ p.1 ++ "<=" ++ toString p.2 ++ " but only " ++ toString (delivered.getD p.1 0) ++
         " delivered from " ++ p.1
       held := record.tsRecv - record.tsSend }]
  else []

/-- The loop of the second rule. -/
def dependencyLoop (pod : String) (record : Record) : List (String × Int) → VectorClock → List Violation →
    VectorClock × List Violation
  | [], delivered, found => (delivered, found)
  | p :: items, delivered, found =>
    if p.1 = record.sender then dependencyLoop pod record items delivered found
    else
      dependencyLoop pod record items (touch delivered p.1) (found ++ dependencyViolation pod delivered record p)

/-- The loop that advances the clock. -/
def advance (delivered : VectorClock) (items : List (String × Int)) : VectorClock :=
  items.foldl (fun d p => if p.2 > d.getD p.1 0 then (touch d p.1).set p.1 p.2 else touch d p.1) delivered

/-- The body of the loop of `check_peer_log`. -/
def checkRecord (pod : String) (r : Replay) (record : Record) : Replay :=
  let first := senderViolation pod r.delivered record
  let (delivered, rest) := dependencyLoop pod record record.vc.items (touch r.delivered record.sender) []
  { delivered := advance delivered record.vc.items
    violations := r.violations ++ first ++ rest
    seenIds := insert record.id r.seenIds
    duplicates := if record.id ∈ r.seenIds then r.duplicates + 1 else r.duplicates }

/-- What `check_peer_log` reports. -/
structure Report where
  pod : String
  delivered : Nat
  unique : Nat
  duplicates : Nat
  violations : List Violation
  finalClock : VectorClock

/-- The loop of `check_peer_log`. -/
def replay (pod : String) (deliveries : List Record) (baseline : VectorClock) : Replay :=
  deliveries.foldl (checkRecord pod) ⟨baseline, [], ∅, 0⟩

/-- `check_peer_log`. -/
def checkPeerLog (pod : String) (deliveries : List Record) (baseline : VectorClock) : Report :=
  let r := replay pod deliveries baseline
  ⟨pod, deliveries.length, r.seenIds.card, r.duplicates, r.violations, r.delivered⟩

/-! ## The runtime -/

/-- `PeerRuntime`, with the messages that its node has still to hand over. -/
structure Runtime where
  node : BroadcastNode
  pending : List Message
  deliveries : List Record
  baselineVc : VectorClock
  deliveredVc : VectorClock

namespace Runtime

/-- A runtime that has just been constructed. -/
def new (address : String) (timeout : Time) : Runtime := ⟨.new address timeout, [], [], Dict.empty, Dict.empty⟩

/-- The clock of what was delivered, with one message more. -/
def raise (deliveredVc vc : VectorClock) : VectorClock :=
  vc.items.foldl (fun d p => if p.2 > d.getD p.1 0 then d.set p.1 p.2 else d) deliveredVc

/-- `_on_message`. -/
def onMessage (rt : Runtime) (now : Time) (m : Message) : Runtime :=
  let vc := shortVc m.vectorClock
  { rt with
    deliveredVc := raise rt.deliveredVc vc
    deliveries := rt.deliveries ++ [⟨rt.deliveries.length, m.id, shortKey m.sender, vc, now, m.timestamp⟩] }

/-- `reset`. -/
def reset (rt : Runtime) : Runtime := { rt with deliveries := [], baselineVc := rt.deliveredVc }

/-- What happens: a call of the node, which hands over the released messages
one after the other before the next call, and resets at any time. -/
inductive Event
  | doBroadcast (env : NodeEnv) (m : Message)
  | receive (env : NodeEnv) (addedAt now : Time) (m : Message)
  | holdbackDrain (now : Time)
  | callback (now : Time)
  | reset

/-- One event; a call waits until nothing is pending. -/
def step (rt : Runtime) : Event → Runtime
  | .doBroadcast env m =>
    if rt.pending.isEmpty then
      let (n, eff, _) := rt.node.doBroadcast env m
      { rt with node := n, pending := eff.handed }
    else rt
  | .receive env addedAt now m =>
    if rt.pending.isEmpty then
      let (n, eff, _) := rt.node.receive env addedAt now m
      { rt with node := n, pending := eff.handed }
    else rt
  | .holdbackDrain now =>
    if rt.pending.isEmpty then
      let (n, eff) := rt.node.holdbackDrain now
      { rt with node := n, pending := eff.handed }
    else rt
  | .callback now =>
    match rt.pending with
    | [] => rt
    | m :: ms => { rt with pending := ms }.onMessage now m
  | .reset => rt.reset

/-- A run. -/
def run (rt : Runtime) (es : List Event) : Runtime := es.foldl step rt

end Runtime

/-! ## Short names -/

section Short

variable {S : Set String} {vc : VectorClock}

/-- Where the addresses have distinct short names, a short clock has the
entries of the clock. -/
theorem get?_shortVc (hS : Set.InjOn shortKey S) (hk : ∀ k ∈ vc.keys, k ∈ S) {a : String} (ha : a ∈ S) :
    Dict.get? (shortVc vc) (shortKey a) = Dict.get? vc a := by
  have hl : ∀ p ∈ vc.items, p.1 ∈ S := fun p hp => hk p.1 (List.mem_map_of_mem hp)
  rw [shortVc, Dict.get?_foldl_set_map hS ha _ vc.nodup hl]
  change _ = vc.items.lookup a
  cases vc.items.lookup a <;> rfl

theorem count_shortVc (hS : Set.InjOn shortKey S) (hk : ∀ k ∈ vc.keys, k ∈ S) {a : String} (ha : a ∈ S) :
    (shortVc vc).count (shortKey a) = vc.count a := by
  rw [VectorClock.count, Dict.getD, get?_shortVc hS hk ha]
  rfl

theorem mem_shortVc {p : String × Int} (hp : p ∈ (shortVc vc).items) :
    ∃ a ∈ vc.keys, p.1 = shortKey a ∧ Dict.get? vc a = some p.2 := by
  obtain ⟨k, n⟩ := p
  rcases Dict.get?_of_foldl_set_map shortKey ((Dict.mem_items_iff _).1 hp) with h | ⟨a, ha, hk⟩
  · cases h
  · exact ⟨a, List.mem_map_of_mem ha, hk, (Dict.mem_items_iff _).1 ha⟩

end Short

/-! ## Clocks that take the larger count -/

/-- A loop body that takes the larger count at one node. -/
def Raises (f : VectorClock → String × Int → VectorClock) : Prop :=
  ∀ d p t, (f d p).count t = if t = p.1 then max (d.count t) p.2 else d.count t

theorem Raises.foldl {f g : VectorClock → String × Int → VectorClock} (hf : Raises f) (hg : Raises g) :
    ∀ (items : List (String × Int)) {d d' : VectorClock}, (∀ t, d.count t = d'.count t) → ∀ t,
    (items.foldl f d).count t = (items.foldl g d').count t
  | [], _, _, h => h
  | p :: items, d, d', h => by
    refine Raises.foldl hf hg items fun t => ?_
    rw [hf, hg, h]

@[simp] theorem count_touch (d : VectorClock) (a t : String) : (touch d a).count t = d.count t := by
  unfold touch VectorClock.count
  rw [Dict.getD_set]
  split
  · next h => rw [h]
  · rfl

theorem count_set (d : VectorClock) (a t : String) (n : Int) :
    VectorClock.count (d.set a n) t = if t = a then n else d.count t :=
  Dict.getD_set d a t n 0

theorem raises_merge : Raises fun d p => d.set p.1 (max ((d.get? p.1).getD 0) p.2) := by
  intro d p t
  rw [count_set]
  split
  · next h => rw [h]; rfl
  · rfl

theorem raises_raise : Raises fun d p => if p.2 > d.getD p.1 0 then d.set p.1 p.2 else d := by
  intro d p t
  change (if p.2 > d.count p.1 then d.set p.1 p.2 else d : VectorClock).count t = _
  split
  · next h =>
    rw [count_set]
    split
    · next ht => rw [ht, max_eq_right h.le]
    · rfl
  · next h =>
    split
    · next ht => rw [ht, max_eq_left (not_lt.1 h)]
    · rfl

theorem raises_advance :
    Raises fun d p => if p.2 > d.getD p.1 0 then (touch d p.1).set p.1 p.2 else touch d p.1 := by
  intro d p t
  change (if p.2 > d.count p.1 then (touch d p.1).set p.1 p.2 else touch d p.1 : VectorClock).count t = _
  split
  · next h =>
    rw [count_set, count_touch]
    split
    · next ht => rw [ht, max_eq_right h.le]
    · rfl
  · next h =>
    rw [count_touch]
    split
    · next ht => rw [ht, max_eq_left (not_lt.1 h)]
    · rfl

/-- The clock of the runtime and the one of the checker stay the same. -/
theorem count_advance {d d' : VectorClock} (h : ∀ t, d.count t = d'.count t) (vc : VectorClock) (t : String) :
    (advance d vc.items).count t = (Runtime.raise d' vc).count t :=
  raises_advance.foldl raises_raise vc.items h t

theorem count_raise (d vc : VectorClock) (t : String) : (Runtime.raise d vc).count t = (d.merge vc).count t :=
  raises_raise.foldl raises_merge vc.items (fun _ => rfl) t

/-! ## One record -/

theorem dependencyLoop_quiet (pod : String) (record : Record) : ∀ (items : List (String × Int)) {d : VectorClock},
    (∀ p ∈ items, p.1 ≠ record.sender → p.2 ≤ d.count p.1) →
    (dependencyLoop pod record items d []).2 = [] ∧
      ∀ t, (dependencyLoop pod record items d []).1.count t = d.count t
  | [], _, _ => ⟨rfl, fun _ => rfl⟩
  | p :: items, d, h => by
    simp only [dependencyLoop]
    split
    · exact dependencyLoop_quiet pod record items fun q hq => h q (by simp [hq])
    · next hp =>
      have hle : p.2 ≤ d.getD p.1 0 := h p (by simp) hp
      have hnone : dependencyViolation pod d record p = [] := by
        simp [dependencyViolation, not_lt.2 hle]
      rw [hnone, List.append_nil]
      have ih := dependencyLoop_quiet pod record items (d := touch d p.1) fun q hq hne => by
        rw [count_touch]
        exact h q (by simp [hq]) hne
      exact ⟨ih.1, fun t => by rw [ih.2 t, count_touch]⟩

/-- A record that is next and whose dependencies are met is passed. -/
theorem checkRecord_quiet (pod : String) {r : Replay} {record : Record}
    (hnext : record.vc.count record.sender = r.delivered.count record.sender + 1)
    (hmet : ∀ p ∈ record.vc.items, p.1 ≠ record.sender → p.2 ≤ r.delivered.count p.1)
    (hid : record.id ∉ r.seenIds) :
    (checkRecord pod r record).violations = r.violations ∧ (checkRecord pod r record).duplicates = r.duplicates ∧
      ∀ t, (checkRecord pod r record).delivered.count t = (Runtime.raise r.delivered record.vc).count t := by
  have hfirst : senderViolation pod r.delivered record = [] := by
    have : record.vc.getD record.sender 0 = r.delivered.getD record.sender 0 + 1 := hnext
    simp [senderViolation, this]
  obtain ⟨hrest, hcount⟩ := dependencyLoop_quiet pod record record.vc.items
    (d := touch r.delivered record.sender) fun p hp hne => by
      rw [count_touch]
      exact hmet p hp hne
  refine ⟨?_, ?_, fun t => ?_⟩
  · simp [checkRecord, hfirst, hrest]
  · simp [checkRecord, hid]
  · refine count_advance (fun t => ?_) record.vc t
    rw [hcount, count_touch]

/-! ## The runtime and its node -/

/-- A message as a node stamps it, with addresses of `S` alone. -/
structure Addressed (S : Set String) (m : Message) : Prop where
  stamped : m.vectorClock.items.isEmpty = false
  sender : m.sender ∈ S
  keys : ∀ k ∈ m.vectorClock.keys, k ∈ S

theorem Addressed.same {S : Set String} {h m : Message} (hm : Addressed S m) (hs : SameMessage h m) :
    Addressed S h :=
  ⟨hs.vectorClock ▸ hm.stamped, hs.sender ▸ hm.sender, hs.vectorClock ▸ hm.keys⟩

theorem keys_merge {S : Set String} {vc other : VectorClock} (h : ∀ k ∈ vc.keys, k ∈ S)
    (ho : ∀ k ∈ other.keys, k ∈ S) : ∀ k ∈ (vc.merge other).keys, k ∈ S := by
  intro k hk
  obtain ⟨n, hn⟩ := (Dict.mem_keys_iff _).1 hk
  rw [VectorClock.merge, Dict.get?_updateWith] at hn
  cases hg : Dict.get? other k with
  | none => exact h k ((Dict.mem_keys_iff _).2 ⟨n, by simpa [hg] using hn⟩)
  | some m => exact ho k ((Dict.mem_keys_iff _).2 ⟨m, hg⟩)

theorem keys_increment {S : Set String} {vc : VectorClock} (h : ∀ k ∈ vc.keys, k ∈ S) {a : String} (ha : a ∈ S) :
    ∀ k ∈ (vc.increment a).keys, k ∈ S := by
  intro k hk
  rw [VectorClock.increment, Dict.keys_set] at hk
  split at hk
  · exact h k hk
  · rcases List.mem_append.1 hk with hk | hk
    · exact h k hk
    · rw [List.mem_singleton.1 hk]
      exact ha

theorem keys_foldl_merge {S : Set String} : ∀ {ms : List Message} {vc : VectorClock}, (∀ k ∈ vc.keys, k ∈ S) →
    (∀ m ∈ ms, Addressed S m) → ∀ k ∈ (ms.foldl (fun c m => c.merge m.vectorClock) vc).keys, k ∈ S
  | [], _, h, _ => h
  | m :: ms, vc, h, hms => by
    have hmerged : ∀ k ∈ (vc.merge m.vectorClock).keys, k ∈ S := keys_merge h (hms m (by simp)).keys
    have hrest : ∀ x ∈ ms, Addressed S x := fun x hx => hms x (by simp [hx])
    rw [List.foldl_cons]
    exact keys_foldl_merge hmerged hrest

/-- Nothing in the queue is past the timeout. -/
def Punctual (n : BroadcastNode) (now : Time) : Prop := ∀ e ∈ n.holdBack.queue, now - e.1 ≤ n.holdBack.timeout

instance (n : BroadcastNode) (now : Time) : Decidable (Punctual n now) :=
  inferInstanceAs (Decidable (∀ e ∈ n.holdBack.queue, now - e.1 ≤ n.holdBack.timeout))

/-- The runtime, with the log of all that was handed over to it: the node's
clock counts what is still pending, `_delivered_vc` does not. -/
structure Recorded (S : Set String) (rt : Runtime) (log : List Message) : Prop where
  causal : Causal Message.sender Message.stamp (log ++ rt.pending)
  tracks : rt.node.vc.Tracks (log ++ rt.pending)
  address : rt.node.address ∈ S
  keys : ∀ k ∈ rt.node.vc.keys, k ∈ S
  addressed : ∀ m ∈ rt.pending ++ rt.node.held, Addressed S m
  deliveredVc : ∀ a ∈ S, rt.deliveredVc.count (shortKey a) = delivered Message.sender log a
  ids : (rt.deliveries.map Record.id ++ (rt.pending ++ rt.node.held).map Message.id).Nodup
  seen : ∀ i ∈ rt.deliveries.map Record.id ++ (rt.pending ++ rt.node.held).map Message.id, i ∈ rt.node.seen

/-- What the checker makes of the log so far. -/
structure Agrees (pod : String) (rt : Runtime) : Prop where
  violations : (replay pod rt.deliveries rt.baselineVc).violations = []
  duplicates : (replay pod rt.deliveries rt.baselineVc).duplicates = 0
  seenIds : ∀ i, i ∈ (replay pod rt.deliveries rt.baselineVc).seenIds ↔ i ∈ rt.deliveries.map Record.id
  clock : ∀ t, (replay pod rt.deliveries rt.baselineVc).delivered.count t = rt.deliveredVc.count t

variable {S : Set String} {rt : Runtime} {log : List Message} {pod : String}

theorem Recorded.new {address : String} (ha : address ∈ S) (timeout : Time) :
    Recorded S (Runtime.new address timeout) [] where
  causal := .nil
  tracks := .nil
  address := ha
  keys := by simp [Runtime.new, BroadcastNode.new, Dict.keys, Dict.empty]
  addressed := by simp [Runtime.new, BroadcastNode.new, BroadcastNode.held]
  deliveredVc := fun _ _ => rfl
  ids := by simp [Runtime.new, BroadcastNode.new, BroadcastNode.held]
  seen := by simp [Runtime.new, BroadcastNode.new, BroadcastNode.held]

/-- An empty log agrees with the clock it starts from. -/
theorem Agrees.nil (h : rt.deliveries = []) (hb : rt.baselineVc = rt.deliveredVc) : Agrees pod rt := by
  constructor <;> simp [h, hb, replay]

/-- A reset may come at any time: the clock it keeps is the one of the
messages handed over so far. -/
theorem Recorded.reset (h : Recorded S rt log) : Recorded S rt.reset log where
  causal := h.causal
  tracks := h.tracks
  address := h.address
  keys := h.keys
  addressed := h.addressed
  deliveredVc := h.deliveredVc
  ids := (List.nodup_append.1 h.ids).2.1
  seen := fun i hi => h.seen i (List.mem_append_right _ hi)

/-! ## A callback -/

section Callback

variable {m : Message} {ms : List Message}

/-- The next message to be handed over is ready for what was handed over. -/
theorem Recorded.ready (h : Recorded S rt log) (hp : rt.pending = m :: ms) :
    Ready Message.sender Message.stamp (delivered Message.sender log) m := by
  have hc := h.causal
  rw [hp] at hc
  exact hc.ready

theorem delivered_onMessage (hS : Set.InjOn shortKey S) (h : Recorded S rt log) (hp : rt.pending = m :: ms)
    (now : Time) : ∀ a ∈ S, (({ rt with pending := ms }.onMessage now m).deliveredVc).count (shortKey a) =
      delivered Message.sender (log ++ [m]) a := by
  intro a ha
  have hm : Addressed S m := h.addressed m (by simp [hp])
  have hready := h.ready hp
  have hd := h.deliveredVc a ha
  have hn : 0 ≤ rt.deliveredVc.count (shortKey a) := by
    rw [hd]
    exact delivered_nonneg _ _ _
  change (Runtime.raise rt.deliveredVc (shortVc m.vectorClock)).count (shortKey a) = _
  rw [count_raise, VectorClock.count_merge_eq hn, hd]
  have hs : (shortVc m.vectorClock).count (shortKey a) = m.stamp a := count_shortVc hS hm.keys ha
  rw [hs, delivered_append, delivered_singleton]
  by_cases hsend : m.sender = a
  · subst hsend
    rw [hready.1, if_pos rfl]
    omega
  · have := hready.2 a (Ne.symm hsend)
    rw [if_neg hsend]
    omega

theorem Recorded.onMessage (h : Recorded S rt log) (hS : Set.InjOn shortKey S) (hp : rt.pending = m :: ms)
    (now : Time) : Recorded S ({ rt with pending := ms }.onMessage now m) (log ++ [m]) where
  causal := by simpa [Runtime.onMessage, hp] using h.causal
  tracks := by simpa [Runtime.onMessage, hp] using h.tracks
  address := h.address
  keys := h.keys
  addressed := fun x hx => h.addressed x (by
    have hx : x ∈ ms ++ rt.node.held := hx
    rw [hp]
    exact List.mem_cons_of_mem _ hx)
  deliveredVc := delivered_onMessage hS h hp now
  ids := by simpa [Runtime.onMessage, hp] using h.ids
  seen := by simpa [Runtime.onMessage, hp] using h.seen

/-- The checker passes the record of a callback. -/
theorem Agrees.onMessage (ha : Agrees pod rt) (hS : Set.InjOn shortKey S) (h : Recorded S rt log)
    (hp : rt.pending = m :: ms) (now : Time) : Agrees pod ({ rt with pending := ms }.onMessage now m) := by
  have hm : Addressed S m := h.addressed m (by simp [hp])
  obtain ⟨hseq, hoth⟩ := h.ready hp
  let r := replay pod rt.deliveries rt.baselineVc
  let record : Record := ⟨rt.deliveries.length, m.id, shortKey m.sender, shortVc m.vectorClock, now, m.timestamp⟩
  have hrun : replay pod (rt.deliveries ++ [record]) rt.baselineVc = checkRecord pod r record := by
    simp [replay, r]
  have hclock : ∀ a ∈ S, r.delivered.count (shortKey a) = delivered Message.sender log a := by
    intro a haS
    rw [ha.clock, h.deliveredVc a haS]
  have hstamp : ∀ a ∈ S, (shortVc m.vectorClock).count (shortKey a) = m.stamp a :=
    fun a haS => count_shortVc hS hm.keys haS
  have hid : record.id ∉ r.seenIds := by
    rw [ha.seenIds]
    have hnd := h.ids
    rw [hp, List.nodup_append] at hnd
    exact fun hin => hnd.2.2 _ hin m.id (by simp) rfl
  have hnext : record.vc.count record.sender = r.delivered.count record.sender + 1 := by
    change (shortVc m.vectorClock).count (shortKey m.sender) = r.delivered.count (shortKey m.sender) + 1
    rw [hstamp _ hm.sender, hclock _ hm.sender, hseq]
  have hmet : ∀ p ∈ record.vc.items, p.1 ≠ record.sender → p.2 ≤ r.delivered.count p.1 := by
    intro p hpm hne
    obtain ⟨a, hak, hpa, hget⟩ := mem_shortVc hpm
    have haS := hm.keys a hak
    have hne' : a ≠ m.sender := fun he => hne (by rw [hpa, he])
    have hst : m.stamp a = p.2 := by simp [Message.stamp, VectorClock.count, Dict.getD, hget]
    rw [hpa, hclock a haS, ← hst]
    exact hoth a hne'
  obtain ⟨hv, hdup, hcount⟩ := checkRecord_quiet pod hnext hmet hid
  constructor
  · change (replay pod (rt.deliveries ++ [record]) rt.baselineVc).violations = []
    rw [hrun, hv, ha.violations]
  · change (replay pod (rt.deliveries ++ [record]) rt.baselineVc).duplicates = 0
    rw [hrun, hdup, ha.duplicates]
  · intro i
    change i ∈ (replay pod (rt.deliveries ++ [record]) rt.baselineVc).seenIds ↔
      i ∈ (rt.deliveries ++ [record]).map Record.id
    rw [hrun, List.map_append, List.mem_append, ← ha.seenIds i]
    simp [checkRecord, r, or_comm]
  · intro t
    change (replay pod (rt.deliveries ++ [record]) rt.baselineVc).delivered.count t =
      (Runtime.raise rt.deliveredVc (shortVc m.vectorClock)).count t
    rw [hrun, hcount]
    exact raises_raise.foldl raises_raise _ ha.clock t

end Callback

/-! ## A call of the node -/

/-- A clock with the log it counts. -/
structure Caught (S : Set String) (vc : VectorClock) (log : List Message) : Prop where
  causal : Causal Message.sender Message.stamp log
  tracks : vc.Tracks log
  keys : ∀ k ∈ vc.keys, k ∈ S

/-- A drain in time extends the log by what it releases. -/
theorem Caught.drain {vc : VectorClock} {q : HoldBackQueue} {now : Time} (h : Caught S vc log)
    (hq : ∀ m ∈ q.queue.map Prod.snd, Addressed S m) (hto : ∀ e ∈ q.queue, now - e.1 ≤ q.timeout) :
    Caught S (q.drain now vc).vc (log ++ (q.drain now vc).released) ∧
      ∀ m ∈ (q.drain now vc).released ++ (q.drain now vc).queue.map Prod.snd, Addressed S m := by
  have hperm := HoldBackQueue.drain_perm q now vc
  have hadd : ∀ m ∈ (q.drain now vc).released ++ (q.drain now vc).queue.map Prod.snd, Addressed S m :=
    fun m hm => hq m (hperm.subset hm)
  have hrel : ∀ m ∈ (q.drain now vc).released, Addressed S m := fun m hm => hadd m (List.mem_append_left _ hm)
  obtain ⟨hc, ht⟩ := (HoldBackQueue.drain_readyRun hto vc).causal (fun m hm => (hrel m hm).stamped) h.tracks h.causal
  rw [← HoldBackQueue.drain_vc] at ht
  refine ⟨⟨hc, ht, ?_⟩, hadd⟩
  rw [HoldBackQueue.drain_vc]
  exact keys_foldl_merge h.keys hrel

/-- Copies of the messages do as well. -/
theorem Caught.append_map {vc : VectorClock} {out : List Message} {f : Message → Message}
    (hf : ∀ m, SameMessage (f m) m) (h : Caught S vc (log ++ out)) : Caught S vc (log ++ out.map f) where
  causal := h.causal.append_map (fun m => (hf m).sender) fun m => (hf m).stamp
  tracks := fun s => by
    rw [h.tracks s, delivered_append, delivered_append, delivered_map fun m => (hf m).sender]
  keys := h.keys

/-- A ready message joins the log, any other one the queue. -/
theorem Caught.accept {n : BroadcastNode} (addedAt now : Time) {m : Message} (h : Caught S n.vc log)
    (hheld : ∀ x ∈ n.held, Addressed S x) (hm : Addressed S m) (hto : Punctual n now)
    (hadded : now - addedAt ≤ n.holdBack.timeout) :
    Caught S (n.accept addedAt now m).1.vc (log ++ (n.accept addedAt now m).2) ∧
      ∀ x ∈ (n.accept addedAt now m).2 ++ (n.accept addedAt now m).1.held, Addressed S x := by
  unfold BroadcastNode.accept
  split
  · next hr =>
    have hready := (VectorClock.isReady_iff h.tracks hm.stamped).1 hr
    have h' : Caught S (n.vc.merge m.vectorClock) (log ++ [m]) :=
      ⟨.snoc h.causal hready, h.tracks.merge hready, keys_merge h.keys hm.keys⟩
    obtain ⟨hc, hadd⟩ := h'.drain hheld hto
    refine ⟨by simpa using hc, fun x hx => ?_⟩
    rcases List.mem_cons.1 hx with rfl | hx
    · exact hm
    · exact hadd x hx
  · refine h.drain (fun x hx => ?_) fun e he => ?_
    · simp only [HoldBackQueue.add, List.map_append, List.mem_append] at hx
      rcases hx with hx | hx
      · exact hheld x hx
      · rw [List.mem_singleton.1 hx]
        exact hm
    · rcases List.mem_append.1 he with he | he
      · exact hto e he
      · rw [List.mem_singleton.1 he]
        exact hadded

theorem Recorded.caught (h : Recorded S rt log) (hp : rt.pending = []) : Caught S rt.node.vc log :=
  ⟨by simpa [hp] using h.causal, by simpa [hp] using h.tracks, h.keys⟩

theorem Recorded.held_addressed (h : Recorded S rt log) : ∀ m ∈ rt.node.held, Addressed S m :=
  fun m hm => h.addressed m (List.mem_append_right _ hm)

/-- A call of the node, which may take in messages under `fresh` ids. -/
theorem Recorded.call {n : BroadcastNode} {out : List Message} (h : Recorded S rt log) (fresh : List String)
    (hp : rt.pending = []) (hc : Caught S n.vc (log ++ out)) (hadd : ∀ m ∈ out ++ n.held, Addressed S m)
    (haddr : n.address = rt.node.address) (hseen : ∀ i, i ∈ fresh ∨ i ∈ rt.node.seen → i ∈ n.seen)
    (hfresh : fresh.Nodup ∧ ∀ i ∈ fresh, i ∉ rt.node.seen)
    (hperm : ((out ++ n.held).map Message.id).Perm (fresh ++ rt.node.held.map Message.id)) :
    Recorded S { rt with node := n, pending := out } log := by
  have hids : (rt.deliveries.map Record.id ++ rt.node.held.map Message.id).Nodup := by simpa [hp] using h.ids
  have hold : ∀ i ∈ rt.deliveries.map Record.id ++ rt.node.held.map Message.id, i ∈ rt.node.seen := by
    simpa [hp] using h.seen
  have hperm' : (rt.deliveries.map Record.id ++ (out ++ n.held).map Message.id).Perm
      (fresh ++ (rt.deliveries.map Record.id ++ rt.node.held.map Message.id)) := by
    refine (hperm.append_left _).trans ?_
    rw [← List.append_assoc, ← List.append_assoc]
    exact List.perm_append_comm.append_right _
  refine ⟨hc.causal, hc.tracks, haddr ▸ h.address, hc.keys, hadd, h.deliveredVc, ?_, fun i hi => ?_⟩
  · refine hperm'.nodup_iff.2 (List.nodup_append.2 ⟨hfresh.1, hids, fun i hi j hj he => ?_⟩)
    exact hfresh.2 i hi (he ▸ hold j hj)
  · rcases List.mem_append.1 (hperm'.subset hi) with hi | hi
    · exact hseen i (.inl hi)
    · exact hseen i (.inr (hold i hi))

/-- A broadcast stamps the message with the clock that counts it. -/
theorem Recorded.doBroadcast (h : Recorded S rt log) (hp : rt.pending = []) (env : NodeEnv) {m : Message}
    (hm : m.sender = rt.node.address) : Recorded S (rt.step (.doBroadcast env m)) log := by
  have hc := h.caught hp
  rcases rt.node.doBroadcast_cases env m with ⟨-, he⟩ | ⟨hnew, -, he⟩ | ⟨hnew, signed, hsign, sent, he, -⟩
  · have hsame : rt.step (.doBroadcast env m) = { rt with node := rt.node, pending := [] } := by
      simp [Runtime.step, hp, he]
    rw [hsame]
    exact h.call [] hp (by simpa using hc) h.held_addressed rfl (by simp) (by simp) (by simp)
  · have hsame : rt.step (.doBroadcast env m) =
        { rt with node := { rt.node with seen := insert m.id rt.node.seen }, pending := [] } := by
      simp [Runtime.step, hp, he]
    rw [hsame]
    -- the id stays seen, but no message bears it
    exact h.call [] hp (by simpa using hc) h.held_addressed rfl (by simp +contextual) (by simp)
      (by simp [BroadcastNode.held])
  · let out := rt.node.stamped signed
    have hsame : rt.step (.doBroadcast env m) = { rt with
        node := { rt.node with seen := insert m.id rt.node.seen, vc := rt.node.vc.increment rt.node.address }
        pending := [out] } := by
      simp [Runtime.step, hp, he, out]
    have hsign' := signOutgoing_same hsign
    have hid : out.id = m.id := by rw [← hsign']; rfl
    have hsender : out.sender = rt.node.address := by
      rw [← hm, ← hsign']
      rfl
    have htr : (rt.node.vc.increment rt.node.address).Tracks (log ++ [out]) := by
      rw [← hsender]
      exact hc.tracks.increment
    have hkeys := keys_increment hc.keys h.address
    have hne : out.vectorClock.items.isEmpty = false := by
      have hmem : (rt.node.address, rt.node.vc.count rt.node.address + 1) ∈ out.vectorClock.items :=
        (Dict.mem_items_iff _).2 (Dict.get?_set_self _ _ _)
      cases hl : out.vectorClock.items with
      | nil => simp [hl] at hmem
      | cons p l => rfl
    have hout : Addressed S out := ⟨hne, hsender ▸ h.address, hkeys⟩
    rw [hsame]
    refine h.call [m.id] hp ⟨.snoc hc.causal (Ready.of_stamp htr), htr, hkeys⟩ (fun x hx => ?_) rfl
      (by simp) (by simpa using hnew) (by simp [hid, out, BroadcastNode.held])
    rcases List.mem_cons.1 hx with rfl | hx
    · exact hout
    · exact h.held_addressed x hx

theorem Recorded.receive (h : Recorded S rt log) (hp : rt.pending = []) (env : NodeEnv) {addedAt now : Time}
    {m : Message} (hm : Addressed S m) (hto : Punctual rt.node now)
    (hadded : now - addedAt ≤ rt.node.holdBack.timeout) :
    Recorded S (rt.step (.receive env addedAt now m)) log := by
  have hc := h.caught hp
  rcases rt.node.receive_cases env addedAt now m with ⟨-, he⟩ | ⟨hnew, n₂, d, hacc, he⟩
  · have hsame : rt.step (.receive env addedAt now m) = { rt with node := rt.node, pending := [] } := by
      simp [Runtime.step, hp, he]
    rw [hsame]
    exact h.call [] hp (by simpa using hc) h.held_addressed rfl (by simp) (by simp) (by simp)
  · let n₁ : BroadcastNode := { rt.node with seen := insert m.id rt.node.seen }
    have hperm := n₁.accept_perm addedAt now m
    have hseen := n₁.accept_seen addedAt now m
    have haddr := n₁.accept_address addedAt now m
    have hcau := Caught.accept (n := n₁) addedAt now hc h.held_addressed hm hto hadded
    rw [hacc] at hperm hseen haddr hcau
    have hsame : rt.step (.receive env addedAt now m) =
        { rt with node := n₂, pending := d.map (messageForUi env n₂) } := by
      simp [Runtime.step, hp, he]
    have hui := messageForUi_same env n₂
    have hids : (d.map (messageForUi env n₂)).map Message.id = d.map Message.id := by
      rw [List.map_map]
      exact List.map_congr_left fun x _ => (hui x).id
    rw [hsame]
    refine h.call [m.id] hp (hcau.1.append_map hui) (fun x hx => ?_) haddr
      (by rw [hseen]; simp [n₁]) (by simpa using hnew) ?_
    · rcases List.mem_append.1 hx with hx | hx
      · obtain ⟨y, hy, rfl⟩ := List.mem_map.1 hx
        exact (hcau.2 y (List.mem_append_left _ hy)).same (hui y)
      · exact hcau.2 x (List.mem_append_right _ hx)
    · rw [List.map_append, hids, ← List.map_append]
      exact hperm.map Message.id

theorem Recorded.holdbackDrain (h : Recorded S rt log) (hp : rt.pending = []) {now : Time}
    (hto : Punctual rt.node now) : Recorded S (rt.step (.holdbackDrain now)) log := by
  have hc := h.caught hp
  by_cases hq : rt.node.holdBack.queue.isEmpty
  · have hsame : rt.step (.holdbackDrain now) = { rt with node := rt.node, pending := [] } := by
      simp [Runtime.step, hp, BroadcastNode.holdbackDrain, hq]
    rw [hsame]
    exact h.call [] hp (by simpa using hc) h.held_addressed rfl (by simp) (by simp) (by simp)
  · have hsame : rt.step (.holdbackDrain now) = { rt with
        node := rt.node.drained (rt.node.holdBack.drain now rt.node.vc)
        pending := (rt.node.holdBack.drain now rt.node.vc).released } := by
      simp [Runtime.step, hp, BroadcastNode.holdbackDrain, hq]
    obtain ⟨hcau, hadd⟩ := hc.drain h.held_addressed hto
    have hperm := HoldBackQueue.drain_perm rt.node.holdBack now rt.node.vc
    rw [hsame]
    exact h.call [] hp hcau hadd rfl (by simp) (by simp) (hperm.map Message.id)

/-! ## Runs -/

/-- What an event is at the runtime it finds: an own message is sent under
the own address, a received one was stamped by a node of `S`, and no entry
is past the timeout when the queue is drained. -/
def Runtime.Event.Proper (S : Set String) (rt : Runtime) : Runtime.Event → Prop
  | .doBroadcast _ m => m.sender = rt.node.address
  | .receive _ addedAt now m => Addressed S m ∧ Punctual rt.node now ∧ now - addedAt ≤ rt.node.holdBack.timeout
  | .holdbackDrain now => Punctual rt.node now
  | .callback _ => True
  | .reset => True

/-- A run of proper events. -/
def Runtime.ProperRun (S : Set String) : Runtime → List Runtime.Event → Prop
  | _, [] => True
  | rt, e :: es => e.Proper S rt ∧ Runtime.ProperRun S (rt.step e) es

/-- A call while messages are pending does not take place. -/
theorem step_of_pending {m : Message} {ms : List Message} (hp : rt.pending = m :: ms) {e : Runtime.Event}
    (he : ∀ now, e ≠ .callback now) (he' : e ≠ .reset) : rt.step e = rt := by
  cases e with
  | callback now => exact absurd rfl (he now)
  | reset => exact absurd rfl he'
  | _ => simp [Runtime.step, hp]

/-- A call leaves the log to the callbacks. -/
theorem Agrees.call (h : Agrees pod rt) {e : Runtime.Event} (he : ∀ now, e ≠ .callback now) (he' : e ≠ .reset) :
    Agrees pod (rt.step e) := by
  cases e with
  | callback now => exact absurd rfl (he now)
  | reset => exact absurd rfl he'
  | _ =>
    simp only [Runtime.step]
    split
    · exact ⟨h.violations, h.duplicates, h.seenIds, h.clock⟩
    · exact h

theorem Recorded.step (h : Recorded S rt log) (hS : Set.InjOn shortKey S) {e : Runtime.Event} (he : e.Proper S rt) :
    ∃ log', Recorded S (rt.step e) log' := by
  cases e with
  | reset => exact ⟨log, h.reset⟩
  | callback now =>
    cases hp : rt.pending with
    | nil => exact ⟨log, by simpa [Runtime.step, hp] using h⟩
    | cons m ms => exact ⟨log ++ [m], by simpa [Runtime.step, hp] using h.onMessage hS hp now⟩
  | doBroadcast env m =>
    cases hp : rt.pending with
    | nil => exact ⟨log, h.doBroadcast hp env he⟩
    | cons x xs => exact ⟨log, by rwa [step_of_pending hp (by simp) (by simp)]⟩
  | receive env addedAt now m =>
    cases hp : rt.pending with
    | nil => exact ⟨log, h.receive hp env he.1 he.2.1 he.2.2⟩
    | cons x xs => exact ⟨log, by rwa [step_of_pending hp (by simp) (by simp)]⟩
  | holdbackDrain now =>
    cases hp : rt.pending with
    | nil => exact ⟨log, h.holdbackDrain hp he⟩
    | cons x xs => exact ⟨log, by rwa [step_of_pending hp (by simp) (by simp)]⟩

theorem Agrees.step (ha : Agrees pod rt) (hS : Set.InjOn shortKey S) (h : Recorded S rt log) (e : Runtime.Event) :
    Agrees pod (rt.step e) := by
  cases e with
  | reset => exact .nil rfl rfl
  | callback now =>
    cases hp : rt.pending with
    | nil => simpa [Runtime.step, hp] using ha
    | cons m ms => simpa [Runtime.step, hp] using ha.onMessage hS h hp now
  | doBroadcast env m => exact ha.call (by simp) (by simp)
  | receive env addedAt now m => exact ha.call (by simp) (by simp)
  | holdbackDrain now => exact ha.call (by simp) (by simp)

theorem Agrees.run (hS : Set.InjOn shortKey S) : ∀ (es : List Runtime.Event) {rt : Runtime} {log : List Message},
    Recorded S rt log → Agrees pod rt → rt.ProperRun S es → Agrees pod (rt.run es)
  | [], _, _, _, ha, _ => ha
  | e :: es, _, _, h, ha, hr => by
    obtain ⟨log', h'⟩ := h.step hS hr.1
    exact Agrees.run hS es h' (ha.step hS h e) hr.2

/-- **No false alarm**: whatever the node sent and received and wherever
the log was reset, the checker finds no violation and no duplicate in the
log since the last reset. -/
theorem no_false_alarm {S : Set String} (hS : Set.InjOn shortKey S) {address : String} (ha : address ∈ S)
    (timeout : Time) (es : List Runtime.Event) (hr : (Runtime.new address timeout).ProperRun S es) (pod : String) :
    let rt := (Runtime.new address timeout).run es
    (checkPeerLog pod rt.deliveries rt.baselineVc).violations = [] ∧
      (checkPeerLog pod rt.deliveries rt.baselineVc).duplicates = 0 := by
  intro rt
  have hinit : Agrees pod (Runtime.new address timeout) := .nil rfl rfl
  have h := Agrees.run hS es (Recorded.new ha timeout) hinit hr
  exact ⟨h.violations, h.duplicates⟩

/-! ### A reset in the middle of a batch -/

/-- The messages of another pod. -/
def fromPod1 (i : String) (count : Int) : Message :=
  ⟨"hi", "pod-1.svc:5678", i, 0, "", 10, Dict.set Dict.empty "pod-1.svc:5678" count⟩

/-- The second message comes before the first, and the log is reset between
their callbacks. -/
def batch : List Runtime.Event :=
  [.receive ⟨false, none, []⟩ 1 1 (fromPod1 "m2" 2), .receive ⟨false, none, []⟩ 2 2 (fromPod1 "m1" 1),
    .callback 2, .reset, .callback 3]

theorem fromPod1_addressed (i : String) (count : Int) :
    Addressed {a | a = "pod-0.svc:5678" ∨ a = "pod-1.svc:5678"} (fromPod1 i count) :=
  ⟨rfl, .inr rfl, fun _ hk => .inr (List.mem_singleton.1 hk)⟩

theorem no_false_alarm_in_batch :
    ((Runtime.new "pod-0.svc:5678" 5).run batch).deliveries.map Record.id = ["m2"] ∧
      (checkPeerLog "pod-0" ((Runtime.new "pod-0.svc:5678" 5).run batch).deliveries
        ((Runtime.new "pod-0.svc:5678" 5).run batch).baselineVc).violations = [] := by
  refine ⟨by decide +kernel, ?_⟩
  have hS : Set.InjOn shortKey {a | a = "pod-0.svc:5678" ∨ a = "pod-1.svc:5678"} := by
    rintro a (rfl | rfl) b (rfl | rfl) h
    · rfl
    · exact absurd h (by decide +kernel)
    · exact absurd h (by decide +kernel)
    · rfl
  refine (no_false_alarm hS (.inl rfl) 5 batch ?_ "pod-0").1
  refine ⟨⟨fromPod1_addressed _ _, ?_, ?_⟩, ⟨fromPod1_addressed _ _, ?_, ?_⟩, trivial, trivial, trivial, trivial⟩
  all_goals decide +kernel

end PeerChat.Harness
