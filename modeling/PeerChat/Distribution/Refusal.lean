/-
Calls that the node refuses (`_do_broadcast`, `_receive`, `deduplicate` and
`_sign_outgoing` of `distribution/broadcast_node.py`).

`_do_broadcast` marks the id before it signs. So a message that is refused
for lack of a key is a duplicate from then on: `refused_for_good`. The other
refusals change nothing: `noOp_and_retry_iff`.
-/
import PeerChat.Distribution.BroadcastNode

namespace PeerChat.BroadcastNode

open Lib

/-- The caller's message after `_do_broadcast`, which signs and stamps it in
place. -/
def messageAfter (env : NodeEnv) (n : BroadcastNode) (m : Message) : Message :=
  match n.deduplicate m.id with
  | none => m
  | some n₁ =>
    match signOutgoing env m with
    | none => m
    | some signed => n₁.stamped signed

/-- Signatures are enforced and there is no key to sign with, or no package. -/
def LacksKey (env : NodeEnv) (m : Message) : Prop :=
  env.enforceSignatures = true ∧ env.security.bind (·.sign m) = none

instance (env : NodeEnv) (m : Message) : Decidable (LacksKey env m) := inferInstanceAs (Decidable (_ ∧ _))

/-- A call left the node and the clock of the message as they were, and
nothing went out. -/
def NoOp (n : BroadcastNode) (m : Message) (after : BroadcastNode × Effect) (m' : Message) : Prop :=
  after.1 = n ∧ m'.vectorClock = m.vectorClock ∧ after.2 = ⟨[], []⟩

/-- A refusal by `_do_broadcast` or `_receive` is a no-op. -/
def RefusalIsNoOp (env : NodeEnv) (n : BroadcastNode) (m : Message) : Prop :=
  ((n.doBroadcast env m).2.2 = false →
      NoOp n m ((n.doBroadcast env m).1, (n.doBroadcast env m).2.1) (n.messageAfter env m)) ∧
    ∀ addedAt now, (n.receive env addedAt now m).2.2 = false →
      NoOp n m ((n.receive env addedAt now m).1, (n.receive env addedAt now m).2.1) m

/-- The call is about a message of this id. -/
def Call.Brings (msgId : String) : Call → Prop
  | .receive _ _ _ m | .doBroadcast _ m => m.id = msgId
  | .applyVcSync _ _ _ | .holdbackDrain _ => False

/-- The node after further calls. -/
def after (n : BroadcastNode) (calls : List Call) : BroadcastNode := (calls.foldl Run.step ⟨n, [], []⟩).node

/-- A message refused for lack of a key is broadcast when it is tried again
with a key, whatever the node did meanwhile with other messages. -/
def RetrySucceeds (env : NodeEnv) (n : BroadcastNode) (m : Message) : Prop :=
  m.id ∉ n.seen → LacksKey env m → ∀ (calls : List Call) (env' : NodeEnv), (∀ c ∈ calls, ¬ c.Brings m.id) →
    ¬ LacksKey env' m →
      ((((n.doBroadcast env m).1.after calls).doBroadcast env' (n.messageAfter env m)).2.2 = true)

theorem signOutgoing_eq_none_iff {env : NodeEnv} {m : Message} : signOutgoing env m = none ↔ LacksKey env m := by
  unfold signOutgoing LacksKey
  cases hsec : env.security with
  | none => cases env.enforceSignatures <;> simp
  | some sec => cases hsign : sec.sign m <;> cases env.enforceSignatures <;> simp [hsign]

/-- `_do_broadcast` refuses a duplicate, and what it cannot sign. -/
theorem doBroadcast_refuses_iff {env : NodeEnv} {n : BroadcastNode} {m : Message} :
    (n.doBroadcast env m).2.2 = false ↔ m.id ∈ n.seen ∨ LacksKey env m := by
  rcases n.doBroadcast_cases env m with ⟨h, he⟩ | ⟨h, hs, he⟩ | ⟨h, signed, hs, sent, he, -⟩
  · simp [he, h]
  · simp [he, signOutgoing_eq_none_iff.1 hs]
  · have hk : ¬ LacksKey env m := fun hk => by simp [signOutgoing_eq_none_iff.2 hk] at hs
    simp [he, h, hk]

theorem messageAfter_of_lacksKey {env : NodeEnv} {n : BroadcastNode} {m : Message} (h : LacksKey env m) :
    n.messageAfter env m = m := by
  unfold messageAfter
  rw [signOutgoing_eq_none_iff.2 h]
  split <;> rfl

theorem messageAfter_of_seen {env : NodeEnv} {n : BroadcastNode} {m : Message} (h : m.id ∈ n.seen) :
    n.messageAfter env m = m := by
  simp only [messageAfter, deduplicate, h, if_true]

/-- An id is never forgotten. -/
theorem mem_seen_step {r : Run} {i : String} (h : i ∈ r.node.seen) (c : Call) : i ∈ (r.step c).node.seen := by
  cases c with
  | receive env addedAt now m =>
    rcases r.node.receive_cases env addedAt now m with ⟨-, he⟩ | ⟨-, n₂, d, hacc, he⟩
    · simpa [Run.step, he] using h
    · have hseen := accept_seen ({ r.node with seen := insert m.id r.node.seen }) addedAt now m
      rw [hacc] at hseen
      simp only [Run.step, he]
      rw [hseen]
      exact Finset.mem_insert_of_mem h
  | doBroadcast env m =>
    rcases r.node.doBroadcast_cases env m with ⟨-, he⟩ | ⟨-, -, he⟩ | ⟨-, signed, -, sent, he, -⟩
    · simpa [Run.step, he] using h
    · simp only [Run.step, he]
      exact Finset.mem_insert_of_mem h
    · simp only [Run.step, he]
      exact Finset.mem_insert_of_mem h
  | applyVcSync env now vc => exact h
  | holdbackDrain now =>
    simp only [Run.step, holdbackDrain]
    split <;> exact h

theorem mem_seen_foldl {r : Run} {i : String} (h : i ∈ r.node.seen) (calls : List Call) :
    i ∈ (calls.foldl Run.step r).node.seen := by
  induction calls generalizing r with
  | nil => exact h
  | cons c calls ih => exact ih (mem_seen_step h c)

/-- **Refused for good**: after a refusal for lack of a key, every later
broadcast or receipt of the message is refused, with any key. -/
theorem refused_for_good {env : NodeEnv} {n : BroadcastNode} {m : Message} (h : LacksKey env m)
    (calls : List Call) (env' : NodeEnv) (addedAt now : Time) :
    (((n.doBroadcast env m).1.after calls).doBroadcast env' m).2.2 = false ∧
      (((n.doBroadcast env m).1.after calls).receive env' addedAt now m).2.2 = false := by
  have hmark : m.id ∈ (n.doBroadcast env m).1.seen := by
    rcases n.doBroadcast_cases env m with ⟨hm, he⟩ | ⟨-, -, he⟩ | ⟨-, signed, hs, -⟩
    · rw [he]
      exact hm
    · rw [he]
      exact Finset.mem_insert_self _ _
    · simp [signOutgoing_eq_none_iff.2 h] at hs
  have hseen : m.id ∈ ((n.doBroadcast env m).1.after calls).seen :=
    mem_seen_foldl (r := ⟨(n.doBroadcast env m).1, [], []⟩) hmark calls
  refine ⟨doBroadcast_refuses_iff.2 (.inl hseen), ?_⟩
  rcases ((n.doBroadcast env m).1.after calls).receive_cases env' addedAt now m with ⟨-, he⟩ | ⟨hm, -⟩
  · rw [he]
  · exact absurd hseen hm

/-- A refused `_receive` was of a duplicate, and did nothing. -/
theorem receive_noOp (env : NodeEnv) (n : BroadcastNode) (addedAt now : Time) (m : Message)
    (h : (n.receive env addedAt now m).2.2 = false) :
    NoOp n m ((n.receive env addedAt now m).1, (n.receive env addedAt now m).2.1) m := by
  rcases n.receive_cases env addedAt now m with ⟨-, he⟩ | ⟨-, n₂, d, -, he⟩
  · rw [he]
    exact ⟨rfl, rfl, rfl⟩
  · rw [he] at h
    cases h

theorem refusalIsNoOp_iff (env : NodeEnv) (n : BroadcastNode) (m : Message) :
    RefusalIsNoOp env n m ↔ m.id ∈ n.seen ∨ ¬ LacksKey env m := by
  constructor
  · rintro ⟨hb, -⟩
    by_contra hcon
    obtain ⟨hnew, hkey⟩ := not_or.1 hcon
    have hkey := not_not.1 hkey
    have hnode := (hb (doBroadcast_refuses_iff.2 (.inr hkey))).1
    rcases n.doBroadcast_cases env m with ⟨hm, -⟩ | ⟨-, -, he⟩ | ⟨-, signed, hs, -⟩
    · exact hnew hm
    · rw [he] at hnode
      exact hnew (by rw [← hnode]; exact Finset.mem_insert_self _ _)
    · simp [signOutgoing_eq_none_iff.2 hkey] at hs
  · intro hcond
    refine ⟨fun href => ?_, fun addedAt now => receive_noOp env n addedAt now m⟩
    have hseen : m.id ∈ n.seen := (doBroadcast_refuses_iff.1 href).elim id fun hk => hcond.resolve_right (not_not.2 hk)
    rcases n.doBroadcast_cases env m with ⟨-, he⟩ | ⟨hm, -⟩ | ⟨hm, -⟩
    · rw [he, messageAfter_of_seen hseen]
      exact ⟨rfl, rfl, rfl⟩
    · exact absurd hseen hm
    · exact absurd hseen hm

/-- A security package with a key, for the second try. -/
def keyed : NodeEnv :=
  { enforceSignatures := true
    security := some ⟨fun m => some ("signed " ++ m.id), fun _ => false, some "pem", fun _ _ _ => none⟩
    peers := [] }

theorem not_lacksKey_keyed (m : Message) : ¬ LacksKey keyed m := by
  rintro ⟨-, h⟩
  cases h

theorem retrySucceeds_iff (env : NodeEnv) (n : BroadcastNode) (m : Message) :
    RetrySucceeds env n m ↔ m.id ∈ n.seen ∨ ¬ LacksKey env m := by
  constructor
  · intro h
    by_contra hcon
    obtain ⟨hnew, hkey⟩ := not_or.1 hcon
    have hkey := not_not.1 hkey
    have htrue := h hnew hkey [] keyed nofun (not_lacksKey_keyed m)
    rw [messageAfter_of_lacksKey hkey, (refused_for_good hkey [] keyed 0 0).1] at htrue
    cases htrue
  · rintro (hm | hk) hnew hkey
    · exact absurd hm hnew
    · exact absurd hkey hk

/-- **When a refusal is a no-op**: every refusal of the message leaves node,
clock and network alone, and a refusal for lack of a key can be retried,
exactly when the message is a duplicate or there is no such refusal. -/
theorem noOp_and_retry_iff (env : NodeEnv) (n : BroadcastNode) (m : Message) :
    (RefusalIsNoOp env n m ∧ RetrySucceeds env n m) ↔ m.id ∈ n.seen ∨ ¬ LacksKey env m := by
  rw [refusalIsNoOp_iff, retrySucceeds_iff, and_self]

/-- The package before its key is configured. -/
def keyless : NodeEnv :=
  { enforceSignatures := true
    security := some ⟨fun _ => none, fun _ => false, none, fun _ _ _ => none⟩
    peers := [("h", 2)] }

def hello : Message := ⟨"hello", "h:1", "m1", 0, "", 3, Dict.empty⟩

/-- A broadcast before the key is there, and again with the key. -/
theorem hello_refused_twice :
    ((new "h:1" 5).doBroadcast keyless hello).2.2 = false ∧
      ((new "h:1" 5).doBroadcast keyless hello).1.seen = {"m1"} ∧
      (((new "h:1" 5).doBroadcast keyless hello).1.doBroadcast keyed hello).2.2 = false ∧
      ((new "h:1" 5).doBroadcast keyed hello).2.2 = true ∧
      ¬ RefusalIsNoOp keyless (new "h:1" 5) hello ∧ ¬ RetrySucceeds keyless (new "h:1" 5) hello := by
  have hcond : ¬ (hello.id ∈ (new "h:1" 5).seen ∨ ¬ LacksKey keyless hello) := by decide
  refine ⟨by decide, by decide, by decide, by decide, ?_, ?_⟩
  · rw [refusalIsNoOp_iff]
    exact hcond
  · rw [retrySucceeds_iff]
    exact hcond

end PeerChat.BroadcastNode
