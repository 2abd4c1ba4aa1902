/-
The retry queue of one peer (`_send_with_retry`, `_flush_peer_retry_queue`
and what starts it, of `distribution/broadcast_node.py`).

Sends and flushes are coroutines of one event loop: what runs between two
awaits is one step, and the steps of all of them come in any order, with any
answers of the peer. A call of `_send_with_retry` stands for its message.

`one_place`: whatever the order, each message that was handed over is in one
place, once. `inOrder_iff`: the queue keeps the order in which messages were
first queued exactly when no flush gives up behind the back of another, that
is with something older waiting in the queue.
-/
import Mathlib.Data.List.Pairwise
import Mathlib.Data.List.Nodup
import Mathlib.Data.List.Count
import PeerChat.Lib.Run

namespace PeerChat.RetryQueue

open Lib

/-- `MAX_RETRIES`. -/
def maxRetries : Nat := 3

/-- A coroutine, by the await that it stands at. -/
inductive Task
  /-- `_send_with_retry`, in an attempt. -/
  | send (call attempt : Nat)
  /-- `_flush_peer_retry_queue`, with `messages[i]` in an attempt. -/
  | flush (messages : List Nat) (i attempt : Nat)
  /-- A send that has returned. -/
  | returned
  /-- A flush that has delivered everything. -/
  | flushed (messages : List Nat)
  /-- A flush that has put `messages[i:]` back. -/
  | stopped (messages : List Nat) (i : Nat)
  deriving DecidableEq, Repr

namespace Task

/-- The message that its original send is attempting. -/
def attempted : Task → List Nat
  | send call _ => [call]
  | _ => []

/-- `messages[i:]` of a running flush. -/
def held : Task → List Nat
  | flush messages i _ => messages.drop i
  | _ => []

/-- What a flush has taken from the queue. -/
def messages : Task → List Nat
  | flush messages _ _ | flushed messages | stopped messages _ => messages
  | send _ _ | returned => []

end Task

/-- The queue of the peer and the coroutines that send to it. -/
structure Retries where
  /-- How many messages were handed to `_send_with_retry`. -/
  calls : Nat
  tasks : List Task
  /-- `_retry_queue.get(peer_key, [])`. -/
  queue : List Nat
  /-- The acknowledged messages, each with the task that sent it. -/
  acknowledged : List (Nat × Nat)
  /-- The messages that were ever queued, by the first time. -/
  firstQueued : List Nat
  deriving DecidableEq, Repr

/-- What happens next in the event loop. -/
inductive Event
  /-- `_send_with_retry` is called, and the message prepared. -/
  | send
  /-- A flush begins: after a handshake, or from `_retry_background_task`. -/
  | flush
  /-- The attempt of a task is acknowledged. -/
  | acknowledge (task : Nat)
  /-- The attempt of a task fails. -/
  | fail (task : Nat)
  /-- A flush cannot prepare its next message. -/
  | refuse (task : Nat)
  deriving DecidableEq, Repr

namespace Retries

/-- A node that has sent nothing to the peer. -/
def start : Retries := ⟨0, [], [], [], []⟩

/-- A flush puts what it has not sent in front of what was queued meanwhile. -/
def putBack (s : Retries) (task : Nat) (messages : List Nat) (i : Nat) : Retries :=
  { s with tasks := s.tasks.set task (.stopped messages i), queue := messages.drop i ++ s.queue }

def step (s : Retries) : Event → Retries
  | .send => { s with calls := s.calls + 1, tasks := s.tasks ++ [.send s.calls 1] }
  | .flush =>
    if s.queue.isEmpty then s
    else { s with tasks := s.tasks ++ [.flush s.queue 0 1], queue := [] }
  | .acknowledge task =>
    match s.tasks[task]? with
    | some (.send call _) =>
      { s with tasks := s.tasks.set task .returned, acknowledged := s.acknowledged ++ [(task, call)] }
    | some (.flush messages i _) =>
      match messages[i]? with
      | none => s
      | some call =>
        let next := if i + 1 < messages.length then .flush messages (i + 1) 1 else .flushed messages
        { s with tasks := s.tasks.set task next, acknowledged := s.acknowledged ++ [(task, call)] }
    | _ => s
  | .fail task =>
    match s.tasks[task]? with
    | some (.send call attempt) =>
      if attempt < maxRetries then { s with tasks := s.tasks.set task (.send call (attempt + 1)) }
      else
        { s with
          tasks := s.tasks.set task .returned
          queue := s.queue ++ [call]
          firstQueued := s.firstQueued ++ [call] }
    | some (.flush messages i attempt) =>
      if attempt < maxRetries then { s with tasks := s.tasks.set task (.flush messages i (attempt + 1)) }
      else s.putBack task messages i
    | _ => s
  | .refuse task =>
    match s.tasks[task]? with
    | some (.flush messages i 1) => s.putBack task messages i
    | _ => s

/-- A run from the start. -/
def run (es : List Event) : Retries := es.foldl step start

theorem run_snoc (es : List Event) (e : Event) : run (es ++ [e]) = (run es).step e := by
  simp [run]

/-- What a flush gives up on, when it does. -/
def givesUp (s : Retries) : Event → Option (List Nat)
  | .fail task =>
    match s.tasks[task]? with
    | some (.flush messages i attempt) => if attempt < maxRetries then none else some (messages.drop i)
    | _ => none
  | .refuse task =>
    match s.tasks[task]? with
    | some (.flush messages i 1) => some (messages.drop i)
    | _ => none
  | _ => none

/-- What one step can do. -/
inductive Moves (s : Retries) : Event → Retries → Prop
  | idle {e : Event} (h : e ≠ .send) : Moves s e s
  | sent : Moves s .send { s with calls := s.calls + 1, tasks := s.tasks ++ [.send s.calls 1] }
  | taken (h : s.queue ≠ []) : Moves s .flush { s with tasks := s.tasks ++ [.flush s.queue 0 1], queue := [] }
  | delivered {task call attempt : Nat} (h : s.tasks[task]? = some (.send call attempt)) :
      Moves s (.acknowledge task)
        { s with tasks := s.tasks.set task .returned, acknowledged := s.acknowledged ++ [(task, call)] }
  | advanced {task : Nat} {messages : List Nat} {i attempt call : Nat}
      (h : s.tasks[task]? = some (.flush messages i attempt)) (hcall : messages[i]? = some call)
      (hi : i + 1 < messages.length) :
      Moves s (.acknowledge task)
        { s with
          tasks := s.tasks.set task (.flush messages (i + 1) 1)
          acknowledged := s.acknowledged ++ [(task, call)] }
  | finished {task : Nat} {messages : List Nat} {i attempt call : Nat}
      (h : s.tasks[task]? = some (.flush messages i attempt)) (hcall : messages[i]? = some call)
      (hi : messages.length ≤ i + 1) :
      Moves s (.acknowledge task)
        { s with tasks := s.tasks.set task (.flushed messages), acknowledged := s.acknowledged ++ [(task, call)] }
  | resent {task call attempt : Nat} (h : s.tasks[task]? = some (.send call attempt)) :
      Moves s (.fail task) { s with tasks := s.tasks.set task (.send call (attempt + 1)) }
  | reflushed {task : Nat} {messages : List Nat} {i attempt : Nat}
      (h : s.tasks[task]? = some (.flush messages i attempt)) :
      Moves s (.fail task) { s with tasks := s.tasks.set task (.flush messages i (attempt + 1)) }
  | queued {task call attempt : Nat} (h : s.tasks[task]? = some (.send call attempt)) :
      Moves s (.fail task)
        { s with
          tasks := s.tasks.set task .returned
          queue := s.queue ++ [call]
          firstQueued := s.firstQueued ++ [call] }
  | gaveUp {e : Event} {task : Nat} {messages : List Nat} {i attempt : Nat}
      (h : s.tasks[task]? = some (.flush messages i attempt)) (he : s.givesUp e = some (messages.drop i)) :
      Moves s e (s.putBack task messages i)

theorem givesUp_ne_send {s : Retries} {e : Event} {rest : List Nat} (h : s.givesUp e = some rest) :
    e ≠ .send := by
  rintro rfl
  cases h

theorem moves_step (s : Retries) (e : Event) : s.Moves e (s.step e) := by
  cases e with
  | send => exact .sent
  | flush =>
    simp only [step]
    split
    · exact .idle nofun
    · next h => exact .taken fun hq => h (List.isEmpty_iff.2 hq)
  | acknowledge task =>
    simp only [step]
    split
    · next h => exact .delivered h
    · next h =>
      split
      · exact .idle nofun
      · next hcall =>
        split
        · next hi => exact .advanced h hcall hi
        · next hi => exact .finished h hcall (Nat.not_lt.1 hi)
    · exact .idle nofun
  | fail task =>
    simp only [step]
    split
    · next h =>
      split
      · exact .resent h
      · exact .queued h
    · next h =>
      split
      · exact .reflushed h
      · next ha => exact .gaveUp h (by simp only [givesUp, h, ha, if_false])
    · exact .idle nofun
  | refuse task =>
    simp only [step]
    split
    · next h => exact .gaveUp h (by simp only [givesUp, h])
    · exact .idle nofun

/-! ## One place for each message -/

/-- The messages that their original sends are attempting. -/
def attempted (s : Retries) : List Nat := s.tasks.flatMap Task.attempted

/-- The messages that running flushes hold. -/
def held (s : Retries) : List Nat := s.tasks.flatMap Task.held

/-- How often a message is anywhere. -/
def places (s : Retries) (call : Nat) : Nat :=
  s.attempted.count call + s.queue.count call + s.held.count call + (s.acknowledged.map Prod.snd).count call

end Retries

/-- What the tasks have, when one of them changes. -/
theorem count_flatMap_set (f : Task → List Nat) (c : Nat) : ∀ {l : List Task} {i : Nat} {t : Task} (t' : Task),
    l[i]? = some t →
    ((l.set i t').flatMap f).count c + (f t).count c = (l.flatMap f).count c + (f t').count c
  | x :: l, 0, t, t', h => by
    simp only [List.getElem?_cons_zero, Option.some.injEq] at h
    subst h
    simp only [List.set_cons_zero, List.flatMap_cons, List.count_append]
    omega
  | x :: l, i + 1, t, t', h => by
    have ih := count_flatMap_set f c t' (l := l) (i := i) (t := t) (by simpa using h)
    simp only [List.set_cons_succ, List.flatMap_cons, List.count_append]
    omega

/-- A flush holds `messages[i]` and the rest. -/
theorem drop_eq_cons {messages : List Nat} {i call : Nat} (h : messages[i]? = some call) :
    messages.drop i = call :: messages.drop (i + 1) := by
  obtain ⟨hi, rfl⟩ := List.getElem?_eq_some_iff.1 h
  exact List.drop_eq_getElem_cons hi

namespace Retries

variable {s s' : Retries} {e : Event}

/-- What one task has changes, and the counts with it. -/
theorem count_set {task : Nat} {t : Task} (h : s.tasks[task]? = some t) (t' : Task) (c : Nat) :
    ((s.tasks.set task t').flatMap Task.attempted).count c + t.attempted.count c =
        s.attempted.count c + t'.attempted.count c ∧
      ((s.tasks.set task t').flatMap Task.held).count c + t.held.count c =
        s.held.count c + t'.held.count c :=
  ⟨count_flatMap_set Task.attempted c t' h, count_flatMap_set Task.held c t' h⟩

theorem Moves.calls (h : s.Moves e s') : s'.calls = s.calls + if e = .send then 1 else 0 := by
  cases h with
  | sent => rfl
  | idle he => simp only [he, if_false, Nat.add_zero]
  | gaveUp _ he => simp only [givesUp_ne_send he, if_false, Nat.add_zero, putBack]
  | _ => rfl

/-- Only a call of `_send_with_retry` brings a message in. -/
theorem Moves.places (h : s.Moves e s') (c : Nat) :
    s'.places c = s.places c + if e = .send ∧ c = s.calls then 1 else 0 := by
  cases h with
  | idle he => simp only [he, false_and, if_false, Nat.add_zero]
  | sent =>
    simp only [Retries.places, attempted, held, List.flatMap_append, List.flatMap_cons, List.flatMap_nil,
      Task.attempted, Task.held, List.count_append, List.count_cons, List.count_nil, true_and, beq_iff_eq,
      eq_comm (a := c), List.append_nil]
    omega
  | taken =>
    simp only [Retries.places, attempted, held, List.flatMap_append, List.flatMap_cons, List.flatMap_nil,
      Task.attempted, Task.held, List.count_append, List.count_nil, List.drop_zero, reduceCtorEq, false_and, if_false]
    omega
  | delivered h =>
    have hc := count_set h .returned c
    simp only [Retries.places, attempted, held, Task.attempted, Task.held, List.map_append, List.map_cons,
      List.map_nil, List.count_append, List.count_nil, reduceCtorEq, false_and, if_false] at hc ⊢
    omega
  | @advanced _ messages i _ _ h hcall =>
    have hc := count_set h (.flush messages (i + 1) 1) c
    simp only [Retries.places, attempted, held, Task.attempted, Task.held, drop_eq_cons hcall, List.map_append,
      List.map_cons, List.map_nil, List.count_append, List.count_cons, List.count_nil, reduceCtorEq, false_and,
      if_false] at hc ⊢
    omega
  | @finished _ messages i _ _ h hcall hi =>
    have hc := count_set h (.flushed messages) c
    simp only [Retries.places, attempted, held, Task.attempted, Task.held, drop_eq_cons hcall,
      List.drop_eq_nil_of_le hi, List.map_append, List.map_cons, List.map_nil, List.count_append, List.count_cons,
      List.count_nil, reduceCtorEq, false_and, if_false] at hc ⊢
    omega
  | @resent _ call attempt h =>
    have hc := count_set h (.send call (attempt + 1)) c
    simp only [Retries.places, attempted, held, Task.attempted, Task.held, reduceCtorEq, false_and, if_false] at hc ⊢
    omega
  | @reflushed _ messages i attempt h =>
    have hc := count_set h (.flush messages i (attempt + 1)) c
    simp only [Retries.places, attempted, held, Task.attempted, Task.held, reduceCtorEq, false_and, if_false] at hc ⊢
    omega
  | queued h =>
    have hc := count_set h .returned c
    simp only [Retries.places, attempted, held, Task.attempted, Task.held, List.count_append, List.count_nil,
      reduceCtorEq, false_and, if_false] at hc ⊢
    omega
  | @gaveUp _ _ messages i _ h he =>
    have hc := count_set h (.stopped messages i) c
    simp only [Retries.places, attempted, held, putBack, Task.attempted, Task.held, List.count_append,
      List.count_nil, givesUp_ne_send he, false_and, if_false] at hc ⊢
    omega

theorem places_run (es : List Event) (c : Nat) :
    (run es).places c = if c < (run es).calls then 1 else 0 := by
  induction es using List.reverseRecOn with
  | nil => rfl
  | append_singleton es e ih =>
    rw [run_snoc, (moves_step _ e).places, (moves_step _ e).calls, ih]
    by_cases he : e = .send
    · simp only [he, true_and, if_true]
      repeat' split
      all_goals omega
    · simp only [he, false_and, if_false, Nat.add_zero]

/-- **Each message is in one place, once**, in every state of every run: with
its original send, in the queue, with a running flush, or acknowledged. -/
theorem one_place (es : List Event) (call : Nat) :
    ((run es).attempted.count call + (run es).queue.count call + (run es).held.count call +
        ((run es).acknowledged.map Prod.snd).count call = if call < (run es).calls then 1 else 0) ∧
      (run es).queue.Nodup := by
  refine ⟨places_run es call, List.nodup_iff_count_le_one.2 fun c => ?_⟩
  have hc := places_run es c
  unfold places at hc
  split at hc <;> omega

/-! ## The order of the queue -/

/-- `a` was queued before `b`. -/
def Older (s : Retries) (a b : Nat) : Prop := s.firstQueued.idxOf a < s.firstQueued.idxOf b

instance (s : Retries) : DecidableRel s.Older := fun _ _ => Nat.decLt _ _

/-- What a task has delivered, in the order of the acknowledgements. -/
def deliveredBy (s : Retries) (task : Nat) : List Nat :=
  (s.acknowledged.filter (·.1 = task)).map Prod.snd

/-- The queue is in the order in which its messages were first queued, and a
flush that has come to its end has delivered what it took in that order. -/
def InOrder (s : Retries) : Prop :=
  s.queue.Pairwise s.Older ∧
    ∀ task messages, s.tasks[task]? = some (.flushed messages) →
      s.deliveredBy task = messages ∧ messages.Pairwise s.Older

/-- A flush gives up a message while an older one waits in the queue. -/
def Overtaken (s : Retries) (e : Event) : Prop :=
  ∃ rest ∈ s.givesUp e, ∃ waiting ∈ s.queue, ∃ message ∈ rest, s.Older waiting message

/-- A message is in the hands of its first send, or has been queued, or neither. -/
theorem Moves.fresh (h : s.Moves e s')
    (hs : ∀ c, s.attempted.count c + s.firstQueued.count c ≤ if c < s.calls then 1 else 0) (c : Nat) :
    s'.attempted.count c + s'.firstQueued.count c ≤ if c < s'.calls then 1 else 0 := by
  have hs := hs c
  cases h with
  | idle => exact hs
  | sent =>
    simp only [attempted, List.flatMap_append, List.flatMap_cons, List.flatMap_nil, Task.attempted,
      List.count_append, List.count_cons, List.count_nil, beq_iff_eq, List.append_nil] at hs ⊢
    repeat' split at *
    all_goals omega
  | taken =>
    simp only [attempted, List.flatMap_append, List.flatMap_cons, List.flatMap_nil, Task.attempted,
      List.append_nil] at hs ⊢
    exact hs
  | delivered h =>
    have hc := (count_set h .returned c).1
    simp only [attempted, Task.attempted, List.count_nil] at hc hs ⊢
    omega
  | @advanced _ messages i _ _ h =>
    have hc := (count_set h (.flush messages (i + 1) 1) c).1
    simp only [attempted, Task.attempted, List.count_nil] at hc hs ⊢
    omega
  | @finished _ messages i _ _ h =>
    have hc := (count_set h (.flushed messages) c).1
    simp only [attempted, Task.attempted, List.count_nil] at hc hs ⊢
    omega
  | @resent _ call attempt h =>
    have hc := (count_set h (.send call (attempt + 1)) c).1
    simp only [attempted, Task.attempted] at hc hs ⊢
    omega
  | @reflushed _ messages i attempt h =>
    have hc := (count_set h (.flush messages i (attempt + 1)) c).1
    simp only [attempted, Task.attempted, List.count_nil] at hc hs ⊢
    omega
  | queued h =>
    have hc := (count_set h .returned c).1
    simp only [attempted, Task.attempted, List.count_nil, List.count_append] at hc hs ⊢
    omega
  | @gaveUp _ _ messages i _ h =>
    have hc := (count_set h (.stopped messages i) c).1
    refine Nat.le_trans ?_ hs
    simp only [attempted, putBack, Task.attempted, List.count_nil] at hc ⊢
    omega

theorem fresh_run (es : List Event) (c : Nat) :
    (run es).attempted.count c + (run es).firstQueued.count c ≤ if c < (run es).calls then 1 else 0 := by
  induction es using List.reverseRecOn generalizing c with
  | nil => simp [run, start, attempted]
  | append_singleton es e ih =>
    rw [run_snoc]
    exact (moves_step _ e).fresh ih c

/-- What waits or was taken has been queued before. -/
structure Known (s : Retries) : Prop where
  queue : ∀ c ∈ s.queue, c ∈ s.firstQueued
  messages : ∀ t ∈ s.tasks, ∀ c ∈ t.messages, c ∈ s.firstQueued

theorem mem_set_tasks {P : Task → Prop} {tasks : List Task} {task : Nat} {t' : Task}
    (h : ∀ t ∈ tasks, P t) (h' : P t') : ∀ t ∈ tasks.set task t', P t := fun t ht =>
  (List.mem_or_eq_of_mem_set ht).elim (h t) fun heq => heq ▸ h'

theorem mem_append_tasks {P : Task → Prop} {tasks : List Task} {t' : Task}
    (h : ∀ t ∈ tasks, P t) (h' : P t') : ∀ t ∈ tasks ++ [t'], P t := fun t ht =>
  (List.mem_append.1 ht).elim (h t) fun heq => List.mem_singleton.1 heq ▸ h'

theorem Moves.known (h : s.Moves e s') (hs : s.Known) : s'.Known := by
  cases h with
  | idle => exact hs
  | sent => exact ⟨hs.queue, mem_append_tasks hs.messages nofun⟩
  | taken => exact ⟨nofun, mem_append_tasks hs.messages hs.queue⟩
  | delivered => exact ⟨hs.queue, mem_set_tasks hs.messages nofun⟩
  | advanced h | finished h | reflushed h =>
    have hm := hs.messages _ (List.mem_of_getElem? h)
    exact ⟨hs.queue, mem_set_tasks hs.messages hm⟩
  | resent => exact ⟨hs.queue, mem_set_tasks hs.messages nofun⟩
  | queued =>
    refine ⟨fun c hc => ?_, mem_set_tasks (fun t ht c hc => List.mem_append_left _ (hs.messages t ht c hc)) nofun⟩
    rcases List.mem_append.1 hc with hc | hc
    · exact List.mem_append_left _ (hs.queue c hc)
    · exact List.mem_append_right _ hc
  | gaveUp h =>
    have hm := hs.messages _ (List.mem_of_getElem? h)
    refine ⟨fun c hc => ?_, mem_set_tasks hs.messages hm⟩
    rcases List.mem_append.1 hc with hc | hc
    · exact hm c (List.mem_of_mem_drop hc)
    · exact hs.queue c hc

theorem known_run (es : List Event) : (run es).Known := by
  induction es using List.reverseRecOn with
  | nil => exact ⟨nofun, nofun⟩
  | append_singleton es e ih =>
    rw [run_snoc]
    exact (moves_step _ e).known ih

/-- How far a task has come, against what it has delivered. -/
def Progress (delivered : List Nat) : Task → Prop
  | .flush messages i _ => delivered = messages.take i
  | .flushed messages => delivered = messages
  | .send _ _ => delivered = []
  | .returned | .stopped _ _ => True

theorem deliveredBy_snoc (s : Retries) (tasks : List Task) (task call i : Nat) :
    deliveredBy { s with tasks := tasks, acknowledged := s.acknowledged ++ [(task, call)] } i =
      s.deliveredBy i ++ if task = i then [call] else [] := by
  simp only [deliveredBy, List.filter_append, List.map_append]
  by_cases h : task = i <;> simp [h]

/-- Every task has delivered what it should have, and no other task anything. -/
structure Delivering (s : Retries) : Prop where
  progress : ∀ i t, s.tasks[i]? = some t → Progress (s.deliveredBy i) t
  none : ∀ i, s.tasks.length ≤ i → s.deliveredBy i = []

/-- A task that changes, with nothing acknowledged. -/
theorem Delivering.set {task : Nat} {t t' : Task} (hs : s.Delivering) (h : s.tasks[task]? = some t)
    (h' : Progress (s.deliveredBy task) t → Progress (s.deliveredBy task) t') (i : Nat) (u : Task)
    (hu : (s.tasks.set task t')[i]? = some u) : Progress (s.deliveredBy i) u := by
  by_cases hi : task = i
  · subst hi
    have hlt : task < s.tasks.length := (List.getElem?_eq_some_iff.1 h).1
    rw [List.getElem?_set_self hlt, Option.some.injEq] at hu
    subst hu
    exact h' (hs.progress task t h)
  · rw [List.getElem?_set_ne hi] at hu
    exact hs.progress i u hu

/-- A task that changes with an acknowledgement. -/
theorem Delivering.acknowledge {task call : Nat} {t t' : Task} (hs : s.Delivering) (h : s.tasks[task]? = some t)
    (h' : Progress (s.deliveredBy task) t → Progress (s.deliveredBy task ++ [call]) t') :
    Delivering { s with tasks := s.tasks.set task t', acknowledged := s.acknowledged ++ [(task, call)] } := by
  have hlt : task < s.tasks.length := (List.getElem?_eq_some_iff.1 h).1
  refine ⟨fun i u hu => ?_, fun i hi => ?_⟩
  · rw [deliveredBy_snoc]
    by_cases hi : task = i
    · subst hi
      rw [List.getElem?_set_self hlt, Option.some.injEq] at hu
      subst hu
      rw [if_pos rfl]
      exact h' (hs.progress task t h)
    · rw [if_neg hi, List.append_nil]
      rw [List.getElem?_set_ne hi] at hu
      exact hs.progress i u hu
  · rw [List.length_set] at hi
    rw [deliveredBy_snoc, if_neg (by omega), List.append_nil]
    exact hs.none i hi

/-- A new task. -/
theorem Delivering.append {t' : Task} (hs : s.Delivering) (h' : Progress [] t') (i : Nat) (u : Task)
    (hu : (s.tasks ++ [t'])[i]? = some u) : Progress (s.deliveredBy i) u := by
  rcases Nat.lt_or_ge i s.tasks.length with hi | hi
  · rw [List.getElem?_append_left hi] at hu
    exact hs.progress i u hu
  · rw [List.getElem?_append_right hi] at hu
    rw [hs.none i hi]
    have hm := List.mem_of_getElem? hu
    rw [List.mem_singleton] at hm
    exact hm ▸ h'

theorem take_succ_eq {messages : List Nat} {i call : Nat} (h : messages[i]? = some call) :
    messages.take i ++ [call] = messages.take (i + 1) := by
  rw [List.take_add_one, h, Option.toList_some]

theorem Moves.delivering (h : s.Moves e s') (hs : s.Delivering) : s'.Delivering := by
  cases h with
  | idle => exact hs
  | sent => exact ⟨hs.append rfl, fun i hi => hs.none i (by simp at hi; omega)⟩
  | taken => exact ⟨hs.append rfl, fun i hi => hs.none i (by simp at hi; omega)⟩
  | delivered h => exact hs.acknowledge h fun _ => trivial
  | advanced h hcall =>
    refine hs.acknowledge h fun hp => ?_
    simp only [Progress] at hp ⊢
    rw [hp, take_succ_eq hcall]
  | finished h hcall hi =>
    refine hs.acknowledge h fun hp => ?_
    simp only [Progress] at hp ⊢
    rw [hp, take_succ_eq hcall, List.take_of_length_le hi]
  | resent h | reflushed h => exact ⟨hs.set h id, fun i hi => hs.none i (by simpa using hi)⟩
  | queued h | gaveUp h => exact ⟨hs.set h fun _ => trivial, fun i hi => hs.none i (by simpa [putBack] using hi)⟩

theorem delivering_run (es : List Event) : (run es).Delivering := by
  induction es using List.reverseRecOn with
  | nil => exact ⟨nofun, fun _ _ => rfl⟩
  | append_singleton es e ih =>
    rw [run_snoc]
    exact (moves_step _ e).delivering ih

/-- The queue, and what flushes took from it, are in order. -/
structure Ordered (s : Retries) : Prop where
  queue : s.queue.Pairwise s.Older
  messages : ∀ t ∈ s.tasks, t.messages.Pairwise s.Older

/-- Messages queued later do not change the order. -/
theorem older_append {l : List Nat} {call : Nat} (hl : ∀ c ∈ l, c ∈ s.firstQueued) (h : l.Pairwise s.Older) :
    l.Pairwise fun a b => (s.firstQueued ++ [call]).idxOf a < (s.firstQueued ++ [call]).idxOf b := by
  refine h.imp_of_mem fun {a b} ha hb hab => ?_
  rw [List.idxOf_append_of_mem (hl a ha), List.idxOf_append_of_mem (hl b hb)]
  exact hab

/-- A message queued for the first time is the youngest. -/
theorem older_new {c call : Nat} (hc : c ∈ s.firstQueued) (hcall : call ∉ s.firstQueued) :
    (s.firstQueued ++ [call]).idxOf c < (s.firstQueued ++ [call]).idxOf call := by
  rw [List.idxOf_append_of_mem hc, List.idxOf_append_of_notMem hcall]
  have := List.idxOf_lt_length_iff.2 hc
  omega

/-- What a flush holds does not wait in the queue. -/
theorem ne_of_held (es : List Event) {task : Nat} {messages : List Nat} {i attempt c q : Nat}
    (h : (run es).tasks[task]? = some (.flush messages i attempt)) (hc : c ∈ messages.drop i)
    (hq : q ∈ (run es).queue) : c ≠ q := by
  rintro rfl
  have hheld : c ∈ (run es).held := List.mem_flatMap.2 ⟨_, List.mem_of_getElem? h, hc⟩
  have h1 := List.count_pos_iff.2 hheld
  have h2 := List.count_pos_iff.2 hq
  have hp := places_run es c
  unfold places at hp
  split at hp <;> omega

theorem Ordered.step (es : List Event) {e : Event} (hs : (run es).Ordered) (he : ¬ (run es).Overtaken e) :
    ((run es).step e).Ordered := by
  have hk := known_run es
  generalize hs' : (run es).step e = s'
  have hm : (run es).Moves e s' := hs' ▸ moves_step _ _
  cases hm with
  | idle => exact hs
  | sent => exact ⟨hs.queue, mem_append_tasks hs.messages .nil⟩
  | taken => exact ⟨.nil, mem_append_tasks hs.messages hs.queue⟩
  | delivered | resent => exact ⟨hs.queue, mem_set_tasks hs.messages .nil⟩
  | advanced h | finished h | reflushed h =>
    have hm := hs.messages _ (List.mem_of_getElem? h)
    exact ⟨hs.queue, mem_set_tasks hs.messages hm⟩
  | @queued _ call _ h =>
    have hcall : call ∉ (run es).firstQueued := by
      have ha : call ∈ (run es).attempted := List.mem_flatMap.2 ⟨_, List.mem_of_getElem? h, List.mem_singleton_self _⟩
      have h1 := List.count_pos_iff.2 ha
      have hf := fresh_run es call
      intro hmem
      have h2 := List.count_pos_iff.2 hmem
      split at hf <;> omega
    refine ⟨List.pairwise_append.2 ⟨older_append hk.queue hs.queue, List.pairwise_singleton _ _, ?_⟩,
      mem_set_tasks (fun t ht => older_append (hk.messages t ht) (hs.messages t ht)) .nil⟩
    intro c hc q hq
    rw [List.mem_singleton.1 hq]
    exact older_new (hk.queue c hc) hcall
  | @gaveUp _ _ messages i _ h hg =>
    have hm := hs.messages _ (List.mem_of_getElem? h)
    have hmk := hk.messages _ (List.mem_of_getElem? h)
    refine ⟨List.pairwise_append.2 ⟨hm.sublist (List.drop_sublist _ _), hs.queue, ?_⟩, mem_set_tasks hs.messages hm⟩
    intro c hc q hq
    have hle : ¬ (run es).Older q c := fun hlt => he ⟨_, hg, q, hq, c, hc, hlt⟩
    have hne : (run es).firstQueued.idxOf c ≠ (run es).firstQueued.idxOf q := fun heq =>
      ne_of_held es h hc hq ((List.idxOf_inj (hmk c (List.mem_of_mem_drop hc))).1 heq)
    unfold Older at hle ⊢
    simp only [putBack]
    omega

theorem Ordered.inOrder (es : List Event) (hs : (run es).Ordered) : (run es).InOrder :=
  ⟨hs.queue, fun task _ h => ⟨(delivering_run es).progress task _ h, hs.messages _ (List.mem_of_getElem? h)⟩⟩

/-- A flush that gives up puts what it holds in front. -/
theorem queue_of_givesUp {rest : List Nat} (h : s.givesUp e = some rest) :
    (s.step e).queue = rest ++ s.queue ∧ (s.step e).firstQueued = s.firstQueued := by
  cases e with
  | send | flush | acknowledge => cases h
  | fail task =>
    simp only [givesUp] at h
    split at h
    · next ht =>
      split at h
      · cases h
      · next ha =>
        cases h
        simp only [Retries.step, ht, ha, if_false, putBack, and_self]
    · cases h
  | refuse task =>
    simp only [givesUp] at h
    split at h
    · next ht =>
      cases h
      simp only [Retries.step, ht, putBack, and_self]
    · cases h

/-- What is put back in front of an older message is out of order. -/
theorem not_inOrder_of_overtaken {s : Retries} {e : Event} (h : s.Overtaken e) : ¬ (s.step e).InOrder := by
  rintro ⟨hord, -⟩
  obtain ⟨rest, hg, q, hq, c, hc, hlt⟩ := h
  obtain ⟨hqueue, hfirst⟩ := queue_of_givesUp hg
  rw [hqueue] at hord
  have hcq := (List.pairwise_append.1 hord).2.2 c hc q hq
  unfold Older at hcq hlt
  rw [hfirst] at hcq
  omega

/-- **The order of the queue**, over whole runs: every state is in order
exactly when at no step a flush gives up a message while an older one waits. -/
theorem inOrder_iff (es : List Event) :
    (∀ es₁, es₁ <+: es → (run es₁).InOrder) ↔ ∀ es₁ e, es₁ ++ [e] <+: es → ¬ (run es₁).Overtaken e := by
  refine Run.forall_prefix_iff (I := fun es₁ => (run es₁).Ordered) ⟨.nil, nofun⟩ Ordered.inOrder
    (fun es₁ e hs hno => ?_) (fun es₁ e _ hover => ?_)
  · rw [run_snoc]
    exact hs.step es₁ hno
  · rw [run_snoc]
    exact not_inOrder_of_overtaken hover

/-- Two flushes at once: the first has taken message 0, the second message 1,
and the first gives up first. -/
def crossed : List Event :=
  [.send, .fail 0, .fail 0, .fail 0, .flush, .send, .fail 2, .fail 2, .fail 2, .flush,
    .fail 1, .fail 1, .fail 1, .fail 3, .fail 3, .fail 3]

/-- The younger message ends up in front of the older one. -/
theorem not_inOrder_crossed :
    (run crossed).firstQueued = [0, 1] ∧ (run crossed).queue = [1, 0] ∧ ¬ (run crossed).InOrder := by
  refine ⟨by decide, by decide, fun h => ?_⟩
  have hq : ¬ (run crossed).queue.Pairwise (run crossed).Older := by decide
  exact hq h.1

end Retries

end PeerChat.RetryQueue
