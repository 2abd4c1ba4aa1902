/-
How far the newest checkpoint is behind the log, between operations
(`maybe_checkpoint` of `peer_discovery/membership/durability.py` and the
operations that call it).

`maybe_checkpoint` writes when the last number is a multiple of the interval
at the moment of the call. An operation that logs an event and does not call
it, or logs two events before it does, can step over a multiple; then a
whole interval goes by. `lag_bounded_iff`: the lag stays below the interval
exactly as long as no operation does that.
-/
import PeerChat.Membership.Checkpoint
import PeerChat.Membership.Calls
import PeerChat.Lib.Run

namespace PeerChat.Membership

open Lib

/-- The number of the newest checkpoint, 0 before the first. -/
def Durability.newestSeqNo (d : Durability) : Int := (d.listCheckpoints.head?.map Prod.fst).getD 0

/-- The events of the log that are newer than the newest checkpoint. -/
def Coordinator.lag (c : Coordinator) : Nat :=
  (c.log.log.filter fun e => c.durability.newestSeqNo < e.seqNo).length

/-- Fewer than `snapshot_interval` events would be lost. -/
def BoundedLoss (c : Coordinator) : Prop := (c.lag : Int) < c.durability.snapshotInterval

instance (c : Coordinator) : Decidable (BoundedLoss c) := Int.decLt _ _

/-- The operation logs the multiple of the interval that is next, and has
no checkpoint taken there: a rejected join takes none, a leave and a
heartbeat that finds a suspicion log a second event first. -/
def StepsOver (c : Coordinator) (op : Op) : Prop :=
  (c.log.getLatestSeqNo + 1) % c.durability.snapshotInterval = 0 ∧ ¬ 1 < c.log.currentTerm ∧
    match op with
    | .join u _ _ _ (.rejects _) => (u, EventType.joinRequested.value) ∉ c.duplicateGuard.recent
    | .leave u => ¬ Gone c u ∧ c.snapshot.stateOf u ≠ some .leaving
    | .heartbeat u => c.snapshot.stateOf u ≠ none ∧ Doubts c.presence u
    | _ => False

/-! ## Counting -/

/-- Distinct numbers in an interval. -/
theorem length_le_of_sorted {hi : Int} : ∀ {es : List MembershipEvent} {lo : Int}, lo ≤ hi →
    es.Pairwise (·.seqNo < ·.seqNo) → (∀ e ∈ es, lo ≤ e.seqNo ∧ e.seqNo < hi) → (es.length : Int) ≤ hi - lo
  | [], lo, hle, _, _ => by simpa using hle
  | e :: es, lo, _, hs, hb => by
    have he := hb e List.mem_cons_self
    obtain ⟨hhead, htail⟩ := List.pairwise_cons.1 hs
    have hlt : e.seqNo + 1 ≤ hi := by omega
    have ih := length_le_of_sorted hlt htail fun x hx => by
      have := hhead x hx
      have := hb x (List.mem_cons_of_mem _ hx)
      omega
    simp only [List.length_cons, Nat.cast_add, Nat.cast_one]
    omega

theorem Consecutive.tail {a b : Int} {e : MembershipEvent} {es : List MembershipEvent}
    (h : Consecutive a b (e :: es)) : e.seqNo = a ∧ Consecutive (a + 1) b es := by
  have he := h.bounds e List.mem_cons_self
  obtain ⟨hhead, htail⟩ := List.pairwise_cons.1 h.sorted
  have hafter : ∀ x ∈ es, e.seqNo + 1 ≤ x.seqNo ∧ x.seqNo < b := fun x hx => by
    have := hhead x hx
    have := h.bounds x (List.mem_cons_of_mem _ hx)
    omega
  have hlen := h.length
  simp only [List.length_cons, Nat.cast_add, Nat.cast_one] at hlen
  have hle := length_le_of_sorted (by omega) htail hafter
  have heq : e.seqNo = a := by omega
  refine ⟨heq, by omega, htail, ?_, fun x hx => h.version x (List.mem_cons_of_mem _ hx)⟩
  rw [← heq]
  exact hafter

theorem Consecutive.length_filter {b k : Int} (hk : k < b) : ∀ {es : List MembershipEvent} {a : Int},
    Consecutive a b es → a ≤ k + 1 → ((es.filter fun e => k < e.seqNo).length : Int) = b - 1 - k
  | [], a, h, hak => by
    have := h.length
    simp only [List.filter_nil, List.length_nil, Nat.cast_zero, add_zero] at this ⊢
    omega
  | e :: es, a, h, hak => by
    obtain ⟨he, ht⟩ := h.tail
    rcases Int.lt_or_le k a with hlt | hle
    · have hall : (e :: es).filter (fun e => k < e.seqNo) = e :: es := by
        refine List.filter_eq_self.2 fun x hx => decide_eq_true ?_
        have := (h.bounds x hx).1
        omega
      have hlen := h.length
      rw [hall]
      omega
    · rw [List.filter_cons_of_neg (by simp only [decide_eq_true_eq]; omega)]
      exact ht.length_filter hk (by omega)

/-! ## The newest checkpoint -/

/-- The newest checkpoint is number `n`, and the log has every event since. -/
structure Saved (n : Int) (c : Coordinator) : Prop where
  sane : Sane c
  interval : c.durability.snapshotInterval = 100
  newest : c.durability.newestSeqNo = n
  start : 0 ≤ n
  latest : n < c.log.nextSeqNo
  files : ∀ k file, c.durability.files.get? k = some file → ∃ cp, file = some cp ∧ cp.nextSeqNo = k + 1
  recent : ∃ old new base, c.log.log = old ++ new ∧ (∀ e ∈ old, e.seqNo ≤ base) ∧
    Consecutive (base + 1) c.log.nextSeqNo new ∧ base ≤ n

/-- The newest checkpoint is the last multiple of the interval. -/
def Covered (c : Coordinator) : Prop := Saved (c.log.getLatestSeqNo - c.log.getLatestSeqNo % 100) c

variable {clock : Nat → Time} {c c' : Coordinator} {u : String} {n : Int}

theorem Covered.new (cfg : Settings) : Covered (.new cfg Dict.empty) where
  sane := Sane.new cfg
  interval := rfl
  newest := by
    show (((Dict.empty : Dict Int (Option Checkpoint)).items.mergeSort _).head?.map Prod.fst).getD 0 = _
    simp [Dict.empty, Coordinator.new, EventLog.new, EventLog.getLatestSeqNo]
  start := by simp [Coordinator.new, EventLog.new, EventLog.getLatestSeqNo]
  latest := by simp [Coordinator.new, EventLog.new, EventLog.getLatestSeqNo]
  files k file h := by simp [Coordinator.new] at h
  recent := ⟨[], [], 0, rfl, fun _ he => absurd he List.not_mem_nil, .nil _, by
    simp [Coordinator.new, EventLog.new, EventLog.getLatestSeqNo]⟩

/-- The lag is the distance of the numbers. -/
theorem Saved.lag (h : Saved n c) : (c.lag : Int) = c.log.getLatestSeqNo - n := by
  obtain ⟨old, new, base, hlog, hold, hnew, hbase⟩ := h.recent
  have hnone : old.filter (fun e => n < e.seqNo) = [] := by
    refine List.filter_eq_nil_iff.2 fun e he => ?_
    have := hold e he
    simp only [decide_eq_true_eq]
    omega
  unfold Coordinator.lag
  rw [h.newest, hlog, List.filter_append, hnone, List.nil_append,
    hnew.length_filter h.latest (by omega)]
  rfl

theorem Covered.bounded (h : Covered c) : BoundedLoss c := by
  unfold BoundedLoss
  rw [Saved.lag h, h.interval]
  omega

theorem Saved.not_bounded (h : Saved n c) (hn : n + 100 ≤ c.log.getLatestSeqNo) : ¬ BoundedLoss c := by
  unfold BoundedLoss
  rw [h.lag, h.interval]
  omega

theorem Saved.congr (h : Saved n c) (hs : Sane c') (hlog : c'.log = c.log) (hd : c'.durability = c.durability) :
    Saved n c' :=
  ⟨hs, hd ▸ h.interval, hd ▸ h.newest, h.start, hlog ▸ h.latest, hd ▸ h.files, hlog ▸ h.recent⟩

theorem Saved.watching (h : Saved n c) (p : PresenceManager) : Saved n (c.watching p) :=
  h.congr (h.sane.watching p) rfl rfl

theorem Saved.reading (h : Saved n c) (r : Nat) : Saved n { c with reads := r } := h.congr (h.sane.reading r) rfl rfl

theorem Saved.guarded (h : Saved n c) (u : String) : Saved n (c.guarded u) := h.congr (h.sane.guarded u) rfl rfl

/-- One event more. -/
theorem Saved.logged {e : MembershipEvent} {t : Int} {out : List (MembershipEvent × MembershipDelta)}
    (h : Saved n c) (hl : Logged c c' e t out) :
    Saved n c' ∧ c'.log.getLatestSeqNo = c.log.getLatestSeqNo + 1 := by
  obtain ⟨old, new, base, hlog, hold, hnew, hbase⟩ := h.recent
  have hnext := hl.nextSeqNo
  have hlatest := h.latest
  have hseq := hl.seqNo
  have hver := hl.version
  have hone : Consecutive c.log.nextSeqNo c'.log.nextSeqNo [e] := by
    refine ⟨by simpa using hnext, List.pairwise_singleton _ _, fun x hx => ?_, fun x hx => ?_⟩
    · rw [List.mem_singleton.1 hx]
      omega
    · rw [List.mem_singleton.1 hx]
      omega
  refine ⟨⟨hl.sane, hl.durability ▸ h.interval, hl.durability ▸ h.newest, h.start, by omega,
    hl.durability ▸ h.files, old, new ++ [e], base, ?_, hold, hnew.append hone, hbase⟩, ?_⟩
  · rw [hl.log, ← List.append_assoc, ← hlog]
    rfl
  · simp only [EventLog.getLatestSeqNo]
    omega

theorem newestSeqNo_of_max {d : Durability} {k : Int} {file : Option Checkpoint} (h : d.files.get? k = some file)
    (hmax : ∀ k' ∈ d.files.keys, k' ≤ k) : d.newestSeqNo = k := by
  obtain ⟨rest, hl⟩ := Durability.listCheckpoints_eq_cons h hmax
  simp [Durability.newestSeqNo, hl]

/-- No checkpoint is newer than the newest. -/
theorem le_newestSeqNo {d : Durability} {k : Int} (hk : k ∈ d.files.keys) : k ≤ d.newestSeqNo := by
  obtain ⟨file, hfile⟩ := (Dict.mem_keys_iff _).1 hk
  have hmem : (k, file) ∈ d.listCheckpoints := by
    rw [Durability.listCheckpoints, List.mem_mergeSort]
    exact d.files.mem_items_iff.2 hfile
  cases hl : d.listCheckpoints with
  | nil => simp [hl] at hmem
  | cons p rest =>
    have hle := (Durability.head_listCheckpoints hl).2 k hk
    simpa [Durability.newestSeqNo, hl] using hle

/-- A checkpoint at the last number becomes the newest. -/
theorem Saved.write (h : Saved n c) (hdue : 0 < c.log.getLatestSeqNo ∧ c.log.getLatestSeqNo % 100 = 0) :
    Saved c.log.getLatestSeqNo c.checkpointed := by
  have hwrite : c.checkpointed.durability = c.durability.writeCheckpoint c.log c.snapshot := by
    simp only [Coordinator.checkpointed, Durability.maybeCheckpoint, h.interval, hdue, and_self, if_true]
  have hle : ∀ k ∈ c.durability.files.keys, k ≤ c.log.getLatestSeqNo := fun k hk => by
    have hk := le_newestSeqNo hk
    have := h.newest
    have := h.latest
    simp only [EventLog.getLatestSeqNo]
    omega
  let d : Durability := { c.durability with
    files := c.durability.files.set c.log.getLatestSeqNo (some (payload c.log c.snapshot)) }
  have hget : d.files.get? c.log.getLatestSeqNo = some (some (payload c.log c.snapshot)) :=
    Dict.get?_set_self _ _ _
  have hmax : ∀ k ∈ d.files.keys, k ≤ c.log.getLatestSeqNo := by
    intro k hk
    rw [Dict.keys_set] at hk
    split at hk
    · exact hle k hk
    · rcases List.mem_append.1 hk with hk | hk
      · exact hle k hk
      · exact (List.mem_singleton.1 hk).le
  have hnew : c.checkpointed.durability.newestSeqNo = c.log.getLatestSeqNo := by
    rw [hwrite]
    exact newestSeqNo_of_max (Durability.get?_prune hget hmax) fun k hk => hmax k (Durability.keys_prune hk)
  obtain ⟨old, new, base, hlog, hold, hcons, hbase⟩ := h.recent
  have hlatest := h.latest
  refine ⟨h.sane.checkpointed, ?_, hnew, hdue.1.le, ?_, fun k file hk => ?_, old, new, base, hlog, hold, hcons, ?_⟩
  · rw [hwrite]
    exact h.interval
  · show c.log.getLatestSeqNo < c.log.nextSeqNo
    simp only [EventLog.getLatestSeqNo]
    omega
  · rw [hwrite] at hk
    have hk := Dict.get?_of_foldl_erase hk
    rw [Dict.get?_set] at hk
    split at hk
    · next heq =>
      cases hk
      exact ⟨_, rfl, by rw [heq]⟩
    · exact h.files k file hk
  · simp only [EventLog.getLatestSeqNo]
    omega

theorem Saved.skip (h : Saved n c) (hdue : ¬ (0 < c.log.getLatestSeqNo ∧ c.log.getLatestSeqNo % 100 = 0)) :
    Saved n c.checkpointed := by
  refine h.congr h.sane.checkpointed rfl ?_
  simp only [Coordinator.checkpointed, Durability.maybeCheckpoint, h.interval, hdue, if_false]

/-- A call of `maybe_checkpoint` at a multiple, or with the last multiple
saved. -/
theorem Saved.covered (h : Saved n c)
    (hn : c.log.getLatestSeqNo % 100 = 0 ∨ n = c.log.getLatestSeqNo - c.log.getLatestSeqNo % 100) :
    Covered c.checkpointed := by
  by_cases hdue : 0 < c.log.getLatestSeqNo ∧ c.log.getLatestSeqNo % 100 = 0
  · have hw := h.write hdue
    have heq : c.log.getLatestSeqNo = c.log.getLatestSeqNo - c.log.getLatestSeqNo % 100 := by omega
    rw [heq] at hw
    exact hw
  · have hs := h.skip hdue
    have heq : n = c.log.getLatestSeqNo - c.log.getLatestSeqNo % 100 := by
      have := h.start
      have := h.latest
      have : c.log.getLatestSeqNo = c.log.nextSeqNo - 1 := rfl
      omega
    rw [heq] at hs
    exact hs

/-! ## The operations -/

/-- What an operation leaves: the last multiple saved, or a whole interval
at stake. -/
def Outcome (c : Coordinator) (op : Op) (c' : Coordinator) : Prop :=
  (¬ StepsOver c op → Covered c') ∧ (StepsOver c op → ¬ BoundedLoss c')

theorem Outcome.of_covered {op : Op} (h : Covered c') (hop : ¬ StepsOver c op) : Outcome c op c' :=
  ⟨fun _ => h, fun hs => absurd hs hop⟩

theorem Covered.watching (h : Covered c) (p : PresenceManager) : Covered (c.watching p) := Saved.watching h p

/-- One event, and a checkpoint if it is due. -/
theorem Covered.recorded {e : MembershipEvent} {t : Int} {out : List (MembershipEvent × MembershipDelta)}
    {c'' : Coordinator} (h : Covered c) (hl : Logged c c' e t out) (hs : Sane c'') (hlog : c''.log = c'.log)
    (hd : c''.durability = c'.durability) : Covered c''.checkpointed := by
  obtain ⟨h', hlatest⟩ := Saved.logged h hl
  refine (h'.congr hs hlog hd).covered ?_
  rw [hlog]
  omega

/-- Two events before a checkpoint. -/
theorem Covered.twice {e₁ e₂ : MembershipEvent} {t₁ t₂ : Int} {out₁ out₂ : List (MembershipEvent × MembershipDelta)}
    {c₁ c₁' c₂ : Coordinator} (h : Covered c) (hl₁ : Logged c c₁ e₁ t₁ out₁) (hs : Sane c₁') (hlog : c₁'.log = c₁.log)
    (hd : c₁'.durability = c₁.durability) (hl₂ : Logged c₁' c₂ e₂ t₂ out₂) (p : PresenceManager) :
    ((c.log.getLatestSeqNo + 1) % 100 ≠ 0 → Covered (c₂.watching p).checkpointed) ∧
      ((c.log.getLatestSeqNo + 1) % 100 = 0 → Saved (c.log.getLatestSeqNo - 99) (c₂.watching p).checkpointed ∧
        c₂.log.getLatestSeqNo = c.log.getLatestSeqNo + 2) := by
  obtain ⟨h₁, hlatest₁⟩ := Saved.logged h hl₁
  obtain ⟨h₂, hlatest₂⟩ := (h₁.congr hs hlog hd).logged hl₂
  rw [hlog] at hlatest₂
  refine ⟨fun hne => (h₂.watching p).covered ?_, fun heq => ⟨?_, by omega⟩⟩
  · show c₂.log.getLatestSeqNo % 100 = 0 ∨ _ = c₂.log.getLatestSeqNo - c₂.log.getLatestSeqNo % 100
    omega
  · have hn : c.log.getLatestSeqNo - c.log.getLatestSeqNo % 100 = c.log.getLatestSeqNo - 99 := by omega
    rw [hn] at h₂
    refine (h₂.watching p).skip ?_
    show ¬ (0 < c₂.log.getLatestSeqNo ∧ c₂.log.getLatestSeqNo % 100 = 0)
    omega

/-- A change of someone who is not a member is passed over. -/
theorem wp_handlePresenceChange_none (h : c.snapshot.stateOf u = none) {ch : ChangeType}
    {Q : Unit → Coordinator → Prop} {E : Coordinator → Prop} (hQ : Q () c) :
    Prog.wp (exec clock) (handlePresenceChange u ch) Q E c := by
  have hm : c.snapshot.getMember u = none := Option.map_eq_none_iff.1 h
  simpa [handlePresenceChange, exec, hm] using hQ

theorem Covered.tick (h : Covered c) (cfg : Settings) :
    Prog.wp (exec clock) (Membership.tick cfg) (fun _ => Covered) Covered c := by
  refine wp_tick (R := Covered) cfg ?_ fun c₁ h₁ => ?_
  · refine Prog.wp_forEach (I := fun _ => Covered) (h.reading _) fun v _ c₁ _ h₁ => ?_
    refine wp_checkMember h₁.sane (fun _ => h₁.watching _) (fun _ => h₁.watching _) fun _ _ _ e c' _ _ _ _ hl => ?_
    exact (h₁.watching (c₁.presence.checkEntry (clock c.reads) v).1).recorded hl (hl.sane.watching _) rfl rfl
  · refine Prog.wp_forEach (I := fun _ => Covered) (h₁.reading _) fun v _ c₂ _ h₂ => ?_
    refine wp_sweepMember h₂.sane (fun _ => h₂) (fun _ => h₂) fun _ _ e c' _ _ _ _ hl => ?_
    exact h₂.recorded hl (hl.sane.watching _) rfl rfl

/-- A remote event is one event: its user has just been registered. -/
theorem Covered.remote (h : Covered c) (event : MembershipEvent) :
    Prog.wp (exec clock) (applyRemoteEvent event) (fun _ => Covered) Covered c := by
  refine wp_remote h.sane fun e c' _ hl => ?_
  simp only [Prog.wp_bind, Prog.wp_when, Prog.wp_lift, exec]
  refine ⟨fun _ => ⟨fun _ => ⟨fun hr => ?_, fun _ => ?_⟩, fun _ => ?_⟩, fun _ => ?_⟩
  · rw [watching_presence, recordHeartbeat_registerMember] at hr
    cases hr
  · exact h.recorded hl ((((hl.sane.watching _).reading _).watching _).reading _) rfl rfl
  · exact h.recorded hl ((hl.sane.watching _).reading _) rfl rfl
  · exact h.recorded hl hl.sane rfl rfl

theorem Covered.join (h : Covered c) (name : String) (key : Option Bytes) (trace : Option String) (v : Verdict) :
    Prog.wp (exec clock) (Op.prog c.settings (.join u name key trace v)) (fun _ => Outcome c (.join u name key trace v))
      (Outcome c (.join u name key trace v)) c := by
  have hg : Covered (c.guarded u) := Saved.guarded h u
  simp only [Op.prog]
  rw [Prog.wp_bind]
  refine wp_handleJoin h.sane (fun hd => .of_covered hg ?_) (fun _ hx => .of_covered hg ?_)
    (fun hd ht reason hv e c' _ _ _ _ hl => ?_) fun _ _ hv e c' _ hl => .of_covered ?_ ?_
  · rintro ⟨-, -, hs⟩
    cases v with
    | rejects reason => exact hs hd
    | accepts | raises => exact hs
  · rintro ⟨-, ht, hs⟩
    rcases hx with rfl | hx
    · exact hs
    · exact ht hx
  · -- the rejection is logged, and no checkpoint taken
    obtain ⟨h', hlatest⟩ := Saved.logged hg hl
    have hlatest' : c'.log.getLatestSeqNo = c.log.getLatestSeqNo + 1 := hlatest
    have hi : c.durability.snapshotInterval = 100 := h.interval
    subst hv
    refine ⟨fun hno => ?_, fun hs => h'.not_bounded ?_⟩
    · have hne : (c.log.getLatestSeqNo + 1) % 100 ≠ 0 := fun heq => hno ⟨by rw [hi]; exact heq, ht, hd⟩
      have heq : (c.guarded u).log.getLatestSeqNo - (c.guarded u).log.getLatestSeqNo % 100 =
          c'.log.getLatestSeqNo - c'.log.getLatestSeqNo % 100 := by
        rw [hlatest']
        show c.log.getLatestSeqNo - c.log.getLatestSeqNo % 100 = _
        omega
      rw [heq] at h'
      exact h'
    · have hz := hs.1
      rw [hi] at hz
      rw [hlatest']
      show c.log.getLatestSeqNo - c.log.getLatestSeqNo % 100 + 100 ≤ _
      omega
  · split
    · exact hg.recorded hl ((hl.sane.watching _).reading _) rfl rfl
    · exact hg.recorded hl hl.sane rfl rfl
  · rintro ⟨-, -, hs⟩
    subst hv
    exact hs

theorem Covered.leave (h : Covered c) :
    Prog.wp (exec clock) (handleLeave u) (fun _ => Outcome c (.leave u)) (Outcome c (.leave u)) c := by
  refine wp_handleLeave h.sane (fun hg => .of_covered h ?_) (fun ht => .of_covered h ?_)
    (fun _ hst e c' _ _ _ _ hl => .of_covered ?_ ?_)
    (fun ht st hst hleft hdis hleav e₁ c₁ e₂ c₂ _ _ _ _ _ _ hl₁ hl₂ => ?_)
  · rintro ⟨-, -, hs⟩
    exact hs.1 hg
  · rintro ⟨-, hs, -⟩
    exact hs ht
  · exact h.recorded hl (hl.sane.watching _) rfl rfl
  · rintro ⟨-, -, hs⟩
    exact hs.2 hst
  · have hi : c.durability.snapshotInterval = 100 := h.interval
    obtain ⟨hcov, hover⟩ := h.twice hl₁ hl₁.sane rfl rfl hl₂ (c₂.presence.unregisterMember u)
    have hgone : ¬ Gone c u := by
      rintro (hn | hl | hd)
      · simp [hst] at hn
      · exact hleft (Option.some.inj (hst.symm.trans hl))
      · exact hdis (Option.some.inj (hst.symm.trans hd))
    have hne : c.snapshot.stateOf u ≠ some .leaving := by
      rw [hst]
      exact fun heq => hleav (Option.some.inj heq)
    refine ⟨fun hno => hcov fun heq => hno ⟨by rw [hi]; exact heq, ht, hgone, hne⟩, fun hs => ?_⟩
    have hz := hs.1
    rw [hi] at hz
    obtain ⟨hsaved, hlatest⟩ := hover hz
    refine hsaved.not_bounded ?_
    show _ ≤ c₂.log.getLatestSeqNo
    omega

theorem Covered.heartbeat (h : Covered c) :
    Prog.wp (exec clock) (handleHeartbeat u) (fun _ => Outcome c (.heartbeat u)) (Outcome c (.heartbeat u)) c := by
  refine wp_handleHeartbeat h.sane (fun hn => .of_covered h ?_) (fun ht => .of_covered h ?_)
    fun ht e c₁ heu het hl => ?_
  · rintro ⟨-, -, hs⟩
    exact hs.1 hn
  · rintro ⟨-, hs, -⟩
    exact hs ht
  · have hi : c.durability.snapshotInterval = 100 := h.interval
    have hst : c₁.snapshot.stateOf u = c.snapshot.stateOf u := by
      rw [hl.state, heu, if_pos rfl, het, transition_heartbeat]
    have hterm : ¬ 1 < c₁.log.currentTerm := by
      rw [hl.term]
      omega
    have hs₁ := (hl.sane.watching (c₁.presence.recordHeartbeat (clock c₁.reads) u).1).reading (c₁.reads + 1)
    rw [hl.presence] at hs₁ ⊢
    by_cases hdoubt : Doubts c.presence u
    · -- the suspicion is taken back by a second event
      simp only [(recordHeartbeat_of_doubts hdoubt (clock c₁.reads)).1, if_true]
      by_cases hknown : c.snapshot.stateOf u = none
      · refine wp_handlePresenceChange_none ?_ ?_
        · exact hst.trans hknown
        · refine .of_covered (h.recorded hl hs₁ rfl rfl) ?_
          rintro ⟨-, -, hs⟩
          exact hs.1 hknown
      refine wp_handlePresenceChange hs₁ (fun hn => absurd (hst.symm.trans hn) hknown) (fun hlt => absurd hlt hterm)
        fun _ e₂ c₂ _ _ _ _ hl₂ => ?_
      obtain ⟨hcov, hover⟩ := h.twice hl hs₁ rfl rfl hl₂ c₂.presence
      refine ⟨fun hno => ?_, fun hs => ?_⟩
      · have hcov := hcov fun heq => hno ⟨by rw [hi]; exact heq, ht, hknown, hdoubt⟩
        exact Saved.covered hcov (.inr rfl)
      · have hz := hs.1
        rw [hi] at hz
        obtain ⟨hsaved, hlatest⟩ := hover hz
        refine (hsaved.skip ?_).not_bounded ?_
        · show ¬ (0 < c₂.log.getLatestSeqNo ∧ c₂.log.getLatestSeqNo % 100 = 0)
          omega
        · show _ ≤ c₂.log.getLatestSeqNo
          omega
    · simp only [recordHeartbeat_of_not_doubts hdoubt, Bool.false_eq_true, if_false]
      refine .of_covered (h.recorded hl hs₁ rfl rfl) ?_
      rintro ⟨-, -, hs⟩
      exact hdoubt hs.2

/-- What `recover` restores has nothing after the newest checkpoint. -/
theorem Covered.recover (h : Covered c) : Covered (c.step clock .recover) := by
  have hs : Sane (c.step clock .recover) := h.sane.step .recover
  have hr : Restored c (c.step clock .recover) := .recover c
  revert hs hr
  generalize c.step clock .recover = c'
  intro hs hr
  have hfound := hr.found
  cases hl : c.durability.listCheckpoints with
  | nil =>
    have hrec : c.durability.recover c.settings.roomId = none := by simp [Durability.recover, hl]
    rw [hrec] at hfound
    have hc' := Saved.congr h hs hfound.1 hr.durability
    rw [← hfound.1] at hc'
    exact hc'
  | cons p rest =>
    obtain ⟨hp, hmax⟩ := Durability.head_listCheckpoints hl
    obtain ⟨cp, hfile, hnext⟩ := h.files _ _ hp
    rw [hfile] at hp
    have hrec : c.durability.recover c.settings.roomId = some (Durability.reconstruct c.settings.roomId cp) := by
      simp [Durability.recover, hl, hfile]
    rw [hrec] at hfound
    have hnewest : c.durability.newestSeqNo = p.1 := by simp [Durability.newestSeqNo, hl]
    have hmult : p.1 = c.log.getLatestSeqNo - c.log.getLatestSeqNo % 100 := hnewest.symm.trans h.newest
    have hlog : c'.log.nextSeqNo = p.1 + 1 := by
      rw [hfound.1]
      exact hnext
    have hlatest : c'.log.getLatestSeqNo = p.1 := by
      simp only [EventLog.getLatestSeqNo, hlog]
      omega
    have hn : c'.log.getLatestSeqNo - c'.log.getLatestSeqNo % 100 = p.1 := by
      rw [hlatest]
      omega
    unfold Covered
    rw [hn]
    refine ⟨hs, hr.durability ▸ h.interval, hr.durability ▸ hnewest, hmult ▸ h.start, by omega, hr.durability ▸ h.files,
      c'.log.log, [], p.1, (List.append_nil _).symm, fun e he => ?_, ?_, le_rfl⟩
    · have := hs.numbered.log e he
      omega
    · rw [hlog]
      exact .nil _

/-- **What one operation does to the lag.** -/
theorem Covered.step (h : Covered c) (op : Op) : Outcome c op (c.step clock op) := by
  cases op with
  | join u name key trace v => exact Prog.wp_run (E := Outcome c (.join u name key trace v)) (h.join name key trace v)
  | startBackfill u | completeBackfill u =>
    refine .of_covered (Prog.wp_run (E := Covered) ?_) fun hs => hs.2.2
    exact wp_moveBackfill h.sane (fun _ => h) (fun _ => h) fun _ _ e c' _ _ _ _ hl => h.recorded hl hl.sane rfl rfl
  | heartbeat u => exact Prog.wp_run (E := Outcome c (.heartbeat u)) h.heartbeat
  | leave u => exact Prog.wp_run (E := Outcome c (.leave u)) h.leave
  | tick => exact .of_covered (Prog.wp_run (E := Covered) (h.tick _)) fun hs => hs.2.2
  | remote e => exact .of_covered (Prog.wp_run (E := Covered) (h.remote e)) fun hs => hs.2.2
  | recover => exact .of_covered h.recover fun hs => hs.2.2

theorem Coordinator.run_snoc (clock : Nat → Time) (c : Coordinator) (ops : List Op) (op : Op) :
    c.run clock (ops ++ [op]) = (c.run clock ops).step clock op := by
  simp only [Coordinator.run, List.foldl_append, List.foldl_cons, List.foldl_nil]

/-- **Bounded loss on crash**: after every operation of a run fewer than
`snapshot_interval` events are newer than the newest checkpoint, exactly
when no operation steps over a multiple of the interval. -/
theorem lag_bounded_iff (clock : Nat → Time) (cfg : Settings) (ops : List Op) :
    (∀ ops₁, ops₁ <+: ops → BoundedLoss ((Coordinator.new cfg Dict.empty).run clock ops₁)) ↔
      ∀ ops₁ op, ops₁ ++ [op] <+: ops → ¬ StepsOver ((Coordinator.new cfg Dict.empty).run clock ops₁) op := by
  refine Run.forall_prefix_iff (I := fun ops₁ => Covered ((Coordinator.new cfg Dict.empty).run clock ops₁)) (.new cfg)
    (fun _ => Covered.bounded) (fun ops₁ op hcov hno => ?_) (fun ops₁ op hcov hover => ?_)
  · rw [Coordinator.run_snoc]
    exact (hcov.step op).1 hno
  · rw [Coordinator.run_snoc]
    exact (hcov.step op).2 hover

/-- A member joins and lives on to event 99; the join of `c:1` that is then
rejected is event 100. -/
def rejectedAtMultiple : List Op :=
  .join "b:1" "B" none none .accepts :: List.replicate 98 (.heartbeat "b:1") ++
    [.join "c:1" "C" none none (.rejects (some "no"))]

/-- A hundred events and no checkpoint. -/
theorem not_bounded_rejectedAtMultiple :
    ((Coordinator.new ⟨"room", some "a:1", 1⟩ Dict.empty).run still rejectedAtMultiple).lag = 100 ∧
      ¬ BoundedLoss ((Coordinator.new ⟨"room", some "a:1", 1⟩ Dict.empty).run still rejectedAtMultiple) := by
  have hlag : ((Coordinator.new ⟨"room", some "a:1", 1⟩ Dict.empty).run still rejectedAtMultiple).lag = 100 := by
    decide +kernel
  have hinterval : ((Coordinator.new ⟨"room", some "a:1", 1⟩ Dict.empty).run still
      rejectedAtMultiple).durability.snapshotInterval = 100 := by
    decide +kernel
  refine ⟨hlag, ?_⟩
  rw [BoundedLoss, hlag, hinterval]
  decide

end PeerChat.Membership
