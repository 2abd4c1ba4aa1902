/-
Who is watched: the presence tracker against the states of the snapshot.

A member that is joining, backfilling, active or suspected should have an
entry in the presence tracker, or its silence goes unnoticed. Every
operation keeps this (`Inv`) but two: `handle_leave` and a timeout found by
`tick` unregister their user also when the snapshot rejects the event.
`stays_watched_iff` says when exactly no run loses anybody.
-/
import PeerChat.Membership.Effects

namespace PeerChat.Membership

open Lib

/-- The user has no live state, is the local one, or is tracked. -/
def WatchedAt (c : Coordinator) (u : String) : Prop :=
  (c.snapshot.stateOf u).any MemberState.live = true → some u ≠ c.settings.localUserId → c.presence.Tracks u

/-- **Live members are watched.** -/
def Watched (c : Coordinator) : Prop := ∀ u, WatchedAt c u

/-- Only an accepted join makes a member live. -/
theorem live_of_transition {t : EventType} {s : Option MemberState} (ht : t ≠ .joinAccepted)
    (h : (transition t s).any MemberState.live = true) : s.any MemberState.live = true := by
  revert h
  cases s with
  | none =>
    revert ht
    cases t <;> decide
  | some st =>
    revert ht
    cases t <;> cases st <;> decide

/-- A timeout that the snapshot accepts, or one of a member that is not
live, leaves no live member behind. -/
theorem not_live_of_timeout {s : Option MemberState} (hj : s ≠ some .joining) (ha : s ≠ some .active) :
    (transition .disconnectTimeout s).any MemberState.live = false := by
  cases s with
  | none => decide
  | some st =>
    revert hj ha
    cases st <;> decide

/-- The invariant of a run. -/
structure Inv (cfg : Settings) (c : Coordinator) : Prop where
  sane : Sane c
  settings : c.settings = cfg
  watched : Watched c

variable {cfg : Settings} {c c' : Coordinator} {clock : Nat → Time} {u : String}

theorem Inv.logged (h : Inv cfg c) {e : MembershipEvent} {t : Int} {out : List (MembershipEvent × MembershipDelta)}
    (hl : Logged c c' e t out) (ht : e.eventType ≠ .joinAccepted) : Inv cfg c' where
  sane := hl.sane
  settings := hl.settings.trans h.settings
  watched v hlive hv := by
    rw [hl.settings] at hv
    rw [hl.presence]
    refine h.watched v ?_ hv
    rw [hl.state] at hlive
    split at hlive
    · exact live_of_transition ht hlive
    · exact hlive

theorem Inv.watching (h : Inv cfg c) {p : PresenceManager} (hp : ∀ v, c.presence.Tracks v → p.Tracks v) :
    Inv cfg (c.watching p) where
  sane := h.sane.watching p
  settings := h.settings
  watched v hlive hv := hp v (h.watched v hlive hv)

theorem Inv.reading (h : Inv cfg c) (r : Nat) : Inv cfg { c with reads := r } :=
  ⟨h.sane.reading r, h.settings, h.watched⟩

theorem Inv.checkpointed (h : Inv cfg c) : Inv cfg c.checkpointed := ⟨h.sane.checkpointed, h.settings, h.watched⟩

theorem Inv.unregister (h : Inv cfg c)
    (hu : (c.snapshot.stateOf u).any MemberState.live = false ∨ some u = cfg.localUserId) :
    Inv cfg (c.watching (c.presence.unregisterMember u)) where
  sane := h.sane.watching _
  settings := h.settings
  watched v hlive hv := by
    refine (PresenceManager.tracks_unregisterMember _ u v).2 ⟨?_, h.watched v hlive hv⟩
    intro he
    subst he
    cases hu with
    | inl hu => exact absurd hlive (by rw [watching_snapshot, hu]; simp)
    | inr hu => exact hv (by rw [watching_settings, h.settings]; exact hu)

/-- A presence change that is no timeout. -/
theorem Inv.presenceChange (h : Inv cfg c) {ch : ChangeType} (hch : ch ≠ .timeout) :
    Prog.wp (exec clock) (handlePresenceChange u ch) (fun _ => Inv cfg) (Inv cfg) c := by
  refine wp_handlePresenceChange h.sane (fun _ => h) (fun _ => h) fun _ e c' _ het _ _ hl => ?_
  rw [if_neg hch, watching_self]
  refine (h.logged hl ?_).checkpointed
  rw [het]
  cases ch <;> decide

/-! ## The operations that keep it -/

theorem Inv.join (h : Inv cfg c) (name : String) (key : Option Bytes) (trace : Option String) (v : Verdict) :
    Prog.wp (exec clock) (Op.prog c.settings (.join u name key trace v)) (fun _ => Inv cfg) (Inv cfg) c := by
  have hg : Inv cfg (c.guarded u) := ⟨h.sane.guarded u, h.settings, h.watched⟩
  refine wp_join h.sane hg hg (fun e c' _ het _ _ hl => ?_) (fun e c' heu het _ _ hl => ?_)
  · exact hg.logged hl (by rw [het]; decide)
  · -- between the two steps only the joining user is unwatched
    have hoff : ∀ v, v ≠ u → WatchedAt c' v := by
      intro v hv hlive hloc
      rw [hl.state, heu, if_neg hv] at hlive
      rw [hl.presence]
      exact hg.watched v hlive (hl.settings ▸ hloc)
    split
    · refine ⟨(((hl.sane.watching _).reading _)).checkpointed, hl.settings.trans h.settings, fun v hlive hloc => ?_⟩
      refine (PresenceManager.tracks_registerMember _ _ u v).2 ?_
      by_cases hv : v = u
      · exact .inl hv
      · exact .inr (hoff v hv hlive hloc)
    · next hu =>
      refine ⟨hl.sane.checkpointed, hl.settings.trans h.settings, fun v hlive hloc => ?_⟩
      by_cases hv : v = u
      · subst hv
        have hset : c'.settings = c.settings := hl.settings
        rw [checkpointed_settings, hset] at hloc
        exact absurd hloc hu
      · exact hoff v hv hlive hloc

theorem Inv.moveBackfill (h : Inv cfg c) {from_ : MemberState} {t : EventType} (ht : t ≠ .joinAccepted) :
    Prog.wp (exec clock) (moveBackfill from_ t u) (fun _ => Inv cfg) (Inv cfg) c :=
  wp_moveBackfill h.sane (fun _ => h) (fun _ => h) fun _ _ e c' _ het _ _ hl =>
    (h.logged hl (by rw [het]; exact ht)).checkpointed

/-- What a heartbeat does to the presence. -/
theorem Inv.recordHeartbeat (h : Inv cfg c) (now : Time) (r : Nat) :
    Inv cfg { c.watching (c.presence.recordHeartbeat now u).1 with reads := r } :=
  (h.watching fun v => (PresenceManager.tracks_recordHeartbeat _ _ u v).2).reading r

theorem Inv.heartbeat (h : Inv cfg c) :
    Prog.wp (exec clock) (handleHeartbeat u) (fun _ => Inv cfg) (Inv cfg) c := by
  refine wp_handleHeartbeat h.sane (fun _ => h) (fun _ => h) fun _ e c' _ het hl => ?_
  have h₁ := (h.logged hl (by rw [het]; decide)).recordHeartbeat (u := u) (clock c'.reads) (c'.reads + 1)
  simp only
  split
  · exact Prog.wp_mono (fun _ _ hi => hi.checkpointed) (fun _ hi => hi) (h₁.presenceChange (by decide))
  · exact h₁.checkpointed

theorem Inv.remote (h : Inv cfg c) (event : MembershipEvent) :
    Prog.wp (exec clock) (applyRemoteEvent event) (fun _ => Inv cfg) (Inv cfg) c := by
  refine wp_remote h.sane fun e c' he hl => ?_
  have hreg : ∀ v, v ≠ e.userId → WatchedAt c' v := by
    intro v hv hlive hloc
    rw [hl.state, if_neg hv] at hlive
    rw [hl.presence]
    exact h.watched v hlive (hl.settings ▸ hloc)
  have h₁ : Inv cfg { c'.watching (c'.presence.registerMember (clock c'.reads) e.userId) with
      reads := c'.reads + 1 } := by
    refine ⟨(hl.sane.watching _).reading _, hl.settings.trans h.settings, fun v hlive hloc => ?_⟩
    refine (PresenceManager.tracks_registerMember _ _ _ v).2 ?_
    by_cases hv : v = e.userId
    · exact .inl hv
    · exact .inr (hreg v hv hlive hloc)
  simp only [Prog.wp_bind, Prog.wp_when, Prog.wp_lift, exec]
  refine ⟨fun _ => ⟨fun _ => ⟨fun _ => ?_, fun _ => ?_⟩, fun _ => ?_⟩, fun hne => ?_⟩
  · exact Prog.wp_mono (fun _ _ hi => hi.checkpointed) (fun _ hi => hi)
      ((h₁.recordHeartbeat _ _).presenceChange (by decide))
  · exact (h₁.recordHeartbeat _ _).checkpointed
  · exact h₁.checkpointed
  · rw [not_or] at hne
    exact (h.logged hl hne.1).checkpointed

/-- Registering every live member: whoever is live is tracked, or still to
be registered. -/
theorem Sane.registered (h : Sane c) (hset : c.settings = cfg) {E : Coordinator → Prop} :
    Prog.wp (exec clock) (Prog.forEach (fun p : String × MemberInfo =>
      .when (some p.1 ≠ c.settings.localUserId ∧ p.2.state.live = true) (.lift (.registerMember p.1)))
        c.snapshot.members.items) (fun _ => Inv cfg) E c := by
  refine Prog.wp_mono (fun _ c' hc' => ?_) (fun _ hi => hi) (Prog.wp_forEach
    (I := fun l c' => Sane c' ∧ c'.settings = cfg ∧ c'.snapshot = c.snapshot ∧
      ∀ v m, c.snapshot.members.get? v = some m → m.state.live = true → some v ≠ cfg.localUserId →
        c'.presence.Tracks v ∨ (v, m) ∈ l) ?_ ?_)
  · obtain ⟨h1, h2, h3, h4⟩ := hc'
    refine ⟨h1, h2, fun v hlive hloc => ?_⟩
    rw [h3] at hlive
    simp only [Snapshot.stateOf] at hlive
    cases hm : c.snapshot.members.get? v with
    | none => simp [hm] at hlive
    | some m =>
      simp only [hm, Option.map_some, Option.any_some] at hlive
      exact (h4 v m hm hlive (h2 ▸ hloc)).resolve_right (by simp)
  · exact ⟨h, hset, rfl, fun v m hm _ _ => .inr ((Dict.mem_items_iff _).2 hm)⟩
  · intro p l' c' _ hI
    obtain ⟨h1, h2, h3, h4⟩ := hI
    rw [Prog.wp_when, Prog.wp_lift]
    simp only [exec]
    constructor
    · intro _
      refine ⟨(h1.watching _).reading _, h2, h3, fun v m hm hlive hloc => ?_⟩
      rw [show ({ c'.watching (c'.presence.registerMember (clock c'.reads) p.1) with
        reads := c'.reads + 1 } : Coordinator).presence = c'.presence.registerMember (clock c'.reads) p.1 from rfl,
        PresenceManager.tracks_registerMember]
      rcases h4 v m hm hlive hloc with ht | hmem
      · exact .inl (.inr ht)
      · cases List.mem_cons.1 hmem with
        | inl he => exact .inl (.inl (by rw [← he]))
        | inr hl => exact .inr hl
    · intro hskip
      refine ⟨h1, h2, h3, fun v m hm hlive hloc => ?_⟩
      rcases h4 v m hm hlive hloc with ht | hmem
      · exact .inl ht
      · cases List.mem_cons.1 hmem with
        | inl he =>
          refine absurd ⟨?_, ?_⟩ hskip
          · rw [← he, hset]; exact hloc
          · rw [← he]; exact hlive
        | inr hl => exact .inr hl

theorem Inv.recover (h : Inv cfg c) :
    Prog.wp (exec clock) (Membership.recover c.settings) (fun _ => Inv cfg) (Inv cfg) c := by
  simp only [Membership.recover]
  rw [Prog.wp_bind, Prog.wp_lift]
  simp only [exec]
  cases hr : c.durability.recover c.settings.roomId with
  | none => simpa using h
  | some found =>
    obtain ⟨log, s⟩ := found
    have hs := h.sane.restore hr
    simp only [Prog.wp_when]
    refine ⟨fun _ => ?_, fun hn => absurd trivial hn⟩
    rw [Prog.wp_bind, Prog.wp_lift]
    exact hs.registered h.settings

/-! ## The two that may lose a member -/

/-- A leave that the snapshot carries out, or one of the local user. -/
def LeaveSafe (c : Coordinator) (u : String) : Prop :=
  ¬ 1 < c.log.currentTerm → some u ≠ c.settings.localUserId →
    c.snapshot.stateOf u ≠ some .joining ∧ c.snapshot.stateOf u ≠ some .backfilling ∧
      c.snapshot.stateOf u ≠ some .suspected

/-- Nobody is timed out at `now` whom the snapshot has as joining or active. -/
def TickSafe (c : Coordinator) (now : Time) : Prop :=
  ¬ 1 < c.log.currentTerm → ∀ u, some u ≠ c.settings.localUserId → c.presence.Due now u →
    c.snapshot.stateOf u ≠ some .joining ∧ c.snapshot.stateOf u ≠ some .active

theorem Inv.leave (h : Inv cfg c) (hs : LeaveSafe c u) :
    Prog.wp (exec clock) (handleLeave u) (fun _ => Inv cfg) (Inv cfg) c := by
  refine wp_handleLeave h.sane (fun _ => h) (fun _ => h) (fun _ hst e c' heu het _ _ hl => ?_)
    (fun ht st hst hne1 hne2 hne3 e₁ c₁ e₂ c₂ heu₁ het₁ heu₂ het₂ _ _ hl₁ hl₂ => ?_)
  · refine ((h.logged hl (by rw [het]; decide)).unregister (.inl ?_)).checkpointed
    rw [hl.state, heu, het, hst, if_pos rfl]
    decide
  · have h₂ := (h.logged hl₁ (by rw [het₁]; decide)).logged hl₂ (by rw [het₂]; decide)
    refine (h₂.unregister ?_).checkpointed
    by_cases hloc : some u = cfg.localUserId
    · exact .inr hloc
    · obtain ⟨hj, hb, hsu⟩ := hs ht (by rw [h.settings]; exact hloc)
      refine .inl ?_
      rw [hl₂.state, hl₁.state, heu₁, heu₂, het₁, het₂, if_pos rfl, if_pos rfl, hst]
      rw [hst] at hj hb hsu
      cases st <;> first | contradiction | decide

/-- What the rounds for other users leave as it was at `c₀`. -/
structure Untouched (l : List String) (c₀ c : Coordinator) : Prop where
  nodup : l.Nodup
  state : ∀ v ∈ l, c.snapshot.stateOf v = c₀.snapshot.stateOf v
  entry : ∀ v ∈ l, c.presence.members.get? v = c₀.presence.members.get? v
  deadAfter : c.presence.deadAfterSuspectS = c₀.presence.deadAfterSuspectS
  term : 1 < c.log.currentTerm ↔ 1 < c₀.log.currentTerm

theorem Untouched.start (c : Coordinator) (r : Nat) :
    Untouched c.presence.members.keys c { c with reads := r } :=
  ⟨c.presence.members.nodup, fun _ _ => rfl, fun _ _ => rfl, rfl, Iff.rfl⟩

theorem Untouched.checkEntry {l : List String} {c₀ : Coordinator} (h : Untouched (u :: l) c₀ c) (now : Time) :
    Untouched l c₀ (c.watching (c.presence.checkEntry now u).1) where
  nodup := (List.nodup_cons.1 h.nodup).2
  state v hv := h.state v (List.mem_cons_of_mem _ hv)
  entry v hv := by
    have hne : v ≠ u := fun he => (List.nodup_cons.1 h.nodup).1 (he ▸ hv)
    rw [watching_presence, PresenceManager.get?_checkEntry _ _ hne]
    exact h.entry v (List.mem_cons_of_mem _ hv)
  deadAfter := by rw [watching_presence, PresenceManager.checkEntry_deadAfterSuspectS]; exact h.deadAfter
  term := h.term

/-- An event of a user who is not in the list, with the entry of that user
removed or not. -/
theorem Untouched.logged {l : List String} {c₀ : Coordinator} (h : Untouched l c₀ c) {e : MembershipEvent}
    {out : List (MembershipEvent × MembershipDelta)} (hl : Logged c c' e 1 out) (hu : e.userId = u) (hnot : u ∉ l)
    {p : PresenceManager} (hp : p = c'.presence ∨ p = c'.presence.unregisterMember u) :
    Untouched l c₀ (c'.watching p).checkpointed where
  nodup := h.nodup
  state v hv := by
    have hne : v ≠ e.userId := fun he => hnot (hu ▸ he ▸ hv)
    rw [checkpointed_snapshot, watching_snapshot, hl.state, if_neg hne]
    exact h.state v hv
  entry v hv := by
    have hne : v ≠ u := fun he => hnot (he ▸ hv)
    rw [checkpointed_presence, watching_presence, ← h.entry v hv, ← hl.presence]
    cases hp with
    | inl hp => rw [hp]
    | inr hp => simp only [hp, PresenceManager.unregisterMember, Dict.get?_erase, hne, if_false]
  deadAfter := by
    rw [checkpointed_presence, watching_presence, ← h.deadAfter, ← hl.presence]
    cases hp with
    | inl hp => rw [hp]
    | inr hp => rw [hp]; rfl
  term := by
    rw [checkpointed_log, watching_log, hl.term, ← h.term]
    simp

/-- The loop of `check_liveness`. -/
theorem Inv.checks (h : Inv cfg c) (hs : TickSafe c (clock c.reads)) :
    Prog.wp (exec clock) (Prog.forEach (checkMember (clock c.reads)) c.presence.members.keys) (fun _ => Inv cfg)
      (Inv cfg) { c with reads := c.reads + 1 } := by
  refine Prog.wp_mono (fun _ c' hc' => hc'.1) (fun _ hi => hi) (Prog.wp_forEach
    (I := fun l c' => Inv cfg c' ∧ Untouched l c c') ?_ ?_)
  · exact ⟨h.reading _, Untouched.start c _⟩
  · intro v l c₁ _ hI
    obtain ⟨hi, hun⟩ := hI
    have hcheck : Inv cfg (c₁.watching (c₁.presence.checkEntry (clock c.reads) v).1) :=
      hi.watching fun w => (PresenceManager.tracks_checkEntry _ _ v w).2
    have hunl := hun.checkEntry (clock c.reads)
    have hnot : v ∉ l := (List.nodup_cons.1 hun.nodup).1
    refine wp_checkMember hi.sane (fun _ => hcheck) (fun _ => ⟨hcheck, hunl⟩) fun ch hch ht e c' heu het _ _ hl => ?_
    have hlog := hcheck.logged hl (by rw [het]; cases ch <;> decide)
    by_cases hto : ch = .timeout
    · subst hto
      rw [if_pos rfl]
      refine ⟨(hlog.unregister ?_).checkpointed, hunl.logged hl heu hnot (.inr rfl)⟩
      by_cases hloc : some v = cfg.localUserId
      · exact .inr hloc
      · -- the entry was due at the start of the tick, where `TickSafe` speaks
        have hdue := ((c₁.presence.due_iff_checkEntry _ v).1 hch).congr
          (hun.entry v (by simp)).symm hun.deadAfter.symm
        obtain ⟨hj, ha⟩ := hs (fun h1 => ht (hun.term.2 h1)) v (by rw [h.settings]; exact hloc) hdue
        refine .inl ?_
        rw [hl.state, heu, if_pos rfl, het, watching_snapshot, hun.state v (by simp)]
        exact not_live_of_timeout hj ha
    · rw [if_neg hto]
      exact ⟨by rw [watching_self]; exact hlog.checkpointed, hunl.logged hl heu hnot (.inl rfl)⟩

/-- The loop of `sweep_backfill_timeouts`. -/
theorem Inv.sweep (h : Inv cfg c) (settings : Settings) (now : Time) (r : Nat) :
    Prog.wp (exec clock) (Prog.forEach (sweepMember settings now) c.snapshot.members.items) (fun _ => Inv cfg)
      (Inv cfg) { c with reads := r } := by
  refine Prog.wp_mono (fun _ c' hc' => hc'.1) (fun _ hi => hi) (Prog.wp_forEach
    (I := fun l c' => Inv cfg c' ∧ (l.map Prod.fst).Nodup ∧ ∀ p ∈ l, c'.snapshot.stateOf p.1 = some p.2.state) ?_ ?_)
  · refine ⟨h.reading _, c.snapshot.members.nodup, fun p hp => ?_⟩
    simp [Snapshot.stateOf, (Dict.mem_items_iff _).1 hp]
  · intro p l c₂ _ hI
    obtain ⟨hi₂, hnd, hst⟩ := hI
    simp only [List.map_cons, List.nodup_cons] at hnd
    have hrest : ∀ q ∈ l, c₂.snapshot.stateOf q.1 = some q.2.state :=
      fun q hq => hst q (List.mem_cons_of_mem _ hq)
    refine wp_sweepMember hi₂.sane (fun _ => hi₂) (fun _ => ⟨hi₂, hnd.2, hrest⟩)
      fun hb _ e c' heu het _ _ hl => ⟨?_, hnd.2, fun q hq => ?_⟩
    · refine ((hi₂.logged hl (by rw [het]; decide)).unregister (.inl ?_)).checkpointed
      rw [hl.state, heu, if_pos rfl, het, hst p (by simp), hb]
      decide
    · have hne : q.1 ≠ e.userId := fun he => hnd.1 (heu ▸ he ▸ List.mem_map_of_mem (f := Prod.fst) hq)
      rw [checkpointed_snapshot, watching_snapshot, hl.state, if_neg hne]
      exact hrest q hq

theorem Inv.tick (h : Inv cfg c) (hs : TickSafe c (clock c.reads)) :
    Prog.wp (exec clock) (Membership.tick c.settings) (fun _ => Inv cfg) (Inv cfg) c :=
  wp_tick c.settings (h.checks hs) fun _ h₁ => h₁.sweep _ _ _

/-! ## How they lose one -/

/-- A live member without an entry. -/
structure Lost (c : Coordinator) (u : String) : Prop where
  state : c.snapshot.stateOf u = some .joining ∨ c.snapshot.stateOf u = some .active
  untracked : ¬ c.presence.Tracks u

theorem Lost.not_watched (h : Lost c u) (hloc : some u ≠ c.settings.localUserId) : ¬ Watched c := by
  intro hw
  refine h.untracked (hw u ?_ hloc)
  cases h.state with
  | inl hj => rw [hj]; decide
  | inr ha => rw [ha]; decide

theorem Lost.watching (h : Lost c u) {p : PresenceManager} (hp : p.Tracks u → c.presence.Tracks u) :
    Lost (c.watching p) u :=
  ⟨h.state, fun htr => h.untracked (hp htr)⟩

theorem Lost.checkpointed (h : Lost c u) : Lost c.checkpointed u := ⟨h.state, h.untracked⟩

/-- The event of another user. -/
theorem Lost.logged (h : Lost c u) {e : MembershipEvent} {out : List (MembershipEvent × MembershipDelta)}
    (hl : Logged c c' e 1 out) (hne : u ≠ e.userId) : Lost c' u := by
  refine ⟨?_, ?_⟩
  · rw [hl.state, if_neg hne]
    exact h.state
  · rw [hl.presence]
    exact h.untracked

theorem Sane.leave_loses (h : Sane c) (hs : ¬ LeaveSafe c u) :
    Prog.wp (exec clock) (handleLeave u) (fun _ c' => ¬ Watched c') (fun c' => ¬ Watched c') c := by
  simp only [LeaveSafe, not_forall] at hs
  obtain ⟨ht, hloc, hst⟩ := hs
  have hst : c.snapshot.stateOf u = some .joining ∨ c.snapshot.stateOf u = some .backfilling ∨
      c.snapshot.stateOf u = some .suspected := by
    by_contra hn
    simp only [not_or] at hn
    exact hst ⟨hn.1, hn.2.1, hn.2.2⟩
  refine wp_handleLeave h (fun hg => ?_) (fun h1 => absurd h1 ht) (fun _ hl => ?_)
    (fun _ st _ _ _ _ e₁ c₁ e₂ c₂ heu₁ het₁ heu₂ het₂ _ _ hl₁ hl₂ hw => ?_)
  · rcases hst with hs | hs | hs <;> rw [hs] at hg <;> simp at hg
  · rcases hst with hs | hs | hs <;> rw [hs] at hl <;> simp at hl
  · -- both events are rejected, and the entry goes all the same
    have hsame : c₂.snapshot.stateOf u = c.snapshot.stateOf u := by
      rw [hl₂.state, hl₁.state, heu₁, heu₂, het₁, het₂, if_pos rfl, if_pos rfl]
      rcases hst with hs | hs | hs <;> rw [hs] <;> decide
    have htr := hw u
      (by
        rw [checkpointed_snapshot, watching_snapshot, hsame]
        rcases hst with hs | hs | hs <;> rw [hs] <;> decide)
      (by
        rw [checkpointed_settings, watching_settings, hl₂.settings, hl₁.settings]
        exact hloc)
    exact ((PresenceManager.tracks_unregisterMember _ u u).1 htr).1 rfl

/-- The round of a member that is timed out while joining or active: the
event is rejected, and the entry goes all the same. -/
theorem Lost.of_timeout {e : MembershipEvent} {out : List (MembershipEvent × MembershipDelta)}
    (hl : Logged c c' e 1 out) (heu : e.userId = u) (het : e.eventType = .disconnectTimeout)
    (hst : c.snapshot.stateOf u = some .joining ∨ c.snapshot.stateOf u = some .active) :
    Lost (c'.watching (c'.presence.unregisterMember u)) u := by
  refine ⟨?_, fun htr => ((PresenceManager.tracks_unregisterMember _ u u).1 htr).1 rfl⟩
  rw [watching_snapshot, hl.state, heu, if_pos rfl, het]
  cases hst with
  | inl hj => exact .inl (by rw [hj]; rfl)
  | inr ha => exact .inr (by rw [ha]; rfl)

/-- The loop of `check_liveness`: the member is as it was until its own
round, and lost from there on. -/
theorem Sane.checks_lose (h : Sane c) (ht : ¬ 1 < c.log.currentTerm) (hdue : c.presence.Due (clock c.reads) u)
    (hst : c.snapshot.stateOf u = some .joining ∨ c.snapshot.stateOf u = some .active) {E : Coordinator → Prop} :
    Prog.wp (exec clock) (Prog.forEach (checkMember (clock c.reads)) c.presence.members.keys)
      (fun _ c' => Sane c' ∧ c'.settings = c.settings ∧ ¬ 1 < c'.log.currentTerm ∧ Lost c' u) E
      { c with reads := c.reads + 1 } := by
  refine Prog.wp_mono (fun _ c' hc' => ?_) (fun _ he => he) (Prog.wp_forEach
    (I := fun l c' => Sane c' ∧ c'.settings = c.settings ∧ Untouched l c c' ∧ (u ∉ l → Lost c' u)) ?_ ?_)
  · obtain ⟨hsane, hset, hun, hlost⟩ := hc'
    exact ⟨hsane, hset, fun h1 => ht (hun.term.1 h1), hlost (by simp)⟩
  · refine ⟨h.reading _, rfl, Untouched.start c _, fun hn => ?_⟩
    obtain ⟨entry, hentry, -⟩ := hdue
    exact absurd ((Dict.mem_keys_iff _).2 ⟨entry, hentry⟩) hn
  · intro v l c₁ _ hI
    obtain ⟨hsane, hset, hun, hlost⟩ := hI
    have hnot : v ∉ l := (List.nodup_cons.1 hun.nodup).1
    have hunl := hun.checkEntry (clock c.reads)
    by_cases hv : v = u
    · subst hv
      have hcheck := PresenceManager.checkEntry_of_due (hdue.congr (hun.entry v (by simp)) hun.deadAfter)
      have hst₁ := hst
      rw [← hun.state v (by simp)] at hst₁
      refine wp_checkMember hsane (fun h1 => absurd (hun.term.1 h1) ht) (fun hq => ?_)
        fun ch hch _ e c' heu het _ _ hl => ?_
      · rw [hcheck] at hq
        rcases hst₁ with hs | hs <;> rw [hs] at hq <;> simp at hq
      · rw [hcheck] at hch
        cases hch
        exact ⟨(hl.sane.watching _).checkpointed, hl.settings.trans hset, hunl.logged hl heu hnot (.inr rfl),
          fun _ => (Lost.of_timeout hl heu het hst₁).checkpointed⟩
    · have hkeep (hn : u ∉ l) : Lost (c₁.watching (c₁.presence.checkEntry (clock c.reads) v).1) u :=
        (hlost (by simp [Ne.symm hv, hn])).watching (PresenceManager.tracks_checkEntry _ _ v u).1
      refine wp_checkMember hsane (fun h1 => absurd (hun.term.1 h1) ht) (fun _ => ?_)
        fun ch _ _ e c' heu het _ _ hl => ?_
      · exact ⟨hsane.watching _, hset, hunl, hkeep⟩
      · refine ⟨(hl.sane.watching _).checkpointed, hl.settings.trans hset,
          hunl.logged hl heu hnot (by split <;> simp), fun hn => ?_⟩
        refine (((hkeep hn).logged hl (heu ▸ Ne.symm hv)).watching fun htr => ?_).checkpointed
        split at htr
        · exact ((PresenceManager.tracks_unregisterMember _ v u).1 htr).2
        · exact htr

/-- The loop of `sweep_backfill_timeouts` does not find a lost member. -/
theorem Lost.sweep (hlost : Lost c u) (h : Sane c) (ht : ¬ 1 < c.log.currentTerm) (settings : Settings) (now : Time)
    (r : Nat) {E : Coordinator → Prop} :
    Prog.wp (exec clock) (Prog.forEach (sweepMember settings now) c.snapshot.members.items)
      (fun _ c' => c'.settings = c.settings ∧ Lost c' u) E { c with reads := r } := by
  refine Prog.wp_mono (fun _ c' hc' => ⟨hc'.2.1, hc'.2.2.2.1⟩) (fun _ he => he) (Prog.wp_forEach
    (I := fun l c' => Sane c' ∧ c'.settings = c.settings ∧ ¬ 1 < c'.log.currentTerm ∧ Lost c' u ∧
      ∀ p ∈ l, p.1 = u → p.2.state ≠ .backfilling) ?_ ?_)
  · refine ⟨h.reading _, rfl, ht, ⟨hlost.state, hlost.untracked⟩, fun p hp hpu hb => ?_⟩
    have hstp : c.snapshot.stateOf u = some .backfilling := by
      rw [← hpu, ← hb]
      simp [Snapshot.stateOf, (Dict.mem_items_iff _).1 hp]
    rcases hlost.state with hs | hs <;> rw [hs] at hstp <;> simp at hstp
  · intro p l c₂ _ hI
    obtain ⟨h1, h2, h3, h4, h5⟩ := hI
    have hrest : ∀ q ∈ l, q.1 = u → q.2.state ≠ .backfilling := fun q hq => h5 q (List.mem_cons_of_mem _ hq)
    refine wp_sweepMember h1 (fun h => absurd h h3) (fun _ => ⟨h1, h2, h3, h4, hrest⟩)
      fun hb _ e c' heu het _ _ hl => ?_
    have hne : u ≠ e.userId := fun he => h5 p (by simp) (heu.symm.trans he.symm) hb
    refine ⟨(hl.sane.watching _).checkpointed, hl.settings.trans h2, ?_, ?_, hrest⟩
    · rw [checkpointed_log, watching_log, hl.term]
      simpa using h3
    · exact ((h4.logged hl hne).watching fun htr =>
        ((PresenceManager.tracks_unregisterMember _ p.1 u).1 htr).2).checkpointed

theorem Sane.tick_loses (h : Sane c) (hs : ¬ TickSafe c (clock c.reads)) :
    Prog.wp (exec clock) (Membership.tick c.settings) (fun _ c' => ¬ Watched c') (fun c' => ¬ Watched c') c := by
  simp only [TickSafe, not_forall] at hs
  obtain ⟨ht, u, hloc, hdue, hst⟩ := hs
  have hst : c.snapshot.stateOf u = some .joining ∨ c.snapshot.stateOf u = some .active := by
    by_contra hn
    simp only [not_or] at hn
    exact hst hn
  refine wp_tick c.settings (h.checks_lose ht hdue hst) fun c₁ hR => ?_
  obtain ⟨hsane, hset, ht₁, hlost⟩ := hR
  refine Prog.wp_mono (fun _ c' hc' => ?_) (fun _ he => he) (hlost.sweep hsane ht₁ _ _ _)
  refine hc'.2.not_watched ?_
  rw [hc'.1, hset]
  exact hloc

/-! ## Runs -/

/-- After every event of a run all live members are watched. -/
def StaysWatched (clock : Nat → Time) (c : Coordinator) : List Life → Prop
  | [] => True
  | l :: ls => Watched (c.live clock l) ∧ StaysWatched clock (c.live clock l) ls

/-- The event is no leave and no tick that loses a member. -/
def LifeSafe (clock : Nat → Time) (c : Coordinator) : Life → Prop
  | .call (.leave u) => LeaveSafe c u
  | .call .tick => TickSafe c (clock c.reads)
  | _ => True

/-- Every event of a run is safe in the state it finds. -/
def RunSafe (clock : Nat → Time) (c : Coordinator) : List Life → Prop
  | [] => True
  | l :: ls => LifeSafe clock c l ∧ RunSafe clock (c.live clock l) ls

theorem Inv.restarted (h : Inv cfg c) : Inv cfg c.restarted where
  sane := h.sane.restarted
  settings := h.settings
  watched v hlive _ := by
    simp [Coordinator.restarted, Coordinator.new, Snapshot.new, Snapshot.stateOf] at hlive

/-- One event that is safe. -/
theorem Inv.live (h : Inv cfg c) {l : Life} (hs : LifeSafe clock c l) : Inv cfg (c.live clock l) := by
  cases l with
  | restart => exact h.restarted
  | call op =>
    refine Prog.wp_run (E := Inv cfg) ?_
    cases op with
    | join u name key trace v => exact h.join name key trace v
    | startBackfill u => exact h.moveBackfill (by decide)
    | completeBackfill u => exact h.moveBackfill (by decide)
    | heartbeat u => exact h.heartbeat
    | leave u => exact h.leave hs
    | tick => exact h.tick hs
    | remote e => exact h.remote e
    | recover => exact h.recover

/-- One event that is not. -/
theorem Sane.live_loses (h : Sane c) {l : Life} (hs : ¬ LifeSafe clock c l) : ¬ Watched (c.live clock l) := by
  cases l with
  | restart => exact absurd trivial hs
  | call op =>
    cases op with
    | leave u => exact Prog.wp_run (h.leave_loses hs)
    | tick => exact Prog.wp_run (h.tick_loses hs)
    | join _ _ _ _ _ | startBackfill _ | completeBackfill _ | heartbeat _ | remote _ | recover =>
      exact absurd trivial hs

theorem Inv.stays_iff : ∀ {ls : List Life} {c : Coordinator}, Inv cfg c →
    (StaysWatched clock c ls ↔ RunSafe clock c ls)
  | [], _, _ => Iff.rfl
  | l :: ls, c, h => by
    constructor
    · intro hw
      have hs : LifeSafe clock c l := by
        by_contra hn
        exact h.sane.live_loses hn hw.1
      exact ⟨hs, (h.live hs).stays_iff.1 hw.2⟩
    · intro hs
      exact ⟨(h.live hs.1).watched, (h.live hs.1).stays_iff.2 hs.2⟩

/-- **When live members stay watched**: in a run of a node, at any times,
exactly when no leave is of a user that is joining, backfilling or
suspected, and no tick times out one that is joining or active. -/
theorem stays_watched_iff (clock : Nat → Time) (cfg : Settings) (ls : List Life) :
    StaysWatched clock (.new cfg Dict.empty) ls ↔ RunSafe clock (.new cfg Dict.empty) ls := by
  refine Inv.stays_iff ⟨Sane.new cfg, rfl, fun u hlive _ => ?_⟩
  simp [Coordinator.new, Snapshot.new, Snapshot.stateOf] at hlive

/-- A peer that joins, is silent through its backfill, and stays silent: the
presence suspects it while it is joining, which the snapshot rejects, and
times it out once it is active, which the snapshot rejects too. -/
def silentPeer : List Life :=
  [.call (.join "b:1" "B" none none .accepts), .call .tick, .call (.startBackfill "b:1"),
    .call (.completeBackfill "b:1"), .call .tick]

/-- The node of the run, in seconds. -/
def silentStart : Coordinator := .new ⟨"room", some "a:1", 1⟩ Dict.empty

/-- A clock that is read every twenty seconds. -/
def slowClock (n : Nat) : Time := 20 * n

theorem active_but_untracked :
    (silentPeer.foldl (Coordinator.live slowClock) silentStart).snapshot.stateOf "b:1" = some .active ∧
    ¬ (silentPeer.foldl (Coordinator.live slowClock) silentStart).presence.Tracks "b:1" ∧
    ¬ StaysWatched slowClock silentStart silentPeer := by
  have hact : (silentPeer.foldl (Coordinator.live slowClock) silentStart).snapshot.stateOf "b:1" = some .active := by
    decide
  have hout : ¬ (silentPeer.foldl (Coordinator.live slowClock) silentStart).presence.Tracks "b:1" := by decide
  refine ⟨hact, hout, fun hw => hout (hw.2.2.2.2.1 "b:1" ?_ (by decide))⟩
  exact congrArg (Option.any MemberState.live) hact

end PeerChat.Membership
