/-
The order of one sender: over connections that fail, what a node has handed
over of a sender is, in order and without a gap, what the sender was given
to broadcast first; and everything, when nothing of any message waits.
-/
import PeerChat.Distribution.CausalBroadcast
import PeerChat.Distribution.Provenance

namespace PeerChat.Links

open Lib BroadcastNode Flooding

/-- What a node was given to broadcast, oldest first. -/
def said (a : String) (es : List LinkEvent) : List Message :=
  es.filterMap fun
    | .doBroadcast o m => if o = a then some m else none
    | _ => none

variable {room : Finset String} {peers : String → List Peer} {timeout : String → Time} {es : List LinkEvent}
  {a b : String} {m : Message}

theorem mem_said : m ∈ said a es ↔ .doBroadcast a m ∈ es := by
  rw [said, List.mem_filterMap]
  constructor
  · intro h
    obtain ⟨e, he, hm⟩ := h
    cases e with
    | doBroadcast o x =>
      simp only [Option.ite_none_right_eq_some, Option.some.injEq] at hm
      obtain ⟨rfl, rfl⟩ := hm
      exact he
    | _ => cases hm
  · exact fun h => ⟨_, h, if_pos rfl⟩

/-- The ids of a sender, in the order of the broadcasts. -/
theorem ids_said (a : String) (es : List LinkEvent) :
    (said a es).map Message.id = ((broadcasts es).filter (·.2 = a)).map Prod.fst := by
  induction es with
  | nil => rfl
  | cons e es ih =>
    cases e with
    | doBroadcast o m =>
      simp only [said, broadcasts, List.filterMap_cons, List.filter_cons] at ih ⊢
      by_cases ho : o = a
      · simp [ho, ih]
      · simp [ho, ih]
    | _ => exact ih

theorem ids_said_sublist (a : String) (es : List LinkEvent) :
    ((said a es).map Message.id).Sublist (es.filterMap origin) := by
  rw [ids_said, ← broadcasts_fst]
  exact List.filter_sublist.map _

/-- A list that is a prefix of another by distinct keys is one by anything
else that the two have the same. -/
theorem map_prefix_of_key {α κ β : Type*} {f : α → κ} {g : α → β} {l l' : List α} (h : l.map f <+: l'.map f)
    (hnodup : (l'.map f).Nodup) (hsame : ∀ x ∈ l, ∃ y ∈ l', f y = f x ∧ g y = g x) : l.map g <+: l'.map g := by
  obtain ⟨hlength, hget⟩ := List.prefix_iff_getElem.1 h
  rw [List.length_map, List.length_map] at hlength
  refine List.prefix_iff_getElem.2 ⟨by simpa using hlength, fun i hi => ?_⟩
  rw [List.length_map] at hi
  obtain ⟨y, hy, hfy, hgy⟩ := hsame l[i] (List.getElem_mem hi)
  have hkey : f l[i] = f l'[i] := by
    have hi' := hget i (by simpa using hi)
    simpa using hi'
  have hyi : y = l'[i] := List.inj_on_of_nodup_map hnodup hy (List.getElem_mem _) (hfy.trans hkey)
  rw [List.getElem_map, List.getElem_map, ← hgy, hyi]

/-! ## Send order -/

section

variable (hids : (es.filterMap origin).Nodup) (hsender : ∀ a m, .doBroadcast a m ∈ es → a ∈ room ∧ m.sender = a)

include hids hsender

theorem ids_handed_isPrefix (hpunctual : Punctual room peers (new timeout) es) :
    ((((new timeout).run room peers es).node b).handed.filter (·.sender = a)).map Message.id <+:
      (said a es).map Message.id := by
  obtain ⟨N, hreach, href⟩ := refines_run hids hsender hpunctual
  have hN := netInv_of_reachable hreach
  have hprefix := hN.genuine.sender_prefix (hN.causal b) (hN.handed b) a
  rwa [href.handed b, ← show (said a es).map Message.id =
    (N.history.filter fun r => r.msg.sender = a).map fun r => r.msg.id from ?_] at hprefix
  rw [ids_said, ← href.history, List.filter_map, List.map_map]
  rfl

/-- **One sender is heard in order.** What a node has handed over of it is
what it was given to broadcast first. -/
theorem handed_isPrefix (hpunctual : Punctual room peers (new timeout) es) :
    ((((new timeout).run room peers es).node b).handed.filter (·.sender = a)).map Message.content <+:
      (said a es).map Message.content := by
  refine map_prefix_of_key (ids_handed_isPrefix hids hsender hpunctual)
    (hids.sublist (ids_said_sublist a es)) fun m hm => ?_
  obtain ⟨hm, hma⟩ := List.mem_filter.1 hm
  obtain ⟨o, x, hx, hmx⟩ := broadcast_of_handed b hm
  have ho : o = a := by
    rw [← (hsender o x hx).2, ← of_decide_eq_true hma, hmx]
  refine ⟨x, mem_said.2 (ho ▸ hx), ?_⟩
  rw [hmx]
  exact ⟨rfl, rfl⟩

end

theorem mem_broadcasts_of_doBroadcast (h : .doBroadcast a m ∈ es) : (m.id, a) ∈ broadcasts es :=
  List.mem_filterMap.2 ⟨_, h, rfl⟩

/-- Nothing of one sender is missing where nothing waits. -/
theorem handed_of_settled (hids : (es.filterMap origin).Nodup)
    (hproper : ∀ a m, .doBroadcast a m ∈ es → a ∈ room ∧ m.sender = a ∧ 0 < m.ttl)
    (hpunctual : Punctual room peers (new timeout) es)
    (hsettled : ∀ o m, .doBroadcast o m ∈ es → Settled room peers ((new timeout).run room peers es) m.id ∧
      ∀ a ∈ room, Reaches room peers m o a) (hb : b ∈ room) :
    ((((new timeout).run room peers es).node b).handed.filter (·.sender = a)).map Message.content =
      (said a es).map Message.content := by
  have hsender : ∀ a m, .doBroadcast a m ∈ es → a ∈ room ∧ m.sender = a :=
    fun a m hm => ⟨(hproper a m hm).1, (hproper a m hm).2.1⟩
  have hperm := handed_perm_of_settled hids hproper hpunctual hsettled hb
  refine (handed_isPrefix hids hsender hpunctual).eq_of_length_le ?_
  have hsub : (said a es).map Message.id ⊆
      ((((new timeout).run room peers es).node b).handed.filter (·.sender = a)).map Message.id := by
    intro i hi
    obtain ⟨m, hm, rfl⟩ := List.mem_map.1 hi
    have horigin : m.id ∈ es.filterMap origin := (ids_said_sublist a es).subset hi
    obtain ⟨x, hx, hxid⟩ := List.mem_map.1 (hperm.symm.subset horigin)
    obtain ⟨o, y, hy, hxy⟩ := broadcast_of_handed b hx
    -- the two have one id, so they are from one sender
    have hyid : y.id = m.id := by
      rw [← hxid, hxy]
    have hpair : (y.id, o) = (m.id, a) :=
      List.inj_on_of_nodup_map (broadcasts_fst es ▸ hids) (mem_broadcasts_of_doBroadcast hy)
        (mem_broadcasts_of_doBroadcast (mem_said.1 hm)) hyid
    have hxsender : x.sender = a := by
      rw [hxy]
      exact (hsender o y hy).2.trans (Prod.mk.inj hpair).2
    exact List.mem_map.2 ⟨x, List.mem_filter.2 ⟨hx, decide_eq_true hxsender⟩, hxid⟩
  have hnodup := hids.sublist (ids_said_sublist a es)
  simpa using (hnodup.subperm hsub).length_le

end PeerChat.Links
