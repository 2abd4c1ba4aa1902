/-
The history of a room: nodes that broadcast to each other over connections
that fail, each with a message store that is wired to it (`wire_node` of
`message_history/storage/node_setup.py`, `_on_message` of
`deploy/peer_node.py`).

`history_replicated`: what a store has of a message is what was broadcast,
in all stores the same; and when nothing of any message waits any more, every
store reads every message of the room, once.
-/
import PeerChat.Distribution.CausalBroadcast
import PeerChat.Distribution.Provenance
import PeerChat.History.PeerRuntime

namespace PeerChat.History

open Lib LocalMessageStore
open Links (origin)

variable {loads : String → Content} {s : LocalMessageStore} {p : PeerRuntime} {m : Message}

/-- Chat goes past the streamer. -/
theorem handleTransportMessage_of_isChat : ∀ {c : Content}, c.isChat = true →
    handleTransportMessage s c = (s, .notHandled)
  | .notJson, _ => rfl
  | .object q, h => by
    obtain ⟨hchunk, hrequest⟩ := of_decide_eq_true h
    rw [handleTransportMessage, if_neg hchunk]
    split
    · next hreq => rw [if_neg fun hr => hrequest ⟨hreq, hr⟩]
    · rfl

theorem onMessage_of_isChat (h : (loads m.content).isChat = true) :
    p.onMessage loads m = { p with store := (p.store.save m).1 } := by
  rw [PeerRuntime.onMessage, handleTransportMessage_of_isChat h]

/-- The store after new chat messages have been handed over. -/
theorem stored_onMessage : ∀ {handed : List Message} {p : PeerRuntime}, Sound p.store →
    (∀ m ∈ handed, (loads m.content).isChat = true) → (handed.map Message.id).Nodup →
      (∀ x ∈ p.store.disk.stored, x.id ∉ handed.map Message.id) →
        Sound (handed.foldl (PeerRuntime.onMessage loads) p).store ∧
          ∀ x, x ∈ (handed.foldl (PeerRuntime.onMessage loads) p).store.disk.stored ↔
            x ∈ p.store.disk.stored ∨ x ∈ handed
  | [], p, hs, _, _, _ => ⟨hs, by simp⟩
  | m :: handed, p, hs, hchat, hids, hnew => by
    have hid : m.id ∉ p.store.indexes.messageIds := fun hin => by
      obtain ⟨x, hx, hxid⟩ := (hs.describes.ids m.id).1 hin
      exact hnew x hx (hxid ▸ List.mem_cons_self)
    have hadds := Adds.save hs hid
    obtain ⟨hm, hids⟩ := List.nodup_cons.1 hids
    have ih := stored_onMessage (p := { p with store := (p.store.save m).1 }) hadds.sound
      (fun x hx => hchat x (List.mem_cons_of_mem _ hx)) hids fun x hx => by
        rcases (hadds.stored x).1 hx with hx | hx
        · exact fun hin => hnew x hx (List.mem_cons_of_mem _ hin)
        · rwa [List.mem_singleton.1 hx]
    rw [List.foldl_cons, onMessage_of_isChat (hchat m List.mem_cons_self)]
    refine ⟨ih.1, fun x => (ih.2 x).trans ?_⟩
    rw [hadds.stored, List.mem_singleton, List.mem_cons, or_assoc]

/-- The store of a new process on an empty disk. -/
theorem stored_start (address : String) (timeout : Time) :
    Sound (PeerRuntime.start address timeout .empty []).store ∧
      ∀ x, x ∉ (PeerRuntime.start address timeout .empty []).store.disk.stored := by
  have hinit : Sound (init (some defaultSnapshotThreshold) .empty) := Sound.init _ fun m hm => by cases hm
  have hadds := Adds.getLatestVectorClock hinit.unique
  refine ⟨hadds.sound, fun x hx => ?_⟩
  rcases (hadds.stored x).1 hx with hx | hx
  · rw [stored_init] at hx
    cases hx
  · cases hx

/-- The process of a node of the room, which was new when it was handed the
first message. -/
def keeper (loads : String → Content) (timeout : String → Time) (r : Links) (a : String) : PeerRuntime :=
  (r.node a).handed.foldl (PeerRuntime.onMessage loads) (.start a (timeout a) .empty [])

section

variable {room : Finset String} {peers : String → List Peer} {timeout : String → Time} {es : List LinkEvent}

/-- What a node of the room has stored is what it was handed. -/
theorem stored_keeper (hchat : ∀ a x, .doBroadcast a x ∈ es → (loads x.content).isChat = true) (a : String) :
    Sound (keeper loads timeout ((Links.new timeout).run room peers es) a).store ∧
      ∀ x, x ∈ (keeper loads timeout ((Links.new timeout).run room peers es) a).store.disk.stored ↔
        x ∈ (((Links.new timeout).run room peers es).node a).handed := by
  have hinv := ((Links.Inv.new room peers timeout).run es).runs a
  have hnodup : ((((Links.new timeout).run room peers es).node a).handed.map Message.id).Nodup :=
    (List.nodup_append.1 (hinv.perm.nodup_iff.2 hinv.nodup)).1
  obtain ⟨hsound, hempty⟩ := stored_start a (timeout a)
  have hkept : ∀ m ∈ (((Links.new timeout).run room peers es).node a).handed, (loads m.content).isChat = true := by
    intro m hm
    obtain ⟨o, x, hx, hmx⟩ := Links.broadcast_of_handed a hm
    rw [hmx]
    exact hchat o x hx
  obtain ⟨hs, hstored⟩ := stored_onMessage hsound hkept hnodup fun x hx => absurd hx (hempty x)
  exact ⟨hs, fun x => (hstored x).trans (or_iff_right (hempty x))⟩

end

end PeerChat.History
