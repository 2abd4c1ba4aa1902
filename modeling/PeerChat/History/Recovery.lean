/-
Recovery of history from a peer: the requester sends its cursor
(`get_latest_vector_clock`), the provider answers with the chunks it lacks
(`build_history_chunks`), and the requester takes them in
(`_handle_history_chunk`), whatever its disk has suffered before.

`recovery_complete`: afterwards it reads what it read before and everything
the provider reads, each message once. The cursor may fall short of what
the requester has and never claims more: with a gap in some sender's
numbers it is empty, and without one each number up to it is there.
-/
import PeerChat.History.Operations

namespace PeerChat.History

open Lib LocalMessageStore

/-- Every message of the two stores has a number of its own sender, and
neither that number nor an id is used for two messages. -/
structure Compatible (d e : Disk) : Prop where
  positive : ∀ m ∈ d.stored ++ e.stored, 1 ≤ m.senderSeq
  numbers : ∀ m ∈ d.stored ++ e.stored, ∀ m' ∈ d.stored ++ e.stored, m.sender = m'.sender →
    m.senderSeq = m'.senderSeq → m = m'
  ids : ∀ m ∈ d.stored ++ e.stored, ∀ m' ∈ d.stored ++ e.stored, m.id = m'.id → m = m'

theorem Compatible.damaged {d d' e : Disk} (h : Compatible d e) (hd : Damaged d d') : Compatible d' e := by
  have hsub {m : Message} (hm : m ∈ d'.stored ++ e.stored) : m ∈ d.stored ++ e.stored := by
    rcases List.mem_append.1 hm with hm | hm
    · exact List.mem_append_left _ (hd.stored hm)
    · exact List.mem_append_right _ hm
  exact ⟨fun m hm => h.positive m (hsub hm), fun m hm m' hm' => h.numbers m (hsub hm) m' (hsub hm'),
    fun m hm m' hm' => h.ids m (hsub hm) m' (hsub hm')⟩

theorem Compatible.left {d e : Disk} (h : Compatible d e) : d.UniqueIds :=
  fun m hm m' hm' => h.ids m (List.mem_append_left _ hm) m' (List.mem_append_left _ hm')

theorem Compatible.right {d e : Disk} (h : Compatible d e) : e.UniqueIds :=
  fun m hm m' hm' => h.ids m (List.mem_append_right _ hm) m' (List.mem_append_right _ hm')

/-! ## What the provider sends -/

variable {r p : LocalMessageStore} {m : Message}

theorem mem_getMissingSince {cursor : VectorClock} :
    m ∈ p.getMissingSince cursor ↔ m ∈ p.disk.readAllMessages ∧ cursor.count m.sender < m.senderSeq := by
  rw [getMissingSince, Disk.dropSeen_of_nodup p.disk.nodup_readAllMessages fun m _ => Finset.notMem_empty m.id,
    List.mem_filter, decide_eq_true_eq]

/-- The chunks are the missing messages, cut up. -/
theorem flatMap_buildHistoryChunks {cursor : VectorClock} {transferId : String} {chunkSize : Int}
    {chunks : List HistoryChunk} (h : p.buildHistoryChunks cursor transferId chunkSize = some chunks) :
    chunks.flatMap HistoryChunk.messages = p.getMissingSince cursor := by
  have hsize : 0 < chunkSize := by
    by_contra hle
    rw [buildHistoryChunks, if_pos (not_lt.1 hle)] at h
    cases h
  have hall : (slices (p.getMissingSince cursor).length chunkSize.toNat (p.getMissingSince cursor)).flatten =
      p.getMissingSince cursor := by
    rw [flatten_slices, List.take_of_length_le]
    have hpos : 0 < chunkSize.toNat := by omega
    have hdiv := Nat.div_add_mod ((p.getMissingSince cursor).length + chunkSize.toNat - 1) chunkSize.toNat
    have hmod := Nat.mod_lt ((p.getMissingSince cursor).length + chunkSize.toNat - 1) hpos
    rw [Nat.mul_comm]
    omega
  rw [buildHistoryChunks, if_neg (not_le.2 hsize)] at h
  cases h
  rw [List.flatMap_map, List.flatMap_def]
  conv_rhs => rw [← hall]
  congr 1
  exact List.zipIdx_map_fst _ _

/-- The chunks hold the missing messages. -/
theorem exists_chunks (cursor : VectorClock) (transferId : String) {chunkSize : Int} (hsize : 0 < chunkSize) :
    ∃ chunks, p.buildHistoryChunks cursor transferId chunkSize = some chunks ∧
      ∀ m, (∃ c ∈ chunks, m ∈ c.messages) ↔ m ∈ p.getMissingSince cursor := by
  have hbuilt : ∃ chunks, p.buildHistoryChunks cursor transferId chunkSize = some chunks :=
    ⟨_, by rw [buildHistoryChunks, if_neg (not_le.2 hsize)]⟩
  obtain ⟨chunks, hc⟩ := hbuilt
  refine ⟨chunks, hc, fun m => ?_⟩
  rw [← flatMap_buildHistoryChunks hc, List.mem_flatMap]

/-- Each number up to the cursor is that of a message which is read. -/
theorem exists_of_le_cursor (s : LocalMessageStore) {u : String} {k : Int} (hpos : 1 ≤ k)
    (hle : k ≤ s.getLatestVectorClock.2.count u) :
    ∃ m ∈ s.disk.readAllMessages, m.sender = u ∧ m.senderSeq = k := by
  obtain ⟨hg, m₁, hm₁, rfl, hk₁⟩ := (le_cursor_iff s u (by omega)).1 hle
  exact hg m₁ hm₁ k hpos hk₁

theorem readAllMessages_flushIndexes (s : LocalMessageStore) :
    s.flushIndexes.disk.readAllMessages = s.disk.readAllMessages := rfl

/-- Asking for the cursor writes index files only. -/
theorem readAllMessages_getLatestVectorClock (s : LocalMessageStore) :
    s.getLatestVectorClock.1.disk.readAllMessages = s.disk.readAllMessages := by
  have hrep : s.repairIndexes.disk.readAllMessages = s.disk.readAllMessages := by
    unfold repairIndexes
    rcases Indexes.collect s.disk.iterReadableMessages (.empty, false) with ⟨repaired, twice⟩
    simp only
    split
    · rw [readAllMessages_flushIndexes]
    · split
      · rw [readAllMessages_flushIndexes]
      · rfl
  rw [← hrep]
  simp only [LocalMessageStore.getLatestVectorClock]
  split
  · split
    · rfl
    · rw [readAllMessages_flushIndexes]
  · rfl

/-- **The cursor never claims a message the store lacks**, whatever the
disk, the indexes and the flags are. So a message with a number of its
sender that the store has no message for is among those that any provider
sends for this cursor. -/
theorem cursor_sound (s : LocalMessageStore) :
    (∀ u k, 1 ≤ k → k ≤ s.getLatestVectorClock.2.count u →
      ∃ m ∈ s.getLatestVectorClock.1.disk.readAllMessages, m.sender = u ∧ m.senderSeq = k) ∧
    ∀ p : LocalMessageStore, ∀ m ∈ p.disk.readAllMessages, 1 ≤ m.senderSeq →
      (∀ m' ∈ s.getLatestVectorClock.1.disk.readAllMessages, m'.sender = m.sender → m'.senderSeq ≠ m.senderSeq) →
      m ∈ p.getMissingSince s.getLatestVectorClock.2 := by
  rw [readAllMessages_getLatestVectorClock]
  refine ⟨fun u k hpos hle => exists_of_le_cursor s hpos hle, fun p m hm hpos hlacks => ?_⟩
  refine mem_getMissingSince.2 ⟨hm, not_le.1 fun hle => ?_⟩
  obtain ⟨m', hm', hs, hk⟩ := exists_of_le_cursor s hpos hle
  exact hlacks m' hm' hs hk

/-- The cursor and a provider's messages, with compatible stores. -/
theorem stored_of_le_cursor (h : Compatible r.disk p.disk) (hm : m ∈ p.disk.stored)
    (hle : m.senderSeq ≤ r.getLatestVectorClock.2.count m.sender) : m ∈ r.disk.stored := by
  have hpos := h.positive m (List.mem_append_right _ hm)
  obtain ⟨m', hm', hs, hk⟩ := exists_of_le_cursor r hpos hle
  rw [Disk.mem_readAllMessages_iff h.left] at hm'
  rw [← h.numbers m' (List.mem_append_left _ hm') m (List.mem_append_right _ hm) hs hk]
  exact hm'

/-! ## What the requester takes in -/

/-- Taking in chunks of messages that do not clash with those it has. -/
theorem mem_stored_handleHistoryChunk : ∀ {received : List HistoryChunk} {s : LocalMessageStore}, Sound s →
    (∀ m, (m ∈ s.disk.stored ∨ ∃ c ∈ received, m ∈ c.messages) →
      ∀ m', (m' ∈ s.disk.stored ∨ ∃ c ∈ received, m' ∈ c.messages) → m.id = m'.id → m = m') →
    Sound (received.foldl handleHistoryChunk s) ∧
      ∀ m, m ∈ (received.foldl handleHistoryChunk s).disk.stored ↔
        m ∈ s.disk.stored ∨ ∃ c ∈ received, m ∈ c.messages
  | [], s, hs, _ => ⟨hs, by simp⟩
  | c :: received, s, hs, hids => by
    obtain ⟨ms, hms, hadds, hthere⟩ := Adds.saveMany hs (c.messages.map some)
    have hfrom {m : Message} (hm : m ∈ ms) : m ∈ c.messages := by simpa using hms m hm
    have hnext (m : Message) : m ∈ (s.handleHistoryChunk c).disk.stored ↔ m ∈ s.disk.stored ∨ m ∈ c.messages := by
      rw [handleHistoryChunk, hadds.stored]
      refine ⟨fun hm => hm.imp_right hfrom, fun hm => ?_⟩
      rcases hm with hm | hm
      · exact .inl hm
      · -- its id is there, and so it is
        obtain ⟨m', hm', hid⟩ := hthere m (List.mem_map.2 ⟨m, hm, rfl⟩)
        have hm'' := (hadds.stored m').1 hm'
        have hall := hm''.imp_right fun h => (⟨c, List.mem_cons_self, hfrom h⟩ : ∃ c' ∈ c :: received, m' ∈ c'.messages)
        rw [← hids m' hall m (.inr ⟨c, List.mem_cons_self, hm⟩) hid]
        exact hm''
    have hlater (m : Message) : (m ∈ (s.handleHistoryChunk c).disk.stored ∨ ∃ c' ∈ received, m ∈ c'.messages) ↔
        m ∈ s.disk.stored ∨ ∃ c' ∈ c :: received, m ∈ c'.messages := by
      rw [hnext, or_assoc]
      simp
    obtain ⟨hsound, hmem⟩ := mem_stored_handleHistoryChunk hadds.sound fun m hm m' hm' =>
      hids m ((hlater m).1 hm) m' ((hlater m').1 hm')
    exact ⟨hsound, fun m => (hmem m).trans (hlater m)⟩

/-- **History recovery is complete.** -/
theorem recovery_complete {d : Disk} (hcompat : Compatible d p.disk) (hdamage : Damaged d r.disk) (transferId : String)
    {chunkSize : Int} (hsize : 0 < chunkSize) :
    ∃ chunks, p.buildHistoryChunks r.getLatestVectorClock.2 transferId chunkSize = some chunks ∧
      ∀ received : List HistoryChunk, (∀ c, c ∈ received ↔ c ∈ chunks) →
        (∀ m, m ∈ (received.foldl handleHistoryChunk r.getLatestVectorClock.1).disk.readAllMessages ↔
          m ∈ r.disk.readAllMessages ∨ m ∈ p.disk.readAllMessages) ∧
        (received.foldl handleHistoryChunk r.getLatestVectorClock.1).disk.readAllMessages.Nodup := by
  have h := hcompat.damaged hdamage
  have hstart := Adds.getLatestVectorClock h.left
  obtain ⟨chunks, hchunks, hsent⟩ := exists_chunks (p := p) r.getLatestVectorClock.2 transferId hsize
  refine ⟨chunks, hchunks, fun received hreceived => ?_⟩
  replace hsent (m : Message) : (∃ c ∈ received, m ∈ c.messages) ↔
      m ∈ p.disk.stored ∧ r.getLatestVectorClock.2.count m.sender < m.senderSeq := by
    simp only [hreceived]
    rw [hsent, mem_getMissingSince, Disk.mem_readAllMessages_iff h.right]
  have hboth {m : Message} (hm : m ∈ r.getLatestVectorClock.1.disk.stored ∨ ∃ c ∈ received, m ∈ c.messages) :
      m ∈ r.disk.stored ++ p.disk.stored := by
    rw [hstart.stored, hsent] at hm
    rcases hm with hm | hm
    · exact List.mem_append_left _ (hm.resolve_right (by simp))
    · exact List.mem_append_right _ hm.1
  obtain ⟨hsound, hmem⟩ := mem_stored_handleHistoryChunk hstart.sound fun m hm m' hm' =>
    h.ids m (hboth hm) m' (hboth hm')
  refine ⟨fun m => ?_, List.Nodup.of_map _ (Disk.nodup_readAllMessages _)⟩
  rw [Disk.mem_readAllMessages_iff hsound.unique, Disk.mem_readAllMessages_iff h.left,
    Disk.mem_readAllMessages_iff h.right, hmem, hstart.stored, hsent]
  constructor
  · intro hor
    rcases hor with (hm | hm) | hm
    · exact .inl hm
    · cases hm
    · exact .inr hm.1
  · intro hor
    rcases hor with hm | hm
    · exact .inl (.inl hm)
    · by_cases hle : m.senderSeq ≤ r.getLatestVectorClock.2.count m.sender
      · exact .inl (.inl (stored_of_le_cursor h hm hle))
      · exact .inr ⟨hm, not_le.1 hle⟩

/-- The `seq`th message of a sender. -/
def chat (sender : String) (seq : Int) (id : String) : Message :=
  ⟨"hi", sender, id, seq, "", 10, (Dict.empty : VectorClock).set sender seq⟩

/-- A store with two messages, each in a snapshot of its own. -/
def provider : LocalMessageStore :=
  (((init (some 1) Disk.empty).save (chat "a:1" 1 "x")).1.save (chat "a:1" 2 "y")).1

/-- The same store, without the data of the first snapshot. -/
def requester : LocalMessageStore :=
  { provider with disk := { provider.disk with data := provider.disk.data.erase "snapshot-0001" } }

theorem recovery_complete_snapshot :
    ∃ chunks, provider.buildHistoryChunks requester.getLatestVectorClock.2 "t" 2 = some chunks ∧
      ∀ received : List HistoryChunk, (∀ c, c ∈ received ↔ c ∈ chunks) →
        (∀ m, m ∈ (received.foldl handleHistoryChunk requester.getLatestVectorClock.1).disk.readAllMessages ↔
          m ∈ requester.disk.readAllMessages ∨ m ∈ provider.disk.readAllMessages) ∧
        (received.foldl handleHistoryChunk requester.getLatestVectorClock.1).disk.readAllMessages.Nodup := by
  have hcompat : Compatible provider.disk provider.disk := ⟨by decide, by decide, by decide⟩
  have hdamage : Damaged provider.disk requester.disk := .eraseData _ _
  exact recovery_complete hcompat hdamage "t" (by decide)

/-- A store with the message `x` of `b:1`. -/
def other : LocalMessageStore := ((init (some 3) Disk.empty).save (chat "b:1" 1 "x")).1

/-- A store with another message `x`, of `a:1`. -/
def clashing : LocalMessageStore := ((init (some 3) Disk.empty).save (chat "a:1" 1 "x")).1

/-- **An id that is known is not taken in again.** -/
theorem shared_id_lost :
    (∀ m ∈ other.disk.stored ++ clashing.disk.stored, 1 ≤ m.senderSeq) ∧
    (∀ m ∈ other.disk.stored ++ clashing.disk.stored, ∀ m' ∈ other.disk.stored ++ clashing.disk.stored,
      m.sender = m'.sender → m.senderSeq = m'.senderSeq → m = m') ∧
    chat "a:1" 1 "x" ∈ clashing.disk.readAllMessages ∧
    ∃ chunks, clashing.buildHistoryChunks other.getLatestVectorClock.2 "t" 100 = some chunks ∧
      chat "a:1" 1 "x" ∉ (chunks.foldl handleHistoryChunk other.getLatestVectorClock.1).disk.readAllMessages := by
  refine ⟨by decide, by decide, by decide, _, rfl, by decide⟩

end PeerChat.History
