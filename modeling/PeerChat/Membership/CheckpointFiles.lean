/-
The checkpoint files of several rooms in one directory
(`DurabilityManager`, `peer_discovery/membership/durability.py`).

The name of a file joins the room and the number with underscores, and a
greedy regular expression takes it apart again. A number has no underscore,
so the last one is in front of it (`matchCheckpoint_fileName`).
`represents_run`: the directory is then a store of its own for each room, and
`rooms_do_not_interfere` follows.
-/
import PeerChat.Lib.Decimal
import PeerChat.Lib.Largest
import PeerChat.Lib.Run
import PeerChat.Membership.Checkpoint

namespace PeerChat.Membership

open Lib

/-! ## Names -/

/-- The decimal digits beyond ASCII, which `\d` matches and `int` reads. -/
abbrev Digits := Char → Option Nat

section

variable (U : Digits)

def digitValue (c : Char) : Option Nat :=
  if c.isDigit then some (c.toNat - '0'.toNat) else if c.toNat < 128 then none else U c

/-- `int(seq_str)`. -/
def seqNumber (digits : List Char) : Nat := digits.foldl (fun n c => 10 * n + (digitValue U c).getD 0) 0

/-- `_(\d+)\.json$`. -/
def matchSeq : List Char → Option (List Char)
  | '_' :: cs =>
    let digits := cs.takeWhile fun c => (digitValue U c).isSome
    let rest := cs.dropWhile fun c => (digitValue U c).isSome
    if digits ≠ [] ∧ (rest = ".json".toList ∨ rest = ".json\n".toList) then some digits else none
  | _ => none

/-- `(.+)_(\d+)\.json$`, with what the first group has so far. The group
first takes another character, and ends here when that leads nowhere. -/
def matchRoom (room : List Char) : List Char → Option (List Char × List Char)
  | [] => none
  | c :: cs =>
    match if c = '\n' then none else matchRoom (room ++ [c]) cs with
    | some groups => some groups
    | none => if room = [] then none else (matchSeq U (c :: cs)).map (room, ·)

/-- `_CHECKPOINT_RE.match`, with the groups converted. -/
def matchCheckpoint (name : String) : Option (String × Int) :=
  if "checkpoint_".toList <+: name.toList then
    (matchRoom U [] (name.toList.drop 11)).map fun g => (String.ofList g.1, (seqNumber U g.2 : Int))
  else none

/-- The name of a checkpoint file. -/
def fileName (roomId : String) (seqNo : Int) : String := "checkpoint_" ++ roomId ++ "_" ++ toString seqNo ++ ".json"

/-! ## Files -/

variable {α : Type}

/-- `_list_checkpoints`, with the names of the files; newest first. -/
def listFiles (dir : Dict String α) (roomId : String) : List (Int × String) :=
  (dir.keys.filterMap fun name =>
    match matchCheckpoint U name with
    | some (fileRoom, seqNo) => if fileRoom = roomId then some (seqNo, name) else none
    | none => none).mergeSort fun a b => decide (b.1 ≤ a.1)

/-- `_prune`. -/
def pruneFiles (dir : Dict String α) (roomId : String) : Dict String α :=
  ((listFiles U dir roomId).drop keepLast).foldl (fun dir p => dir.erase p.2) dir

/-- `_write_checkpoint`, once the payload is known: the temporary file takes
the place of the final one. -/
def writeFile (dir : Dict String α) (roomId : String) (seqNo : Int) (payload : α) : Dict String α :=
  let finalPath := fileName roomId seqNo
  let dir := dir.set (finalPath ++ ".tmp") payload
  let dir := (dir.erase (finalPath ++ ".tmp")).set finalPath payload
  pruneFiles U dir roomId

/-- `recover`, on files that are kept as what they decode to. -/
def recoverFiles (dir : Dict String (Option Checkpoint)) (roomId : String) : Option (EventLog × Snapshot) :=
  (listFiles U dir roomId).findSome? fun p =>
    match dir.get? p.2 with
    | some (some c) => some (Durability.reconstruct roomId c)
    | some none | none => none

end

/-- The id of a room, as far as files are concerned. -/
structure RoomId where
  name : String
  nonempty : name ≠ ""
  plain : ∀ c ∈ name.toList, c ≠ '/' ∧ c ≠ '\x00' ∧ c ≠ '\n'
  deriving DecidableEq

/-- A call of `_write_checkpoint`. -/
structure Write where
  room : RoomId
  seqNo : Nat
  log : EventLog
  snapshot : Snapshot
  roomId : log.roomId = room.name
  latest : log.getLatestSeqNo = seqNo

/-- The directory after a call. -/
def Write.apply (U : Digits) (dir : Dict String (Option Checkpoint)) (w : Write) : Dict String (Option Checkpoint) :=
  writeFile U dir w.log.roomId w.log.getLatestSeqNo (some (payload w.log w.snapshot))

/-- The directory after a sequence of calls. -/
def runWrites (U : Digits) (ws : List Write) : Dict String (Option Checkpoint) := ws.foldl (Write.apply U) Dict.empty

/-! ## Taking names apart -/

variable {U : Digits}

theorem digitValue_of_isDigit {c : Char} (h : c.isDigit = true) : digitValue U c = some (c.toNat - '0'.toNat) :=
  if_pos h

theorem seqNumber_toDigits (n : Nat) : seqNumber U (Nat.toDigits 10 n) = n := by
  have hfold : ∀ (cs : List Char) (k : Nat), (∀ c ∈ cs, c.isDigit = true) →
      cs.foldl (fun n c => 10 * n + (digitValue U c).getD 0) k = Nat.ofDigitChars 10 cs k := by
    intro cs
    induction cs with
    | nil => intro k _; simp
    | cons c cs ih =>
      intro k h
      have hc : c.isDigit = true := h c List.mem_cons_self
      rw [List.foldl_cons, digitValue_of_isDigit hc, Option.getD_some, Nat.ofDigitChars_cons,
        ih _ fun d hd => h d (List.mem_cons_of_mem _ hd)]
  rw [seqNumber, hfold _ _ fun c hc => isDigit_of_mem_toDigits hc, Nat.ofDigitChars_toDigits (by decide) (by decide)]

theorem matchSeq_append {digits : List Char} (hne : digits ≠ []) (h : ∀ c ∈ digits, c.isDigit = true) :
    matchSeq U ('_' :: (digits ++ ".json".toList)) = some digits := by
  have hdigit : ∀ c ∈ digits, (digitValue U c).isSome = true := fun c hc => by
    rw [digitValue_of_isDigit (h c hc)]
    rfl
  have htake : (digits ++ ".json".toList).takeWhile (fun c => (digitValue U c).isSome) = digits := by
    rw [List.takeWhile_append_of_pos hdigit]
    exact List.append_nil digits
  have hdrop : (digits ++ ".json".toList).dropWhile (fun c => (digitValue U c).isSome) = ".json".toList := by
    rw [List.dropWhile_append_of_pos hdigit]
    rfl
  simp only [matchSeq, htake, hdrop, ne_eq, hne, not_false_eq_true, true_or, and_self, if_true]

theorem matchSeq_of_ne {c : Char} (hc : c ≠ '_') (cs : List Char) : matchSeq U (c :: cs) = none := by
  unfold matchSeq
  split
  · next heq => exact absurd (List.cons.inj heq).1 hc
  · rfl

/-- Where there is no underscore, no second group begins. -/
theorem matchRoom_of_notMem {cs : List Char} (h : '_' ∉ cs) (room : List Char) : matchRoom U room cs = none := by
  induction cs generalizing room with
  | nil => rfl
  | cons c cs ih =>
    obtain ⟨hc, hcs⟩ := not_or.1 (mt List.mem_cons.2 h)
    have hrest : (if c = '\n' then none else matchRoom U (room ++ [c]) cs) = none := by
      split
      · rfl
      · exact ih hcs _
    simp only [matchRoom, hrest, matchSeq_of_ne (Ne.symm hc), Option.map_none, ite_self]

/-- The first group ends at the last underscore. -/
theorem matchRoom_underscore {room cs : List Char} (hroom : room ≠ []) (h : '_' ∉ cs) :
    matchRoom U room ('_' :: cs) = (matchSeq U ('_' :: cs)).map (room, ·) := by
  have hrest : (if '_' = '\n' then none else matchRoom U (room ++ ['_']) cs) = none :=
    (if_neg (by decide)).trans (matchRoom_of_notMem h _)
  simp only [matchRoom, hrest, if_neg hroom]

theorem matchRoom_append {g : List Char × List Char} {room cs : List Char} (h : '\n' ∉ room) (front : List Char)
    (hg : matchRoom U (front ++ room) cs = some g) : matchRoom U front (room ++ cs) = some g := by
  induction room generalizing front with
  | nil => simpa using hg
  | cons c room ih =>
    obtain ⟨hc, hroom⟩ := not_or.1 (mt List.mem_cons.2 h)
    have hrest : (if c = '\n' then none else matchRoom U (front ++ [c]) (room ++ cs)) = some g := by
      rw [if_neg (Ne.symm hc)]
      exact ih hroom _ (by simpa using hg)
    simp only [List.cons_append, matchRoom, hrest]

theorem toList_fileName (roomId : String) (n : Nat) : (fileName roomId n).toList =
    "checkpoint_".toList ++ (roomId.toList ++ '_' :: (Nat.toDigits 10 n ++ ".json".toList)) := by
  have hnum : (toString (n : Int)).toList = Nat.toDigits 10 n := by
    show (String.ofList (Nat.toDigits 10 n)).toList = _
    rw [String.toList_ofList]
  simp only [fileName, String.toList_append, hnum, List.append_assoc]
  rfl

/-- **A name is taken apart as it was put together.** -/
theorem matchCheckpoint_fileName (U : Digits) (room : RoomId) (n : Nat) :
    matchCheckpoint U (fileName room.name n) = some (room.name, (n : Int)) := by
  have hdigits : ∀ c ∈ Nat.toDigits 10 n, c.isDigit = true := fun c hc => isDigit_of_mem_toDigits hc
  have hune : '_' ∉ Nat.toDigits 10 n ++ ".json".toList := by
    rw [List.mem_append]
    rintro (h | h)
    · exact absurd (hdigits _ h) (by decide)
    · exact absurd h (by decide)
  have hne : room.name.toList ≠ [] := fun h => room.nonempty (String.toList_eq_nil_iff.1 h)
  have hline : '\n' ∉ room.name.toList := fun h => (room.plain _ h).2.2 rfl
  have hgroups : matchRoom U [] (room.name.toList ++ '_' :: (Nat.toDigits 10 n ++ ".json".toList)) =
      some (room.name.toList, Nat.toDigits 10 n) := by
    refine matchRoom_append hline [] ?_
    rw [List.nil_append, matchRoom_underscore hne hune, matchSeq_append (by simp) hdigits]
    rfl
  have hdrop : (fileName room.name n).toList.drop 11 =
      room.name.toList ++ '_' :: (Nat.toDigits 10 n ++ ".json".toList) := by
    rw [toList_fileName]
    exact List.drop_left' (by decide)
  rw [matchCheckpoint, if_pos (toList_fileName room.name n ▸ List.prefix_append _ _), hdrop, hgroups, Option.map_some,
    String.ofList_toList, seqNumber_toDigits]

theorem fileName_inj {room room' : RoomId} {n n' : Nat} (h : fileName room.name n = fileName room'.name n') :
    room = room' ∧ n = n' := by
  have hmatch := matchCheckpoint_fileName (fun _ => none) room n
  rw [h, matchCheckpoint_fileName, Option.some.injEq, Prod.mk.injEq] at hmatch
  obtain ⟨hname, hn⟩ := hmatch
  cases room
  cases room'
  cases hname
  exact ⟨rfl, (Int.ofNat.inj hn).symm⟩

/-! ## One directory, one store for each room -/

/-- The directory holds the files of the rooms and no others. -/
structure Represents (U : Digits) (dir : Dict String (Option Checkpoint)) (rooms : RoomId → Durability) : Prop where
  names : ∀ name ∈ dir.keys, ∃ (room : RoomId) (n : Nat), name = fileName room.name n
  files : ∀ (room : RoomId) (n : Nat), dir.get? (fileName room.name n) = (rooms room).files.get? n
  numbered : ∀ (room : RoomId), ∀ k ∈ (rooms room).files.keys, ∃ n : Nat, k = n

variable {dir : Dict String (Option Checkpoint)} {rooms : RoomId → Durability}

theorem mem_listFiles {α : Type} {dir : Dict String α} {roomId : String} {p : Int × String} :
    p ∈ listFiles U dir roomId ↔ p.2 ∈ dir.keys ∧ matchCheckpoint U p.2 = some (roomId, p.1) := by
  rw [listFiles, List.mem_mergeSort, List.mem_filterMap]
  constructor
  · rintro ⟨name, hname, h⟩
    split at h
    · next fileRoom seqNo hmatch =>
      split at h
      · next hroom =>
        cases h
        exact ⟨hname, hroom ▸ hmatch⟩
      · cases h
    · cases h
  · rintro ⟨hname, hmatch⟩
    exact ⟨p.2, hname, by simp [hmatch]⟩

/-- Newest first. -/
theorem pairwise_newestFirst {β : Type} (l : List (Int × β)) :
    (l.mergeSort fun a b => decide (b.1 ≤ a.1)).Pairwise fun a b => b.1 ≤ a.1 := by
  refine (List.pairwise_mergeSort (fun a b c hab hbc => ?_) (fun a b => ?_) l).imp fun h => of_decide_eq_true h
  · simp only [decide_eq_true_eq] at *
    omega
  · simp only [Bool.or_eq_true, decide_eq_true_eq]
    omega

theorem nodup_listFiles {α : Type} (dir : Dict String α) (roomId : String) : (listFiles U dir roomId).Nodup := by
  rw [listFiles, (List.mergeSort_perm _ _).nodup_iff]
  refine List.Nodup.filterMap (fun name name' p hp hp' => ?_) dir.nodup
  have hname {name : String} (h : p ∈ (match matchCheckpoint U name with
      | some (fileRoom, seqNo) => if fileRoom = roomId then some (seqNo, name) else none
      | none => none)) : p.2 = name := by
    rw [Option.mem_def] at h
    split at h
    · split at h
      · cases h
        rfl
      · cases h
    · cases h
  rw [← hname hp, hname hp']

theorem Durability.nodup_listCheckpoints (d : Durability) : (d.listCheckpoints.map Prod.fst).Nodup :=
  ((List.mergeSort_perm _ _).map Prod.fst).nodup_iff.2 d.files.nodup

theorem Durability.mem_listCheckpoints {d : Durability} {p : Int × Option Checkpoint} :
    p ∈ d.listCheckpoints ↔ d.files.get? p.1 = some p.2 := by
  rw [listCheckpoints, List.mem_mergeSort]
  exact d.files.mem_items_iff

/-- A room's files are listed as they would be in a directory of its own. -/
theorem Represents.listFiles_eq (h : Represents U dir rooms) (room : RoomId) :
    listFiles U dir room.name = (rooms room).listCheckpoints.map fun p => (p.1, fileName room.name p.1) := by
  have hnodup := (rooms room).nodup_listCheckpoints
  have hmem (p : Int × String) : p ∈ listFiles U dir room.name ↔
      p ∈ (rooms room).listCheckpoints.map fun p => (p.1, fileName room.name p.1) := by
    rw [mem_listFiles, List.mem_map]
    constructor
    · rintro ⟨hname, hmatch⟩
      obtain ⟨room', n, hp⟩ := h.names _ hname
      rw [hp, matchCheckpoint_fileName, Option.some.injEq, Prod.mk.injEq] at hmatch
      obtain ⟨hroom, hn⟩ := hmatch
      obtain ⟨file, hfile⟩ := (dir.mem_keys_iff).1 hname
      refine ⟨(n, file), Durability.mem_listCheckpoints.2 ?_, ?_⟩
      · rw [← h.files room n, ← hroom, ← hp, hfile]
      · exact Prod.ext hn (by rw [hp, hroom])
    · rintro ⟨q, hq, rfl⟩
      have hq := Durability.mem_listCheckpoints.1 hq
      obtain ⟨n, hn⟩ := h.numbered room q.1 ((rooms room).files.mem_keys_iff.2 ⟨_, hq⟩)
      show fileName room.name q.1 ∈ dir.keys ∧ matchCheckpoint U (fileName room.name q.1) = some (room.name, q.1)
      rw [hn] at hq ⊢
      exact ⟨dir.mem_keys_iff.2 ⟨_, (h.files room n).trans hq⟩, matchCheckpoint_fileName U room n⟩
  have hperm : (listFiles U dir room.name).Perm
      ((rooms room).listCheckpoints.map fun p => (p.1, fileName room.name p.1)) := by
    refine (List.perm_ext_iff_of_nodup (nodup_listFiles _ _) ?_).2 hmem
    refine List.Nodup.of_map Prod.fst ?_
    rw [List.map_map]
    exact hnodup
  refine hperm.eq_of_pairwise (fun p q hp hq hpq hqp => ?_) (pairwise_newestFirst _) ?_
  · obtain ⟨p', -, rfl⟩ := List.mem_map.1 ((hmem p).1 hp)
    obtain ⟨q', -, rfl⟩ := List.mem_map.1 hq
    have hsame : p'.1 = q'.1 := le_antisymm hqp hpq
    rw [hsame]
  · exact List.pairwise_map.2 (pairwise_newestFirst _)

theorem fileName_ne_tmp (room room' : RoomId) (n n' : Nat) :
    fileName room.name n ≠ fileName room'.name n' ++ ".tmp" := by
  intro h
  have hlast := congrArg (fun name : String => name.toList.getLast?) h
  simp only [fileName, String.toList_append, List.getLast?_append] at hlast
  have hjson : ".json".toList.getLast? = some 'n' := rfl
  have htmp : ".tmp".toList.getLast? = some 'p' := rfl
  rw [hjson, htmp, Option.some_or, Option.some_or] at hlast
  cases hlast

/-- Pruning a room leaves the files of the others alone, whatever else is in
the directory. -/
theorem get?_pruneFiles_of_ne {α : Type} (dir : Dict String α) {room room' : RoomId} (h : room ≠ room') (n : Nat) :
    (pruneFiles U dir room'.name).get? (fileName room.name n) = dir.get? (fileName room.name n) := by
  rw [pruneFiles, Dict.get?_foldl_erase, if_neg]
  intro hmem
  obtain ⟨p, hp, hname⟩ := List.mem_map.1 hmem
  have hmatch := (mem_listFiles.1 (List.mem_of_mem_drop hp)).2
  rw [hname, matchCheckpoint_fileName, Option.some.injEq, Prod.mk.injEq] at hmatch
  obtain ⟨⟩ := room
  obtain ⟨⟩ := room'
  cases hmatch.1
  exact h rfl

theorem Write.get?_apply_of_ne (w : Write) (dir : Dict String (Option Checkpoint)) {room : RoomId} (h : room ≠ w.room)
    (n : Nat) : (w.apply U dir).get? (fileName room.name n) = dir.get? (fileName room.name n) := by
  have hfinal : fileName room.name n ≠ fileName w.room.name w.seqNo := fun he => h (fileName_inj he).1
  have htmp := fileName_ne_tmp room w.room n w.seqNo
  rw [Write.apply, w.roomId, w.latest, writeFile, get?_pruneFiles_of_ne _ h, Dict.get?_set_of_ne _ _ hfinal,
    Dict.get?_erase, if_neg htmp, Dict.get?_set_of_ne _ _ htmp]

theorem Represents.prune (h : Represents U dir rooms) (room : RoomId) :
    Represents U (pruneFiles U dir room.name) (Function.update rooms room (rooms room).prune) where
  names name hname := by
    obtain ⟨file, hfile⟩ := Dict.mem_keys_iff _ |>.1 hname
    exact h.names name ((Dict.mem_keys_iff _).2 ⟨file, Dict.get?_of_foldl_erase hfile⟩)
  files room' n := by
    by_cases hroom : room' = room
    · subst hroom
      have hiff : fileName room'.name n ∈ ((listFiles U dir room'.name).drop keepLast).map Prod.snd ↔
          (n : Int) ∈ ((rooms room').listCheckpoints.drop keepLast).map Prod.fst := by
        rw [h.listFiles_eq, ← List.map_drop, List.map_map, List.mem_map, List.mem_map]
        refine exists_congr fun p => and_congr_right fun hp => ?_
        have hkey := Durability.mem_listCheckpoints.1 (List.mem_of_mem_drop hp)
        obtain ⟨k, hk⟩ := h.numbered room' p.1 ((rooms room').files.mem_keys_iff.2 ⟨_, hkey⟩)
        show fileName room'.name p.1 = fileName room'.name n ↔ p.1 = n
        rw [hk]
        exact ⟨fun he => by rw [(fileName_inj he).2], fun he => by rw [he]⟩
      rw [Function.update_self, pruneFiles, Dict.get?_foldl_erase, Durability.prune, Dict.get?_foldl_erase, h.files]
      simp only [hiff]
    · rw [Function.update_of_ne hroom, get?_pruneFiles_of_ne _ hroom, h.files]
  numbered room' k hk := by
    by_cases hroom : room' = room
    · subst hroom
      rw [Function.update_self] at hk
      exact h.numbered _ k (Durability.keys_prune hk)
    · rw [Function.update_of_ne hroom] at hk
      exact h.numbered _ k hk

/-- The store of a room gets the file under its number, and is pruned. -/
theorem Write.writeCheckpoint_eq (w : Write) (d : Durability) : d.writeCheckpoint w.log w.snapshot =
    Durability.prune { d with files := d.files.set w.seqNo (some (payload w.log w.snapshot)) } := by
  show Durability.prune { d with
    files := d.files.set w.log.getLatestSeqNo (some (payload w.log w.snapshot)) } = _
  rw [w.latest]

/-- A write takes place in the store of its room. -/
theorem Represents.write (h : Represents U dir rooms) (w : Write) :
    Represents U (w.apply U dir)
      (Function.update rooms w.room ((rooms w.room).writeCheckpoint w.log w.snapshot)) := by
  let finalPath := fileName w.room.name w.seqNo
  let file := some (payload w.log w.snapshot)
  let put : Durability := { rooms w.room with files := (rooms w.room).files.set w.seqNo file }
  have hget (name : String) :
      (((dir.set (finalPath ++ ".tmp") file).erase (finalPath ++ ".tmp")).set finalPath file).get? name =
        if name = finalPath then some file else if name = finalPath ++ ".tmp" then none else dir.get? name := by
    rw [Dict.get?_set, Dict.get?_erase, Dict.get?_set]
    split
    · rfl
    · split <;> rfl
  have hput : Represents U (((dir.set (finalPath ++ ".tmp") file).erase (finalPath ++ ".tmp")).set finalPath file)
      (Function.update rooms w.room put) := by
    refine ⟨fun name hname => ?_, fun room n => ?_, fun room k hk => ?_⟩
    · obtain ⟨x, hx⟩ := (Dict.mem_keys_iff _).1 hname
      rw [hget] at hx
      split at hx
      · next he => exact ⟨w.room, w.seqNo, he⟩
      · split at hx
        · cases hx
        · exact h.names name ((Dict.mem_keys_iff _).2 ⟨x, hx⟩)
    · rw [hget, if_neg (fileName_ne_tmp room w.room n w.seqNo), h.files]
      by_cases hroom : room = w.room
      · subst hroom
        rw [Function.update_self, Dict.get?_set]
        refine if_congr ⟨fun he => ?_, fun he => ?_⟩ rfl rfl
        · rw [(fileName_inj he).2]
        · rw [he]
      · rw [Function.update_of_ne hroom, if_neg fun he => hroom (fileName_inj he).1]
    · by_cases hroom : room = w.room
      · subst hroom
        rw [Function.update_self] at hk
        obtain ⟨x, hx⟩ := (Dict.mem_keys_iff _).1 hk
        rw [Dict.get?_set] at hx
        split at hx
        · next he => exact ⟨_, he⟩
        · exact h.numbered _ k ((Dict.mem_keys_iff _).2 ⟨x, hx⟩)
      · rw [Function.update_of_ne hroom] at hk
        exact h.numbered _ k hk
  have hprune := hput.prune w.room
  rw [Function.update_self, Function.update_idem] at hprune
  rw [Write.apply, w.roomId, w.latest, w.writeCheckpoint_eq]
  exact hprune

/-- The stores of the rooms after a sequence of calls. -/
def stores (ws : List Write) : RoomId → Durability :=
  ws.foldl (fun rooms w => Function.update rooms w.room ((rooms w.room).writeCheckpoint w.log w.snapshot))
    fun _ => ⟨100, Dict.empty⟩

/-- **The directory is a store of its own for each room.** -/
theorem represents_run (U : Digits) (ws : List Write) : Represents U (runWrites U ws) (stores ws) := by
  induction ws using List.reverseRecOn with
  | nil => exact ⟨fun _ h => absurd h List.not_mem_nil, fun _ _ => rfl, fun _ _ h => absurd h List.not_mem_nil⟩
  | append_singleton ws w ih =>
    rw [runWrites, stores, List.foldl_append, List.foldl_append]
    exact ih.write w

/-! ## The newest two -/

/-- The numbers that were written for a room. -/
def numbersOf (ws : List Write) (room : RoomId) : Finset Int :=
  ((ws.filter (·.room = room)).map fun w => (w.seqNo : Int)).toFinset

/-- The last call with this room and number. -/
def lastWrite (ws : List Write) (room : RoomId) (n : Int) : Option Write :=
  (ws.filter fun w => w.room = room ∧ (w.seqNo : Int) = n).getLast?

/-- The last call with the highest number of a room. -/
def newestWrite (ws : List Write) (room : RoomId) : Option Write :=
  ((ws.filter (·.room = room)).map fun w => (w.seqNo : Int)).max?.bind (lastWrite ws room)

def Write.file (w : Write) : Option Checkpoint := some (payload w.log w.snapshot)

/-- Pruning keeps the newest. -/
theorem Durability.get?_prune_eq (d : Durability) (k : Int) :
    d.prune.files.get? k = if k ∈ largest keepLast d.files.keys.toFinset then d.files.get? k else none := by
  let l := d.listCheckpoints.map Prod.fst
  have hdown : l.Pairwise (· > ·) := by
    have hle : l.Pairwise (· ≥ ·) := List.pairwise_map.2 (pairwise_newestFirst d.files.items)
    exact (hle.and d.nodup_listCheckpoints).imp fun h => lt_of_le_of_ne h.1 (Ne.symm h.2)
  have hkeys : l.toFinset = d.files.keys.toFinset :=
    List.toFinset_eq_of_perm _ _ ((List.mergeSort_perm _ _).map Prod.fst)
  have hmem : k ∈ largest keepLast d.files.keys.toFinset ↔ k ∈ l.take keepLast := by
    rw [Largest.mem_take_iff hdown, hkeys]
  rw [prune, Dict.get?_foldl_erase, List.map_drop]
  by_cases htake : k ∈ l.take keepLast
  · have hdrop : k ∉ l.drop keepLast := fun h => List.disjoint_take_drop d.nodup_listCheckpoints le_rfl htake h
    rw [if_pos (hmem.2 htake), if_neg hdrop]
  · rw [if_neg (mt hmem.1 htake)]
    split
    · rfl
    · next hdrop =>
      rw [Dict.get?_eq_none_iff]
      intro hk
      have hl : k ∈ l := List.mem_toFinset.1 (hkeys ▸ List.mem_toFinset.2 hk)
      rw [← List.take_append_drop keepLast l, List.mem_append] at hl
      exact hl.elim htake hdrop

theorem Durability.keys_prune_eq (d : Durability) :
    d.prune.files.keys.toFinset = largest keepLast d.files.keys.toFinset := by
  ext k
  rw [List.mem_toFinset, Dict.mem_keys_iff, Durability.get?_prune_eq]
  split
  · next hk => exact iff_of_true ((Dict.mem_keys_iff _).1 (List.mem_toFinset.1 (Largest.largest_subset _ _ hk))) hk
  · next hk => exact iff_of_false (by simp) hk

variable {ws : List Write} {w : Write} {room : RoomId}

theorem stores_concat (ws : List Write) (w : Write) : stores (ws ++ [w]) =
    Function.update (stores ws) w.room ((stores ws w.room).writeCheckpoint w.log w.snapshot) := by
  rw [stores, List.foldl_append]
  rfl

theorem numbersOf_concat_self : numbersOf (ws ++ [w]) w.room = insert (w.seqNo : Int) (numbersOf ws w.room) := by
  ext k
  simp [numbersOf]

theorem numbersOf_concat_of_ne (h : w.room ≠ room) : numbersOf (ws ++ [w]) room = numbersOf ws room := by
  simp [numbersOf, h]

theorem lastWrite_concat_self (k : Int) :
    lastWrite (ws ++ [w]) w.room k = if k = w.seqNo then some w else lastWrite ws w.room k := by
  by_cases hk : k = w.seqNo
  · simp [lastWrite, hk]
  · simp [lastWrite, hk, Ne.symm hk]

theorem lastWrite_concat_of_ne (h : w.room ≠ room) (k : Int) :
    lastWrite (ws ++ [w]) room k = lastWrite ws room k := by
  simp [lastWrite, h]

/-- A room has the last files of its newest numbers. -/
theorem newest_stores (ws : List Write) (room : RoomId) :
    (stores ws room).files.keys.toFinset = largest keepLast (numbersOf ws room) ∧
      ∀ n ∈ largest keepLast (numbersOf ws room),
        (stores ws room).files.get? n = (lastWrite ws room n).map Write.file := by
  induction ws using List.reverseRecOn with
  | nil => simp [stores, numbersOf, largest, Dict.empty, Dict.keys]
  | append_singleton ws w ih =>
    obtain ⟨hkeys, hfiles⟩ := ih
    by_cases hroom : w.room = room
    · subst hroom
      let put : Durability := { stores ws w.room with files := (stores ws w.room).files.set w.seqNo w.file }
      have hwrite : stores (ws ++ [w]) w.room = put.prune := by
        rw [stores_concat, Function.update_self, w.writeCheckpoint_eq]
        rfl
      -- the numbers that are there determine what the pruning keeps
      have hput : largest keepLast put.files.keys.toFinset = largest keepLast (numbersOf (ws ++ [w]) w.room) := by
        have hset : put.files.keys.toFinset = insert (w.seqNo : Int) (largest keepLast (numbersOf ws w.room)) := by
          rw [← hkeys]
          ext k
          simp only [put, List.mem_toFinset, Finset.mem_insert, Dict.mem_keys_iff, Dict.get?_set]
          split <;> simp [*]
        rw [hset, Largest.largest_insert_largest, numbersOf_concat_self]
      rw [hwrite, Durability.keys_prune_eq]
      refine ⟨hput, fun n hn => ?_⟩
      rw [Durability.get?_prune_eq, if_pos (hput ▸ hn), lastWrite_concat_self]
      simp only [put, Dict.get?_set]
      split
      · rfl
      · next hne =>
        refine hfiles n ?_
        rw [← hput] at hn
        have hmem := Largest.largest_subset _ _ hn
        rw [List.mem_toFinset, Dict.mem_keys_iff] at hmem
        simp only [put, Dict.get?_set, if_neg hne] at hmem
        exact hkeys ▸ List.mem_toFinset.2 ((Dict.mem_keys_iff _).2 hmem)
    · rw [stores_concat, Function.update_of_ne (Ne.symm hroom), numbersOf_concat_of_ne hroom]
      exact ⟨hkeys, fun n hn => by rw [lastWrite_concat_of_ne hroom, hfiles n hn]⟩

/-- And nothing else. -/
theorem get?_stores (ws : List Write) (room : RoomId) (n : Int) : (stores ws room).files.get? n =
    if n ∈ largest keepLast (numbersOf ws room) then (lastWrite ws room n).map Write.file else none := by
  obtain ⟨hkeys, hfiles⟩ := newest_stores ws room
  split
  · next hn => exact hfiles n hn
  · next hn => exact (Dict.get?_eq_none_iff _).2 fun hk => hn (hkeys ▸ List.mem_toFinset.2 hk)

/-! ## Recovery -/

theorem Represents.recover (h : Represents U dir rooms) (room : RoomId) :
    recoverFiles U dir room.name = (rooms room).recover room.name := by
  rw [recoverFiles, h.listFiles_eq, List.findSome?_map, Durability.recover]
  have hcongr {l : List (Int × Option Checkpoint)} {f g : Int × Option Checkpoint → Option (EventLog × Snapshot)}
      (hfg : ∀ p ∈ l, f p = g p) : l.findSome? f = l.findSome? g := by
    induction l with
    | nil => rfl
    | cons p l ih =>
      rw [List.findSome?_cons, List.findSome?_cons, hfg p List.mem_cons_self,
        ih fun q hq => hfg q (List.mem_cons_of_mem p hq)]
  refine hcongr fun p hp => ?_
  have hfile := Durability.mem_listCheckpoints.1 hp
  obtain ⟨n, hn⟩ := h.numbered room p.1 ((Dict.mem_keys_iff _).2 ⟨_, hfile⟩)
  have hget : dir.get? (fileName room.name p.1) = some p.2 := by
    rw [hn] at hfile ⊢
    rw [h.files, hfile]
  simp only [Function.comp_apply, hget]
  cases p.2 <;> rfl

theorem exists_lastWrite {ws : List Write} {room : RoomId} {n : Int} (h : n ∈ numbersOf ws room) :
    ∃ w, lastWrite ws room n = some w := by
  obtain ⟨w, hw, hn⟩ := List.mem_map.1 (List.mem_toFinset.1 h)
  obtain ⟨hmem, hroom⟩ := List.mem_filter.1 hw
  have hlast : w ∈ ws.filter fun w => w.room = room ∧ (w.seqNo : Int) = n :=
    List.mem_filter.2 ⟨hmem, by simpa [hn] using hroom⟩
  rw [lastWrite]
  exact ⟨_, List.getLast?_eq_some_getLast (List.ne_nil_of_mem hlast)⟩

/-- What is recovered is the last checkpoint of the highest number. -/
theorem recover_stores (ws : List Write) (room : RoomId) (roomId : String) : (stores ws room).recover roomId =
    (newestWrite ws room).map fun w => Durability.reconstruct roomId (payload w.log w.snapshot) := by
  rw [newestWrite]
  cases hmax : ((ws.filter (·.room = room)).map fun w => (w.seqNo : Int)).max? with
  | none =>
    have hnumbers : numbersOf ws room = ∅ := by
      rw [numbersOf, List.max?_eq_none_iff.1 hmax]
      rfl
    cases hl : (stores ws room).listCheckpoints with
    | nil =>
      rw [Durability.recover, hl]
      rfl
    | cons p rest =>
      have hp := (Durability.head_listCheckpoints hl).1
      rw [get?_stores, hnumbers] at hp
      cases hp
  | some n =>
    obtain ⟨hmem, hle⟩ := List.max?_eq_some_iff.1 hmax
    have hn : n ∈ numbersOf ws room := List.mem_toFinset.2 hmem
    have hlarger : ∀ k ∈ numbersOf ws room, k ≤ n := fun k hk => hle k (List.mem_toFinset.1 hk)
    have hfirst : n ∈ largest keepLast (numbersOf ws room) := by
      refine Largest.mem_largest.2 ⟨hn, ?_⟩
      rw [Finset.filter_eq_empty_iff.2 fun k hk => not_lt.2 (hlarger k hk)]
      decide
    obtain ⟨w, hw⟩ := exists_lastWrite hn
    have hget : (stores ws room).files.get? n = some (some (payload w.log w.snapshot)) := by
      rw [get?_stores, if_pos hfirst, hw]
      rfl
    rw [Option.bind_some, hw, Option.map_some]
    refine Durability.recover_of_newest hget (fun k hk => ?_) roomId
    obtain ⟨file, hfile⟩ := (Dict.mem_keys_iff _).1 hk
    rw [get?_stores] at hfile
    split at hfile
    · next hk => exact hlarger k (Largest.largest_subset _ _ hk)
    · cases hfile

/-- **Rooms that share a directory do not interfere.** -/
theorem rooms_do_not_interfere (U : Digits) (ws : List Write) (room : RoomId) (n : Nat) :
    matchCheckpoint U (fileName room.name n) = some (room.name, (n : Int)) ∧
    (∀ (dir : Dict String (Option Checkpoint)) (other : RoomId), room ≠ other →
      (pruneFiles U dir other.name).get? (fileName room.name n) = dir.get? (fileName room.name n)) ∧
    (∀ (dir : Dict String (Option Checkpoint)) (w : Write), room ≠ w.room →
      (w.apply U dir).get? (fileName room.name n) = dir.get? (fileName room.name n)) ∧
    ((n : Int) ∈ largest keepLast (numbersOf ws room) → ∃ w, lastWrite ws room n = some w ∧
      (runWrites U ws).get? (fileName room.name n) = some w.file) ∧
    ((n : Int) ∉ largest keepLast (numbersOf ws room) → (runWrites U ws).get? (fileName room.name n) = none) ∧
    recoverFiles U (runWrites U ws) room.name =
      (newestWrite ws room).map fun w => Durability.reconstruct room.name (payload w.log w.snapshot) := by
  have hrun := represents_run U ws
  refine ⟨matchCheckpoint_fileName U room n, fun dir other h => get?_pruneFiles_of_ne dir h n,
    fun dir w h => w.get?_apply_of_ne dir h n, fun hn => ?_, fun hn => ?_, ?_⟩
  · obtain ⟨w, hw⟩ := exists_lastWrite (Largest.largest_subset _ _ hn)
    exact ⟨w, hw, by rw [hrun.files, get?_stores, if_pos hn, hw, Option.map_some]⟩
  · rw [hrun.files, get?_stores, if_neg hn]
  · rw [hrun.recover, recover_stores]

end PeerChat.Membership
