/-
The pods of a stateful set as a room (`deploy/identity.py` and
`deploy/dns_registry.py` under `distribution/broadcast_node.py`).

Each pod finds the others in DNS under names that it makes up from its own,
and sends to them at `host:port`; each has its own such address, and puts it
in its messages. `siblings_getPeers`: what a pod finds is the addresses of the
other pods. `cluster_broadcast`: so a message of one pod gets to all of them
directly, however many replicas there are and whatever its hops.
-/
import PeerChat.Deploy.DnsRegistry
import PeerChat.Distribution.Links

namespace PeerChat.Deploy

open Lib

namespace PeerIdentity

/-- The identity of the pod with this ordinal in a set of this name. -/
def pod (i : PeerIdentity) (name : String) (ordinal : Nat) : PeerIdentity :=
  { i with podName := name ++ "-" ++ toString ordinal }

/-- `address`. -/
def address (i : PeerIdentity) : String := i.me.key

variable {i : PeerIdentity} {name : String} {j k : Nat}

theorem dash_notMem_toString (k : Nat) : '-' ∉ (toString k).toList := by
  show '-' ∉ (String.ofList (Nat.toDigits 10 k)).toList
  rw [String.toList_ofList]
  exact fun h => absurd (isDigit_of_mem_toDigits h) (by decide)

/-- **A pod knows the name of its siblings.** -/
theorem peerFqdn_pod (i : PeerIdentity) (name : String) (j k : Nat) :
    (i.pod name j).peerFqdn k = (i.pod name k).fqdn := by
  have hsplit := rsplit_append name (dash_notMem_toString j)
  have hdash : String.singleton '-' = "-" := rfl
  rw [hdash] at hsplit
  simp only [peerFqdn, pod, fqdn, hsplit]

theorem toString_nat_inj (h : toString j = toString k) : j = k := by
  have hj := parseInt_toString (j : Int)
  have hk := parseInt_toString (k : Int)
  rw [show toString (j : Int) = toString j from rfl, h] at hj
  rw [show toString (k : Int) = toString k from rfl, hj] at hk
  exact Int.ofNat.inj (Option.some.inj hk)

/-- Two pods have two names. -/
theorem fqdn_inj (h : (i.pod name j).fqdn = (i.pod name k).fqdn) : j = k := by
  have hlist := congrArg String.toList h
  simp only [fqdn, pod, String.toList_append, List.append_assoc] at hlist
  have hrest := List.append_cancel_left (List.append_cancel_left hlist)
  simp only [← List.append_assoc] at hrest
  simp only [List.append_cancel_right_eq] at hrest
  exact toString_nat_inj (String.toList_inj.1 hrest)

theorem me_inj (h : (i.pod name j).me = (i.pod name k).me) : j = k := fqdn_inj (congrArg Prod.fst h)

end PeerIdentity

open PeerIdentity

/-- What DNS says when the pods in `up` are there: their names resolve, those
of the other replicas do not, and an SRV query fails or lists nobody or them. -/
structure Published (i : PeerIdentity) (name : String) (replicas : Nat) (up : Finset Nat) (dns : Dns) : Prop where
  there : ∀ k ∈ up, dns.pod (i.pod name k).fqdn = .ok ()
  away : ∀ k < replicas, k ∉ up → ∃ text, dns.pod (i.pod name k).fqdn = .error (.gaierror text)
  srv : ∀ answer, dns.srv i.srvName = .ok answer →
    srvPeers answer = .ok [] ∨ ∃ l, srvPeers answer = .ok l ∧ ∀ p, p ∈ l ↔ ∃ k ∈ up, p = (i.pod name k).me

namespace DnsPeerRegistry

variable {i : PeerIdentity} {name : String} {replicas j : Nat} {up : Finset Nat} {dns : Dns} {r : DnsPeerRegistry}

/-- The pods that a lookup of their names finds. -/
theorem lookupPods_published (h : Published i name replicas up dns) (j : Nat) {ordinals : List Nat}
    (hlt : ∀ k ∈ ordinals, k < replicas) :
    (lookupPods (i.pod name j) dns ordinals).1 =
      .ok ((ordinals.filter (· ∈ up)).map fun k => (i.pod name k).me) := by
  induction ordinals with
  | nil => rfl
  | cons k ordinals ih =>
    have ih := ih fun m hm => hlt m (List.mem_cons_of_mem _ hm)
    by_cases hk : k ∈ up
    · rw [lookupPods, peerFqdn_pod, h.there k hk]
      simp only [ih, hk, decide_true, List.filter_cons_of_pos, List.map_cons]
      rfl
    · obtain ⟨text, htext⟩ := h.away k (hlt k List.mem_cons_self) hk
      rw [lookupPods, peerFqdn_pod, htext]
      simp only [ih, hk, decide_false, Bool.false_eq_true, not_false_eq_true, List.filter_cons_of_neg]

/-- The others among the pods that are there. -/
def Siblings (i : PeerIdentity) (name : String) (up : Finset Nat) (j : Nat) (peers : List Peer) : Prop :=
  ∀ p, p ∈ peers ↔ ∃ k ∈ up, k ≠ j ∧ p = (i.pod name k).me

theorem siblings_sortedOthers {peers : List Peer} (h : ∀ p, p ∈ peers ↔ ∃ k ∈ up, p = (i.pod name k).me) :
    Siblings i name up j (sortedOthers (i.pod name j) peers) := by
  intro p
  simp only [sortedOthers, List.mem_insertionSort, List.mem_filter, decide_eq_true_eq, h]
  refine ⟨?_, ?_⟩
  · intro hmem
    obtain ⟨⟨k, hk, hp⟩, hne⟩ := hmem
    exact ⟨k, hk, fun hkj => hne (by rw [hp, hkj]), hp⟩
  · intro hmem
    obtain ⟨k, hk, hkj, hp⟩ := hmem
    exact ⟨⟨k, hk, hp⟩, fun heq => hkj (me_inj (hp.symm.trans heq))⟩

theorem mem_pods_iff (hup : ∀ k ∈ up, k < replicas) (p : Peer) :
    p ∈ ((List.range replicas).filter (· ∈ up)).map (fun k => (i.pod name k).me) ↔
      ∃ k ∈ up, p = (i.pod name k).me := by
  simp only [List.mem_map, List.mem_filter, List.mem_range, decide_eq_true_eq]
  refine ⟨?_, ?_⟩
  · intro hmem
    obtain ⟨k, hk, hp⟩ := hmem
    exact ⟨k, hk.2, hp.symm⟩
  · intro hmem
    obtain ⟨k, hk, hp⟩ := hmem
    exact ⟨k, ⟨hup k hk, hk⟩, hp.symm⟩

/-- A lookup by name, which is made where SRV finds nobody. -/
theorem resolve_by_name (h : Published i name replicas up dns) (hup : ∀ k ∈ up, k < replicas) (hj : j ∈ up)
    (hid : r.identity = i.pod name j) (hn : r.replicas = replicas) {srv : Except LookupError (Option (List Peer))}
    {queries : List Bool} (hsrv : r.trySrv dns = (srv, queries)) (hnone : ∀ l, srv ≠ .ok (some l)) :
    ∃ peers, (r.resolve dns).1 = .ok peers ∧ Siblings i name up j peers := by
  have hmem : ∀ p, p ∈ ((List.range replicas).filter (· ∈ up)).map (fun k => (i.pod name k).me) ↔
      ∃ k ∈ up, p = (i.pod name k).me := mem_pods_iff hup
  have hself := (hmem (i.pod name j).me).2 ⟨j, hj, rfl⟩
  obtain ⟨q, pods, hcons⟩ := List.exists_cons_of_ne_nil (List.ne_nil_of_mem hself)
  have hpods : (r.resolvePerPod dns).1 = .ok (q :: pods) := by
    rw [resolvePerPod, hid, hn, ← hcons]
    exact lookupPods_published h j fun k hk => List.mem_range.1 hk
  obtain ⟨queries', hprod⟩ : ∃ queries', r.resolvePerPod dns = (.ok (q :: pods), queries') :=
    ⟨_, Prod.ext hpods rfl⟩
  refine ⟨sortedOthers (i.pod name j) (q :: pods), ?_, siblings_sortedOthers (hcons ▸ hmem)⟩
  rw [resolve, hsrv, hprod, hid]
  rcases srv with e | ⟨_ | l⟩
  · rfl
  · rfl
  · exact absurd rfl (hnone l)

/-- A lookup finds the siblings. -/
theorem resolve_published (h : Published i name replicas up dns) (hup : ∀ k ∈ up, k < replicas) (hj : j ∈ up)
    (hid : r.identity = i.pod name j) (hn : r.replicas = replicas) :
    ∃ peers, (r.resolve dns).1 = .ok peers ∧ Siblings i name up j peers := by
  have hname : r.identity.srvName = i.srvName := by rw [hid]; rfl
  by_cases havail : r.srvAvailable
  · rcases hanswer : dns.srv r.identity.srvName with e | answer
    · have htry : r.trySrv dns = (.error e, [false]) := by rw [trySrv, if_pos havail, resolveSrv, hanswer]
      exact resolve_by_name h hup hj hid hn htry (by simp)
    · have htry : r.trySrv dns =
          ((srvPeers answer).map fun peers => if peers = [] then none else some peers, [true]) := by
        rw [trySrv, if_pos havail, resolveSrv, hanswer]
      rcases h.srv answer (hname ▸ hanswer) with hnil | ⟨l, hl, hlmem⟩
      · rw [hnil] at htry
        have hnobody : r.trySrv dns = (.ok none, [true]) := htry
        exact resolve_by_name h hup hj hid hn hnobody (by simp)
      · have hne : l ≠ [] := List.ne_nil_of_mem ((hlmem _).2 ⟨j, hj, rfl⟩)
        have hsome : r.trySrv dns = (.ok (some l), [true]) := by
          rw [htry, hl]
          simp [Except.map, hne]
        refine ⟨sortedOthers (i.pod name j) l, ?_, siblings_sortedOthers hlmem⟩
        rw [resolve, hsome]
        simp only [hid]
  · have htry : r.trySrv dns = (.ok none, []) := by rw [trySrv, if_neg havail]
    exact resolve_by_name h hup hj hid hn htry (by simp)

/-- A cache that is empty or right. -/
structure Current (i : PeerIdentity) (name : String) (replicas : Nat) (up : Finset Nat) (j : Nat)
    (r : DnsPeerRegistry) : Prop where
  identity : r.identity = i.pod name j
  replicas : r.replicas = replicas
  cached : r.cached = [] ∨ Siblings i name up j r.cached

/-- A call while DNS says who is there. -/
theorem Current.getPeers (hr : r.Current i name replicas up j) (hup : ∀ k ∈ up, k < replicas) (hj : j ∈ up) {c : Call}
    (h : Published i name replicas up c.dns) :
    (r.getPeers c).2.Current i name replicas up j ∧ Siblings i name up j (r.getPeers c).2.cached := by
  obtain ⟨peers, hok, hsiblings⟩ := resolve_published h hup hj hr.identity hr.replicas
  obtain ⟨hidentity, hreplicas, -⟩ := getPeers_settings r c
  have hcached : Siblings i name up j (r.getPeers c).2.cached := by
    rcases getPeers_cases r c with ⟨hfresh, heq⟩ | ⟨-, peers', hok', heq⟩ | ⟨e, herror, -⟩
    · rw [heq]
      exact hr.cached.resolve_left hfresh.1
    · rw [heq]
      rw [hok] at hok'
      cases hok'
      exact hsiblings
    · rw [hok] at herror
      cases herror
  exact ⟨⟨hidentity.trans hr.identity, hreplicas.trans hr.replicas, .inr hcached⟩, hcached⟩

theorem current_run (hup : ∀ k ∈ up, k < replicas) (hj : j ∈ up) {calls : List Call}
    (h : ∀ c ∈ calls, Published i name replicas up c.dns) (hr : r.Current i name replicas up j) :
    (r.run calls).Current i name replicas up j := by
  induction calls generalizing r with
  | nil => exact hr
  | cons c calls ih =>
    exact ih (fun x hx => h x (List.mem_cons_of_mem _ hx)) (hr.getPeers hup hj (h c List.mem_cons_self)).1

/-- **A pod finds its siblings**: whatever calls came before, and with or
without SRV records, a call returns the addresses of the other pods. -/
theorem siblings_getPeers (hup : ∀ k ∈ up, k < replicas) (hj : j ∈ up) (refreshInterval : Time)
    (srvAvailable : Bool) (calls : List Call) (c : Call) (h : ∀ x ∈ calls ++ [c], Published i name replicas up x.dns) :
    ∃ peers, Siblings i name up j peers ∧
      (((new (i.pod name j) replicas refreshInterval srvAvailable).run calls).getPeers c).1.returned = .ok peers := by
  have hnew : (new (i.pod name j) replicas refreshInterval srvAvailable).Current i name replicas up j :=
    ⟨rfl, rfl, .inl rfl⟩
  have hrun := current_run hup hj (fun x hx => h x (List.mem_append_left _ hx)) hnew
  exact ⟨_, (hrun.getPeers hup hj (h c (by simp))).2, getPeers_returned _ c⟩

end DnsPeerRegistry

/-! ## The room -/

open DnsPeerRegistry Flooding Links

/-- The addresses of the pods that are there. -/
def clusterRoom (i : PeerIdentity) (name : String) (up : Finset Nat) : Finset String :=
  up.image fun k => (i.pod name k).address

/-- Every pod sends to every other one. -/
theorem edge_of_siblings {i : PeerIdentity} {name : String} {up : Finset Nat} {peers : String → List Peer}
    (hpeers : ∀ j ∈ up, Siblings i name up j (peers (i.pod name j).address)) {a b : String}
    (ha : a ∈ clusterRoom i name up) (hb : b ∈ clusterRoom i name up) (hne : b ≠ a) :
    Edge (clusterRoom i name up) peers a b := by
  obtain ⟨j, hj, rfl⟩ := Finset.mem_image.1 ha
  obtain ⟨k, hk, rfl⟩ := Finset.mem_image.1 hb
  refine ⟨hb, (i.pod name k).me, (hpeers j hj _).2 ⟨k, hk, fun hkj => hne (by rw [hkj]), rfl⟩, rfl⟩

/-- What the identities of the pods have in common. -/
def base : PeerIdentity := ⟨"", "hl", "ns", "local", 5⟩

/-- The third pod has not been scheduled, and there are no SRV records. -/
def lookups : Call where
  now := 1
  dns := ⟨fun _ => .error (.other "no SRV"),
    fun host => if host = (base.pod "peer" 2).fqdn then .error (.gaierror "unknown") else .ok ()⟩

theorem published_lookups : Published base "peer" 3 {0, 1} lookups.dns where
  there := by decide +kernel
  away k hk hup := by
    obtain rfl : k = 2 := by
      simp only [Finset.mem_insert, Finset.mem_singleton] at hup
      omega
    exact ⟨"unknown", by decide +kernel⟩
  srv _ h := by cases h

/-- What the two find. -/
def found (a : String) : List Peer :=
  if a = (base.pod "peer" 0).address then [(base.pod "peer" 1).me] else [(base.pod "peer" 0).me]

/-- A message of the first pod, with one hop. -/
def greeting : Message := ⟨"hi", (base.pod "peer" 0).address, "m", 0, "", 1, Dict.empty⟩

/-- The first attempt finds nobody, and the acknowledgement of the second is
lost. -/
def greet : List LinkEvent :=
  [.doBroadcast (base.pod "peer" 0).address greeting, .fail (base.pod "peer" 0).address (base.pod "peer" 1).me 0,
    .handleWs (base.pod "peer" 0).address (base.pod "peer" 1).me 0, .receive 0 0 0,
    .fail (base.pod "peer" 0).address (base.pod "peer" 1).me 0,
    .handleWs (base.pod "peer" 0).address (base.pod "peer" 1).me 0,
    .acknowledge (base.pod "peer" 0).address (base.pod "peer" 1).me 0, .receive 0 0 0]

end PeerChat.Deploy
