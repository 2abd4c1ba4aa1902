/-
Peer discovery from the DNS records of a headless service
(`deploy/dns_registry.py`): one SRV query, a lookup of each pod where that
finds nothing, and the last good answer in a cache.

A call leaves in the cache what it returns. An outage is survived when it
leaves the cache alone: an SRV query that fails does, but where there is no SRV
resolver, a service none of whose pods resolves looks like one without pods
(`Empties`). `outage_keeps_peers_iff`: the peers survive unless that happens.
-/
import PeerChat.Lib.Decimal
import PeerChat.Lib.Since
import PeerChat.Distribution.BroadcastNode
import Mathlib.Data.List.Sort
import Mathlib.Data.String.Basic

namespace PeerChat.Deploy

open Lib

/-- `PeerIdentity` of `deploy/identity.py`. -/
structure PeerIdentity where
  podName : String
  service : String
  nameSpace : String
  clusterDomain : String
  chatPort : Int

namespace PeerIdentity

/-- `fqdn`. -/
def fqdn (i : PeerIdentity) : String :=
  i.podName ++ "." ++ i.service ++ "." ++ i.nameSpace ++ ".svc." ++ i.clusterDomain

/-- `peer_fqdn`. -/
def peerFqdn (i : PeerIdentity) (ordinal : Nat) : String :=
  let stem := match rsplit '-' i.podName with
    | some (stem, _) => stem
    | none => i.podName
  stem ++ "-" ++ toString ordinal ++ "." ++ i.service ++ "." ++ i.nameSpace ++ ".svc." ++ i.clusterDomain

/-- The name that the SRV query asks for. -/
def srvName (i : PeerIdentity) : String :=
  "_chat._tcp." ++ i.service ++ "." ++ i.nameSpace ++ ".svc." ++ i.clusterDomain

/-- `me`. -/
def me (i : PeerIdentity) : Peer := (i.fqdn, i.chatPort)

end PeerIdentity

/-- An exception and its text: `socket.gaierror`, which the lookup of a pod
catches, or any other. -/
inductive LookupError
  | gaierror (text : String)
  | other (text : String)
  deriving DecidableEq, Repr

/-- `str(exc)`. -/
def LookupError.text : LookupError → String
  | gaierror text => text
  | other text => text

/-- A record of an SRV answer: `str(record.target)`, and `int(record.port)` or
the exception it raises. -/
structure SrvRecord where
  target : String
  port : Except LookupError Int

/-- What DNS says at one time: to an SRV query, and to `socket.getaddrinfo`. -/
structure Dns where
  srv : String → Except LookupError (List SrvRecord)
  pod : String → Except LookupError Unit

/-- What a lookup comes to, and of each query it made whether it succeeded. -/
abbrev Looked (α : Type) := Except LookupError α × List Bool

/-- `s.rstrip(".")`. -/
def rstripDot (s : String) : String := String.ofList (s.toList.reverse.dropWhile (· = '.')).reverse

/-- The peers of an SRV answer. -/
def srvPeers : List SrvRecord → Except LookupError (List Peer)
  | [] => .ok []
  | record :: answer =>
    if rstripDot record.target = "" then srvPeers answer
    else do
      let port ← record.port
      let peers ← srvPeers answer
      return (rstripDot record.target, port) :: peers

/-- The loop of `_resolve_per_pod`. -/
def lookupPods (i : PeerIdentity) (dns : Dns) : List Nat → Looked (List Peer)
  | [] => (.ok [], [])
  | ordinal :: ordinals =>
    match dns.pod (i.peerFqdn ordinal) with
    | .error (.gaierror _) =>
      let rest := lookupPods i dns ordinals
      (rest.1, false :: rest.2)
    | .error e => (.error e, [false])
    | .ok () =>
      let rest := lookupPods i dns ordinals
      (rest.1.map ((i.peerFqdn ordinal, i.chatPort) :: ·), true :: rest.2)

/-- The order of tuples of a host and a port. -/
def PeerLe (p q : Peer) : Prop := p.1 < q.1 ∨ p.1 = q.1 ∧ p.2 ≤ q.2

instance : DecidableRel PeerLe := fun p q => inferInstanceAs (Decidable (p.1 < q.1 ∨ p.1 = q.1 ∧ p.2 ≤ q.2))

/-- `sorted(p for p in peers if p != me)`. -/
def sortedOthers (i : PeerIdentity) (peers : List Peer) : List Peer :=
  (peers.filter (· ≠ i.me)).insertionSort PeerLe

/-- `DnsPeerRegistry`. `srvAvailable`: a resolver was given, or the one of
`dnspython` can be imported. -/
structure DnsPeerRegistry where
  identity : PeerIdentity
  replicas : Int
  refreshInterval : Time
  srvAvailable : Bool
  cached : List Peer
  cachedAt : Time
  lastError : Option String

/-- A call of `get_peers`: its time, and what DNS says then. -/
structure Call where
  now : Time
  dns : Dns

/-- What a call returns or raises, and of each query it made whether it
succeeded. -/
structure Outcome where
  returned : Except LookupError (List Peer)
  queries : List Bool
  deriving DecidableEq

namespace DnsPeerRegistry

/-- `__init__`. -/
def new (identity : PeerIdentity) (replicas : Int) (refreshInterval : Time) (srvAvailable : Bool) : DnsPeerRegistry :=
  ⟨identity, replicas, refreshInterval, srvAvailable, [], 0, none⟩

/-- `_resolve_srv`, with `none` for no peers. -/
def resolveSrv (r : DnsPeerRegistry) (dns : Dns) : Looked (Option (List Peer)) :=
  match dns.srv r.identity.srvName with
  | .error e => (.error e, [false])
  | .ok answer => ((srvPeers answer).map fun peers => if peers = [] then none else some peers, [true])

/-- `_resolve_per_pod`. -/
def resolvePerPod (r : DnsPeerRegistry) (dns : Dns) : Looked (List Peer) :=
  lookupPods r.identity dns (List.range r.replicas.toNat)

/-- The first half of `_resolve`: the peers that SRV knows of. -/
def trySrv (r : DnsPeerRegistry) (dns : Dns) : Looked (Option (List Peer)) :=
  if r.srvAvailable then r.resolveSrv dns else (.ok none, [])

/-- `_resolve`. -/
def resolve (r : DnsPeerRegistry) (dns : Dns) : Looked (List Peer) :=
  match r.trySrv dns with
  | (.ok (some peers), queries) => (.ok (sortedOthers r.identity peers), queries)
  | (srv, queries) =>
    match r.resolvePerPod dns, srv with
    | (.ok [], queries'), .error srvError => (.error srvError, queries ++ queries')
    | (.ok peers, queries'), _ => (.ok (sortedOthers r.identity peers), queries ++ queries')
    | (.error e, queries'), _ => (.error e, queries ++ queries')

/-- The cache is still to be served. -/
def Fresh (r : DnsPeerRegistry) (now : Time) : Prop := r.cached ≠ [] ∧ now - r.cachedAt < r.refreshInterval

instance (r : DnsPeerRegistry) (now : Time) : Decidable (r.Fresh now) :=
  inferInstanceAs (Decidable (r.cached ≠ [] ∧ now - r.cachedAt < r.refreshInterval))

/-- `get_peers`. -/
def getPeers (r : DnsPeerRegistry) (c : Call) : Outcome × DnsPeerRegistry :=
  if r.Fresh c.now then (⟨.ok r.cached, []⟩, r)
  else
    match r.resolve c.dns with
    | (.ok peers, queries) =>
      (⟨.ok peers, queries⟩, { r with cached := peers, cachedAt := c.now, lastError := none })
    | (.error e, queries) => (⟨.ok r.cached, queries⟩, { r with lastError := some e.text })

/-- The registry after a sequence of calls. -/
def run (r : DnsPeerRegistry) (calls : List Call) : DnsPeerRegistry := calls.foldl (fun r c => (r.getPeers c).2) r

/-- What the calls of a sequence come to. -/
def outcomes (r : DnsPeerRegistry) : List Call → List Outcome
  | [] => []
  | c :: calls => (r.getPeers c).1 :: (r.getPeers c).2.outcomes calls

end DnsPeerRegistry

variable {i : PeerIdentity} {dns : Dns} {r : DnsPeerRegistry} {c : Call} {h : List Outcome}

/-! ## Lookups -/

theorem me_notMem_sortedOthers (i : PeerIdentity) (peers : List Peer) : i.me ∉ sortedOthers i peers := by
  simp only [sortedOthers, List.mem_insertionSort, List.mem_filter, decide_eq_true_eq]
  exact fun hme => hme.2 rfl

/-- When no pod is there and no other exception comes up, every lookup fails. -/
theorem lookupPods_gaierror {ordinals : List Nat}
    (hpod : ∀ ordinal ∈ ordinals, ∃ text, dns.pod (i.peerFqdn ordinal) = .error (.gaierror text)) :
    lookupPods i dns ordinals = (.ok [], List.replicate ordinals.length false) := by
  induction ordinals with
  | nil => rfl
  | cons ordinal ordinals ih =>
    obtain ⟨text, htext⟩ := hpod ordinal List.mem_cons_self
    rw [lookupPods, htext]
    simp only [ih fun n hn => hpod n (List.mem_cons_of_mem _ hn), List.length_cons, List.replicate_succ]

/-- Lookups that all fail find nobody, or end with an exception. -/
theorem lookupPods_failed {ordinals : List Nat} (hfail : true ∉ (lookupPods i dns ordinals).2) :
    (∃ e, (lookupPods i dns ordinals).1 = .error e) ∨
      (lookupPods i dns ordinals).1 = .ok [] ∧
        ∀ ordinal ∈ ordinals, ∃ text, dns.pod (i.peerFqdn ordinal) = .error (.gaierror text) := by
  induction ordinals with
  | nil => exact .inr ⟨rfl, fun ordinal hmem => absurd hmem List.not_mem_nil⟩
  | cons ordinal ordinals ih =>
    rcases hpod : dns.pod (i.peerFqdn ordinal) with (text | text) | _
    · simp only [lookupPods, hpod, List.mem_cons, Bool.true_eq_false, false_or] at hfail ⊢
      rcases ih hfail with herror | ⟨hok, hall⟩
      · exact .inl herror
      · refine .inr ⟨hok, ?_⟩
        rintro n (rfl | hn)
        · exact ⟨text, hpod⟩
        · exact hall n hn
    · exact .inl ⟨.other text, by simp only [lookupPods, hpod]⟩
    · simp [lookupPods, hpod] at hfail

namespace DnsPeerRegistry

/-- What DNS and the cache must be for a call to lose the peers: there is no
SRV resolver, none of the pods that there should be resolves, and the cache is
due and not empty. -/
def Empties (r : DnsPeerRegistry) (c : Call) : Prop :=
  ¬ r.srvAvailable ∧ 0 < r.replicas ∧
    (∀ ordinal < r.replicas.toNat, ∃ text, c.dns.pod (r.identity.peerFqdn ordinal) = .error (.gaierror text)) ∧
    r.cached ≠ [] ∧ r.refreshInterval ≤ c.now - r.cachedAt

theorem resolve_of_unavailable (hsrv : ¬ r.srvAvailable) :
    r.resolve dns = ((r.resolvePerPod dns).1.map (sortedOthers r.identity), (r.resolvePerPod dns).2) := by
  simp only [resolve, trySrv, if_neg hsrv]
  rcases r.resolvePerPod dns with ⟨e | ⟨_ | ⟨p, peers⟩⟩, queries⟩ <;> rfl

/-- The queries begin with the SRV query. -/
theorem trySrv_grows (r : DnsPeerRegistry) (dns : Dns) : (r.trySrv dns).2 <+: (r.resolve dns).2 := by
  unfold resolve
  rcases r.trySrv dns with ⟨e | ⟨_ | peers⟩, queries⟩
  · rcases r.resolvePerPod dns with ⟨e' | ⟨_ | ⟨p, peers⟩⟩, queries'⟩ <;> exact List.prefix_append _ _
  · rcases r.resolvePerPod dns with ⟨e' | ⟨_ | ⟨p, peers⟩⟩, queries'⟩ <;> exact List.prefix_append _ _
  · exact List.prefix_rfl

/-- An SRV query that is answered is a success. -/
theorem true_mem_of_answer {answer : List SrvRecord} (hsrv : r.srvAvailable)
    (hanswer : dns.srv r.identity.srvName = .ok answer) : true ∈ (r.resolve dns).2 := by
  refine (trySrv_grows r dns).subset ?_
  rw [trySrv, if_pos hsrv, resolveSrv, hanswer]
  exact List.mem_cons_self

/-- An SRV query that fails and pods that nobody knows of are an error. -/
theorem resolve_of_srvError {e : LookupError} (hsrv : r.srvAvailable)
    (herror : dns.srv r.identity.srvName = .error e) (hfail : true ∉ (r.resolve dns).2) :
    ∃ e', (r.resolve dns).1 = .error e' := by
  simp only [resolve, trySrv, if_pos hsrv, resolveSrv, herror] at hfail ⊢
  have hpods : true ∉ (r.resolvePerPod dns).2 := by
    rcases hq : r.resolvePerPod dns with ⟨e' | ⟨_ | ⟨p, peers⟩⟩, queries⟩ <;> simpa [hq] using hfail
  rcases lookupPods_failed hpods with ⟨e', he'⟩ | ⟨hok, -⟩
  · rw [show r.resolvePerPod dns = (.error e', (r.resolvePerPod dns).2) from Prod.ext he' rfl]
    exact ⟨e', rfl⟩
  · rw [show r.resolvePerPod dns = (.ok [], (r.resolvePerPod dns).2) from Prod.ext hok rfl]
    exact ⟨e, rfl⟩

/-- A lookup all of whose queries fail raises, unless there is no SRV resolver
and no pod resolves. -/
theorem resolve_failed (hfail : true ∉ (r.resolve dns).2) :
    (∃ e, (r.resolve dns).1 = .error e) ∨
      ¬ r.srvAvailable ∧
        ∀ ordinal < r.replicas.toNat, ∃ text, dns.pod (r.identity.peerFqdn ordinal) = .error (.gaierror text) := by
  by_cases hsrv : r.srvAvailable
  · rcases hanswer : dns.srv r.identity.srvName with e | answer
    · exact .inl (resolve_of_srvError hsrv hanswer hfail)
    · exact absurd (true_mem_of_answer hsrv hanswer) hfail
  · rw [resolve_of_unavailable hsrv] at hfail ⊢
    rcases lookupPods_failed hfail with ⟨e, he⟩ | ⟨-, hall⟩
    · exact .inl ⟨e, by rw [resolvePerPod, he]; rfl⟩
    · exact .inr ⟨hsrv, fun ordinal hlt => hall ordinal (List.mem_range.2 hlt)⟩

/-- Where there is no SRV resolver and no pod resolves, nobody is found. -/
theorem resolve_of_noPod (hsrv : ¬ r.srvAvailable)
    (hpod : ∀ ordinal < r.replicas.toNat, ∃ text, dns.pod (r.identity.peerFqdn ordinal) = .error (.gaierror text)) :
    r.resolve dns = (.ok [], List.replicate r.replicas.toNat false) := by
  rw [resolve_of_unavailable hsrv, resolvePerPod, lookupPods_gaierror fun n hn => hpod n (List.mem_range.1 hn),
    List.length_range]
  rfl

/-- With an SRV resolver something is asked. -/
theorem queries_ne_nil (hsrv : r.srvAvailable) : (r.resolve dns).2 ≠ [] := by
  refine (trySrv_grows r dns).ne_nil ?_
  rw [trySrv, if_pos hsrv, resolveSrv]
  rcases dns.srv r.identity.srvName with e | answer <;> exact List.cons_ne_nil _ _

/-- Without one a pod is asked for, if there is to be any. -/
theorem replicas_of_no_queries (hq : (r.resolve dns).2 = []) : ¬ r.srvAvailable ∧ r.replicas ≤ 0 := by
  have hsrv : ¬ r.srvAvailable := fun hsrv => queries_ne_nil hsrv hq
  refine ⟨hsrv, ?_⟩
  rw [resolve_of_unavailable hsrv, resolvePerPod] at hq
  by_contra hpos
  obtain ⟨n, hn⟩ : ∃ n, r.replicas.toNat = n + 1 := ⟨r.replicas.toNat - 1, by omega⟩
  rw [hn, List.range_succ_eq_map, lookupPods] at hq
  split at hq <;> exact List.cons_ne_nil _ _ hq

/-- The own address is not among the peers. -/
theorem me_notMem_resolve {peers : List Peer} (hpeers : (r.resolve dns).1 = .ok peers) : r.identity.me ∉ peers := by
  simp only [resolve] at hpeers
  split at hpeers
  · cases hpeers
    exact me_notMem_sortedOthers _ _
  · split at hpeers
    · cases hpeers
    · cases hpeers
      exact me_notMem_sortedOthers _ _
    · cases hpeers

/-! ## One call -/

/-- What a call can do. -/
theorem getPeers_cases (r : DnsPeerRegistry) (c : Call) :
    (r.Fresh c.now ∧ r.getPeers c = (⟨.ok r.cached, []⟩, r)) ∨
      (¬ r.Fresh c.now ∧ ∃ peers, (r.resolve c.dns).1 = .ok peers ∧
        r.getPeers c =
          (⟨.ok peers, (r.resolve c.dns).2⟩, { r with cached := peers, cachedAt := c.now, lastError := none })) ∨
      ∃ e, (r.resolve c.dns).1 = .error e ∧
        r.getPeers c = (⟨.ok r.cached, (r.resolve c.dns).2⟩, { r with lastError := some e.text }) := by
  by_cases hfresh : r.Fresh c.now
  · exact .inl ⟨hfresh, by rw [getPeers, if_pos hfresh]⟩
  · rcases hres : r.resolve c.dns with ⟨e | peers, queries⟩
    · exact .inr (.inr ⟨e, rfl, by rw [getPeers, if_neg hfresh, hres]⟩)
    · exact .inr (.inl ⟨hfresh, peers, rfl, by rw [getPeers, if_neg hfresh, hres]⟩)

/-- A call keeps the settings. -/
theorem getPeers_settings (r : DnsPeerRegistry) (c : Call) :
    (r.getPeers c).2.identity = r.identity ∧ (r.getPeers c).2.replicas = r.replicas ∧
      (r.getPeers c).2.srvAvailable = r.srvAvailable := by
  rcases getPeers_cases r c with ⟨-, heq⟩ | ⟨-, peers, -, heq⟩ | ⟨e, -, heq⟩ <;> rw [heq]
  all_goals exact ⟨rfl, rfl, rfl⟩

/-- **A call does not raise**, and leaves in the cache what it returns. -/
theorem getPeers_returned (r : DnsPeerRegistry) (c : Call) :
    (r.getPeers c).1.returned = .ok (r.getPeers c).2.cached := by
  rcases getPeers_cases r c with ⟨-, heq⟩ | ⟨-, peers, -, heq⟩ | ⟨e, -, heq⟩ <;> rw [heq]

/-- What holds of the cache between calls: the own address is not in it, and
it is empty where there is nobody to ask. -/
structure Sound (r : DnsPeerRegistry) : Prop where
  others : r.identity.me ∉ r.cached
  nobody : ¬ r.srvAvailable → r.replicas ≤ 0 → r.cached = []

theorem sound_new (i : PeerIdentity) (replicas : Int) (refreshInterval : Time) (srvAvailable : Bool) :
    (new i replicas refreshInterval srvAvailable).Sound :=
  ⟨List.not_mem_nil, fun _ _ => rfl⟩

/-- Nobody is found where there is nobody to ask. -/
theorem resolve_of_nobody (hsrv : ¬ r.srvAvailable) (hzero : r.replicas ≤ 0) : r.resolve dns = (.ok [], []) := by
  have hn : r.replicas.toNat = 0 := by omega
  rw [resolve_of_noPod hsrv fun ordinal hlt => by omega, hn]
  rfl

theorem Sound.getPeers (hs : r.Sound) (c : Call) : (r.getPeers c).2.Sound := by
  rcases getPeers_cases r c with ⟨-, heq⟩ | ⟨-, peers, hok, heq⟩ | ⟨e, -, heq⟩
  · rw [heq]
    exact hs
  · rw [heq]
    refine ⟨me_notMem_resolve hok, fun hsrv hzero => ?_⟩
    rw [resolve_of_nobody (r := r) hsrv hzero] at hok
    exact (Except.ok.inj hok).symm
  · rw [heq]
    exact ⟨hs.others, hs.nobody⟩

/-- A call that asks nothing leaves the cache alone. -/
theorem cached_of_no_queries (hs : r.Sound) (hq : (r.getPeers c).1.queries = []) :
    (r.getPeers c).2.cached = r.cached := by
  rcases getPeers_cases r c with ⟨-, heq⟩ | ⟨-, peers, hok, heq⟩ | ⟨e, -, heq⟩
  · rw [heq]
  · rw [heq] at hq ⊢
    obtain ⟨hsrv, hzero⟩ := replicas_of_no_queries hq
    rw [resolve_of_nobody hsrv hzero] at hok
    rw [hs.nobody hsrv hzero]
    exact (Except.ok.inj hok).symm
  · rw [heq]

/-- A call all of whose queries fail leaves the cache alone, unless it empties
it. -/
theorem cached_of_failed (hs : r.Sound) (hfail : true ∉ (r.getPeers c).1.queries) (hkeep : ¬ r.Empties c) :
    (r.getPeers c).2.cached = r.cached := by
  rcases getPeers_cases r c with ⟨-, heq⟩ | ⟨hstale, peers, hok, heq⟩ | ⟨e, -, heq⟩
  · rw [heq]
  · rw [heq] at hfail ⊢
    rcases resolve_failed hfail with ⟨e, he⟩ | ⟨hsrv, hpods⟩
    · rw [hok] at he
      cases he
    · rw [resolve_of_noPod hsrv hpods] at hok
      cases hok
      by_contra hne
      have hcached : r.cached ≠ [] := fun hnil => hne hnil.symm
      refine hkeep ⟨hsrv, ?_, hpods, hcached, not_lt.1 fun hlt => hstale ⟨hcached, hlt⟩⟩
      by_contra hzero
      exact hcached (hs.nobody hsrv (not_lt.1 hzero))
  · rw [heq]

/-- The call that loses the peers: it asks, nobody answers, and nobody is left. -/
theorem getPeers_of_empties (h : r.Empties c) :
    (r.getPeers c).1.queries ≠ [] ∧ true ∉ (r.getPeers c).1.queries ∧ (r.getPeers c).2.cached = [] := by
  obtain ⟨hsrv, hpos, hpods, -, hdue⟩ := h
  have hstale : ¬ r.Fresh c.now := fun hfresh => absurd hfresh.2 (not_lt.2 hdue)
  obtain ⟨n, hn⟩ : ∃ n, r.replicas.toNat = n + 1 := ⟨r.replicas.toNat - 1, by omega⟩
  have hres := resolve_of_noPod hsrv hpods
  rw [hn] at hres
  rw [getPeers, if_neg hstale, hres]
  refine ⟨by simp [List.replicate_succ], fun hmem => ?_, rfl⟩
  exact absurd (List.eq_of_mem_replicate hmem) (by decide)

/-! ## Runs -/

theorem run_concat (r : DnsPeerRegistry) (calls : List Call) (c : Call) :
    r.run (calls ++ [c]) = ((r.run calls).getPeers c).2 := by
  rw [run, List.foldl_concat]
  rfl

theorem outcomes_concat (r : DnsPeerRegistry) (calls : List Call) (c : Call) :
    r.outcomes (calls ++ [c]) = r.outcomes calls ++ [((r.run calls).getPeers c).1] := by
  induction calls generalizing r with
  | nil => rfl
  | cons c' calls ih =>
    rw [List.cons_append, outcomes, ih, outcomes, List.cons_append]
    rfl

theorem Sound.run (hs : r.Sound) (calls : List Call) :
    (r.run calls).Sound ∧ (r.run calls).identity = r.identity := by
  induction calls using List.reverseRecOn with
  | nil => exact ⟨hs, rfl⟩
  | append_singleton calls c ih =>
    rw [run_concat]
    exact ⟨ih.1.getPeers c, (getPeers_settings _ c).1.trans ih.2⟩

end DnsPeerRegistry

/-- What the last call in which a query succeeded returned. -/
def lastGood (h : List Outcome) : Except LookupError (List Peer) :=
  ((h.filter fun o => true ∈ o.queries).getLast?).elim (.ok []) Outcome.returned

theorem lastGood_concat (h : List Outcome) (o : Outcome) :
    lastGood (h ++ [o]) = if true ∈ o.queries then o.returned else lastGood h := by
  unfold lastGood
  rw [List.filter_append]
  split
  · next hmem => simp [hmem]
  · next hmem => simp [hmem]

/-- A call does not raise, does not return the own address, and when it asks
and nobody answers, it returns what the last call with an answer returned. -/
def KeepsPeers (i : PeerIdentity) (h : List Outcome) (o : Outcome) : Prop :=
  (∃ peers, o.returned = .ok peers ∧ i.me ∉ peers) ∧
    (o.queries ≠ [] → (∀ succeeded ∈ o.queries, succeeded = false) → o.returned = lastGood h)

namespace DnsPeerRegistry

/-- While no call empties it, the cache is what the last good call returned. -/
theorem lastGood_outcomes (hs : r.Sound) (hnil : r.cached = []) (calls : List Call)
    (hkeep : Always (fun calls c => ¬ (r.run calls).Empties c) calls) :
    lastGood (r.outcomes calls) = .ok (r.run calls).cached := by
  induction calls using List.reverseRecOn with
  | nil =>
    rw [run, List.foldl_nil, hnil]
    rfl
  | append_singleton calls c ih =>
    obtain ⟨hbefore, hnow⟩ := always_concat.1 hkeep
    rw [outcomes_concat, lastGood_concat, run_concat]
    split
    · exact getPeers_returned _ c
    · next hfail => rw [ih hbefore, cached_of_failed (hs.run calls).1 hfail hnow]

/-- **An outage keeps the peers unless it empties the cache.** -/
theorem outage_keeps_peers_iff (i : PeerIdentity) (replicas : Int) (refreshInterval : Time) (srvAvailable : Bool)
    (calls : List Call) :
    Always (KeepsPeers i) ((new i replicas refreshInterval srvAvailable).outcomes calls) ↔
      Always (fun calls c => ¬ ((new i replicas refreshInterval srvAvailable).run calls).Empties c) calls := by
  generalize hr : new i replicas refreshInterval srvAvailable = r
  have hs : r.Sound := hr ▸ sound_new i replicas refreshInterval srvAvailable
  have hi : r.identity = i := hr ▸ rfl
  have hnil : r.cached = [] := hr ▸ rfl
  induction calls using List.reverseRecOn with
  | nil => exact iff_of_true always_nil always_nil
  | append_singleton calls c ih =>
    rw [outcomes_concat, always_concat, always_concat]
    refine (and_congr_left' ih).trans (and_congr_right fun hkeep => ?_)
    have hgood := lastGood_outcomes hs hnil calls hkeep
    obtain ⟨hsound, hid⟩ := hs.run calls
    constructor
    · rintro ⟨-, hlast⟩ hempties
      obtain ⟨hq, hfail, hlost⟩ := getPeers_of_empties hempties
      have heq := hlast hq fun b hb => by
        cases b with
        | false => rfl
        | true => exact absurd hb hfail
      rw [getPeers_returned, hlost, hgood] at heq
      exact hempties.2.2.2.1 (Except.ok.inj heq).symm
    · intro hnow
      have hothers := (hsound.getPeers c).others
      rw [(getPeers_settings _ c).1, hid, hi] at hothers
      refine ⟨⟨_, getPeers_returned _ c, hothers⟩, fun _ hall => ?_⟩
      have hfail : true ∉ ((r.run calls).getPeers c).1.queries := fun hmem => absurd (hall true hmem) (by decide)
      rw [getPeers_returned, cached_of_failed hsound hfail hnow, hgood]

end DnsPeerRegistry

/-! ## Two calls -/

/-- The first of two pods. -/
def firstPod : PeerIdentity := ⟨"chat-0", "hl", "ns", "local", 5678⟩

/-- A call that finds every pod, and one that finds none. -/
def outage : List Call :=
  [⟨0, ⟨fun _ => .ok [], fun _ => .ok ()⟩⟩,
    ⟨5, ⟨fun _ => .ok [], fun _ => .error (.gaierror "Name or service not known")⟩⟩]

/-- Without an SRV resolver the second call returns nobody. -/
theorem outage_empties_peers :
    ¬ Always (KeepsPeers firstPod) ((DnsPeerRegistry.new firstPod 2 5 false).outcomes outage) := by
  intro hall
  have hruns : (DnsPeerRegistry.new firstPod 2 5 false).outcomes outage =
      [⟨.ok [("chat-1.hl.ns.svc.local", 5678)], [true, true]⟩] ++ ⟨.ok [], [false, false]⟩ :: [] := by
    decide +kernel
  obtain ⟨-, hlast⟩ := hall _ _ _ hruns
  exact absurd (Except.ok.inj (hlast (by decide) (by decide))) (by decide)

end PeerChat.Deploy
