import Mathlib
import LaneCove.Capacity

/-!
# Routing

`route_lookup` scans the routes of all active sessions with a running strict
maximum of the prefix length. It returns the first of the longest prefixes that
match. In a run, the routes of an active session are those configured for its peer,
so the peer selected depends only on which peers are connected.

## Main definitions

- `Matches` — an active slot has a route that covers an address
- `Selects` — a slot has a longest match and is the first that does
- `selectedPeer` — the peer to which `route_lookup` leads

## Main results

- `routeLookup_eq_argmax` — the two loops compute a maximum over all matches
- `routeLookup_selects` — longest-prefix match
- `selectedPeer_order_independent` — routing does not depend on connection order
-/

namespace LaneCove

variable {Priv Key : Type} {ss : List (PeerSession Key)} {dst : BitVec 32} {i j : ℕ}

/-- The session in slot `i` is active and has the route, and it covers `dst`. -/
def Matches (ss : List (PeerSession Key)) (dst : BitVec 32) (i : ℕ) (route : IpPrefix) : Prop :=
  ∃ s, ss[i]? = some s ∧ s.active = true ∧ route ∈ s.routes ∧ route.covers dst = true

/-- Slot `i` has a match that is longest among all matches, and no slot before it has
one as long. -/
def Selects (ss : List (PeerSession Key)) (dst : BitVec 32) (i : ℕ) : Prop :=
  ∃ route, Matches ss dst i route ∧
    (∀ j route', Matches ss dst j route' → route'.prefixLen ≤ route.prefixLen) ∧
    ∀ j route', Matches ss dst j route' → route'.prefixLen = route.prefixLen → i ≤ j

/-- The matches of one session, as prefix lengths with the slot. -/
def slotMatches (dst : BitVec 32) (i : ℕ) (s : PeerSession Key) : List (ℤ × ℕ) :=
  if s.active then (s.routes.filter fun route => route.covers dst).map fun route =>
    (route.prefixLen, i)
  else []

/-- All matches from slot `i` on, in the order in which `route_lookup` meets them. -/
def matchesFrom (dst : BitVec 32) (i : ℕ) (ss : List (PeerSession Key)) : List (ℤ × ℕ) :=
  (ss.zipIdx i).flatMap fun r => slotMatches dst r.2 r.1

theorem mem_slotMatches {s : PeerSession Key} {n : ℤ} :
    (n, j) ∈ slotMatches dst i s ↔ s.active = true ∧ j = i ∧
      ∃ route ∈ s.routes, route.covers dst = true ∧ route.prefixLen = n := by
  unfold slotMatches
  split
  · next ha =>
    simp only [List.mem_map, List.mem_filter, Prod.mk.injEq, ha, true_and]
    constructor
    · rintro ⟨route, ⟨hmem, hcov⟩, hlen, rfl⟩
      exact ⟨rfl, route, hmem, hcov, hlen⟩
    · rintro ⟨rfl, route, hmem, hcov, hlen⟩
      exact ⟨route, ⟨hmem, hcov⟩, hlen, rfl⟩
  · next ha => simp [ha]

theorem mem_matchesFrom {n : ℤ} :
    (n, j) ∈ matchesFrom dst 0 ss ↔ ∃ route, Matches ss dst j route ∧ route.prefixLen = n := by
  simp only [matchesFrom, List.mem_flatMap, Prod.exists, mem_slotMatches,
    List.mem_zipIdx_iff_getElem?, Matches]
  constructor
  · rintro ⟨s, i, hs, ha, rfl, route, hmem, hcov, hlen⟩
    exact ⟨route, ⟨s, hs, ha, hmem, hcov⟩, hlen⟩
  · rintro ⟨route, ⟨s, hs, ha, hmem, hcov⟩, hlen⟩
    exact ⟨s, j, hs, ha, rfl, route, hmem, hcov, hlen⟩

/-- Matches are met in the order of their slots. -/
theorem matchesFrom_sorted (dst : BitVec 32) (i : ℕ) (ss : List (PeerSession Key)) :
    (matchesFrom dst i ss).Pairwise (fun a b => a.2 ≤ b.2) ∧
      ∀ c ∈ matchesFrom dst i ss, i ≤ c.2 := by
  induction ss generalizing i with
  | nil => exact ⟨List.Pairwise.nil, by simp [matchesFrom]⟩
  | cons s ss ih =>
    have hcons : matchesFrom dst i (s :: ss) = slotMatches dst i s ++ matchesFrom dst (i + 1) ss :=
      by simp [matchesFrom]
    have hslot : ∀ c ∈ slotMatches dst i s, c.2 = i := by
      rintro ⟨n, k⟩ hc
      exact (mem_slotMatches.mp hc).2.1
    obtain ⟨hsorted, hfrom⟩ := ih (i + 1)
    rw [hcons, List.pairwise_append]
    refine ⟨⟨?_, hsorted, ?_⟩, ?_⟩
    · rw [List.pairwise_iff_forall_sublist]
      intro a b hab
      have hmem := hab.subset
      rw [hslot a (hmem (by simp)), hslot b (hmem (by simp))]
    · intro a ha b hb
      rw [hslot a ha]
      exact Nat.le_of_succ_le (hfrom b hb)
    · intro c hc
      rcases List.mem_append.mp hc with hc | hc
      · exact (hslot c hc).ge
      · exact Nat.le_of_succ_le (hfrom c hc)

/-- `best_prefix` and `best`, for the best match so far. -/
def bestOf : Option (ℤ × ℕ) → ℤ × Option ℕ
  | none => (-1, none)
  | some c => (c.1, some c.2)

/-- The comparison of the loop is the one of `List.argmax`, as long as prefix lengths
are above the initial `-1`. -/
theorem bestOf_argAux (acc : Option (ℤ × ℕ)) {n : ℤ} (hn : 0 ≤ n) (i : ℕ) :
    bestOf (List.argAux (fun b c => c.1 < b.1) acc (n, i)) =
      if (bestOf acc).1 < n then (n, some i) else bestOf acc := by
  cases acc with
  | none =>
    have : (-1 : ℤ) < n := by omega
    simp [List.argAux, bestOf, this]
  | some c => by_cases hlt : c.1 < n <;> simp [List.argAux, bestOf, hlt]

theorem routeScan_bestOf {routes : List IpPrefix} (hlen : ∀ route ∈ routes, 0 ≤ route.prefixLen)
    (dst : BitVec 32) (i : ℕ) (acc : Option (ℤ × ℕ)) :
    routeScan dst i (bestOf acc) routes =
      bestOf (((routes.filter fun route => route.covers dst).map fun route =>
        (route.prefixLen, i)).foldl (List.argAux fun b c => c.1 < b.1) acc) := by
  induction routes generalizing acc with
  | nil => rfl
  | cons route routes ih =>
    have hrest : ∀ route ∈ routes, 0 ≤ route.prefixLen := fun r hr => hlen r (by simp [hr])
    have hstep : routeScan dst i (bestOf acc) (route :: routes) = routeScan dst i
        (if route.covers dst && decide ((bestOf acc).1 < route.prefixLen) then
          (route.prefixLen, some i) else bestOf acc) routes := rfl
    rw [hstep]
    by_cases hcov : route.covers dst = true
    · have hbest := bestOf_argAux acc (hlen route (by simp)) i
      rw [List.filter_cons_of_pos (by simpa using hcov), List.map_cons, List.foldl_cons,
        ← ih hrest, hbest]
      simp [hcov]
    · rw [List.filter_cons_of_neg (by simpa using hcov), ← ih hrest]
      simp [hcov]

theorem routeLoop_bestOf (hlen : ∀ s ∈ ss, s.active = true → ∀ route ∈ s.routes,
    0 ≤ route.prefixLen) (dst : BitVec 32) (i : ℕ) (acc : Option (ℤ × ℕ)) :
    routeLoop dst i (bestOf acc) ss =
      bestOf ((matchesFrom dst i ss).foldl (List.argAux fun b c => c.1 < b.1) acc) := by
  induction ss generalizing i acc with
  | nil => rfl
  | cons s ss ih =>
    have hrest : ∀ s ∈ ss, s.active = true → ∀ route ∈ s.routes, 0 ≤ route.prefixLen :=
      fun s' hs' => hlen s' (by simp [hs'])
    have hcons : matchesFrom dst i (s :: ss) = slotMatches dst i s ++ matchesFrom dst (i + 1) ss :=
      by simp [matchesFrom]
    rw [routeLoop, hcons, List.foldl_append, ← ih hrest]
    congr 1
    unfold slotMatches
    split
    · next ha => exact routeScan_bestOf (hlen s (by simp) ha) dst i acc
    · rfl

/-- The two loops of `route_lookup` compute a maximum over all matches. -/
theorem routeLookup_eq_argmax (hlen : ∀ s ∈ ss, s.active = true → ∀ route ∈ s.routes,
    0 ≤ route.prefixLen) (dst : BitVec 32) :
    routeLookup ss dst = ((matchesFrom dst 0 ss).argmax Prod.fst).map Prod.snd := by
  have h := routeLoop_bestOf hlen dst 0 none
  rw [routeLookup]
  change (routeLoop dst 0 (bestOf none) ss).2 = _
  rw [h]
  change (bestOf ((matchesFrom dst 0 ss).argmax Prod.fst)).2 = _
  cases (matchesFrom dst 0 ss).argmax Prod.fst <;> rfl

theorem routeLookup_eq_none (hlen : ∀ s ∈ ss, s.active = true → ∀ route ∈ s.routes,
    0 ≤ route.prefixLen) :
    routeLookup ss dst = none ↔ ∀ i route, ¬ Matches ss dst i route := by
  rw [routeLookup_eq_argmax hlen, Option.map_eq_none_iff, List.argmax_eq_none]
  constructor
  · intro hnil i route hmatch
    have hmem := mem_matchesFrom.mpr ⟨route, hmatch, rfl⟩
    rw [hnil] at hmem
    exact List.not_mem_nil hmem
  · intro hnone
    refine List.eq_nil_iff_forall_not_mem.mpr ?_
    rintro ⟨n, i⟩ hmem
    obtain ⟨route, hmatch, -⟩ := mem_matchesFrom.mp hmem
    exact hnone i route hmatch

/-- The first slot with a longest match is unique. -/
theorem Selects.unique (hi : Selects ss dst i) (hj : Selects ss dst j) : i = j := by
  obtain ⟨route, hmatch, hmax, hfirst⟩ := hi
  obtain ⟨route', hmatch', hmax', hfirst'⟩ := hj
  have hlen : route'.prefixLen = route.prefixLen :=
    le_antisymm (hmax j route' hmatch') (hmax' i route hmatch)
  exact le_antisymm (hfirst j route' hmatch' hlen) (hfirst' i route hmatch hlen.symm)

/-- In a list sorted by `f`, what comes first is below. -/
theorem le_of_idxOf_le {α : Type*} [DecidableEq α] {f : α → ℕ} {l : List α} {a b : α}
    (hsorted : l.Pairwise fun a b => f a ≤ f b) (ha : a ∈ l) (hb : b ∈ l)
    (hle : l.idxOf a ≤ l.idxOf b) : f a ≤ f b := by
  rcases hle.lt_or_eq with hlt | heq
  · have hab := List.pairwise_iff_getElem.mp hsorted _ _ (List.idxOf_lt_length_of_mem ha)
      (List.idxOf_lt_length_of_mem hb) hlt
    rwa [List.getElem_idxOf, List.getElem_idxOf] at hab
  · rw [(List.idxOf_inj ha).mp heq]

/-- The maximum that is met first has the lowest slot. -/
theorem selects_of_mem_argmax {n : ℤ} (h : (n, i) ∈ (matchesFrom dst 0 ss).argmax Prod.fst) :
    Selects ss dst i := by
  obtain ⟨hmem, hmax, hindex⟩ := List.mem_argmax_iff.mp h
  obtain ⟨route, hmatch, rfl⟩ := mem_matchesFrom.mp hmem
  refine ⟨route, hmatch, fun j route' hmatch' => ?_, fun j route' hmatch' hlen => ?_⟩
  · exact hmax _ (mem_matchesFrom.mpr ⟨route', hmatch', rfl⟩)
  · have hmem' := mem_matchesFrom.mpr ⟨route', hmatch', rfl⟩
    exact le_of_idxOf_le (matchesFrom_sorted dst 0 ss).1 hmem hmem' (hindex _ hmem' hlen.ge)

theorem routeLookup_selects (hlen : ∀ s ∈ ss, s.active = true → ∀ route ∈ s.routes,
    0 ≤ route.prefixLen) : routeLookup ss dst = some i ↔ Selects ss dst i := by
  have hsome : ∀ {k}, routeLookup ss dst = some k → Selects ss dst k := by
    intro k h
    rw [routeLookup_eq_argmax hlen] at h
    obtain ⟨⟨n, k'⟩, hmax, rfl⟩ := Option.map_eq_some_iff.mp h
    exact selects_of_mem_argmax hmax
  refine ⟨hsome, fun hsel => ?_⟩
  cases hlook : routeLookup ss dst with
  | none =>
    obtain ⟨route, hmatch, -⟩ := hsel
    exact absurd hmatch ((routeLookup_eq_none hlen).mp hlook i route)
  | some k => rw [(hsome hlook).unique hsel]

/-- **Longest-prefix match.** For every session table whose prefix lengths are 0 to 32,
as `parse_cidr` makes them: `route_lookup` returns `NULL` if and only if no active
session has a route that matches; otherwise it returns the first slot with a longest
match. -/
theorem routeLookup_longestPrefix (ss : List (PeerSession Key)) (hlen : ∀ s ∈ ss,
    s.active = true → ∀ route ∈ s.routes, 0 ≤ route.prefixLen ∧ route.prefixLen ≤ 32)
    (dst : BitVec 32) :
    (routeLookup ss dst = none ↔ ∀ i route, ¬ Matches ss dst i route) ∧
      ∀ i, routeLookup ss dst = some i ↔ Selects ss dst i :=
  ⟨routeLookup_eq_none fun s hs ha route hroute => (hlen s hs ha route hroute).1,
    fun _ => routeLookup_selects fun s hs ha route hroute => (hlen s hs ha route hroute).1⟩

namespace Sample

/-- A session with one route. -/
def routed (active : Bool) (route : IpPrefix) : PeerSession SKey :=
  { PeerSession.zero with active, routes := [route] }

/-- A default route, an expired session with a host route, and a network. -/
def routedTable : List (PeerSession SKey) :=
  [routed true ⟨0, 0, 0⟩, routed false ⟨0x0a000001, 0xffffffff, 32⟩,
    routed true ⟨0x0a000000, 0xff000000, 8⟩]

end Sample

open Sample in
theorem routeLookup_longestPrefix_sample : Selects routedTable 0x0a000001 2 :=
  ((routeLookup_longestPrefix routedTable (by decide) 0x0a000001).2 2).mp (by decide +kernel)

/-- The peer to which `route_lookup` leads. -/
def selectedPeer (ss : List (PeerSession Key)) (dst : BitVec 32) : Option Bytes :=
  (routeLookup ss dst).bind fun i => ss[i]?.map PeerSession.staticPub

/-- The peer has an active session. -/
def Connected (ss : List (PeerSession Key)) (pub : Bytes) : Prop :=
  ∃ (i : ℕ) (s : PeerSession Key), ss[i]? = some s ∧ s.active = true ∧ s.staticPub = pub

/-- The routes configured for a key. -/
def configRoutes (configs : List PeerConfig) (pub : Bytes) : List IpPrefix :=
  ((findPeerConfig configs pub).map PeerConfig.routes).getD []

variable {configs : List PeerConfig} {st : PeerState Priv Key} {pub : Bytes} {route : IpPrefix}

/-- If public keys are distinct, each entry is found under its own. -/
theorem findPeerConfig_self (hpubs : (configs.map PeerConfig.pub).Nodup) {cfg : PeerConfig}
    (hcfg : cfg ∈ configs) : findPeerConfig configs cfg.pub = some cfg := by
  cases hfind : findPeerConfig configs cfg.pub with
  | none => exact absurd (List.find?_eq_none.mp hfind cfg hcfg) (by simp)
  | some cfg' =>
    have hpub : cfg'.pub = cfg.pub := by simpa using List.find?_some hfind
    rw [List.inj_on_of_nodup_map hpubs (List.mem_of_find?_eq_some hfind) hcfg hpub]

/-- The matches in a table are those of the configured routes of the connected peers. -/
theorem TableOk.matches_iff (h : TableOk configs st) (hpubs : (configs.map PeerConfig.pub).Nodup) :
    (∃ i s, st.sessions[i]? = some s ∧ s.staticPub = pub ∧ Matches st.sessions dst i route) ↔
      Connected st.sessions pub ∧ route ∈ configRoutes configs pub ∧ route.covers dst = true := by
  have hroutes : ∀ {i : ℕ} {s : PeerSession Key}, st.sessions[i]? = some s → s.active = true →
      configRoutes configs s.staticPub = s.routes := by
    intro i s hs ha
    obtain ⟨cfg, hcfg, hpub, hcfgroutes⟩ := h.configured i s hs ha
    rw [configRoutes, ← hpub, findPeerConfig_self hpubs hcfg]
    exact hcfgroutes
  constructor
  · rintro ⟨i, s, hs, rfl, s', hs', ha, hmem, hcov⟩
    obtain rfl : s = s' := Option.some.inj (hs.symm.trans hs')
    exact ⟨⟨i, s, hs, ha, rfl⟩, (hroutes hs ha).symm ▸ hmem, hcov⟩
  · rintro ⟨⟨i, s, hs, ha, rfl⟩, hmem, hcov⟩
    exact ⟨i, s, hs, rfl, s, hs, ha, hroutes hs ha ▸ hmem, hcov⟩

theorem TableOk.prefixLen_nonneg (h : TableOk configs st)
    (hlen : ∀ cfg ∈ configs, ∀ route ∈ cfg.routes, 0 ≤ route.prefixLen) :
    ∀ s ∈ st.sessions, s.active = true → ∀ route ∈ s.routes, 0 ≤ route.prefixLen := by
  intro s hs ha route hroute
  obtain ⟨i, hi⟩ := List.mem_iff_getElem?.mp hs
  obtain ⟨cfg, hcfg, -, hroutes⟩ := h.configured i s hi ha
  exact hlen cfg hcfg route (hroutes ▸ hroute)

/-- The peer selected is a connected one with a longest configured route. -/
theorem TableOk.selectedPeer_eq_some (h : TableOk configs st)
    (hpubs : (configs.map PeerConfig.pub).Nodup)
    (hlen : ∀ cfg ∈ configs, ∀ route ∈ cfg.routes, 0 ≤ route.prefixLen)
    (hsel : selectedPeer st.sessions dst = some pub) :
    ∃ route, (Connected st.sessions pub ∧ route ∈ configRoutes configs pub ∧
        route.covers dst = true) ∧
      ∀ pub' route', Connected st.sessions pub' → route' ∈ configRoutes configs pub' →
        route'.covers dst = true → route'.prefixLen ≤ route.prefixLen := by
  obtain ⟨i, hlook, hpub⟩ := Option.bind_eq_some_iff.mp hsel
  obtain ⟨s, hs, rfl⟩ := Option.map_eq_some_iff.mp hpub
  obtain ⟨route, hmatch, hmax, -⟩ := (routeLookup_selects (h.prefixLen_nonneg hlen)).mp hlook
  refine ⟨route, (h.matches_iff hpubs).mp ⟨i, s, hs, rfl, hmatch⟩, ?_⟩
  intro pub' route' hconn hmem hcov
  obtain ⟨j, -, -, -, hmatch'⟩ := (h.matches_iff hpubs).mpr ⟨hconn, hmem, hcov⟩
  exact hmax j route' hmatch'

/-- No peer is selected only if no connected peer has a route that matches. -/
theorem TableOk.selectedPeer_eq_none (h : TableOk configs st)
    (hpubs : (configs.map PeerConfig.pub).Nodup)
    (hlen : ∀ cfg ∈ configs, ∀ route ∈ cfg.routes, 0 ≤ route.prefixLen)
    (hsel : selectedPeer st.sessions dst = none) (hconn : Connected st.sessions pub)
    (hmem : route ∈ configRoutes configs pub) : route.covers dst = false := by
  have hlook : routeLookup st.sessions dst = none := by
    cases hlook : routeLookup st.sessions dst with
    | none => rfl
    | some i =>
      obtain ⟨_, ⟨s, hs, -⟩, -⟩ := (routeLookup_selects (h.prefixLen_nonneg hlen)).mp hlook
      rw [selectedPeer, hlook, Option.bind_some, hs] at hsel
      exact absurd hsel (by simp)
  rw [← Bool.not_eq_true]
  intro hcov
  obtain ⟨i, -, -, -, hmatch⟩ := (h.matches_iff hpubs).mpr ⟨hconn, hmem, hcov⟩
  exact (routeLookup_eq_none (h.prefixLen_nonneg hlen)).mp hlook i route hmatch

theorem mem_configRoutes (h : route ∈ configRoutes configs pub) :
    ∃ cfg ∈ configs, cfg.pub = pub ∧ route ∈ cfg.routes := by
  unfold configRoutes at h
  cases hfind : findPeerConfig configs pub with
  | none => exact absurd h (by simp [hfind])
  | some cfg =>
    rw [hfind] at h
    exact ⟨cfg, List.mem_of_find?_eq_some hfind, by simpa using List.find?_some hfind, h⟩

section Loaded

variable {inetPton : Bytes → Option (BitVec 32)} {events : List (YamlEvent × LoadEnv)} {l : Loader}

/-- The mask of a loaded route is the one of its prefix length. -/
theorem mask_of_loaded (hload : loadConfig inetPton events = .ok l) {cfg : PeerConfig}
    (hcfg : cfg ∈ l.configs) (hroute : route ∈ cfg.routes) :
    route.mask = cidrMask route.prefixLen ∧ 0 ≤ route.prefixLen := by
  obtain ⟨peer, hpeer, rfl⟩ := List.mem_map.mp hcfg
  obtain ⟨k, hk⟩ := List.mem_iff_getElem?.mp hpeer
  obtain ⟨text, -, hparse⟩ := loadConfig_routes hload hk hroute
  obtain ⟨⟨addr, len⟩, hparts, rfl⟩ := Option.map_eq_some_iff.mp hparse
  exact ⟨rfl, (cidrParts_bounds hparts).1⟩

/-- Two loaded routes of the same length that cover an address are the same prefix. -/
theorem network_eq_of_covers (hload : loadConfig inetPton events = .ok l)
    {cfg cfg' : PeerConfig} (hcfg : cfg ∈ l.configs) (hcfg' : cfg' ∈ l.configs) {route' : IpPrefix}
    (hroute : route ∈ cfg.routes) (hroute' : route' ∈ cfg'.routes)
    (hlen : route.prefixLen = route'.prefixLen) (hcov : route.covers dst = true)
    (hcov' : route'.covers dst = true) : route.network = route'.network := by
  have hmask : route.mask = route'.mask := by
    rw [(mask_of_loaded hload hcfg hroute).1, (mask_of_loaded hload hcfg' hroute').1, hlen]
  rw [IpPrefix.covers, decide_eq_true_eq] at hcov hcov'
  rw [← hcov, ← hcov', hmask]

/-- No two peers share a prefix. -/
def DistinctRoutes (configs : List PeerConfig) : Prop :=
  ∀ cfg ∈ configs, ∀ cfg' ∈ configs, cfg.pub ≠ cfg'.pub → ∀ route ∈ cfg.routes,
    ∀ route' ∈ cfg'.routes, (route.network, route.prefixLen) ≠ (route'.network, route'.prefixLen)

instance (configs : List PeerConfig) : Decidable (DistinctRoutes configs) :=
  inferInstanceAs (Decidable (∀ cfg ∈ configs, ∀ cfg' ∈ configs, _ → ∀ route ∈ cfg.routes,
    ∀ route' ∈ cfg'.routes, _))

/-- If a peer is selected in one table, it is selected in every table with the same
connected peers. -/
theorem TableOk.selectedPeer_of_connected (hload : loadConfig inetPton events = .ok l)
    (hpubs : (l.configs.map PeerConfig.pub).Nodup) (hdistinct : DistinctRoutes l.configs)
    {st st' : PeerState Priv Key} (h : TableOk l.configs st) (h' : TableOk l.configs st')
    (hconn : ∀ pub, Connected st.sessions pub ↔ Connected st'.sessions pub)
    (hsel : selectedPeer st.sessions dst = some pub) :
    selectedPeer st'.sessions dst = some pub := by
  have hlen : ∀ cfg ∈ l.configs, ∀ route ∈ cfg.routes, 0 ≤ route.prefixLen :=
    fun cfg hcfg route hroute => (mask_of_loaded hload hcfg hroute).2
  obtain ⟨route, ⟨hpub, hmem, hcov⟩, hmax⟩ := h.selectedPeer_eq_some hpubs hlen hsel
  cases hsel' : selectedPeer st'.sessions dst with
  | none =>
    have hnone := h'.selectedPeer_eq_none hpubs hlen hsel' ((hconn pub).mp hpub) hmem
    rw [hcov] at hnone
    exact absurd hnone (by simp)
  | some pub' =>
    obtain ⟨route', ⟨hpub', hmem', hcov'⟩, hmax'⟩ := h'.selectedPeer_eq_some hpubs hlen hsel'
    -- both matches are longest, so they are equally long and the same prefix
    have hle := hmax' pub route ((hconn pub).mp hpub) hmem hcov
    have hge := hmax pub' route' ((hconn pub').mpr hpub') hmem' hcov'
    have heq := le_antisymm hle hge
    obtain ⟨cfg, hcfg, rfl, hroute⟩ := mem_configRoutes hmem
    obtain ⟨cfg', hcfg', rfl, hroute'⟩ := mem_configRoutes hmem'
    by_contra hne
    refine hdistinct cfg hcfg cfg' hcfg' (fun hpub => hne ?_) route hroute route' hroute' ?_
    · rw [hpub]
    · rw [network_eq_of_covers hload hcfg hcfg' hroute hroute' heq hcov hcov', heq]

/-- For every configuration that `load_config` accepts, with distinct public keys and
no prefix configured for two different peers, and any two states of any two runs in
which the same peers have active sessions: `route_lookup` leads to the same peer, or
to none, for every destination. -/
theorem selectedPeer_order_independent [Inhabited Key]
    (hload : loadConfig inetPton events = .ok l) (hpubs : (l.configs.map PeerConfig.pub).Nodup)
    (hdistinct : DistinctRoutes l.configs) (C C' : Crypto Priv Key) (P P' : PeerParams Priv Key)
    (eph eph' : Option Priv) (is is' : List (Input Priv)) :
    let ss := (Machine.run (step C P) (PeerState.initial l.configs eph) is).1.sessions
    let ss' := (Machine.run (step C' P') (PeerState.initial l.configs eph') is').1.sessions
    (∀ pub, Connected ss pub ↔ Connected ss' pub) →
      ∀ dst, selectedPeer ss dst = selectedPeer ss' dst := by
  intro ss ss' hconn dst
  have h := tableOk_run C P l.configs eph is
  have h' := tableOk_run C' P' l.configs eph' is'
  refine Option.ext fun pub => ⟨fun hsel => ?_, fun hsel => ?_⟩
  · exact h.selectedPeer_of_connected hload hpubs hdistinct h' hconn hsel
  · exact h'.selectedPeer_of_connected hload hpubs hdistinct h (fun pub => (hconn pub).symm) hsel

end Loaded

/-- The connected peers, as a list. -/
theorem connected_iff : Connected ss pub ↔
    pub ∈ (ss.filter PeerSession.active).map PeerSession.staticPub := by
  simp only [Connected, List.mem_map, List.mem_filter]
  constructor
  · rintro ⟨i, s, hs, ha, hpub⟩
    exact ⟨s, ⟨List.mem_of_getElem? hs, ha⟩, hpub⟩
  · rintro ⟨s, ⟨hs, ha⟩, hpub⟩
    obtain ⟨i, hi⟩ := List.mem_iff_getElem?.mp hs
    exact ⟨i, s, hi, ha, hpub⟩

namespace Sample

/-- The mapping of peer `n`, with one route. -/
def peerItem (n cidr : String) : List YamlEvent :=
  [.mappingStart, .scalar (CString.ascii "public_key"),
    .scalar (List.replicate 32 (CString.ascii n)).flatten,
    .scalar (CString.ascii "allowed_ips"), .sequenceStart, .scalar (CString.ascii cidr),
    .sequenceEnd, .mappingEnd]

/-- Two peers, one with a part of the network of the other. -/
def twoPeers : List (YamlEvent × LoadEnv) :=
  List.map (fun ev : YamlEvent => (ev, ⟨[], none⟩)) <|
    ([.streamStart, .documentStart, .mappingStart, .scalar (CString.ascii "peers"),
      .sequenceStart] : List YamlEvent) ++
    peerItem "02" "10.0.0.0/8" ++ peerItem "03" "10.0.0.0/16" ++
    ([.sequenceEnd, .mappingEnd, .documentEnd, .streamEnd] : List YamlEvent)

def loadedTwo : Loader where
  key := CString.ascii "peers"
  peerKey := CString.ascii "allowed_ips"
  peers := [
    ⟨⟨crypto.publicKey 2, [⟨0x0a000000, 0xff000000, 8⟩], false, ⟨0, 0⟩, 0⟩, [], 0⟩,
    ⟨⟨crypto.publicKey 3, [⟨0x0a000000, 0xffff0000, 16⟩], false, ⟨0, 0⟩, 0⟩, [], 0⟩]

theorem loadConfig_twoPeers : loadConfig inetPton twoPeers = .ok loadedTwo := by decide +kernel

/-- Peer `n` connects. -/
def connectFrom (n : UInt8) : Input UInt8 :=
  .udpRecv (addr n.toNat) (initiation n 1 10) 100 (recvEnv 100 20)

/-- Peer 1 after the peers have connected in this order. -/
def afterConnects (order : List UInt8) : List (PeerSession SKey) :=
  (Machine.run (step crypto (params 1)) (PeerState.initial loadedTwo.configs (some 4))
    (order.map connectFrom)).1.sessions

end Sample

open Sample in
/-- The slots depend on the order of the connections, the peer selected does not. -/
theorem selectedPeer_order_independent_swapped :
    routeLookup (afterConnects [2, 3]) 0x0a000001 ≠ routeLookup (afterConnects [3, 2]) 0x0a000001 ∧
      ∀ dst, selectedPeer (afterConnects [2, 3]) dst = selectedPeer (afterConnects [3, 2]) dst := by
  have hpeers : ∀ order ∈ [[2, 3], [3, 2]], ((afterConnects order).filter PeerSession.active).map
      PeerSession.staticPub = order.map crypto.publicKey := by
    decide +kernel
  refine ⟨by decide +kernel, selectedPeer_order_independent loadConfig_twoPeers (by decide)
    (by decide) crypto crypto (params 1) (params 1) (some 4) (some 4) _ _ fun pub => ?_⟩
  change Connected (afterConnects [2, 3]) pub ↔ Connected (afterConnects [3, 2]) pub
  rw [connected_iff, connected_iff, hpeers [2, 3] (by simp), hpeers [3, 2] (by simp)]
  simp [or_comm]

end LaneCove
