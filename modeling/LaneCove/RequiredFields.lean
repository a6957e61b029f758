import LaneCove.UnknownKeys
import Mathlib.Data.List.Forall2

/-!
# Required fields

The mapping of a peer must have a `public_key` and `allowed_ips`. `load_config` starts the
entry of a peer with zeros and fills in what it reads; nothing checks at the end of the
mapping what was there. Nor does the end of the mapping end the entry: where a value is still
missing, the bracket is skipped and what follows is read for the same peer.

The survey of a stream lists, for each peer, the scalars that are read for it, and what comes
before them in the mapping of the peer. It does not look at their values.

## Main definitions

- `Place`, `Survey` — which events are read as what
- `Reading.IsPublicKey`, `Reading.IsAllowedIp` — readings from the entries of the own mapping
- `HasRequired` — an entry that comes from the required fields
- `Readings.Complete` — readings that have them

## Main results

- `loadConfig_reads` — the entries of an accepted stream come from these readings
- `required_fields_iff` — for which streams the entries come from the required fields
-/

namespace LaneCove

open CString

-- ════════════════════════════════════════════════════════════════════════
-- The survey
-- ════════════════════════════════════════════════════════════════════════

/-- Where `load_config` stands. -/
structure Place where
  state : LoadState := .root
  key : Bytes := []
  peerKey : Bytes := []

/-- The places depend on the kinds of the events and on the keys only. -/
def Place.next (p : Place) (ev : YamlEvent) : Place :=
  match p.state, ev with
  | .root, .scalar value => { p with key := (ofBuffer value).take 63, state := .rootVal }
  | .rootVal, .scalar _ => { p with state := .root }
  | .rootVal, .sequenceStart => if p.key = ascii "peers" then { p with state := .peersSeq } else p
  | .peersSeq, .sequenceEnd => { p with state := .root }
  | .peersSeq, .mappingStart => { p with state := .peerMap }
  | .peerMap, .mappingEnd => { p with state := .peersSeq }
  | .peerMap, .scalar value => { p with peerKey := (ofBuffer value).take 63, state := .peerVal }
  | .peerVal, .scalar _ => { p with state := .peerMap }
  | .peerVal, .sequenceStart =>
    if p.peerKey = ascii "allowed_ips" then { p with state := .allowedIpsSeq } else p
  | .allowedIpsSeq, .sequenceEnd => { p with state := .peerMap }
  | _, _ => p

/-- A scalar that is read for a peer, and the events before it since the mapping of this peer
has started. -/
structure Reading where
  inner : List (YamlEvent × LoadEnv)
  text : Bytes

/-- The scalar is the value of an entry `public_key` of the mapping. -/
def Reading.IsPublicKey (r : Reading) : Prop :=
  ∃ entries key, r.inner = entries ++ [Scalar.event key] ∧ IsEntries entries ∧
    key.text = ascii "public_key"

/-- The scalar is an item of an entry `allowed_ips` of the mapping. -/
def Reading.IsAllowedIp (r : Reading) : Prop :=
  ∃ entries key items, r.inner = entries ++ Scalar.event key :: mark .sequenceStart :: items ∧
    IsEntries entries ∧ IsItems items ∧ key.text = ascii "allowed_ips"

/-- What is read for one peer: public keys and networks. -/
structure Readings where
  keys : List Reading := []
  cidrs : List Reading := []

/-- A value of the mapping of the peer. -/
def Readings.addValue (key : Bytes) (r : Reading) (given : Readings) : Readings :=
  if key = ascii "public_key" then { given with keys := given.keys ++ [r] } else given

/-- An item of the sequence `allowed_ips`. -/
def Readings.addCidr (r : Reading) (given : Readings) : Readings :=
  { given with cidrs := given.cidrs ++ [r] }

/-- Change the last item. -/
def onLast {α : Type} (f : α → α) (xs : List α) : List α :=
  xs.dropLast ++ (xs.getLast?.map f).toList

structure Survey where
  place : Place := {}
  /-- the events since the mapping of the last peer has started -/
  inner : List (YamlEvent × LoadEnv) := []
  peers : List Readings := []

def Survey.next (s : Survey) (e : YamlEvent × LoadEnv) : Survey :=
  let place := s.place.next e.1
  match s.place.state, e.1 with
  | .peersSeq, .mappingStart => { place, inner := [], peers := s.peers ++ [{}] }
  | .peerVal, .scalar value =>
    { place
      inner := s.inner ++ [relevant e]
      peers := onLast (Readings.addValue s.place.peerKey ⟨s.inner, ofBuffer value⟩) s.peers }
  | .allowedIpsSeq, .scalar value =>
    { place
      inner := s.inner ++ [relevant e]
      peers := onLast (Readings.addCidr ⟨s.inner, ofBuffer value⟩) s.peers }
  | _, _ => { place, inner := s.inner ++ [relevant e], peers := s.peers }

/-- What is read for the peers of a stream. -/
def surveyOf (events : List (YamlEvent × LoadEnv)) : List Readings :=
  ((events.takeWhile fun e => e.1 ≠ .streamEnd).foldl Survey.next {}).peers

/-- The public key and a route of the entry come from the mapping of the peer. -/
def HasRequired (inetPton : Bytes → Option (BitVec 32)) (given : Readings) (peer : PeerEntry) :
    Prop :=
  (∃ r ∈ given.keys, r.IsPublicKey ∧ hexToBytes r.text dhPubkeyLen = some peer.pub) ∧
    ∃ r ∈ given.cidrs, r.IsAllowedIp ∧ ∃ route ∈ peer.routes, parseCidr inetPton r.text = some route

/-- The mapping has a public key, which is not replaced by a different one that is read later,
and a network. -/
def Readings.Complete (given : Readings) : Prop :=
  (∃ r ∈ given.keys, r.IsPublicKey ∧ ∀ last ∈ given.keys.getLast?,
    hexToBytes last.text dhPubkeyLen = hexToBytes r.text dhPubkeyLen) ∧
  ∃ r ∈ given.cidrs, r.IsAllowedIp

-- ════════════════════════════════════════════════════════════════════════
-- The entries follow the survey
-- ════════════════════════════════════════════════════════════════════════

variable {inetPton : Bytes → Option (BitVec 32)} {l l' : Loader}

/-- The entry is what the readings say. -/
structure Reads (inetPton : Bytes → Option (BitVec 32)) (peer : PeerEntry) (given : Readings) :
    Prop where
  zero : given.keys = [] → peer.pub = zeroKey32
  pub : ∀ last ∈ given.keys.getLast?, hexToBytes last.text dhPubkeyLen = some peer.pub
  routes : given.cidrs.map (fun r => parseCidr inetPton r.text) = peer.routes.map some

structure Follows (inetPton : Bytes → Option (BitVec 32)) (l : Loader) (s : Survey) : Prop where
  place : s.place = ⟨l.state, l.key, l.peerKey⟩
  peers : List.Forall₂ (Reads inetPton) l.peers s.peers

theorem onLast_concat {α : Type} (f : α → α) (xs : List α) (x : α) :
    onLast f (xs ++ [x]) = xs ++ [f x] := by
  simp [onLast]

theorem forall₂_concat_iff {α β : Type} {R : α → β → Prop} {xs : List α} {ys : List β} {x : α}
    {y : β} : List.Forall₂ R (xs ++ [x]) (ys ++ [y]) ↔ List.Forall₂ R xs ys ∧ R x y := by
  rw [← List.forall₂_reverse_iff, List.reverse_append, List.reverse_append, List.reverse_singleton,
    List.reverse_singleton, List.singleton_append, List.singleton_append, List.forall₂_cons,
    List.forall₂_reverse_iff, and_comm]

theorem forall₂_updateLast {peers peers' : List PeerEntry} {given : List Readings}
    {f : PeerEntry → Except LoadError PeerEntry} {g : Readings → Readings}
    (hpeers : List.Forall₂ (Reads inetPton) peers given) (h : updateLast peers f = .ok peers')
    (hstep : ∀ peer peer' r, f peer = .ok peer' → Reads inetPton peer r →
      Reads inetPton peer' (g r)) : List.Forall₂ (Reads inetPton) peers' (onLast g given) := by
  rcases List.eq_nil_or_concat peers with rfl | ⟨init, peer, rfl⟩
  · obtain rfl := List.forall₂_nil_left_iff.mp hpeers
    obtain rfl := Except.ok.inj h
    exact .nil
  · rcases List.eq_nil_or_concat given with rfl | ⟨ginit, r, rfl⟩
    · exact absurd hpeers.length_eq (by simp)
    · simp only [List.concat_eq_append, updateLast_concat, forall₂_concat_iff] at h hpeers
      obtain ⟨peer', hpeer, rfl⟩ := exists_of_map_eq_ok h
      rw [List.concat_eq_append, onLast_concat, forall₂_concat_iff]
      exact ⟨hpeers.1, hstep peer peer' r hpeer hpeers.2⟩

theorem Reads.addValue {key : Bytes} {env : LoadEnv} {peer peer' : PeerEntry} {given : Readings}
    {r : Reading} (h : Reads inetPton peer given) (hset : setPeer key r.text env peer = .ok peer') :
    Reads inetPton peer' (given.addValue key r) := by
  have hroutes : given.cidrs.map (fun r => parseCidr inetPton r.text) = peer'.routes.map some :=
    setPeer_routes hset ▸ h.routes
  rw [Readings.addValue]
  split
  · next hkey =>
    refine ⟨by simp, fun last hlast => ?_, hroutes⟩
    obtain rfl : r = last := by simpa using hlast
    exact (setPeer_pub hset).1 hkey
  · next hkey =>
    have hpub := (setPeer_pub hset).2 hkey
    exact ⟨fun hnil => hpub.trans (h.zero hnil), fun last hlast => hpub ▸ h.pub last hlast, hroutes⟩

theorem Reads.addCidr {peer peer' : PeerEntry} {given : Readings} {r : Reading}
    (h : Reads inetPton peer given) (hadd : addRoute inetPton r.text peer = .ok peer') :
    Reads inetPton peer' (given.addCidr r) := by
  obtain ⟨route, hparse, hroutes⟩ := addRoute_routes hadd
  have hpub := addRoute_pub hadd
  refine ⟨fun hnil => hpub.trans (h.zero hnil), fun last hlast => hpub ▸ h.pub last hlast, ?_⟩
  rw [Readings.addCidr, List.map_append, h.routes, hroutes, List.map_append]
  simp [hparse]

theorem Reads.new : Reads inetPton PeerEntry.zero {} := ⟨fun _ => rfl, by simp, rfl⟩

/-- One event. -/
theorem Follows.step {s : Survey} {e : YamlEvent × LoadEnv} (hs : Follows inetPton l s)
    (h : loadStep inetPton l e.1 e.2 = .ok l') : Follows inetPton l' (s.next e) := by
  obtain ⟨place, inner, given⟩ := s
  obtain ⟨ev, env⟩ := e
  obtain ⟨state, k, pk, root, peers⟩ := l
  obtain ⟨rfl, hpeers⟩ := hs
  have hkeep : ∀ {state' k' pk' root'},
      (Except.ok ⟨state', k', pk', root', peers⟩ : Except LoadError Loader) = .ok l' →
      ∀ inner', Follows inetPton l' ⟨⟨state', k', pk'⟩, inner', given⟩ := by
    intro state' k' pk' root' hok inner'
    obtain rfl := Except.ok.inj hok
    exact ⟨rfl, hpeers⟩
  cases state with
  | root | peerMap => cases ev <;> exact hkeep h _
  | rootVal =>
    cases ev with
    | sequenceStart =>
      by_cases hlist : k = ascii "peers"
      · simp only [loadStep, Survey.next, Place.next, if_pos hlist] at h ⊢
        exact hkeep h _
      · simp only [loadStep, Survey.next, Place.next, if_neg hlist] at h ⊢
        exact hkeep h _
    | _ => exact hkeep h _
  | peersSeq =>
    cases ev with
    | mappingStart =>
      simp only [loadStep] at h
      split at h
      · exact absurd h (by simp)
      · obtain rfl := Except.ok.inj h
        exact ⟨rfl, forall₂_concat_iff.mpr ⟨hpeers, .new⟩⟩
    | _ => exact hkeep h _
  | peerVal =>
    cases ev with
    | scalar value =>
      obtain ⟨peers', hupd, rfl⟩ := exists_of_map_eq_ok h
      exact ⟨rfl, forall₂_updateLast hpeers hupd fun _ _ _ hset hr => hr.addValue hset⟩
    | sequenceStart =>
      by_cases hlist : pk = ascii "allowed_ips"
      · simp only [loadStep, Survey.next, Place.next, if_pos hlist] at h ⊢
        exact hkeep h _
      · simp only [loadStep, Survey.next, Place.next, if_neg hlist] at h ⊢
        exact hkeep h _
    | _ => exact hkeep h _
  | allowedIpsSeq =>
    cases ev with
    | scalar value =>
      obtain ⟨peers', hupd, rfl⟩ := exists_of_map_eq_ok h
      exact ⟨rfl, forall₂_updateLast hpeers hupd fun _ _ _ hadd hr => hr.addCidr hadd⟩
    | _ => exact hkeep h _

/-- The rest of a stream. -/
theorem Follows.loadEvents {s : Survey} (hs : Follows inetPton l s)
    {events : List (YamlEvent × LoadEnv)} (h : LaneCove.loadEvents inetPton l events = .ok l') :
    Follows inetPton l' ((events.takeWhile fun e => e.1 ≠ .streamEnd).foldl Survey.next s) := by
  induction events generalizing l s with
  | nil => exact absurd h (by simp [LaneCove.loadEvents])
  | cons e events ih =>
    rw [LaneCove.loadEvents] at h
    split at h
    · exact absurd h (by simp)
    · next l₁ hstep =>
      by_cases hend : e.1 = .streamEnd
      · -- the end of the stream is skipped in every state
        have hsame : loadStep inetPton l e.1 e.2 = .ok l := by
          rw [hend]
          obtain ⟨state, k, pk, root, peers⟩ := l
          cases state <;> rfl
        rw [if_pos hend] at h
        obtain rfl := Except.ok.inj h
        obtain rfl := Except.ok.inj (hsame.symm.trans hstep)
        simpa [List.takeWhile_cons, hend] using hs
      · rw [if_neg hend] at h
        simpa [List.takeWhile_cons, hend] using ih (hs.step hstep) h

/-- Every entry of an accepted stream holds what is read for it: the last public key, or zeros,
and the networks. -/
theorem loadConfig_reads {events : List (YamlEvent × LoadEnv)}
    (h : loadConfig inetPton events = .ok l) :
    List.Forall₂ (Reads inetPton) l.peers (surveyOf events) :=
  (Follows.loadEvents (s := {}) ⟨rfl, .nil⟩ h).peers

-- ════════════════════════════════════════════════════════════════════════
-- The required fields
-- ════════════════════════════════════════════════════════════════════════

/-- An entry comes from the required fields if they were read for it. -/
theorem Reads.hasRequired_iff {peer : PeerEntry} {given : Readings}
    (h : Reads inetPton peer given) : HasRequired inetPton given peer ↔ given.Complete := by
  refine and_congr (exists_congr fun r => and_congr_right fun hr => and_congr_right fun _ => ?_)
    (exists_congr fun r => and_congr_right fun hr => ?_)
  · cases hlast : given.keys.getLast? with
    | none =>
      rw [List.getLast?_eq_none_iff] at hlast
      exact absurd hr (by simp [hlast])
    | some last =>
      simp only [Option.mem_some_iff, forall_eq', h.pub last hlast]
      exact eq_comm
  · refine and_iff_left_of_imp fun _ => ?_
    have hmem : parseCidr inetPton r.text ∈ peer.routes.map some := by
      rw [← h.routes]
      exact List.mem_map_of_mem hr
    obtain ⟨route, hroute, heq⟩ := List.mem_map.mp hmem
    exact ⟨route, hroute, heq.symm⟩

/-- **Required fields.** The entries of an accepted stream have a public key and a route from
the mappings of their peers exactly if for each peer the stream has an entry `public_key` in
this mapping, no different key is read for the peer after it, and the mapping has a sequence
`allowed_ips` with a network in it. -/
theorem required_fields_iff {events : List (YamlEvent × LoadEnv)}
    (h : loadConfig inetPton events = .ok l) :
    (∀ (i : ℕ) (peer : PeerEntry), l.peers[i]? = some peer →
      ∃ given, (surveyOf events)[i]? = some given ∧ HasRequired inetPton given peer) ↔
      ∀ given ∈ surveyOf events, given.Complete := by
  have hreads := loadConfig_reads h
  constructor
  · intro hrequired given hgiven
    obtain ⟨i, hi, rfl⟩ := List.getElem_of_mem hgiven
    have hi' : i < l.peers.length := hreads.length_eq ▸ hi
    obtain ⟨given, hget, hhas⟩ := hrequired i l.peers[i] (List.getElem?_eq_getElem hi')
    obtain rfl := Option.some.inj ((List.getElem?_eq_getElem hi).symm.trans hget)
    exact (hreads.get hi' hi).hasRequired_iff.mp hhas
  · intro hcomplete i peer hpeer
    obtain ⟨hi, rfl⟩ := List.getElem?_eq_some_iff.mp hpeer
    have hi' : i < (surveyOf events).length := hreads.length_eq ▸ hi
    exact ⟨_, List.getElem?_eq_getElem hi',
      (hreads.get hi hi').hasRequired_iff.mpr (hcomplete _ (List.getElem_mem hi'))⟩

namespace Document

/-- The key `0101…01`. -/
def keyText : Scalar := ⟨(List.replicate 32 (ascii "01")).flatten, ⟨[], none⟩⟩

def completePeer : List (YamlEvent × LoadEnv) :=
  [(text "public_key").event, keyText.event, (text "allowed_ips").event, mark .sequenceStart,
    (text "10.9.0.2/32").event, mark .sequenceEnd]

/-- A file with one peer. -/
def onePeer (fields : List (YamlEvent × LoadEnv)) : List (YamlEvent × LoadEnv) :=
  fileEvents (firstPeer ++ fields ++ [mark .mappingEnd, mark .sequenceEnd])

end Document

open Document in
theorem required_fields_complete : ∃ l, loadConfig Ipv4.pton (onePeer completePeer) = .ok l ∧
    ∀ (i : ℕ) (peer : PeerEntry), l.peers[i]? = some peer →
      ∃ given, (surveyOf (onePeer completePeer))[i]? = some given ∧
        HasRequired Ipv4.pton given peer := by
  refine ⟨_, rfl, (required_fields_iff rfl).mpr ?_⟩
  have hsurvey : surveyOf (onePeer completePeer) =
      [⟨[⟨completePeer.take 1, keyText.text⟩],
        [⟨completePeer.take 4, ascii "10.9.0.2/32"⟩]⟩] := rfl
  rw [hsurvey, List.forall_mem_singleton]
  exact ⟨⟨_, List.mem_singleton_self _, ⟨[], text "public_key", rfl, .nil, rfl⟩, by simp⟩,
    _, List.mem_singleton_self _,
    ⟨completePeer.take 2, text "allowed_ips", [], rfl, isEntries_pair _ _, .nil, rfl⟩⟩

open Document in
/-- A peer without any fields is accepted. -/
theorem required_fields_missing : ∃ l, loadConfig Ipv4.pton (onePeer []) = .ok l ∧
    l.peers = [PeerEntry.zero] ∧
    ¬ ∃ given, (surveyOf (onePeer []))[0]? = some given ∧
      HasRequired Ipv4.pton given PeerEntry.zero := by
  refine ⟨_, rfl, rfl, ?_⟩
  rintro ⟨given, hgiven, ⟨r, hr, -⟩, -⟩
  obtain rfl := Option.some.inj hgiven
  exact absurd hr (by simp)

end LaneCove
