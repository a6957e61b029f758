import LaneCove.Capacity
import LaneCove.Relay

/-!
# AllowedIPs

What a peer may send through the tunnel. The source address of an IPv4 payload is
checked against the routes of the session, and these are what `load_config` read
for the peer. A payload that is not IPv4 skips the check, and is delivered.

## Main definitions

- `OnlyIpv4` — a reaction delivers nothing but checked IPv4 packets
- `CarriesIpv4` — a datagram that is accepted carries an IPv4 packet or nothing

## Main results

- `delivered_iff` — when a datagram makes the loop deliver a payload
- `allowedIps_enforced` — delivered IPv4 packets have a configured source address
- `onlyIpv4_iff` — the tunnel is IPv4 only as far as the senders make it so
-/

namespace LaneCove

variable {Priv Key : Type} [Inhabited Key] {C : Crypto Priv Key} {P : PeerParams Priv Key}
  {st : PeerState Priv Key} {src : SockAddr} {packet : Bytes} {now : Time} {env : RecvEnv Priv}

omit [Inhabited Key] in
theorem not_mem_relayTo {payload packet' payload' : Bytes} {hop : Option (Option ℕ)}
    {usedPrevKey : Bool} {relay : Option ℕ} {send : SendEnv} :
    .delivered packet' usedPrevKey payload' relay ∉ (relayTo C st payload send hop).2 := by
  unfold relayTo
  split
  · unfold forwardOn
    split
    · simp
    · split <;> simp
  · simp
  · simp

/-- A datagram makes the loop deliver a payload exactly if the session of its
address opens it and there is a next hop. -/
theorem delivered_iff {packet' payload : Bytes} {usedPrevKey : Bool} {relay : Option ℕ} :
    .delivered packet' usedPrevKey payload relay ∈ (step C P st (.udpRecv src packet now env)).2 ↔
      packet' = packet ∧ isHandshake P.psk packet = false ∧ ∃ j s key seq recv,
        findSessionByAddr st.sessions src = some j ∧ st.sessions[j]? = some s ∧
        openData C s packet now = some (key, usedPrevKey, seq, payload, recv) ∧
        nextHop (st.sessions.set j (afterAccept C s packet now recv)) j
          (afterAccept C s packet now recv) payload = some relay := by
  constructor
  · intro he
    have ht := touches_of_mem he rfl (by simp)
    obtain ⟨slot, s₀, key₀, seq₀, -, -, hacc⟩ := ht.delivered he
    obtain ⟨-, -, -, -, now', hrx, -⟩ := ht.accepted hacc
    obtain ⟨hhs, _, _, hinp⟩ := Input.dataPacket_eq_some hrx
    obtain ⟨-, rfl, -, -⟩ := Input.udpRecv.inj hinp
    refine ⟨rfl, hhs, ?_⟩
    cases hfind : findSessionByAddr st.sessions src with
    | none => exact absurd he (by simp [step, udpRecv, hhs, hfind])
    | some j =>
      obtain ⟨s, hs, -, -⟩ := findSessionByAddr_eq_some hfind
      rw [step_recvData hhs hfind hs] at he
      cases hopen : openData C s packet now with
      | none =>
        rw [recvData_rejected hopen] at he
        exact absurd he (by simp)
      | some r =>
        obtain ⟨key, used, seq, payload', recv⟩ := r
        rw [recvData_accepted hopen] at he
        rcases List.mem_append.mp he with he | he
        · obtain ⟨relay', hhop, heq⟩ := mem_handOn.mp (List.mem_of_ne_of_mem (by simp) he)
          obtain ⟨-, rfl, rfl, rfl⟩ := Event.delivered.inj heq
          exact ⟨j, s, key, seq, recv, rfl, hs, hopen, hhop⟩
        · exact absurd he not_mem_relayTo
  · rintro ⟨rfl, hhs, j, s, key, seq, recv, hfind, hs, hopen, hhop⟩
    rw [step_recvData hhs hfind hs, recvData_accepted hopen]
    dsimp only
    rw [hhop]
    simp [handOn]

omit [Inhabited Key] in
/-- What a session hands on it has admitted; receiving changes no routes. -/
theorem admits_of_hop {ss : List (PeerSession Key)} {j : ℕ} {s : PeerSession Key}
    {recv : ReplayState} {payload : Bytes} {relay : Option ℕ}
    (h : nextHop ss j (afterAccept C s packet now recv) payload = some relay) :
    s.admits payload = true := by
  show (afterAccept C s packet now recv).admits payload = true
  apply admits_of_nextHop
  rw [h]
  rfl

omit [Inhabited Key] in
/-- A session with routes admits an IPv4 packet only from one of them. -/
theorem checkAllowedSrc_of_admits {s : PeerSession Key} {payload : Bytes}
    (hadm : s.admits payload = true) (hroutes : s.routes ≠ []) (hip : isIpv4 payload = true) :
    checkAllowedSrc s (ipAt payload 12) = true := by
  have hne : s.routes.isEmpty = false := by
    rw [← Bool.not_eq_true, List.isEmpty_iff]
    exact hroutes
  simpa [PeerSession.admits, hne, hip] using (Bool.and_eq_true_iff.mp hadm).2

/-- For every configuration that `load_config` accepts with routes for each peer,
every state of every run and every datagram: if a payload is delivered to the TUN
device or to another peer and is an IPv4 packet, then its source address agrees
with one of the CIDRs configured for the peer of the receiving session on the
first `prefix_len` bits. -/
theorem allowedIps_enforced {inetPton : Bytes → Option (BitVec 32)}
    {events : List (YamlEvent × LoadEnv)} {l : Loader} (hload : loadConfig inetPton events = .ok l)
    (hroutes : ∀ peer ∈ l.peers, peer.routes ≠ []) (C : Crypto Priv Key) (P : PeerParams Priv Key)
    (eph : Option Priv) (is : List (Input Priv)) :
    let st := (Machine.run (step C P) (PeerState.initial l.configs eph) is).1
    ∀ src packet now env packet' usedPrevKey payload relay,
      .delivered packet' usedPrevKey payload relay ∈
        (step C P st (.udpRecv src packet now env)).2 → isIpv4 payload = true →
      ∃ j s k peer text addr len, findSessionByAddr st.sessions src = some j ∧
        st.sessions[j]? = some s ∧ l.peers[k]? = some peer ∧ peer.pub = s.staticPub ∧
        (k, text) ∈ cidrsOf inetPton {} events ∧ cidrParts inetPton text = some (addr, len) ∧
        ∀ i : ℕ, (i : ℤ) < len → (ipAt payload 12).getMsbD i = addr.getMsbD i := by
  intro st src packet now env packet' usedPrevKey payload relay he hip
  obtain ⟨-, -, j, s, key, seq, recv, hfind, hs, -, hhop⟩ := delivered_iff.mp he
  obtain ⟨s', hs', ha, -⟩ := findSessionByAddr_eq_some hfind
  obtain rfl : s = s' := Option.some.inj (hs.symm.trans hs')
  -- the session has the routes of a loaded peer
  obtain ⟨cfg, hcfg, hpub, hcfgroutes⟩ := (tableOk_run C P l.configs eph is).configured j s hs ha
  obtain ⟨peer, hpeer, rfl⟩ := List.mem_map.mp hcfg
  obtain ⟨k, hk⟩ := List.mem_iff_getElem?.mp hpeer
  -- one of them covers the source address
  have hsrc := checkAllowedSrc_of_admits (admits_of_hop hhop) (hcfgroutes ▸ hroutes peer hpeer) hip
  rw [checkAllowedSrc, Bool.or_eq_true, List.isEmpty_iff, List.any_eq_true, ← hcfgroutes] at hsrc
  obtain ⟨route, hroute, hcovers⟩ := hsrc.resolve_left (hroutes peer hpeer)
  obtain ⟨text, htext, hparse⟩ := loadConfig_routes hload hk hroute
  obtain ⟨addr, len, hparts, hbits⟩ := covers_of_parseCidr hparse
  exact ⟨j, s, k, peer, text, addr, len, hfind, hs, hk, hpub, htext, hparts,
    (hbits _).mp hcovers⟩

omit [Inhabited Key] in
theorem delivered_of_mem_tunWrites {payload : Bytes} {es : List (Event Key)}
    (h : payload ∈ tunWrites es) :
    ∃ packet usedPrevKey, .delivered packet usedPrevKey payload none ∈ es := by
  obtain ⟨e, he, heq⟩ := List.mem_filterMap.mp h
  split at heq
  · next packet usedPrevKey payload' =>
    obtain rfl := Option.some.inj heq
    exact ⟨packet, usedPrevKey, he⟩
  · exact absurd heq (by simp)

namespace Sample

/-- Peer 1 has answered the initiation of peer 2. -/
def joined (configs : List PeerConfig) : PeerState UInt8 SKey :=
  (Machine.run (step crypto (params 1)) (PeerState.initial configs (some 4)) [connect]).1

/-- The first data packet of peer 2, with any payload. -/
def firstData (configs : List PeerConfig) (payload : Bytes) : Bytes :=
  ((joined configs).sessions[0]?.bind fun s =>
    encryptPacket crypto s.sessionKey (sendEnv 101).iv (frame 0 payload)).getD []

/-- An IPv4 packet from 10.0.0.7. -/
def fromSeven : Bytes := 0x45 :: List.replicate 11 0 ++ [10, 0, 0, 7] ++ List.replicate 4 0

end Sample

open Sample in
theorem allowedIps_enforced_sample :
    fromSeven ∈ tunWrites (step crypto (params 1) (joined loaded.configs)
        (.udpRecv (addr 2) (firstData loaded.configs fromSeven) 101 (recvEnv 101 21))).2 ∧
      ∃ j s k peer text addr' len,
        findSessionByAddr (joined loaded.configs).sessions (addr 2) = some j ∧
        (joined loaded.configs).sessions[j]? = some s ∧ loaded.peers[k]? = some peer ∧
        peer.pub = s.staticPub ∧ (k, text) ∈ cidrsOf inetPton {} document ∧
        cidrParts inetPton text = some (addr', len) ∧
        ∀ i : ℕ, (i : ℤ) < len → (ipAt fromSeven 12).getMsbD i = addr'.getMsbD i := by
  have htun : fromSeven ∈ tunWrites (step crypto (params 1) (joined loaded.configs)
      (.udpRecv (addr 2) (firstData loaded.configs fromSeven) 101 (recvEnv 101 21))).2 := by
    decide +kernel
  obtain ⟨packet, usedPrevKey, he⟩ := delivered_of_mem_tunWrites htun
  exact ⟨htun, allowedIps_enforced loadConfig_document (by decide) crypto (params 1) (some 4) _ _ _
    _ _ _ _ _ _ he (by decide)⟩

/-- If the receiving session has routes, whatever the datagram makes the loop
deliver is an IPv4 packet whose source address was checked. -/
def OnlyIpv4 (C : Crypto Priv Key) (P : PeerParams Priv Key) (st : PeerState Priv Key)
    (src : SockAddr) (packet : Bytes) (now : Time) (env : RecvEnv Priv) : Prop :=
  ∀ j s, findSessionByAddr st.sessions src = some j → st.sessions[j]? = some s → s.routes ≠ [] →
    ∀ packet' usedPrevKey payload relay,
      .delivered packet' usedPrevKey payload relay ∈
        (step C P st (.udpRecv src packet now env)).2 →
      isIpv4 payload = true ∧ checkAllowedSrc s (ipAt payload 12) = true

/-- If the receiving session has routes and a data packet passes decryption,
header check and replay check, it is a keepalive or carries an IPv4 packet. -/
def CarriesIpv4 (C : Crypto Priv Key) (P : PeerParams Priv Key) (st : PeerState Priv Key)
    (src : SockAddr) (packet : Bytes) (now : Time) : Prop :=
  isHandshake P.psk packet = false → ∀ j s, findSessionByAddr st.sessions src = some j →
    st.sessions[j]? = some s → s.routes ≠ [] → ∀ key usedPrevKey seq payload recv,
      openData C s packet now = some (key, usedPrevKey, seq, payload, recv) →
      payload = [] ∨ isIpv4 payload = true

omit [Inhabited Key] in
/-- A payload that is neither empty nor IPv4 goes to the TUN device. -/
theorem nextHop_of_not_ipv4 {ss : List (PeerSession Key)} {j : ℕ} {s : PeerSession Key}
    {payload : Bytes} (hne : payload ≠ []) (hip : isIpv4 payload = false) :
    nextHop ss j s payload = some none := by
  have hadm : s.admits payload = true := by
    simp [PeerSession.admits, hne, hip]
  rw [nextHop_eq, if_pos hadm, if_neg (Bool.eq_false_iff.mp hip)]

/-- For every state and every datagram, nothing but checked IPv4 packets is
delivered exactly if the datagram carries no other payload: the receive path
itself does not filter by protocol. -/
theorem onlyIpv4_iff (C : Crypto Priv Key) (P : PeerParams Priv Key) (st : PeerState Priv Key)
    (src : SockAddr) (packet : Bytes) (now : Time) (env : RecvEnv Priv) :
    OnlyIpv4 C P st src packet now env ↔ CarriesIpv4 C P st src packet now := by
  constructor
  · intro h hhs j s hfind hs hroutes key usedPrevKey seq payload recv hopen
    by_contra hother
    obtain ⟨hne, hip⟩ := not_or.mp hother
    have he : .delivered packet usedPrevKey payload none ∈
        (step C P st (.udpRecv src packet now env)).2 :=
      delivered_iff.mpr ⟨rfl, hhs, j, s, key, seq, recv, hfind, hs, hopen,
        nextHop_of_not_ipv4 hne (by simpa using hip)⟩
    exact hip (h j s hfind hs hroutes packet usedPrevKey payload none he).1
  · intro h j s hfind hs hroutes packet' usedPrevKey payload relay he
    obtain ⟨-, hhs, j', s', key, seq, recv, hfind', hs', hopen, hhop⟩ := delivered_iff.mp he
    obtain rfl : j = j' := Option.some.inj (hfind.symm.trans hfind')
    obtain rfl : s = s' := Option.some.inj (hs.symm.trans hs')
    have hadm := admits_of_hop hhop
    have hip : isIpv4 payload = true := by
      refine (h hhs j s hfind hs hroutes key usedPrevKey seq payload recv hopen).resolve_left ?_
      rintro rfl
      exact absurd hadm (by simp [PeerSession.admits])
    exact ⟨hip, checkAllowedSrc_of_admits hadm hroutes hip⟩

/-- An IPv6 packet. -/
def Sample.ipv6Packet : Bytes := 0x60 :: List.replicate 39 0

open Sample in
/-- Peer 2, of which only packets from 10.0.0.0/8 are allowed, sends an IPv6 packet,
and it is written to the TUN device. -/
theorem ipv6_delivered :
    ¬ OnlyIpv4 crypto (params 1) (joined loaded.configs) (addr 2)
      (firstData loaded.configs ipv6Packet) 101 (recvEnv 101 21) := by
  intro h
  have hfind : findSessionByAddr (joined loaded.configs).sessions (addr 2) = some 0 := by
    decide +kernel
  have hroutes : ((joined loaded.configs).sessions[0]?.map fun s => s.routes.isEmpty) =
      some false := by
    decide +kernel
  have htun : ipv6Packet ∈ tunWrites (step crypto (params 1) (joined loaded.configs)
      (.udpRecv (addr 2) (firstData loaded.configs ipv6Packet) 101 (recvEnv 101 21))).2 := by
    decide +kernel
  obtain ⟨s, hs, hne⟩ := Option.map_eq_some_iff.mp hroutes
  obtain ⟨packet, usedPrevKey, he⟩ := delivered_of_mem_tunWrites htun
  have hip := (h 0 s hfind hs (by simpa using hne) packet usedPrevKey ipv6Packet none he).1
  exact absurd hip (by decide)

end LaneCove
