import LaneCove.PacketBuffers

/-!
# Relaying between two spokes

A packet that one peer reads from its TUN device reaches the TUN device of another
over a third that both have a session with. The relay decrypts it into a buffer,
frames it anew in the same place and sends it on; it writes nothing to its own TUN
device and touches two sessions.

## Main definitions

- `HubAndSpoke` — the routing and the keys that lead a packet over the relay

## Main results

- `forwardToPeer_inPlace` — framing in place sends the same datagram
- `HubAndSpoke.relay_step` — what the relay does, and what it leaves alone
- `relay_transparent` — the bytes read at one end are written at the other
-/

namespace LaneCove

variable {Priv Key : Type}

/-- The number is new to the replay state, and less than 2048 behind the highest. -/
def ReplayState.Fresh (recv : ReplayState) (seq : BitVec 64) : Prop :=
  ∃ acc, recv.Represents acc ∧ seq ∉ acc ∧
    (SlidingWindow.maxAccepted (acc.map BitVec.toNat) < seq.toNat ∨
      SlidingWindow.maxAccepted (acc.map BitVec.toNat) - seq.toNat < 2048)

theorem ReplayState.Fresh.checkReplay {recv : ReplayState} {seq : BitVec 64} (h : recv.Fresh seq) :
    (LaneCove.checkReplay seq recv).1 = 0 := by
  obtain ⟨acc, hrep, hnew⟩ := h
  rcases hrep.checkReplay seq with ⟨hret, -⟩ | ⟨-, hold⟩
  · exact hret
  · exact absurd hnew hold

/-- A link in the direction of travel: the receiver has an active session, in slot `j`, for
the address `src` the sender's datagrams come from, with the sender's current key; the
next number of the sender is fresh there, and the packet's source address is allowed. -/
structure Link (sender : PeerSession Key) (st : PeerState Priv Key) (src : SockAddr) (j : ℕ)
    (s : PeerSession Key) (buffer : Bytes) : Prop where
  slot : st.sessions[j]? = some s
  active : s.active = true
  addr : s.addr = src
  key : s.sessionKey = sender.sessionKey
  fresh : s.recvSeq.Fresh sender.sendSeq
  allowed : (s.routes.any fun route => route.covers (ipAt buffer 12)) = true
  distinct : DistinctAddrs st.sessions

/-- A session after a packet under its current key was accepted. -/
def PeerSession.received (s : PeerSession Key) (now : Time) (recvSeq : ReplayState) :
    PeerSession Key :=
  { s with lastSeen := now, prevKeyActive := false, recvSeq }

/-- Over a link, the payload is accepted and admitted. -/
theorem Link.openData {C : Crypto Priv Key} (hC : C.GcmCorrect) {sender s : PeerSession Key}
    {st : PeerState Priv Key} {src : SockAddr} {j : ℕ} {buffer packet : Bytes} {env : SendEnv}
    (h : Link sender st src j s buffer)
    (hsend : (forwardToPeer C sender buffer env).2 = some packet) (now : Time) :
    openData C s packet now = some (sender.sessionKey, false, sender.sendSeq, buffer,
      (checkReplay sender.sendSeq s.recvSeq).2) := by
  have henc := encryptPacket_of_forwardToPeer hsend
  rw [← h.key] at henc ⊢
  rw [openData_current hC henc, h.fresh.checkReplay, if_neg (lt_irrefl _)]

theorem admits_of_allowed {s : PeerSession Key} {buffer : Bytes} (hipv4 : isIpv4 buffer = true)
    (hallowed : (s.routes.any fun route => route.covers (ipAt buffer 12)) = true) :
    s.admits buffer = true := by
  have hne : buffer.isEmpty = false := by
    cases buffer with
    | nil => exact absurd hipv4 (by decide)
    | cons => rfl
  simp [PeerSession.admits, hne, checkAllowedSrc, hallowed]

/-- A packet of a spoke is routed over the hub to another spoke. In the direction of
travel: `s₁` is the session of the first spoke with the hub, `r₁` that of the hub with
the first spoke, `r₂` that of the hub with the second spoke, and `s₂` that of the second
spoke with the hub. -/
structure HubAndSpoke (st₁ hub st₂ : PeerState Priv Key) (src₁ srcHub : SockAddr)
    (i₁ j₁ j₂ i₂ : ℕ) (s₁ r₁ r₂ s₂ : PeerSession Key) (buffer : Bytes) : Prop where
  ipv4 : isIpv4 buffer = true
  size : buffer.length ≤ 2048
  route₁ : routeLookup st₁.sessions (ipAt buffer 16) = some i₁
  slot₁ : st₁.sessions[i₁]? = some s₁
  up : Link s₁ hub src₁ j₁ r₁ buffer
  routeHub : routeLookup hub.sessions (ipAt buffer 16) = some j₂
  slotHub : hub.sessions[j₂]? = some r₂
  other : j₂ ≠ j₁
  down : Link r₂ st₂ srcHub i₂ s₂ buffer
  route₂ : routeLookup st₂.sessions (ipAt buffer 16) = none ∨
    routeLookup st₂.sessions (ipAt buffer 16) = some i₂

theorem forwardToPeer_session (C : Crypto Priv Key) (s : PeerSession Key) (payload : Bytes)
    (env : SendEnv) : ∃ lastSent, (forwardToPeer C s payload env).1 =
      { s with sendSeq := s.sendSeq + 1, lastSent := lastSent } := by
  unfold forwardToPeer
  split
  · exact ⟨s.lastSent, rfl⟩
  · split
    · exact ⟨env.clk, rfl⟩
    · exact ⟨s.lastSent, rfl⟩

/-- An admitted IPv4 payload follows its route, to the TUN device if this leads back. -/
theorem nextHop_ipv4 {ss : List (PeerSession Key)} {j : ℕ} {s : PeerSession Key} {buffer : Bytes}
    (hipv4 : isIpv4 buffer = true) (hadmits : s.admits buffer = true) :
    nextHop ss j s buffer = some ((routeLookup ss (ipAt buffer 16)).filter (· ≠ j)) := by
  rw [nextHop_eq, if_pos hadmits, if_pos hipv4]

/-- The column of routes is none of what the receive path writes. -/
theorem Link.routeLookup_set {sender s s' : PeerSession Key} {st : PeerState Priv Key}
    {src : SockAddr} {j : ℕ} {buffer : Bytes} (h : Link sender st src j s buffer)
    (hs' : (s'.active, s'.routes) = (s.active, s.routes)) (dst : BitVec 32) :
    routeLookup (st.sessions.set j s') dst = routeLookup st.sessions dst :=
  routeLookup_congr (map_set_of_eq h.slot hs') dst

section Step

variable [Inhabited Key] {C : Crypto Priv Key} {P : PeerParams Priv Key} {st : PeerState Priv Key}
  {sender s : PeerSession Key} {src : SockAddr} {j : ℕ} {buffer packet : Bytes} {env : SendEnv}

/-- What a datagram over a link makes the receiver do. -/
theorem Link.step (hC : C.GcmCorrect) (h : Link sender st src j s buffer)
    (hsize : buffer.length ≤ 2048)
    (hiv : ∀ iv : Iv, env.iv = some iv → iv.1.take 8 ≠ pktHeader)
    (hsend : (forwardToPeer C sender buffer env).2 = some packet) (now : Time)
    (renv : RecvEnv Priv) :
    step C P st (.udpRecv src (recvfrom packet) now renv) =
      let s' := s.received now (checkReplay sender.sendSeq s.recvSeq).2
      let st' := { st with sessions := st.sessions.set j s' }
      let hop := nextHop st'.sessions j s' buffer
      ((relayTo C st' buffer renv.relay hop).1,
        .accepted j sender.sessionKey false packet sender.sendSeq buffer ::
          handOn packet false buffer hop ++ (relayTo C st' buffer renv.relay hop).2) := by
  have henc := encryptPacket_of_forwardToPeer hsend
  have hfind : findSessionByAddr st.sessions src = some j := by
    rw [← h.addr]
    exact distinctAddrs_iff.mp h.distinct j s h.slot h.active
  have hdec : decryptPacket C s.sessionKey packet = some (frame sender.sendSeq buffer) := by
    rw [h.key]
    exact decryptPacket_encryptPacket hC henc
  have hafter : ∀ recv, afterAccept C s packet now recv = s.received now recv := by
    intro recv
    simp [afterAccept, afterDecrypt, hdec, PeerSession.received]
  rw [recvfrom_encryptPacket hC hsize henc,
    step_udpRecv_data (take_encryptPacket_ne hiv henc) hfind h.slot,
    recvData_accepted (h.openData hC hsend now), hafter]

/-- The hub sends the payload on, writes nothing to its TUN device, and changes only
what is received on the one session and sent on the other. -/
theorem HubAndSpoke.relay_step (hC : C.GcmCorrect) {st₁ hub st₂ : PeerState Priv Key}
    {src₁ srcHub : SockAddr} {i₁ j₁ j₂ i₂ : ℕ} {s₁ r₁ r₂ s₂ : PeerSession Key}
    (h : HubAndSpoke st₁ hub st₂ src₁ srcHub i₁ j₁ j₂ i₂ s₁ r₁ r₂ s₂ buffer)
    (hiv : ∀ iv : Iv, env.iv = some iv → iv.1.take 8 ≠ pktHeader)
    (hsend : (forwardToPeer C s₁ buffer env).2 = some packet) (now : Time)
    (renv : RecvEnv Priv) :
    let out := LaneCove.step C P hub (.udpRecv src₁ (recvfrom packet) now renv)
    tunWrites out.2 = [] ∧
    datagrams out.2 = (forwardToPeer C r₂ buffer renv.relay).2.toList ∧
    out.1 = { hub with
      sessions := (hub.sessions.set j₁ (r₁.received now (checkReplay s₁.sendSeq r₁.recvSeq).2)).set
        j₂ (forwardToPeer C r₂ buffer renv.relay).1 } := by
  intro out
  have hout : out = _ := h.up.step hC h.size hiv hsend now renv
  generalize hr₁ : r₁.received now (checkReplay s₁.sendSeq r₁.recvSeq).2 = r₁' at hout ⊢
  have hcol : (r₁'.active, r₁'.routes) = (r₁.active, r₁.routes) := by rw [← hr₁]; rfl
  have hroute : routeLookup (hub.sessions.set j₁ r₁') (ipAt buffer 16) = some j₂ := by
    rw [h.up.routeLookup_set hcol, h.routeHub]
  have hadmits : r₁'.admits buffer = true := by
    refine admits_of_allowed h.ipv4 ?_
    rw [(Prod.mk.inj hcol).2, h.up.allowed]
  have hhop : nextHop (hub.sessions.set j₁ r₁') j₁ r₁' buffer = some (some j₂) := by
    rw [nextHop_ipv4 h.ipv4 hadmits, hroute, Option.filter_some, if_pos (by simp [h.other])]
  have hslot : (hub.sessions.set j₁ r₁')[j₂]? = some r₂ := by
    rw [List.getElem?_set_ne h.other.symm, h.slotHub]
  simp only [hhop, relayTo, forwardOn, hslot] at hout
  rw [hout]
  refine ⟨?_, ?_, rfl⟩
  · cases (forwardToPeer C r₂ buffer renv.relay).2 <;> rfl
  · cases (forwardToPeer C r₂ buffer renv.relay).2 <;> rfl

/-- The last hop: the packet is written to the TUN device. -/
theorem HubAndSpoke.tunWrites_step (hC : C.GcmCorrect) {st₁ hub st₂ : PeerState Priv Key}
    {src₁ srcHub : SockAddr} {i₁ j₁ j₂ i₂ : ℕ} {s₁ r₁ r₂ s₂ : PeerSession Key}
    (h : HubAndSpoke st₁ hub st₂ src₁ srcHub i₁ j₁ j₂ i₂ s₁ r₁ r₂ s₂ buffer)
    (hiv : ∀ iv : Iv, env.iv = some iv → iv.1.take 8 ≠ pktHeader)
    (hsend : (forwardToPeer C r₂ buffer env).2 = some packet) (now : Time)
    (renv : RecvEnv Priv) :
    tunWrites (LaneCove.step C P st₂ (.udpRecv srcHub (recvfrom packet) now renv)).2 =
      [buffer] := by
  rw [h.down.step hC h.size hiv hsend now renv]
  generalize hs₂ : s₂.received now (checkReplay r₂.sendSeq s₂.recvSeq).2 = s₂'
  have hcol : (s₂'.active, s₂'.routes) = (s₂.active, s₂.routes) := by rw [← hs₂]; rfl
  have hadmits : s₂'.admits buffer = true := by
    refine admits_of_allowed h.ipv4 ?_
    rw [(Prod.mk.inj hcol).2, h.down.allowed]
  have hhop : nextHop (st₂.sessions.set i₂ s₂') i₂ s₂' buffer = some none := by
    rw [nextHop_ipv4 h.ipv4 hadmits, h.down.routeLookup_set hcol]
    rcases h.route₂ with hnone | hback
    · rw [hnone]
      rfl
    · rw [hback, Option.filter_some, if_neg (by simp)]
  simp only [hhop, relayTo]
  rfl

omit [Inhabited Key] in
/-- Framing in place: with the payload behind the header of another frame in `plain_buf`,
`forward_to_peer` sends the same datagram as if the payload had been copied out first. -/
theorem forwardToPeer_inPlace {r : PeerSession Key}
    (hsend : (forwardToPeer C r buffer env).2 = some packet) {calls : EncryptCalls}
    (hcalls : calls.Realizes C r.sessionKey env.iv) {bufs : InBuffers.Buffers} {seq : BitVec 64}
    (hplain : frame seq buffer <+: bufs.plainBuf.1) :
    ∃ bufs', InBuffers.forwardToPeer calls r.sendSeq .inPlace buffer.length bufs =
      .ok (bufs', some packet) := by
  have hholds : InBuffers.Payload.inPlace.Holds bufs buffer := by
    obtain ⟨rest, hrest⟩ := hplain
    refine ⟨rest, ?_⟩
    rw [← hrest, ← InBuffers.frame_nil_append, List.append_assoc, List.drop_left' (by simp)]
  obtain ⟨⟨bufs', datagram⟩, hrun, hdatagram⟩ :=
    InBuffers.forwardToPeer_safe calls r.sendSeq hholds
  refine ⟨bufs', ?_⟩
  rw [hrun, show datagram = _ from hdatagram, hcalls, encryptPacket_of_forwardToPeer hsend]

/-- **Hub-and-spoke transparency.** The first spoke sends what it reads. The hub writes
nothing to its TUN device and changes only `last_seen`, `prev_key_active` and the replay
state of its session with the first spoke, and `send_seq` and `last_sent` of that with the
second. If it can send the payload on, the second spoke writes exactly the bytes that the
first one read; and the relay sends this datagram although it frames the payload in place,
behind the header of the packet it decrypted and whatever the buffers hold otherwise. -/
theorem relay_transparent (hC : C.GcmCorrect) (P₁ P₂ : PeerParams Priv Key)
    {st₁ hub st₂ : PeerState Priv Key} {src₁ srcHub : SockAddr} {i₁ j₁ j₂ i₂ : ℕ}
    {s₁ r₁ r₂ s₂ : PeerSession Key} (renv : RecvEnv Priv)
    (h : HubAndSpoke st₁ hub st₂ src₁ srcHub i₁ j₁ j₂ i₂ s₁ r₁ r₂ s₂ buffer)
    (hiv : ∀ iv : Iv, env.iv = some iv → iv.1.take 8 ≠ pktHeader)
    (hivHub : ∀ iv : Iv, renv.relay.iv = some iv → iv.1.take 8 ≠ pktHeader)
    (hsend : (forwardToPeer C s₁ buffer env).2 = some packet) (now now₂ : Time)
    (renv₂ : RecvEnv Priv) :
    let atHub := LaneCove.step C P hub (.udpRecv src₁ (recvfrom packet) now renv)
    (LaneCove.step C P₁ st₁ (.tunRead buffer env)).2 = [.sentData s₁ buffer packet] ∧
    tunWrites atHub.2 = [] ∧
    (∃ recvSeq lastSent, atHub.1 = { hub with
      sessions := (hub.sessions.set j₁
        { r₁ with lastSeen := now, prevKeyActive := false, recvSeq := recvSeq }).set j₂
        { r₂ with sendSeq := r₂.sendSeq + 1, lastSent := lastSent } }) ∧
    ∀ packet₂, (forwardToPeer C r₂ buffer renv.relay).2 = some packet₂ →
      datagrams atHub.2 = [packet₂] ∧
      tunWrites (LaneCove.step C P₂ st₂ (.udpRecv srcHub (recvfrom packet₂) now₂ renv₂)).2 =
        [buffer] ∧
      ∀ (calls : EncryptCalls) (bufs : InBuffers.Buffers) (plain : Bytes),
        calls.Realizes C r₂.sessionKey renv.relay.iv →
        decryptPacket C r₁.sessionKey packet = some plain → plain <+: bufs.plainBuf.1 →
        ∃ bufs', InBuffers.forwardToPeer calls r₂.sendSeq .inPlace buffer.length bufs =
          .ok (bufs', some packet₂) := by
  intro atHub
  obtain ⟨htun, hdatagrams, hstate⟩ := h.relay_step hC hiv hsend now renv (P := P)
  refine ⟨?_, htun, ?_, fun packet₂ hsend₂ =>
    ⟨?_, ?_, fun calls bufs plain hcalls hplain hbuf => ?_⟩⟩
  · simp [LaneCove.step, tunRead, h.ipv4, h.route₁, forwardOn, h.slot₁, hsend]
  · obtain ⟨lastSent, hsession⟩ := forwardToPeer_session C r₂ buffer renv.relay
    refine ⟨(checkReplay s₁.sendSeq r₁.recvSeq).2, lastSent, ?_⟩
    rw [← hsession]
    exact hstate
  · rw [hsend₂] at hdatagrams
    exact hdatagrams
  · exact h.tunWrites_step hC hivHub hsend₂ now₂ renv₂
  · -- the plaintext in the buffer is the frame the first spoke built
    have hframe : decryptPacket C r₁.sessionKey packet = some (frame s₁.sendSeq buffer) := by
      rw [h.up.key]
      exact decryptPacket_encryptPacket hC (encryptPacket_of_forwardToPeer hsend)
    obtain rfl := Option.some.inj (hplain.symm.trans hframe)
    exact forwardToPeer_inPlace hsend₂ hcalls hbuf

end Step

namespace Sample

/-- A packet from 10.0.0.1 to 10.0.0.2. -/
def spokePacket : Bytes := 0x45 :: List.replicate 11 0 ++ [10, 0, 0, 1, 10, 0, 0, 2]

/-- A session with the peer at address `n` that may use one prefix. -/
def spokeSession (n : ℕ) (key : SKey) (route : IpPrefix) : PeerSession SKey :=
  { PeerSession.zero with active := true, addr := addr n, sessionKey := key, routes := [route] }

def net : IpPrefix := ⟨0x0a000000#32, 0xffffff00#32, 24⟩

/-- Spokes 1 and 2 reach the whole net over the hub, peer 3, which knows where each is. -/
def spoke (key : SKey) : PeerState UInt8 SKey := ⟨[], [spokeSession 3 key net], [], none, 0⟩

def hub : PeerState UInt8 SKey :=
  ⟨[], [spokeSession 1 5 ⟨0x0a000001#32, 0xffffffff#32, 32⟩,
    spokeSession 2 6 ⟨0x0a000002#32, 0xffffffff#32, 32⟩], [], none, 0⟩

theorem fresh_zero : ReplayState.zero.Fresh 0 := ⟨[], represents_zero, by simp, by simp⟩

theorem distinctAddrs_hub : DistinctAddrs hub.sessions := by
  refine distinctAddrs_iff.mpr fun i s hs _ => ?_
  match i, hs with
  | 0, hs =>
    obtain rfl := Option.some.inj hs
    decide
  | 1, hs =>
    obtain rfl := Option.some.inj hs
    decide

theorem distinctAddrs_spoke (key : SKey) : DistinctAddrs (spoke key).sessions := by
  refine distinctAddrs_iff.mpr fun i s hs _ => ?_
  match i, hs with
  | 0, hs =>
    obtain rfl := Option.some.inj hs
    rfl

/-- The routing of the example. -/
theorem hubAndSpoke : HubAndSpoke (spoke 5) hub (spoke 6) (addr 1) (addr 3) 0 0 1 0
    (spokeSession 3 5 net) (spokeSession 1 5 ⟨0x0a000001#32, 0xffffffff#32, 32⟩)
    (spokeSession 2 6 ⟨0x0a000002#32, 0xffffffff#32, 32⟩) (spokeSession 3 6 net) spokePacket where
  ipv4 := by decide
  size := by decide
  route₁ := by decide +kernel
  slot₁ := rfl
  up := ⟨rfl, rfl, rfl, rfl, fresh_zero, by decide +kernel, distinctAddrs_hub⟩
  routeHub := by decide +kernel
  slotHub := rfl
  other := by decide
  down := ⟨rfl, rfl, rfl, rfl, fresh_zero, by decide +kernel, distinctAddrs_spoke 6⟩
  route₂ := by decide +kernel

/-- The buffers of the hub when it has decrypted the packet. -/
def hubBuffers : InBuffers.Buffers where
  buffer := ⟨List.replicate 2048 0, List.length_replicate⟩
  plainBuf := ⟨frame 0 spokePacket ++ List.replicate 2028 0, by
    rw [List.length_append, List.length_replicate, length_frame]; rfl⟩
  wireBuf := ⟨List.replicate 2092 0, List.length_replicate⟩

end Sample

open Sample in
/-- The packet of spoke 1 arrives at spoke 2. -/
theorem relay_transparent_spokes : ∃ packet packet₂,
    datagrams (step crypto (params 1) (spoke 5) (.tunRead spokePacket (sendEnv 1))).2 = [packet] ∧
    datagrams (step crypto (params 3) hub
      (.udpRecv (addr 1) (recvfrom packet) 2 (recvEnv 2 0))).2 = [packet₂] ∧
    tunWrites (step crypto (params 2) (spoke 6)
      (.udpRecv (addr 3) (recvfrom packet₂) 3 (recvEnv 3 0))).2 = [spokePacket] ∧
    ∃ bufs', InBuffers.forwardToPeer (crypto.encryptCalls 6 (sendEnv 2).iv) 0 .inPlace
      spokePacket.length hubBuffers = .ok (bufs', some packet₂) := by
  have hiv : ∀ t, ∀ iv : Iv, (sendEnv t).iv = some iv → iv.1.take 8 ≠ pktHeader := by
    intro t iv hiv
    obtain rfl := Option.some.inj hiv
    decide
  obtain ⟨hfirst, -, -, hlast⟩ := relay_transparent (P := params 3) crypto_gcmCorrect (params 1)
    (params 2) (recvEnv 2 0) hubAndSpoke (hiv 1) (hiv 2) rfl 2 3 (recvEnv 3 0)
  obtain ⟨hhub, hwritten, hinPlace⟩ := hlast _ rfl
  exact ⟨_, _, by rw [hfirst]; rfl, hhub, hwritten, hinPlace _ hubBuffers (frame 0 spokePacket)
    (crypto.encryptCalls_realizes crypto_gcmCorrect _ _) rfl (List.prefix_append _ _)⟩

end LaneCove
