import LaneCove.SessionTable

/-!
# The event loop

`event_loop` of `peer.c` as a machine. One input is one thing the loop reacts
to: a pass over the timers, a packet read from the TUN device, or a datagram
received on the socket. What the environment decides (clock readings, random
keys and IVs, DNS answers, whether a `sendto` succeeds) is part of the input.

The events of a step are the datagrams sent, the payloads delivered, and a record
of what the step decided: keys negotiated, sessions installed, packets accepted.

## Main definitions

- `PeerState`, `Input`, `Event` — states, inputs and events of the machine
- `datagrams` — what a trace put on the wire
- `tick`, `tunRead`, `udpRecv` — the three parts of the loop body
- `step` — one input
-/

namespace LaneCove

/-- The arguments of `event_loop` that stay fixed while it runs. -/
structure PeerParams (Priv Key : Type) where
  staticKey : Priv
  staticPub : Bytes
  psk : Option Key
  settings : Settings

/-- The state of a peer between two reactions. -/
structure PeerState (Priv Key : Type) where
  configs : List PeerConfig
  sessions : List (PeerSession Key)
  pending : List (PendingHs Priv)
  /-- `precomp_eph_key`; `precomp_eph_pub` is written together with it -/
  precompEphKey : Option Priv
  lastRekeyCheck : Time

/-- Environment of one `initiate_outbound_handshake`: the answer of
`resolve_endpoint`, the key pair generated, the result of `sendto`, and the two
clock readings, for `last_attempt` and after sending for `sent_at`. -/
structure ConnectEnv (Priv : Type) where
  resolved : Option SockAddr
  ephKey : Option Priv
  sendOk : Bool
  clk : Time
  sentClk : Time

/-- Environment of one received datagram: the clock readings of `session_init`, the
result of `sendto` for a response, the key pair `refresh_precomp_eph` generates,
and the relay's `forward_to_peer`. -/
structure RecvEnv (Priv : Type) where
  clk : InitClock
  respondOk : Bool
  freshEph : Option Priv
  relay : SendEnv

/-- What the loop reacts to. -/
inductive Input (Priv : Type)
  | tick (now : Time) (connect : ℕ → ConnectEnv Priv) (keepalive : ℕ → SendEnv)
  | tunRead (buffer : Bytes) (env : SendEnv)
  | udpRecv (src : SockAddr) (packet : Bytes) (now : Time) (env : RecvEnv Priv)

/-- What the loop does. -/
inductive Event (Key : Type)
  /-- an initiation sent by `handshake_client_send` -/
  | sentInit (dst : SockAddr) (packet : Bytes)
  /-- a response sent by `handshake_server_respond` to the initiation `init` -/
  | sentResponse (dst : SockAddr) (init packet : Bytes)
  /-- a datagram sent by `forward_to_peer` on the session `s` -/
  | sentData (s : PeerSession Key) (payload packet : Bytes)
  /-- a handshake function returned `0` with this key for the peer `pub` -/
  | negotiated (pub : Bytes) (key : Key)
  /-- `session_init` on a slot; `cause` is the datagram that led to it -/
  | installed (slot : ℕ) (addr : SockAddr) (pub : Bytes) (key : Key) (isOutbound : Bool)
      (cause : Bytes)
  /-- a data packet passed the receive path up to the replay check -/
  | accepted (slot : ℕ) (key : Key) (usedPrevKey : Bool) (packet : Bytes) (seq : BitVec 64)
      (payload : Bytes)
  /-- an accepted payload handed to the slot `relay`, or else to the TUN device -/
  | delivered (packet : Bytes) (usedPrevKey : Bool) (payload : Bytes) (relay : Option ℕ)

variable {Priv Key : Type}

/-- The datagram an event puts on the wire. -/
def Event.datagram : Event Key → Option Bytes
  | .sentInit _ packet | .sentResponse _ _ packet | .sentData _ _ packet => some packet
  | .negotiated .. | .installed .. | .accepted .. | .delivered .. => none

/-- The datagrams a trace sent, in order. -/
def datagrams (tr : List (Event Key)) : List Bytes := tr.filterMap Event.datagram

/-- Nothing connected, nothing pending, one precomputed key pair. -/
def PeerState.initial (configs : List PeerConfig) (eph : Option Priv) : PeerState Priv Key where
  configs := configs
  sessions := []
  pending := List.replicate maxPeers PendingHs.zero
  precompEphKey := eph
  lastRekeyCheck := 0

/-- `peer_configs[i]` -/
def PeerState.config (st : PeerState Priv Key) (i : ℕ) : PeerConfig :=
  st.configs.getD i PeerConfig.zero

-- ════════════════════════════════════════════════════════════════════════
-- Timers
-- ════════════════════════════════════════════════════════════════════════

/-- `initiate_outbound_handshake` for entry `i`: the packet sent, or `none`. -/
def initiateOutboundHandshake (C : Crypto Priv Key) (P : PeerParams Priv Key)
    (st : PeerState Priv Key) (i : ℕ) (env : ConnectEnv Priv) :
    PeerState Priv Key × Option Bytes :=
  let cfg := st.config i
  let st := { st with
    configs := st.configs.modify i fun cfg => { cfg with lastAttempt := env.clk } }
  match st.pending.findIdx? fun p => !p.active with
  | none => (st, none)
  | some slot =>
    match handshakeClientSend C P.psk P.staticPub cfg.pub env.ephKey env.sendOk with
    | none => (st, none)
    | some (packet, hsState) =>
      let p : PendingHs Priv := {
        active := true, cfgIdx := i, sentAt := env.sentClk, hsState, serverAddr := cfg.endpoint }
      ({ st with pending := st.pending.set slot p }, some packet)

/-- Does the entry need a handshake? No session, or one old enough to rekey and
not already rekeying. -/
def needsHandshake (P : PeerParams Priv Key) (st : PeerState Priv Key) (cfg : PeerConfig)
    (now : Time) : Bool :=
  match (findSessionByPub st.sessions cfg.pub).bind fun i => st.sessions[i]? with
  | none => true
  | some s => decide (s.lastHandshake + P.settings.rekeyThreshold ≤ now) && !s.rekeying

/-- The first timer loop, on entry `i`: (re)connect outbound peers. -/
def connectStep (C : Crypto Priv Key) (P : PeerParams Priv Key) (now : Time)
    (env : ℕ → ConnectEnv Priv) (st : PeerState Priv Key) (i : ℕ) :
    PeerState Priv Key × List (Event Key) :=
  let cfg := st.config i
  if cfg.hasEndpoint && needsHandshake P st cfg now &&
      decide (P.settings.reconnectInterval ≤ now - cfg.lastAttempt) then
    let endpoint := (env i).resolved.getD cfg.endpoint
    let st := { st with
      configs := st.configs.modify i fun cfg => { cfg with endpoint := endpoint }
      sessions := setRekeying st.sessions cfg.pub true }
    match initiateOutboundHandshake C P st i (env i) with
    | (st, none) => ({ st with sessions := setRekeying st.sessions cfg.pub false }, [])
    | (st, some packet) => (st, [.sentInit endpoint packet])
  else (st, [])

/-- A pending entry that is given up: its key is freed and the entry inactive. -/
def PendingHs.cancel (p : PendingHs Priv) : PendingHs Priv :=
  { p with active := false, hsState := { p.hsState with ephKey := none } }

/-- The second timer loop, on slot `j`: expire timed-out pending handshakes. -/
def expirePendingStep (P : PeerParams Priv Key) (now : Time) (st : PeerState Priv Key) (j : ℕ) :
    PeerState Priv Key × List (Event Key) :=
  match st.pending[j]? with
  | none => (st, [])
  | some p =>
    if !p.active || decide (now - p.sentAt < P.settings.handshakeTimeout) then (st, [])
    else
      ({ st with
          pending := st.pending.set j p.cancel
          sessions := setRekeying st.sessions (st.config p.cfgIdx).pub false }, [])

/-- The time a session was last heard of, or its handshake. -/
def PeerSession.expiryRef (s : PeerSession Key) : Time :=
  if 0 < s.lastSeen then s.lastSeen else s.lastHandshake

/-- Has the session been silent for too long? -/
def PeerSession.expired (settings : Settings) (now : Time) (s : PeerSession Key) : Bool :=
  s.active && !decide (now - s.expiryRef ≤ settings.sessionExpiry)

/-- The third timer loop, on slot `j`: expire silent sessions. -/
def expireSessionStep (P : PeerParams Priv Key) (now : Time) (st : PeerState Priv Key) (j : ℕ) :
    PeerState Priv Key × List (Event Key) :=
  match st.sessions[j]? with
  | none => (st, [])
  | some s =>
    if s.expired P.settings now then
      ({ st with sessions := st.sessions.set j { s with active := false } }, [])
    else (st, [])

/-- Send one data packet on slot `j`. -/
def forwardOn (C : Crypto Priv Key) (st : PeerState Priv Key) (j : ℕ) (payload : Bytes)
    (env : SendEnv) : PeerState Priv Key × List (Event Key) :=
  match st.sessions[j]? with
  | none => (st, [])
  | some s =>
    ({ st with sessions := st.sessions.set j (forwardToPeer C s payload env).1 },
      match (forwardToPeer C s payload env).2 with
      | none => []
      | some packet => [.sentData s payload packet])

/-- The fourth timer loop, on slot `j`: send keepalives. -/
def keepaliveStep (C : Crypto Priv Key) (P : PeerParams Priv Key) (now : Time)
    (env : ℕ → SendEnv) (st : PeerState Priv Key) (j : ℕ) :
    PeerState Priv Key × List (Event Key) :=
  match st.sessions[j]? with
  | none => (st, [])
  | some s =>
    if !s.active || decide (now - s.lastSent < P.settings.keepaliveInterval) then (st, [])
    else forwardOn C st j [] (env j)

/-- The four timer loops, one after the other. -/
def timers (C : Crypto Priv Key) (P : PeerParams Priv Key) (now : Time)
    (connect : ℕ → ConnectEnv Priv) (keepalive : ℕ → SendEnv) (st : PeerState Priv Key) :
    PeerState Priv Key × List (Event Key) :=
  let r1 := Machine.run (connectStep C P now connect) st (List.range st.configs.length)
  let r2 := Machine.run (expirePendingStep P now) r1.1 (List.range maxPeers)
  let r3 := Machine.run (expireSessionStep P now) r2.1 (List.range r2.1.sessions.length)
  let r4 := Machine.run (keepaliveStep C P now keepalive) r3.1 (List.range r3.1.sessions.length)
  (r4.1, r1.2 ++ r2.2 ++ r3.2 ++ r4.2)

/-- The periodic part of the loop body, at most every ten seconds. -/
def tick (C : Crypto Priv Key) (P : PeerParams Priv Key) (st : PeerState Priv Key) (now : Time)
    (connect : ℕ → ConnectEnv Priv) (keepalive : ℕ → SendEnv) :
    PeerState Priv Key × List (Event Key) :=
  if now - st.lastRekeyCheck < 10 then (st, [])
  else timers C P now connect keepalive { st with lastRekeyCheck := now }

-- ════════════════════════════════════════════════════════════════════════
-- TUN to UDP
-- ════════════════════════════════════════════════════════════════════════

/-- A packet read from the TUN device. -/
def tunRead (C : Crypto Priv Key) (st : PeerState Priv Key) (buffer : Bytes) (env : SendEnv) :
    PeerState Priv Key × List (Event Key) :=
  if isIpv4 buffer then
    match routeLookup st.sessions (ipAt buffer 16) with
    | none => (st, [])
    | some j => forwardOn C st j buffer env
  else (st, [])

-- ════════════════════════════════════════════════════════════════════════
-- UDP to TUN, or handshake
-- ════════════════════════════════════════════════════════════════════════

/-- The first active pending entry for an address. -/
def findPending (pending : List (PendingHs Priv)) (src : SockAddr) : Option ℕ :=
  pending.findIdx? fun p => p.active && p.serverAddr = src

/-- `alloc_session` and `session_init` for a completed handshake. -/
def install [Inhabited Key] (P : PeerParams Priv Key) (st : PeerState Priv Key) (c : Commit Key) :
    PeerState Priv Key × List (Event Key) :=
  match allocSession st.sessions c.pub c.src with
  | none => (st, [])
  | some (slot, sessions) =>
    ({ st with sessions := sessions.modify slot (c.session P.settings) },
      [.installed slot c.src c.pub c.key c.isOutbound c.cause])

/-- Response to the pending handshake in slot `j`. -/
def recvResponse [Inhabited Key] (C : Crypto Priv Key) (P : PeerParams Priv Key)
    (st : PeerState Priv Key) (j : ℕ) (src : SockAddr) (packet : Bytes) (env : RecvEnv Priv) :
    PeerState Priv Key × List (Event Key) :=
  match st.pending[j]? with
  | none => (st, [])
  | some p =>
    let cfg := st.config p.cfgIdx
    let recv := handshakeClientRecv C P.psk P.staticKey P.staticPub cfg.pub p.hsState packet
    let st := { st with pending := st.pending.set j { p with active := false, hsState := recv.2 } }
    match recv.1 with
    | none => ({ st with sessions := setRekeying st.sessions cfg.pub false }, [])
    | some key =>
      let r := install P st
        { src, pub := cfg.pub, key, cfg, isOutbound := true, cause := packet, clk := env.clk }
      (r.1, .negotiated cfg.pub key :: r.2)

/-- Tie-breaking against a pending handshake to the same address: `none` if we
have the higher key and ignore the initiation, else the pending entry is given up. -/
def tieBreak (P : PeerParams Priv Key) (st : PeerState Priv Key) (src : SockAddr) :
    Option (PeerState Priv Key) :=
  match findPending st.pending src with
  | none => some st
  | some j =>
    match st.pending[j]? with
    | none => some st
    | some p =>
      if (st.config p.cfgIdx).pub < P.staticPub then none
      else
        some { st with
          pending := st.pending.set j p.cancel
          sessions := setRekeying st.sessions (st.config p.cfgIdx).pub false }

/-- Is the session in this slot younger than the handshake cooldown? -/
def inCooldown (settings : Settings) (sessions : List (PeerSession Key)) (slot : Option ℕ)
    (now : Time) : Bool :=
  match slot.bind fun i => sessions[i]? with
  | none => false
  | some s => now - s.lastHandshake < settings.handshakeCooldown

/-- `refresh_precomp_eph` -/
def refreshPrecompEph (st : PeerState Priv Key) (fresh : Option Priv) : PeerState Priv Key :=
  match fresh with
  | none => st
  | some key => { st with precompEphKey := some key }

/-- `precomp_eph_pub`: the public key of `precomp_eph_key`, zero before there is one. -/
def PeerState.precompEphPub (C : Crypto Priv Key) (st : PeerState Priv Key) : Bytes :=
  (st.precompEphKey.map C.publicKey).getD zeroKey32

/-- `handshake_server_respond` with the peer's own keys. -/
def respond (C : Crypto Priv Key) (P : PeerParams Priv Key) (st : PeerState Priv Key)
    (packet : Bytes) (sendOk : Bool) : Option Bytes × Option (Bytes × Key) :=
  handshakeServerRespond C P.psk P.staticKey P.staticPub st.precompEphKey (st.precompEphPub C)
    sendOk packet

/-- The event of a response, if one was sent. -/
def responseEvents (src : SockAddr) (init : Bytes) : Option Bytes → List (Event Key)
  | none => []
  | some packet => [.sentResponse src init packet]

/-- The checks after a successful `handshake_server_respond`, and the install. -/
def commitInbound [Inhabited Key] (P : PeerParams Priv Key) (st : PeerState Priv Key)
    (src : SockAddr) (packet : Bytes) (now : Time) (clk : InitClock) (pub : Bytes) (key : Key) :
    PeerState Priv Key × List (Event Key) :=
  match findPeerConfig st.configs pub with
  | none => (st, [])
  | some cfg =>
    if inCooldown P.settings st.sessions (findSessionByPub st.sessions pub) now then (st, [])
    else install P st { src, pub, key, cfg, isOutbound := false, cause := packet, clk }

/-- Inbound handshake. The response leaves inside `handshake_server_respond`,
before the checks of `commitInbound`. -/
def recvInit [Inhabited Key] (C : Crypto Priv Key) (P : PeerParams Priv Key)
    (st : PeerState Priv Key) (src : SockAddr) (packet : Bytes) (now : Time) (env : RecvEnv Priv) :
    PeerState Priv Key × List (Event Key) :=
  match tieBreak P st src with
  | none => (st, [])
  | some st =>
    if inCooldown P.settings st.sessions (findSessionByAddr st.sessions src) now then (st, [])
    else
      let reply := respond C P st packet env.respondOk
      let sent := responseEvents src packet reply.1
      match reply.2 with
      | none => (st, sent)
      | some (pub, key) =>
        let st := refreshPrecompEph st env.freshEph
        let r := commitInbound P st src packet now env.clk pub key
        (r.1, sent ++ .negotiated pub key :: r.2)

/-- The two decryption attempts of the data path on session `s`: the plaintext,
whether the previous key was used, and the key. -/
def decryptOn (C : Crypto Priv Key) (s : PeerSession Key) (packet : Bytes) (now : Time) :
    Option (Bytes × Bool × Key) :=
  match decryptPacket C s.sessionKey packet with
  | some plain => some (plain, false, s.sessionKey)
  | none =>
    if s.prevKeyActive && decide (now ≤ s.prevKeyExpires) then
      (decryptPacket C s.prevSessionKey packet).map fun plain => (plain, true, s.prevSessionKey)
    else none

/-- The session after the decryption attempts: `last_seen` is written in any
case, and a packet under the current key ends the grace period. -/
def afterDecrypt (C : Crypto Priv Key) (s : PeerSession Key) (packet : Bytes) (now : Time) :
    PeerSession Key :=
  { s with
    lastSeen := now
    prevKeyActive := s.prevKeyActive && (decryptPacket C s.sessionKey packet).isNone }

/-- The session after a packet that was accepted with the replay state `recvSeq`. -/
def afterAccept (C : Crypto Priv Key) (s : PeerSession Key) (packet : Bytes) (now : Time)
    (recvSeq : ReplayState) : PeerSession Key :=
  { afterDecrypt C s packet now with recvSeq }

/-- May the payload of an accepted packet go on? Not if it is a keepalive, or if
its source address is none of the session's. -/
def PeerSession.admits (s : PeerSession Key) (payload : Bytes) : Bool :=
  !payload.isEmpty &&
    !(!s.routes.isEmpty && isIpv4 payload && !checkAllowedSrc s (ipAt payload 12))

/-- Where an accepted payload of slot `j` goes: `none` drops it, `some none` is the
TUN device and `some (some fwd)` the relay shortcut to another slot. -/
def nextHop (sessions : List (PeerSession Key)) (j : ℕ) (s : PeerSession Key) (payload : Bytes) :
    Option (Option ℕ) :=
  if !s.admits payload then none
  else if isIpv4 payload then
    match routeLookup sessions (ipAt payload 16) with
    | none => some none
    | some fwd => if fwd = j then some none else some (some fwd)
  else some none

/-- The event of a payload that goes to `hop`. -/
def handOn (packet : Bytes) (usedPrevKey : Bool) (payload : Bytes) :
    Option (Option ℕ) → List (Event Key)
  | none => []
  | some relay => [.delivered packet usedPrevKey payload relay]

/-- The `forward_to_peer` of the relay shortcut. -/
def relayTo (C : Crypto Priv Key) (st : PeerState Priv Key) (payload : Bytes) (env : SendEnv) :
    Option (Option ℕ) → PeerState Priv Key × List (Event Key)
  | some (some fwd) => forwardOn C st fwd payload env
  | some none | none => (st, [])

/-- Decryption, header check and replay check of a data packet: the key, whether
it is the previous one, the sequence number, the payload and the new replay
state. The replay check is skipped for the previous key. -/
def openData (C : Crypto Priv Key) (s : PeerSession Key) (packet : Bytes) (now : Time) :
    Option (Key × Bool × BitVec 64 × Bytes × ReplayState) := do
  let (plain, usedPrevKey, key) ← decryptOn C s packet now
  let (seq, payload) ← unframe plain
  let ret := if usedPrevKey then (0, s.recvSeq) else checkReplay seq s.recvSeq
  if ret.1 < 0 then none else some (key, usedPrevKey, seq, payload, ret.2)

/-- Data packet on slot `j`. -/
def recvData (C : Crypto Priv Key) (st : PeerState Priv Key) (j : ℕ) (s : PeerSession Key)
    (packet : Bytes) (now : Time) (env : RecvEnv Priv) :
    PeerState Priv Key × List (Event Key) :=
  match openData C s packet now with
  | none => ({ st with sessions := st.sessions.set j (afterDecrypt C s packet now) }, [])
  | some (key, usedPrevKey, seq, payload, recvSeq) =>
    let s' := afterAccept C s packet now recvSeq
    let st := { st with sessions := st.sessions.set j s' }
    let hop := nextHop st.sessions j s' payload
    let r := relayTo C st payload env.relay hop
    (r.1, .accepted j key usedPrevKey packet seq payload ::
      handOn packet usedPrevKey payload hop ++ r.2)

/-- A received datagram: response to a pending handshake, inbound handshake, or
data packet. -/
def udpRecv [Inhabited Key] (C : Crypto Priv Key) (P : PeerParams Priv Key)
    (st : PeerState Priv Key) (src : SockAddr) (packet : Bytes) (now : Time) (env : RecvEnv Priv) :
    PeerState Priv Key × List (Event Key) :=
  if isHandshake P.psk packet then
    match findPending st.pending src with
    | some j => recvResponse C P st j src packet env
    | none => recvInit C P st src packet now env
  else
    match findSessionByAddr st.sessions src with
    | none => (st, [])
    | some j =>
      match st.sessions[j]? with
      | none => (st, [])
      | some s => recvData C st j s packet now env

/-- One reaction of the event loop. -/
def step [Inhabited Key] (C : Crypto Priv Key) (P : PeerParams Priv Key) (st : PeerState Priv Key) :
    Input Priv → PeerState Priv Key × List (Event Key)
  | .tick now connect keepalive => tick C P st now connect keepalive
  | .tunRead buffer env => tunRead C st buffer env
  | .udpRecv src packet now env => udpRecv C P st src packet now env

end LaneCove
