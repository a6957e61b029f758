import LaneCove.Handshake
import LaneCove.Replay

/-!
# Peer configuration, session table and routing

The data of `peer.c` and the functions on its tables. A table of the source is
the list of its used slots (`session_slots` is the length of the list) and a
pointer into it is an index; the arrays `routes` are the lists of their first
`route_count` entries.

## Main definitions

- `PeerConfig`, `PeerSession`, `PendingHs` — the records of the source
- `findSessionByAddr`, `findSessionByPub`, `allocSession` — the lookups
- `sessionInit` — what a completed handshake writes into a slot
- `routeLookup`, `checkAllowedSrc` — routing and source validation
- `forwardToPeer` — sending one data packet
-/

namespace LaneCove

/-- `time_t` -/
abbrev Time := ℤ

/-- The fields of `struct sockaddr_in` that the program compares. -/
structure SockAddr where
  sinAddr : BitVec 32
  sinPort : BitVec 16
deriving DecidableEq

/-- `ip_prefix_t` -/
structure IpPrefix where
  network : BitVec 32
  mask : BitVec 32
  prefixLen : ℤ
deriving DecidableEq

/-- `peer_config_t`, less the host name of the endpoint, which only
`resolve_endpoint` reads. -/
structure PeerConfig where
  pub : Bytes
  routes : List IpPrefix
  hasEndpoint : Bool
  endpoint : SockAddr
  lastAttempt : Time
deriving DecidableEq

/-- `peer_session_t` -/
structure PeerSession (Key : Type) where
  active : Bool
  addr : SockAddr
  staticPub : Bytes
  sessionKey : Key
  prevSessionKey : Key
  prevKeyActive : Bool
  prevKeyExpires : Time
  lastSeen : Time
  lastSent : Time
  lastHandshake : Time
  rekeyDeadline : Time
  rekeying : Bool
  sendSeq : BitVec 64
  recvSeq : ReplayState
  routes : List IpPrefix
  isOutbound : Bool

/-- `pending_hs_t` -/
structure PendingHs (Priv : Type) where
  active : Bool
  cfgIdx : ℕ
  sentAt : Time
  hsState : HsClientState Priv Bytes Bytes
  serverAddr : SockAddr

/-- The `cfg_*` settings with their defaults, and the keepalive interval. -/
structure Settings where
  rekeyAfter : ℤ := 180
  reconnectInterval : ℤ := 30
  sessionExpiry : ℤ := 3 * 180
  prevKeyGrace : ℤ := 90
  handshakeTimeout : ℤ := 5
  handshakeCooldown : ℤ := 5
  keepaliveInterval : ℤ := 25
deriving DecidableEq

/-- `cfg_rekey_after * 4 / 5`, in `int`: a product beyond 32 bits, which C leaves undefined,
wraps around. -/
def Settings.rekeyThreshold (settings : Settings) : ℤ :=
  ((settings.rekeyAfter * 4).bmod (2 ^ 32)).tdiv 5

theorem Settings.rekeyThreshold_eq {settings : Settings} (hpos : 0 ≤ settings.rekeyAfter)
    (hlt : settings.rekeyAfter < 2 ^ 29) :
    settings.rekeyThreshold = settings.rekeyAfter * 4 / 5 := by
  have hwrap : (settings.rekeyAfter * 4).bmod (2 ^ 32) = settings.rekeyAfter * 4 :=
    Int.bmod_eq_of_le (by omega) (by omega)
  rw [rekeyThreshold, hwrap, Int.tdiv_eq_ediv_of_nonneg (by omega)]

-- the next larger `rekey_after` has a threshold in the past
example : ({ rekeyAfter := 2 ^ 29 } : Settings).rekeyThreshold = -429496729 := by decide

variable {Priv Key : Type}

def zeroKey32 : Bytes := List.replicate 32 0

/-- A zero-initialised entry of `peer_configs`. -/
def PeerConfig.zero : PeerConfig := ⟨zeroKey32, [], false, ⟨0, 0⟩, 0⟩

/-- A zero-initialised entry of `sessions`. -/
def PeerSession.zero [Inhabited Key] : PeerSession Key where
  active := false
  addr := ⟨0, 0⟩
  staticPub := zeroKey32
  sessionKey := default
  prevSessionKey := default
  prevKeyActive := false
  prevKeyExpires := 0
  lastSeen := 0
  lastSent := 0
  lastHandshake := 0
  rekeyDeadline := 0
  rekeying := false
  sendSeq := 0
  recvSeq := ReplayState.zero
  routes := []
  isOutbound := false

/-- A zero-initialised entry of `pending_hs`. -/
def PendingHs.zero : PendingHs Priv := ⟨false, 0, 0, ⟨none, zeroKey32, zeroKey32⟩, ⟨0, 0⟩⟩

-- ════════════════════════════════════════════════════════════════════════
-- Lookups
-- ════════════════════════════════════════════════════════════════════════

/-- `MAX_PEERS` -/
def maxPeers : ℕ := 64

/-- `find_peer_config` -/
def findPeerConfig (configs : List PeerConfig) (pub : Bytes) : Option PeerConfig :=
  configs.find? fun cfg => cfg.pub = pub

/-- `find_session_by_addr` -/
def findSessionByAddr (sessions : List (PeerSession Key)) (addr : SockAddr) : Option ℕ :=
  sessions.findIdx? fun s => s.active && s.addr = addr

/-- `find_session_by_pub` -/
def findSessionByPub (sessions : List (PeerSession Key)) (pub : Bytes) : Option ℕ :=
  sessions.findIdx? fun s => s.active && s.staticPub = pub

/-- `alloc_session`: the slot of this key, else of this address, else a free one,
else a new one; the table grows in the last case only. -/
def allocSession [Inhabited Key] (sessions : List (PeerSession Key)) (pub : Bytes)
    (addr : SockAddr) : Option (ℕ × List (PeerSession Key)) :=
  match findSessionByPub sessions pub with
  | some i => some (i, sessions)
  | none =>
    match findSessionByAddr sessions addr with
    | some i => some (i, sessions)
    | none =>
      match sessions.findIdx? fun s => !s.active with
      | some i => some (i, sessions)
      | none =>
        if maxPeers ≤ sessions.length then none
        else some (sessions.length, sessions ++ [PeerSession.zero])

/-- What the calls of `time(NULL)` in `session_init` return, in their order. -/
structure InitClock where
  /-- for `prev_key_expires`, if the slot was active -/
  grace : Time
  /-- for `last_sent` -/
  sent : Time
  /-- for `last_handshake` -/
  handshake : Time
  /-- for `rekey_deadline` -/
  deadline : Time

/-- `session_init` -/
def sessionInit (settings : Settings) (clk : InitClock) (s : PeerSession Key) (addr : SockAddr)
    (pub : Bytes) (key : Key) (cfg : Option PeerConfig) (isOutbound : Bool) : PeerSession Key where
  active := true
  addr := addr
  staticPub := pub
  prevSessionKey := if s.active then s.sessionKey else s.prevSessionKey
  prevKeyActive := s.active
  prevKeyExpires := if s.active then clk.grace + settings.prevKeyGrace else s.prevKeyExpires
  sessionKey := key
  lastSeen := 0
  lastSent := clk.sent
  lastHandshake := clk.handshake
  rekeyDeadline := clk.deadline + settings.rekeyAfter
  rekeying := false
  sendSeq := 0
  recvSeq := ReplayState.zero
  isOutbound := isOutbound
  routes := (cfg.map PeerConfig.routes).getD []

/-- `find_session_by_pub` followed by a write of the `rekeying` flag. -/
def setRekeying (sessions : List (PeerSession Key)) (pub : Bytes) (flag : Bool) :
    List (PeerSession Key) :=
  match findSessionByPub sessions pub with
  | none => sessions
  | some i => sessions.modify i fun s => { s with rekeying := flag }

-- ════════════════════════════════════════════════════════════════════════
-- Routing
-- ════════════════════════════════════════════════════════════════════════

/-- Does a route cover an address? -/
def IpPrefix.covers (route : IpPrefix) (ip : BitVec 32) : Bool :=
  ip &&& route.mask = route.network

/-- The inner loop of `route_lookup` over the routes of slot `i`; the state is
`best_prefix` with `best`. -/
def routeScan (dst : BitVec 32) (i : ℕ) (best : ℤ × Option ℕ) (routes : List IpPrefix) :
    ℤ × Option ℕ :=
  routes.foldl (fun best route =>
    if route.covers dst && decide (best.1 < route.prefixLen) then (route.prefixLen, some i)
    else best) best

/-- The outer loop of `route_lookup`, from slot `i` on. -/
def routeLoop (dst : BitVec 32) : ℕ → ℤ × Option ℕ → List (PeerSession Key) → ℤ × Option ℕ
  | _, best, [] => best
  | i, best, s :: sessions =>
    routeLoop dst (i + 1) (if s.active then routeScan dst i best s.routes else best) sessions

/-- `route_lookup` -/
def routeLookup (sessions : List (PeerSession Key)) (dst : BitVec 32) : Option ℕ :=
  (routeLoop dst 0 (-1, none) sessions).2

/-- `check_allowed_src` -/
def checkAllowedSrc (s : PeerSession Key) (src : BitVec 32) : Bool :=
  s.routes.isEmpty || s.routes.any fun route => route.covers src

/-- `nr >= 20 && (buffer[0] >> 4) == 4` -/
def isIpv4 (buffer : Bytes) : Bool :=
  20 ≤ buffer.length && buffer.headD 0 >>> 4 = 4

/-- `ntohl(*(uint32_t *)(buffer + off))` -/
def ipAt (buffer : Bytes) (off : ℕ) : BitVec 32 :=
  BitVec.ofNat 32 (BigEndian.decode ((buffer.drop off).take 4))

-- ════════════════════════════════════════════════════════════════════════
-- Sending data
-- ════════════════════════════════════════════════════════════════════════

/-- What the environment decides about one `forward_to_peer`: the random IV,
whether `sendto` succeeds, and the time. -/
structure SendEnv where
  iv : Option Iv
  sendOk : Bool
  clk : Time

/-- `forward_to_peer`: the session afterwards and the datagram, if it was sent.
The sequence number is consumed in any case. -/
def forwardToPeer (C : Crypto Priv Key) (s : PeerSession Key) (payload : Bytes) (env : SendEnv) :
    PeerSession Key × Option Bytes :=
  match encryptPacket C s.sessionKey env.iv (frame s.sendSeq payload) with
  | none => ({ s with sendSeq := s.sendSeq + 1 }, none)
  | some packet =>
    if env.sendOk then ({ s with sendSeq := s.sendSeq + 1, lastSent := env.clk }, some packet)
    else ({ s with sendSeq := s.sendSeq + 1 }, none)

/-- A datagram of `forward_to_peer` is the frame of the next sequence number,
encrypted under the session key. -/
theorem encryptPacket_of_forwardToPeer {C : Crypto Priv Key} {s : PeerSession Key}
    {payload packet : Bytes} {env : SendEnv} (h : (forwardToPeer C s payload env).2 = some packet) :
    encryptPacket C s.sessionKey env.iv (frame s.sendSeq payload) = some packet := by
  unfold forwardToPeer at h
  split at h
  · exact absurd h (by simp)
  · next packet' henc =>
    split at h
    · obtain rfl := Option.some.inj h
      exact henc
    · exact absurd h (by simp)

end LaneCove
