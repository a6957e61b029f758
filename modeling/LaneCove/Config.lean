import LaneCove.Session
import LaneCove.Foundations.CString

/-!
# Loading the configuration

`load_config` of `peer.c` is a state machine over the events of a YAML parser. The
machine reads the root mapping, the sequence `peers` in it, the mapping of each
peer and the sequence `allowed_ips` in that. An event it does not expect in its
state leaves it as it is.

What the environment decides is given with each event: the answer of
`resolve_endpoint`, and what the memory behind the endpoint buffer holds.
`inet_pton` is a parameter.

## Main definitions

- `hexToBytes`, `parseCidr`, `parseEndpoint` — the values of a peer's mapping
- `Loader`, `loadStep`, `loadConfig` — the variables of `load_config` and its loop
- `validate` — the checks of `main` on the result
- `cidrsOf` — the `allowed_ips` scalars of a document, with the peers they are for

## Main results

- `loadConfig_length_le` — an accepted document has at most `MAX_PEERS` peers
- `loadConfig_routes` — every route of a peer is parsed from its own `allowed_ips`
- `covers_of_parseCidr` — a route covers the addresses that share its prefix
-/

namespace LaneCove

open CString

-- ════════════════════════════════════════════════════════════════════════
-- Values
-- ════════════════════════════════════════════════════════════════════════

/-- `DH_PUBKEY_LEN` -/
def dhPubkeyLen : ℕ := 32

/-- The loop of `hex_to_bytes` over `n` bytes. -/
def hexLoop : ℕ → Bytes → Option Bytes
  | 0, _ => some []
  | n + 1, hex =>
    match scanHex2 hex with
    | some (byte, 2) => (hexLoop n (hex.drop 2)).map fun bytes => byte.toNat.toUInt8 :: bytes
    | _ => none

/-- `hex_to_bytes`; both sides of the test are of type `int`. -/
def hexToBytes (hex : Bytes) (expectedLen : ℕ) : Option Bytes :=
  if hex.length % 2 ^ 32 ≠ expectedLen * 2 % 2 ^ 32 then none else hexLoop expectedLen hex

/-- The address and the prefix length of a CIDR: `parse_cidr` copies 31 characters,
cuts them at the first slash, and reads the two parts. -/
def cidrParts (inetPton : Bytes → Option (BitVec 32)) (cidr : Bytes) : Option (BitVec 32 × ℤ) :=
  match strchr 47 (cidr.take 31) with
  | none => (inetPton (cidr.take 31)).map fun addr => (addr, 32)
  | some (buf, suffix) =>
    if atoi suffix < 0 || 32 < atoi suffix then none
    else (inetPton buf).map fun addr => (addr, atoi suffix)

/-- `prefix_len == 0 ? 0u : (~0u << (32 - prefix_len))` -/
def cidrMask (prefixLen : ℤ) : BitVec 32 :=
  if prefixLen = 0 then 0 else (~~~ (0 : BitVec 32)) <<< (32 - prefixLen).toNat

/-- `parse_cidr`; `inetPton` returns the address in host byte order. -/
def parseCidr (inetPton : Bytes → Option (BitVec 32)) (cidr : Bytes) : Option IpPrefix :=
  (cidrParts inetPton cidr).map fun r =>
    { network := r.1 &&& cidrMask r.2, mask := cidrMask r.2, prefixLen := r.2 }

/-- The reasons for which `load_config` fails, with the text each one logs. -/
inductive LoadError
  /-- the YAML parser reports an error -/
  | yaml
  /-- `Config: too many peers (max %d)` -/
  | tooManyPeers
  /-- `Config: invalid public_key hex: %s` -/
  | publicKey (value : Bytes)
  /-- `Config: invalid endpoint (expected host:port): %s` -/
  | endpoint (value : Bytes)
  /-- `Config: invalid port in endpoint: %s` -/
  | endpointPort (value : Bytes)
  /-- `Config: cannot resolve endpoint host: %s` -/
  | endpointHost (host : Bytes)
  /-- `Config: too many allowed_ips (max %d)` -/
  | tooManyAllowedIps
  /-- `Config: invalid CIDR: %s` -/
  | cidr (value : Bytes)
deriving DecidableEq

/-- The string in the endpoint buffer: `strncpy` copies up to 255 characters, and
ends the copy of a longer value with whatever the memory from `buf[255]` on holds. -/
def endpointBuf (value memory : Bytes) : Bytes :=
  if value.length < 255 then value else value.take 255 ++ ofBuffer memory

/-- Host and port of an endpoint scalar. -/
def parseEndpoint (value memory : Bytes) : Except LoadError (Bytes × ℤ) :=
  match strrchr 58 (endpointBuf value memory) with
  | none => .error (.endpoint value)
  | some (buf, port) =>
    if buf = [] then .error (.endpoint value)
    else if atoi port ≤ 0 || 65535 < atoi port then .error (.endpointPort value)
    else .ok (buf, atoi port)

-- ════════════════════════════════════════════════════════════════════════
-- The loader
-- ════════════════════════════════════════════════════════════════════════

/-- The settings of the root mapping, with the defaults of `main`. -/
structure RootConfig where
  tunnel : Bytes := []
  address : Bytes := []
  port : ℤ := 5040
  keyfile : Bytes := ascii "peer.key"
  psk : Bytes := []
  hasPsk : Bool := false
  /-- `log_level` -/
  verbose : Bool := false
  settings : Settings := {}
deriving DecidableEq

/-- `peer_config_t` with the endpoint as it was configured. -/
structure PeerEntry extends PeerConfig where
  endpointHost : Bytes
  endpointPort : ℤ
deriving DecidableEq

/-- A zeroed entry. -/
def PeerEntry.zero : PeerEntry := ⟨PeerConfig.zero, [], 0⟩

/-- `MAX_ROUTES_PER_PEER` -/
def maxRoutesPerPeer : ℕ := 16

/-- The events of the YAML parser; a scalar may contain zero bytes. -/
inductive YamlEvent
  | streamStart
  | streamEnd
  | documentStart
  | documentEnd
  | alias
  | scalar (value : Bytes)
  | sequenceStart
  | sequenceEnd
  | mappingStart
  | mappingEnd
deriving DecidableEq

/-- What the environment decides while an event is handled. -/
structure LoadEnv where
  /-- memory from the end of the endpoint buffer on -/
  memory : Bytes
  /-- the answer of `resolve_endpoint` -/
  resolved : Option SockAddr

/-- The states of `load_config`. -/
inductive LoadState
  | root
  | rootVal
  | peersSeq
  | peerMap
  | peerVal
  | allowedIpsSeq
deriving DecidableEq

/-- The variables of `load_config` and what it fills in. -/
structure Loader where
  state : LoadState := .root
  key : Bytes := []
  peerKey : Bytes := []
  root : RootConfig := {}
  peers : List PeerEntry := []
deriving DecidableEq

/-- A scalar of the root mapping; `key` is the last key read. -/
def setRoot (root : RootConfig) (key value : Bytes) : RootConfig :=
  let number (set : ℤ → Settings → Settings) : RootConfig :=
    { root with settings := set (atoi value) root.settings }
  if key = ascii "interface" then { root with tunnel := value.take 15 }
  else if key = ascii "address" then { root with address := value.take 63 }
  else if key = ascii "port" then { root with port := atoi value }
  else if key = ascii "keepalive_interval" then number fun n s => { s with keepaliveInterval := n }
  else if key = ascii "rekey_after" then number fun n s => { s with rekeyAfter := n }
  else if key = ascii "reconnect_interval" then number fun n s => { s with reconnectInterval := n }
  else if key = ascii "session_expiry" then number fun n s => { s with sessionExpiry := n }
  else if key = ascii "prev_key_grace" then number fun n s => { s with prevKeyGrace := n }
  else if key = ascii "handshake_timeout" then number fun n s => { s with handshakeTimeout := n }
  else if key = ascii "handshake_cooldown" then number fun n s => { s with handshakeCooldown := n }
  else if key = ascii "private_key_file" then { root with keyfile := value.take 255 }
  else if key = ascii "verbose" && value = ascii "true" then { root with verbose := true }
  else if key = ascii "pre_shared_key" then { root with psk := value.take 255, hasPsk := true }
  else root

/-- A scalar of a peer's mapping; `key` is the last key read. -/
def setPeer (key value : Bytes) (env : LoadEnv) (peer : PeerEntry) : Except LoadError PeerEntry :=
  if key = ascii "public_key" then
    match hexToBytes value dhPubkeyLen with
    | none => .error (.publicKey value)
    | some pub => .ok { peer with pub }
  else if key = ascii "endpoint" then
    match parseEndpoint value env.memory with
    | .error e => .error e
    | .ok (host, port) =>
      match env.resolved with
      | none => .error (.endpointHost host)
      | some endpoint => .ok { peer with
          hasEndpoint := true, endpoint, endpointHost := host.take 255, endpointPort := port }
  else .ok peer

/-- A scalar of the sequence `allowed_ips`. -/
def addRoute (inetPton : Bytes → Option (BitVec 32)) (value : Bytes) (peer : PeerEntry) :
    Except LoadError PeerEntry :=
  if maxRoutesPerPeer ≤ peer.routes.length then .error .tooManyAllowedIps
  else
    match parseCidr inetPton value with
    | none => .error (.cidr value)
    | some route => .ok { peer with routes := peer.routes ++ [route] }

/-- Update `peer_configs[peer_config_count - 1]`. -/
def updateLast (peers : List PeerEntry) (f : PeerEntry → Except LoadError PeerEntry) :
    Except LoadError (List PeerEntry) :=
  match peers.getLast? with
  | none => .ok peers
  | some peer => (f peer).map fun peer => peers.dropLast ++ [peer]

/-- The body of the loop of `load_config`. -/
def loadStep (inetPton : Bytes → Option (BitVec 32)) (l : Loader) (ev : YamlEvent) (env : LoadEnv) :
    Except LoadError Loader :=
  match l.state, ev with
  | .root, .scalar value => .ok { l with key := (ofBuffer value).take 63, state := .rootVal }
  | .rootVal, .scalar value =>
    .ok { l with root := setRoot l.root l.key (ofBuffer value), state := .root }
  | .rootVal, .sequenceStart =>
    if l.key = ascii "peers" then .ok { l with state := .peersSeq } else .ok l
  | .peersSeq, .sequenceEnd => .ok { l with state := .root }
  | .peersSeq, .mappingStart =>
    if maxPeers ≤ l.peers.length then .error .tooManyPeers
    else .ok { l with peers := l.peers ++ [PeerEntry.zero], state := .peerMap }
  | .peerMap, .mappingEnd => .ok { l with state := .peersSeq }
  | .peerMap, .scalar value =>
    .ok { l with peerKey := (ofBuffer value).take 63, state := .peerVal }
  | .peerVal, .scalar value =>
    (updateLast l.peers (setPeer l.peerKey (ofBuffer value) env)).map fun peers =>
      { l with peers, state := .peerMap }
  | .peerVal, .sequenceStart =>
    if l.peerKey = ascii "allowed_ips" then .ok { l with state := .allowedIpsSeq } else .ok l
  | .allowedIpsSeq, .sequenceEnd => .ok { l with state := .peerMap }
  | .allowedIpsSeq, .scalar value =>
    (updateLast l.peers (addRoute inetPton (ofBuffer value))).map fun peers => { l with peers }
  | _, _ => .ok l

/-- The loop of `load_config`, up to the end of the stream. If the parser delivers
no further event it has failed. -/
def loadEvents (inetPton : Bytes → Option (BitVec 32)) (l : Loader) :
    List (YamlEvent × LoadEnv) → Except LoadError Loader
  | [] => .error .yaml
  | (ev, env) :: rest =>
    match loadStep inetPton l ev env with
    | .error e => .error e
    | .ok l => if ev = .streamEnd then .ok l else loadEvents inetPton l rest

/-- `load_config` on the events of its file. -/
def loadConfig (inetPton : Bytes → Option (BitVec 32)) (events : List (YamlEvent × LoadEnv)) :
    Except LoadError Loader :=
  loadEvents inetPton {} events

/-- The peers `event_loop` is started with. -/
def Loader.configs (l : Loader) : List PeerConfig := l.peers.map PeerEntry.toPeerConfig

/-- The reasons for which `main` rejects a configuration, with the text each one logs. -/
inductive ConfigError
  /-- `Config: interface is required` -/
  | interface
  /-- `Config: at least one peer is required` -/
  | peers
  /-- `Config: port must be 1-65535 (got %d)` -/
  | port (got : ℤ)
  /-- `Config: keepalive_interval must be > 0 (got %d)` -/
  | keepaliveInterval (got : ℤ)
  /-- `Config: rekey_after must be > 0 (got %d)` -/
  | rekeyAfter (got : ℤ)
  /-- `Config: reconnect_interval must be > 0 (got %d)` -/
  | reconnectInterval (got : ℤ)
  /-- `Config: session_expiry (%d) must be greater than rekey_after (%d)` -/
  | sessionExpiry (got rekeyAfter : ℤ)
  /-- `Config: prev_key_grace must be > 0 (got %d)` -/
  | prevKeyGrace (got : ℤ)
  /-- `Config: handshake_timeout must be > 0 (got %d)` -/
  | handshakeTimeout (got : ℤ)
  /-- `Config: handshake_cooldown must be > 0 (got %d)` -/
  | handshakeCooldown (got : ℤ)
deriving DecidableEq

/-- The checks of `main` on what `load_config` has filled in. -/
def validate (l : Loader) : Except ConfigError Unit :=
  let s := l.root.settings
  if l.root.tunnel = [] then .error .interface
  else if l.peers = [] then .error .peers
  else if l.root.port ≤ 0 || 65535 < l.root.port then .error (.port l.root.port)
  else if s.keepaliveInterval ≤ 0 then .error (.keepaliveInterval s.keepaliveInterval)
  else if s.rekeyAfter ≤ 0 then .error (.rekeyAfter s.rekeyAfter)
  else if s.reconnectInterval ≤ 0 then .error (.reconnectInterval s.reconnectInterval)
  else if s.sessionExpiry ≤ s.rekeyAfter then .error (.sessionExpiry s.sessionExpiry s.rekeyAfter)
  else if s.prevKeyGrace ≤ 0 then .error (.prevKeyGrace s.prevKeyGrace)
  else if s.handshakeTimeout ≤ 0 then .error (.handshakeTimeout s.handshakeTimeout)
  else if s.handshakeCooldown ≤ 0 then .error (.handshakeCooldown s.handshakeCooldown)
  else .ok ()

-- ════════════════════════════════════════════════════════════════════════
-- Where routes come from
-- ════════════════════════════════════════════════════════════════════════

/-- The scalar of an `allowed_ips` sequence that an event delivers, with the index
of the peer. -/
def cidrOf (l : Loader) (ev : YamlEvent) : Option (ℕ × Bytes) :=
  match l.state, ev with
  | .allowedIpsSeq, .scalar value => some (l.peers.length - 1, ofBuffer value)
  | _, _ => none

/-- The scalars of the `allowed_ips` sequences of a document, with the indices of
the peers in whose mappings they stand. -/
def cidrsOf (inetPton : Bytes → Option (BitVec 32)) (l : Loader) :
    List (YamlEvent × LoadEnv) → List (ℕ × Bytes)
  | [] => []
  | (ev, env) :: rest =>
    (cidrOf l ev).toList ++
      match loadStep inetPton l ev env with
      | .error _ => []
      | .ok l => cidrsOf inetPton l rest

variable {inetPton : Bytes → Option (BitVec 32)} {l l' : Loader} {ev : YamlEvent} {env : LoadEnv}

theorem exists_of_map_eq_ok {ε α β : Type} {x : Except ε α} {f : α → β} {b : β}
    (h : x.map f = .ok b) : ∃ a, x = .ok a ∧ f a = b := by
  cases x with
  | error e => exact absurd h (by simp [Except.map])
  | ok a => exact ⟨a, rfl, Except.ok.inj h⟩

/-- Only the last entry is rewritten. -/
theorem updateLast_ok {peers peers' : List PeerEntry} {f : PeerEntry → Except LoadError PeerEntry}
    (h : updateLast peers f = .ok peers') : peers'.length = peers.length ∧
      ∀ (k : ℕ) (peer' : PeerEntry), peers'[k]? = some peer' → peers[k]? = some peer' ∨
        k = peers.length - 1 ∧ ∃ peer, peers[k]? = some peer ∧ f peer = .ok peer' := by
  unfold updateLast at h
  split at h
  · obtain rfl := Except.ok.inj h
    exact ⟨rfl, fun k peer' hk => Or.inl hk⟩
  · next peer hlast =>
    obtain ⟨init, rfl⟩ := List.getLast?_eq_some_iff.mp hlast
    obtain ⟨peer₁, hf, rfl⟩ := exists_of_map_eq_ok h
    rw [List.dropLast_concat]
    refine ⟨by simp, fun k peer' hk => ?_⟩
    by_cases hlt : k < init.length
    · rw [List.getElem?_append_left hlt] at hk ⊢
      exact Or.inl hk
    · have hlen : k < (init ++ [peer₁]).length := (List.getElem?_eq_some_iff.mp hk).1
      rw [List.length_append, List.length_singleton] at hlen
      obtain rfl : k = init.length := by omega
      rw [List.getElem?_concat_length] at hk ⊢
      obtain rfl := Option.some.inj hk
      exact Or.inr ⟨by simp, peer, rfl, hf⟩

theorem setPeer_routes {key value : Bytes} {peer peer' : PeerEntry}
    (h : setPeer key value env peer = .ok peer') : peer'.routes = peer.routes := by
  unfold setPeer at h
  split at h
  · split at h
    · exact absurd h (by simp)
    · obtain rfl := Except.ok.inj h
      rfl
  · split at h
    · split at h
      · exact absurd h (by simp)
      · split at h
        · exact absurd h (by simp)
        · obtain rfl := Except.ok.inj h
          rfl
    · obtain rfl := Except.ok.inj h
      rfl

/-- Only a public key changes the key. -/
theorem setPeer_pub {key value : Bytes} {peer peer' : PeerEntry}
    (h : setPeer key value env peer = .ok peer') :
    (key = ascii "public_key" → hexToBytes value dhPubkeyLen = some peer'.pub) ∧
      (key ≠ ascii "public_key" → peer'.pub = peer.pub) := by
  unfold setPeer at h
  split at h
  · next hkey =>
    split at h
    · exact absurd h (by simp)
    · next pub hpub =>
      obtain rfl := Except.ok.inj h
      exact ⟨fun _ => hpub, fun hne => absurd hkey hne⟩
  · next hkey =>
    refine ⟨fun heq => absurd heq hkey, fun _ => ?_⟩
    split at h
    · split at h
      · exact absurd h (by simp)
      · split at h
        · exact absurd h (by simp)
        · obtain rfl := Except.ok.inj h
          rfl
    · obtain rfl := Except.ok.inj h
      rfl

theorem addRoute_routes {value : Bytes} {peer peer' : PeerEntry}
    (h : addRoute inetPton value peer = .ok peer') :
    ∃ route, parseCidr inetPton value = some route ∧ peer'.routes = peer.routes ++ [route] := by
  unfold addRoute at h
  split at h
  · exact absurd h (by simp)
  · split at h
    · exact absurd h (by simp)
    · next route hparse =>
      obtain rfl := Except.ok.inj h
      exact ⟨route, hparse, rfl⟩

theorem addRoute_pub {value : Bytes} {peer peer' : PeerEntry}
    (h : addRoute inetPton value peer = .ok peer') : peer'.pub = peer.pub := by
  unfold addRoute at h
  split at h
  · exact absurd h (by simp)
  · split at h
    · exact absurd h (by simp)
    · obtain rfl := Except.ok.inj h
      rfl

/-- What one event does to the list of peers. -/
inductive PeersStep (inetPton : Bytes → Option (BitVec 32)) (l : Loader) (ev : YamlEvent)
    (env : LoadEnv) : List PeerEntry → Prop
  | keep : PeersStep inetPton l ev env l.peers
  /-- a new mapping in the sequence `peers` -/
  | new (hlen : l.peers.length < maxPeers) :
      PeersStep inetPton l ev env (l.peers ++ [PeerEntry.zero])
  /-- a scalar of a peer's mapping -/
  | set {value : Bytes} {peers : List PeerEntry}
      (h : updateLast l.peers (setPeer l.peerKey value env) = .ok peers) :
      PeersStep inetPton l ev env peers
  /-- a scalar of the sequence `allowed_ips` -/
  | route {value : Bytes} {peers : List PeerEntry}
      (hcidr : cidrOf l ev = some (l.peers.length - 1, value))
      (h : updateLast l.peers (addRoute inetPton value) = .ok peers) :
      PeersStep inetPton l ev env peers

theorem loadStep_peers (h : loadStep inetPton l ev env = .ok l') :
    PeersStep inetPton l ev env l'.peers := by
  have hkeep : ∀ {l₁ : Loader}, (Except.ok l₁ : Except LoadError Loader) = .ok l' →
      l₁.peers = l.peers → PeersStep inetPton l ev env l'.peers := by
    intro l₁ hok hpeers
    obtain rfl := Except.ok.inj hok
    rw [hpeers]
    exact .keep
  unfold loadStep at h
  split at h
  · exact hkeep h rfl
  · exact hkeep h rfl
  · split at h <;> exact hkeep h rfl
  · exact hkeep h rfl
  · split at h
    · exact absurd h (by simp)
    · next hlen =>
      obtain rfl := Except.ok.inj h
      exact .new (by omega)
  · exact hkeep h rfl
  · exact hkeep h rfl
  · obtain ⟨peers, hupd, rfl⟩ := exists_of_map_eq_ok h
    exact .set hupd
  · split at h <;> exact hkeep h rfl
  · exact hkeep h rfl
  · next value hstate =>
    obtain ⟨peers, hupd, rfl⟩ := exists_of_map_eq_ok h
    exact .route (by simp [cidrOf, hstate]) hupd
  · exact hkeep h rfl

theorem PeersStep.length_le {peers : List PeerEntry} (h : PeersStep inetPton l ev env peers)
    (hlen : l.peers.length ≤ maxPeers) : peers.length ≤ maxPeers := by
  cases h with
  | keep => exact hlen
  | new hlt =>
    rw [List.length_append, List.length_singleton]
    omega
  | set h =>
    rw [(updateLast_ok h).1]
    exact hlen
  | route _ h =>
    rw [(updateLast_ok h).1]
    exact hlen

/-- A route of peer `k` was there before, or the event is one of its CIDRs. -/
theorem PeersStep.routes {peers : List PeerEntry} (h : PeersStep inetPton l ev env peers) {k : ℕ}
    {peer' : PeerEntry} (hk : peers[k]? = some peer') {route : IpPrefix}
    (hroute : route ∈ peer'.routes) :
    (∃ peer, l.peers[k]? = some peer ∧ route ∈ peer.routes) ∨
      ∃ text, cidrOf l ev = some (k, text) ∧ parseCidr inetPton text = some route := by
  cases h with
  | keep => exact Or.inl ⟨peer', hk, hroute⟩
  | new hlt =>
    by_cases hlt : k < l.peers.length
    · rw [List.getElem?_append_left hlt] at hk
      exact Or.inl ⟨peer', hk, hroute⟩
    · rw [List.getElem?_append_right (by omega)] at hk
      obtain rfl := List.mem_singleton.mp (List.mem_of_getElem? hk)
      exact absurd hroute (by simp [PeerEntry.zero, PeerConfig.zero])
  | set h =>
    rcases (updateLast_ok h).2 k peer' hk with hk | ⟨-, peer, hk, hset⟩
    · exact Or.inl ⟨peer', hk, hroute⟩
    · exact Or.inl ⟨peer, hk, setPeer_routes hset ▸ hroute⟩
  | @route value _ hcidr h =>
    rcases (updateLast_ok h).2 k peer' hk with hk | ⟨rfl, peer, hk, hadd⟩
    · exact Or.inl ⟨peer', hk, hroute⟩
    · obtain ⟨route', hparse, hroutes⟩ := addRoute_routes hadd
      rw [hroutes, List.mem_append, List.mem_singleton] at hroute
      rcases hroute with hroute | rfl
      · exact Or.inl ⟨peer, hk, hroute⟩
      · exact Or.inr ⟨value, hcidr, hparse⟩

theorem loadEvents_length_le (events : List (YamlEvent × LoadEnv)) {l l' : Loader}
    (h : loadEvents inetPton l events = .ok l') (hlen : l.peers.length ≤ maxPeers) :
    l'.peers.length ≤ maxPeers := by
  induction events generalizing l with
  | nil => exact absurd h (by simp [loadEvents])
  | cons e rest ih =>
    rw [loadEvents] at h
    split at h
    · exact absurd h (by simp)
    · next l₁ hstep =>
      have hlen₁ := (loadStep_peers hstep).length_le hlen
      split at h
      · obtain rfl := Except.ok.inj h
        exact hlen₁
      · exact ih h hlen₁

theorem loadEvents_routes (events : List (YamlEvent × LoadEnv)) {l l' : Loader}
    (h : loadEvents inetPton l events = .ok l') {k : ℕ} {peer' : PeerEntry}
    (hk : l'.peers[k]? = some peer') {route : IpPrefix} (hroute : route ∈ peer'.routes) :
    (∃ peer, l.peers[k]? = some peer ∧ route ∈ peer.routes) ∨
      ∃ text, (k, text) ∈ cidrsOf inetPton l events ∧ parseCidr inetPton text = some route := by
  induction events generalizing l with
  | nil => exact absurd h (by simp [loadEvents])
  | cons e rest ih =>
    rw [loadEvents] at h
    split at h
    · exact absurd h (by simp)
    · next l₁ hstep =>
      -- a route read by the rest of the document is one of the rest of its CIDRs
      have hrest : (∃ peer, l₁.peers[k]? = some peer ∧ route ∈ peer.routes) ∨
          ∃ text, (k, text) ∈ cidrsOf inetPton l₁ rest ∧ parseCidr inetPton text = some route := by
        split at h
        · obtain rfl := Except.ok.inj h
          exact Or.inl ⟨peer', hk, hroute⟩
        · exact ih h
      rw [cidrsOf, hstep]
      rcases hrest with ⟨peer, hk₁, hroute₁⟩ | ⟨text, htext, hparse⟩
      · rcases (loadStep_peers hstep).routes hk₁ hroute₁ with hold | ⟨text, hcidr, hparse⟩
        · exact Or.inl hold
        · exact Or.inr ⟨text, by simp [hcidr], hparse⟩
      · exact Or.inr ⟨text, List.mem_append_right _ htext, hparse⟩

/-- An accepted document configures at most `MAX_PEERS` peers. -/
theorem loadConfig_length_le {events : List (YamlEvent × LoadEnv)} {l : Loader}
    (h : loadConfig inetPton events = .ok l) : l.configs.length ≤ maxPeers := by
  rw [Loader.configs, List.length_map]
  exact loadEvents_length_le events h (Nat.zero_le _)

/-- Every route of a peer comes from an `allowed_ips` scalar of its own mapping. -/
theorem loadConfig_routes {events : List (YamlEvent × LoadEnv)} {l : Loader}
    (h : loadConfig inetPton events = .ok l) {k : ℕ} {peer : PeerEntry}
    (hk : l.peers[k]? = some peer) {route : IpPrefix} (hroute : route ∈ peer.routes) :
    ∃ text, (k, text) ∈ cidrsOf inetPton {} events ∧ parseCidr inetPton text = some route := by
  rcases loadEvents_routes events h hk hroute with ⟨peer₀, hk₀, -⟩ | htext
  · exact absurd hk₀ (by simp)
  · exact htext

-- ════════════════════════════════════════════════════════════════════════
-- What a route covers
-- ════════════════════════════════════════════════════════════════════════

theorem cidrParts_bounds {cidr : Bytes} {addr : BitVec 32} {len : ℤ}
    (h : cidrParts inetPton cidr = some (addr, len)) : 0 ≤ len ∧ len ≤ 32 := by
  unfold cidrParts at h
  split at h
  · obtain ⟨_, -, he⟩ := Option.map_eq_some_iff.mp h
    obtain ⟨-, rfl⟩ := Prod.mk.inj he
    omega
  · split at h
    · exact absurd h (by simp)
    · next hrange =>
      obtain ⟨_, -, he⟩ := Option.map_eq_some_iff.mp h
      obtain ⟨-, rfl⟩ := Prod.mk.inj he
      simp only [Bool.or_eq_true, decide_eq_true_eq] at hrange
      omega

/-- The mask has exactly its first `prefix_len` bits set. -/
theorem getMsbD_cidrMask {len : ℤ} (h0 : 0 ≤ len) (h32 : len ≤ 32) (i : ℕ) :
    (cidrMask len).getMsbD i = decide ((i : ℤ) < len) := by
  unfold cidrMask
  split
  · next hzero =>
    have : ¬ (i : ℤ) < len := by omega
    simp [this]
  · have hlt : i + (32 - len).toNat < 32 ↔ (i : ℤ) < len := by omega
    rw [BitVec.getMsbD_shiftLeft, BitVec.getMsbD_not]
    simp [hlt]

/-- A route covers exactly the addresses that agree with its address on the first
`prefix_len` bits. -/
theorem covers_of_parseCidr {cidr : Bytes} {route : IpPrefix}
    (h : parseCidr inetPton cidr = some route) :
    ∃ addr len, cidrParts inetPton cidr = some (addr, len) ∧ ∀ ip, route.covers ip = true ↔
      ∀ i : ℕ, (i : ℤ) < len → ip.getMsbD i = addr.getMsbD i := by
  obtain ⟨⟨addr, len⟩, hparts, rfl⟩ := Option.map_eq_some_iff.mp h
  obtain ⟨h0, h32⟩ := cidrParts_bounds hparts
  refine ⟨addr, len, hparts, fun ip => ?_⟩
  simp only [IpPrefix.covers, decide_eq_true_eq]
  constructor
  · intro heq i hi
    have hbit := congrArg (fun x : BitVec 32 => x.getMsbD i) heq
    simpa [BitVec.getMsbD_and, getMsbD_cidrMask h0 h32, hi] using hbit
  · intro hbits
    apply BitVec.eq_of_getMsbD_eq
    intro i hi
    rw [BitVec.getMsbD_and, BitVec.getMsbD_and, getMsbD_cidrMask h0 h32]
    by_cases hlt : (i : ℤ) < len
    · rw [hbits i hlt]
    · simp [hlt]

end LaneCove
