import LaneCove.Config
import LaneCove.Foundations.Numerals
import LaneCove.Genuine
import LaneCove.Loop

/-!
# Starting a peer

`main` and `start_peer` of `peer.c`: the configuration is loaded and checked, the static key
and the pre-shared key are read, the tunnel and the socket are opened, and `event_loop` runs.
The results about runs of the loop ask for a key pair that belongs together and for settings
in order; here they are traced back to the checks that are made before the loop starts.

## Main definitions

- `PeerEntry.WellFormed` — an entry of `peer_configs` that is in order
- `Host` — what the program finds when it is started
- `startPeer`, `main` — from the configuration file to the arguments of `event_loop`
- `Started` — arguments of `event_loop` that are in order

## Main results

- `loadConfig_wellFormed` — all entries of an accepted file are in order
- `main_started` — the event loop is started in order or not at all
- `main_deadlines` — the delay of the timers in a running program
-/

namespace LaneCove

open CString

-- ════════════════════════════════════════════════════════════════════════
-- Entries of the configuration
-- ════════════════════════════════════════════════════════════════════════

/-- The mask has `prefix_len` bits, and the network has no bits outside it. -/
structure IpPrefix.WellFormed (route : IpPrefix) : Prop where
  prefixLen : 0 ≤ route.prefixLen ∧ route.prefixLen ≤ 32
  mask : route.mask = cidrMask route.prefixLen
  network : route.network &&& route.mask = route.network

/-- The key has its length, there is room for the routes, and an endpoint has a host and a
port. -/
structure PeerEntry.WellFormed (peer : PeerEntry) : Prop where
  pub : peer.pub.length = dhPubkeyLen
  routes_length : peer.routes.length ≤ maxRoutesPerPeer
  routes : ∀ route ∈ peer.routes, route.WellFormed
  endpoint : peer.hasEndpoint = true →
    peer.endpointHost ≠ [] ∧ 0 < peer.endpointPort ∧ peer.endpointPort ≤ 65535

variable {inetPton : Bytes → Option (BitVec 32)}

theorem parseCidr_wellFormed {cidr : Bytes} {route : IpPrefix}
    (h : parseCidr inetPton cidr = some route) : route.WellFormed := by
  obtain ⟨⟨addr, len⟩, hparts, rfl⟩ := Option.map_eq_some_iff.mp h
  refine ⟨cidrParts_bounds hparts, rfl, ?_⟩
  show addr &&& cidrMask len &&& cidrMask len = addr &&& cidrMask len
  rw [BitVec.and_assoc, BitVec.and_self]

theorem hexLoop_length {n : ℕ} {hex bytes : Bytes} (h : hexLoop n hex = some bytes) :
    bytes.length = n := by
  induction n generalizing hex bytes with
  | zero =>
    obtain rfl := Option.some.inj h
    rfl
  | succ n ih =>
    rw [hexLoop] at h
    split at h
    · obtain ⟨rest, hrest, rfl⟩ := Option.map_eq_some_iff.mp h
      rw [List.length_cons, ih hrest]
    · exact absurd h (by simp)

theorem hexToBytes_length {hex bytes : Bytes} {n : ℕ} (h : hexToBytes hex n = some bytes) :
    bytes.length = n := by
  unfold hexToBytes at h
  split at h
  · exact absurd h (by simp)
  · exact hexLoop_length h

theorem parseEndpoint_ok {value memory host : Bytes} {port : ℤ}
    (h : parseEndpoint value memory = .ok (host, port)) :
    host ≠ [] ∧ 0 < port ∧ port ≤ 65535 := by
  unfold parseEndpoint at h
  split at h
  · exact absurd h (by simp)
  · split at h
    · exact absurd h (by simp)
    · next hbuf =>
      split at h
      · exact absurd h (by simp)
      · next hrange =>
        obtain ⟨rfl, rfl⟩ := Prod.mk.inj (Except.ok.inj h)
        simp only [Bool.or_eq_true, decide_eq_true_eq, not_or, not_le, not_lt] at hrange
        exact ⟨hbuf, hrange⟩

theorem PeerEntry.zero_wellFormed : PeerEntry.zero.WellFormed where
  pub := rfl
  routes_length := by simp [PeerEntry.zero, PeerConfig.zero]
  routes := by simp [PeerEntry.zero, PeerConfig.zero]
  endpoint h := absurd h (by simp [PeerEntry.zero, PeerConfig.zero])

theorem setPeer_wellFormed {key value : Bytes} {env : LoadEnv} {peer peer' : PeerEntry}
    (hpeer : peer.WellFormed) (h : setPeer key value env peer = .ok peer') : peer'.WellFormed := by
  unfold setPeer at h
  split at h
  · split at h
    · exact absurd h (by simp)
    · next pub hpub =>
      obtain rfl := Except.ok.inj h
      exact { hpeer with pub := hexToBytes_length hpub }
  · split at h
    · split at h
      · exact absurd h (by simp)
      · next host port hparse =>
        split at h
        · exact absurd h (by simp)
        · obtain rfl := Except.ok.inj h
          obtain ⟨hhost, hport⟩ := parseEndpoint_ok hparse
          exact { hpeer with endpoint := fun _ => ⟨by simpa using hhost, hport⟩ }
    · obtain rfl := Except.ok.inj h
      exact hpeer

theorem addRoute_wellFormed {value : Bytes} {peer peer' : PeerEntry} (hpeer : peer.WellFormed)
    (h : addRoute inetPton value peer = .ok peer') : peer'.WellFormed := by
  unfold addRoute at h
  split at h
  · exact absurd h (by simp)
  · next hroom =>
    split at h
    · exact absurd h (by simp)
    · next route hparse =>
      obtain rfl := Except.ok.inj h
      refine { hpeer with routes_length := ?_, routes := ?_ }
      · rw [List.length_append, List.length_singleton]
        omega
      · intro r hr
        rcases List.mem_append.mp hr with hr | hr
        · exact hpeer.routes r hr
        · rw [List.mem_singleton.mp hr]
          exact parseCidr_wellFormed hparse

theorem updateLast_wellFormed {peers peers' : List PeerEntry}
    {f : PeerEntry → Except LoadError PeerEntry}
    (hf : ∀ {peer peer'}, peer.WellFormed → f peer = .ok peer' → peer'.WellFormed)
    (h : updateLast peers f = .ok peers') (hpeers : ∀ peer ∈ peers, peer.WellFormed) :
    ∀ peer ∈ peers', peer.WellFormed := by
  intro peer' hpeer'
  obtain ⟨k, hk⟩ := List.mem_iff_getElem?.mp hpeer'
  rcases (updateLast_ok h).2 k peer' hk with hold | ⟨-, peer, hold, hset⟩
  · exact hpeers peer' (List.mem_of_getElem? hold)
  · exact hf (hpeers peer (List.mem_of_getElem? hold)) hset

/-- **Step**: every event leaves the entries in order. -/
theorem PeersStep.wellFormed {l : Loader} {ev : YamlEvent} {env : LoadEnv} {peers : List PeerEntry}
    (h : PeersStep inetPton l ev env peers) (hl : ∀ peer ∈ l.peers, peer.WellFormed) :
    ∀ peer ∈ peers, peer.WellFormed := by
  cases h with
  | keep => exact hl
  | new =>
    rw [List.forall_mem_append, List.forall_mem_singleton]
    exact ⟨hl, PeerEntry.zero_wellFormed⟩
  | set h => exact updateLast_wellFormed setPeer_wellFormed h hl
  | route _ h => exact updateLast_wellFormed addRoute_wellFormed h hl

theorem loadEvents_wellFormed (events : List (YamlEvent × LoadEnv)) {l l' : Loader}
    (h : loadEvents inetPton l events = .ok l') (hl : ∀ peer ∈ l.peers, peer.WellFormed) :
    ∀ peer ∈ l'.peers, peer.WellFormed := by
  induction events generalizing l with
  | nil => exact absurd h (by simp [loadEvents])
  | cons e rest ih =>
    rw [loadEvents] at h
    split at h
    · exact absurd h (by simp)
    · next l₁ hstep =>
      have hl₁ := (loadStep_peers hstep).wellFormed hl
      split at h
      · obtain rfl := Except.ok.inj h
        exact hl₁
      · exact ih h hl₁

/-- Every entry of every stream of events that `load_config` accepts, of whatever shape: a key
of 32 bytes, at most 16 routes, each the network of a prefix of 0 to 32 bits, and for an
endpoint a host and a port from 1 to 65535. -/
theorem loadConfig_wellFormed {events : List (YamlEvent × LoadEnv)} {l : Loader}
    (h : loadConfig inetPton events = .ok l) : ∀ peer ∈ l.peers, peer.WellFormed :=
  loadEvents_wellFormed events h (by simp)

namespace Sample

/-- A peer with an endpoint and a route. -/
def routedFile : List (YamlEvent × LoadEnv) :=
  [.streamStart, .documentStart, .mappingStart,
    .scalar (ascii "peers"), .sequenceStart, .mappingStart,
    .scalar (ascii "public_key"), .scalar (List.replicate 32 (ascii "02")).flatten,
    .scalar (ascii "endpoint"), .scalar (ascii "relay:5040"),
    .scalar (ascii "allowed_ips"), .sequenceStart, .scalar (ascii "10.9.0.2/24"), .sequenceEnd,
    .mappingEnd, .sequenceEnd, .mappingEnd, .documentEnd, .streamEnd].map
  fun ev => (ev, ⟨[], some ⟨0x0a000001, 5040⟩⟩)

def routedPeer : PeerEntry where
  pub := crypto.publicKey 2
  routes := [⟨0x0a090000, 0xffffff00, 24⟩]
  hasEndpoint := true
  endpoint := ⟨0x0a000001, 5040⟩
  lastAttempt := 0
  endpointHost := ascii "relay"
  endpointPort := 5040

end Sample

open Sample in
theorem loadConfig_wellFormed_routed : ∃ l, loadConfig Ipv4.pton routedFile = .ok l ∧
    l.peers = [routedPeer] ∧ ∀ peer ∈ l.peers, peer.WellFormed := by
  have hload : loadConfig Ipv4.pton routedFile =
      .ok ⟨.root, ascii "peers", ascii "allowed_ips", {}, [routedPeer]⟩ := by decide +kernel
  exact ⟨_, hload, rfl, loadConfig_wellFormed hload⟩

-- ════════════════════════════════════════════════════════════════════════
-- The program
-- ════════════════════════════════════════════════════════════════════════

/-- What the program finds when it is started. -/
structure Host (Priv : Type) where
  /-- the events of the configuration file; `none` if it cannot be opened or the parser
  cannot be set up -/
  config : Option (List (YamlEvent × LoadEnv))
  /-- the private key in the PEM file of a name; `none` if there is none, or its public key
  cannot be extracted -/
  keyFile : Bytes → Option Priv
  /-- whether `open_tunnel` succeeds for an interface -/
  openTunnel : Bytes → Bool
  /-- whether `socket` and `bind` succeed -/
  socket : Bool
  bind : Bool
  /-- the key pair that the first `refresh_precomp_eph` generates -/
  eph : Option Priv

/-- Where `main` and `start_peer` exit with `EXIT_FAILURE`. -/
inductive StartError
  /-- `load_config` fails; `none` if the file cannot be read at all -/
  | loadConfig (reason : Option LoadError)
  | config (reason : ConfigError)
  | staticKey
  | tunnel
  | socket
  /-- `Config: invalid address: %s` -/
  | address (value : Bytes)
  | bind
deriving DecidableEq

variable {Priv Key : Type}

/-- `load_static_key`: the private key and its raw public key. -/
def loadStaticKey (C : Crypto Priv Key) (host : Host Priv) (path : Bytes) : Option (Priv × Bytes) :=
  (host.keyFile path).map fun key => (key, C.publicKey key)

/-- `derive_key` -/
def deriveKey (C : Crypto Priv Key) (psk : Bytes) : Key := C.sha256 psk

/-- `start_peer` up to the call of `event_loop`: the state the loop starts from. -/
def startPeer (inetPton : Bytes → Option (BitVec 32)) (host : Host Priv) (root : RootConfig)
    (configs : List PeerConfig) : Except StartError (PeerState Priv Key) :=
  if !host.openTunnel root.tunnel then .error .tunnel
  else if !host.socket then .error .socket
  else if root.address ≠ [] ∧ inetPton root.address = none then .error (.address root.address)
  else if !host.bind then .error .bind
  else .ok (PeerState.initial configs host.eph)

/-- `main`: the arguments of `event_loop` and the state it starts from. -/
def main (C : Crypto Priv Key) (inetPton : Bytes → Option (BitVec 32)) (host : Host Priv) :
    Except StartError (PeerParams Priv Key × PeerState Priv Key) :=
  match host.config with
  | none => .error (.loadConfig none)
  | some events =>
    match loadConfig inetPton events with
    | .error e => .error (.loadConfig (some e))
    | .ok l =>
      match validate l with
      | .error e => .error (.config e)
      | .ok () =>
        match loadStaticKey C host l.root.keyfile with
        | none => .error .staticKey
        | some (staticKey, staticPub) =>
          let psk := if l.root.hasPsk then some (deriveKey C l.root.psk) else none
          (startPeer inetPton host l.root l.configs).map fun st =>
            (⟨staticKey, staticPub, psk, l.root.settings⟩, st)

/-- The settings that `main` lets pass. -/
structure Settings.Valid (settings : Settings) : Prop where
  keepaliveInterval : 0 < settings.keepaliveInterval
  rekeyAfter : 0 < settings.rekeyAfter
  reconnectInterval : 0 < settings.reconnectInterval
  sessionExpiry : settings.rekeyAfter < settings.sessionExpiry
  prevKeyGrace : 0 < settings.prevKeyGrace
  handshakeTimeout : 0 < settings.handshakeTimeout
  handshakeCooldown : 0 < settings.handshakeCooldown

/-- Arguments of `event_loop` that are in order: a key pair that belongs together, valid
settings, at least one and at most `MAX_PEERS` peers, each of them in order, and nothing
connected or pending. -/
structure Started (C : Crypto Priv Key) (P : PeerParams Priv Key) (st : PeerState Priv Key) :
    Prop where
  wellKeyed : P.WellKeyed C
  settings : P.settings.Valid
  peers : ∃ entries : List PeerEntry, entries ≠ [] ∧ entries.length ≤ maxPeers ∧
    (∀ peer ∈ entries, peer.WellFormed) ∧
    ∃ eph, st = PeerState.initial (entries.map PeerEntry.toPeerConfig) eph

/-- A check that was passed, and what comes after it. -/
theorem of_check {ε α : Type} {c : Prop} [Decidable c] {e : ε} {x : Except ε α} {a : α}
    (h : (if c then .error e else x) = .ok a) : ¬ c ∧ x = .ok a := by
  split at h
  · exact absurd h (by simp)
  · next hc => exact ⟨hc, h⟩

theorem validate_ok {l : Loader} (h : validate l = .ok ()) :
    l.peers ≠ [] ∧ l.root.settings.Valid := by
  unfold validate at h
  obtain ⟨-, h⟩ := of_check h
  obtain ⟨hpeers, h⟩ := of_check h
  obtain ⟨-, h⟩ := of_check h
  obtain ⟨hkeepalive, h⟩ := of_check h
  obtain ⟨hrekey, h⟩ := of_check h
  obtain ⟨hreconnect, h⟩ := of_check h
  obtain ⟨hexpiry, h⟩ := of_check h
  obtain ⟨hgrace, h⟩ := of_check h
  obtain ⟨htimeout, h⟩ := of_check h
  obtain ⟨hcooldown, -⟩ := of_check h
  exact ⟨hpeers, not_le.mp hkeepalive, not_le.mp hrekey, not_le.mp hreconnect, not_le.mp hexpiry,
    not_le.mp hgrace, not_le.mp htimeout, not_le.mp hcooldown⟩

theorem startPeer_ok {host : Host Priv} {root : RootConfig} {configs : List PeerConfig}
    {st : PeerState Priv Key} (h : startPeer inetPton host root configs = .ok st) :
    st = PeerState.initial configs host.eph := by
  unfold startPeer at h
  obtain ⟨-, h⟩ := of_check h
  obtain ⟨-, h⟩ := of_check h
  obtain ⟨-, h⟩ := of_check h
  obtain ⟨-, h⟩ := of_check h
  exact (Except.ok.inj h).symm

/-- Whatever the configuration file and the key file hold and whatever the system calls
return: if `main` gets to the event loop, it starts it with arguments that are in order. -/
theorem main_started {C : Crypto Priv Key} {host : Host Priv} {P : PeerParams Priv Key}
    {st : PeerState Priv Key} (h : main C inetPton host = .ok (P, st)) : Started C P st := by
  unfold main at h
  split at h
  · exact absurd h (by simp)
  · split at h
    · exact absurd h (by simp)
    · next l hload =>
      split at h
      · exact absurd h (by simp)
      · next hvalid =>
        split at h
        · exact absurd h (by simp)
        · next staticKey staticPub hkey =>
          obtain ⟨st', hstart, hargs⟩ := exists_of_map_eq_ok h
          obtain ⟨rfl, rfl⟩ := Prod.mk.inj hargs
          obtain ⟨hpeers, hsettings⟩ := validate_ok hvalid
          obtain ⟨key, -, hpair⟩ := Option.map_eq_some_iff.mp hkey
          obtain ⟨rfl, rfl⟩ := Prod.mk.inj hpair
          exact {
            wellKeyed := rfl
            settings := hsettings
            peers := ⟨l.peers, hpeers, by simpa [Loader.configs] using loadConfig_length_le hload,
              loadEvents_wellFormed _ hload (by simp), host.eph, startPeer_ok hstart⟩ }

variable [Inhabited Key]

/-- In every run of the program, from whatever files it was started, under a clock that does not
go back and while its keepalives leave: at a time `gap` seconds after the head of the current
round of the event loop, no pending handshake is past its timeout, and no active session is past
`session_expiry` or `keepalive_interval`, by `10 + gap` seconds or more. -/
theorem main_deadlines {C : Crypto Priv Key} {host : Host Priv} {P : PeerParams Priv Key}
    {st₀ : PeerState Priv Key} (hmain : main C inetPton host = .ok (P, st₀)) {t₀ : Time}
    (ht₀ : 0 < t₀) (passes : List (Pass Priv)) (p : Pass Priv) (hgoes : ∀ q ∈ passes, ¬ q.Fails)
    (hstop : p.stop = false) (xs : List (Input Priv × Time))
    (hxs : xs.map Prod.fst = (Machine.readUntil Pass.reads (passes ++ [p])).1)
    (hclock : Machine.Guarded (clockStep C P)
      (fun c x => x.1.Within c.2 x.2 ∧ KeepalivesLeave C x.1) (st₀, t₀) xs) :
    let st := (eventLoop C P st₀ (passes ++ [p])).1.1
    ∀ t gap, t - p.now ≤ gap →
      (∀ q ∈ st.pending, q.active = true →
        t - q.sentAt < P.settings.handshakeTimeout + (10 + gap)) ∧
      ∀ s ∈ st.sessions, s.active = true →
        t - s.expiryRef < P.settings.sessionExpiry + (10 + gap) ∧
        t - s.lastSent < P.settings.keepaliveInterval + (10 + gap) := by
  obtain ⟨-, hsettings, entries, -, -, -, eph, rfl⟩ := main_started hmain
  have hexpiry : 0 ≤ P.settings.sessionExpiry :=
    (hsettings.rekeyAfter.trans hsettings.sessionExpiry).le
  exact loop_deadlines hexpiry hsettings.keepaliveInterval _ eph ht₀ passes p hgoes hstop xs hxs
    hclock

namespace Sample

/-- The smallest file that `main` accepts: an interface, and peer 2. -/
def smallFile : List (YamlEvent × LoadEnv) :=
  [.streamStart, .documentStart, .mappingStart,
    .scalar (ascii "interface"), .scalar (ascii "tun0"),
    .scalar (ascii "peers"), .sequenceStart, .mappingStart,
    .scalar (ascii "public_key"), .scalar (List.replicate 32 (ascii "02")).flatten,
    .mappingEnd, .sequenceEnd, .mappingEnd, .documentEnd, .streamEnd].map
  fun ev => (ev, ⟨[], none⟩)

/-- A host on which everything succeeds. -/
def smallHost : Host UInt8 := ⟨some smallFile, fun _ => some 1, fun _ => true, true, true, some 4⟩

/-- Peer 2 as it is configured there. -/
def smallPeer : PeerConfig := ⟨crypto.publicKey 2, [], false, ⟨0, 0⟩, 0⟩

/-- What `load_config` makes of the file. -/
def smallLoaded : Loader where
  key := ascii "peers"
  peerKey := ascii "public_key"
  root := { tunnel := ascii "tun0" }
  peers := [⟨smallPeer, [], 0⟩]

theorem main_smallHost : main crypto Ipv4.pton smallHost =
    .ok (params 1, PeerState.initial [smallPeer] (some 4)) := by
  have hload : loadConfig Ipv4.pton smallFile = .ok smallLoaded := by decide +kernel
  have hvalid : validate smallLoaded = .ok () := by decide +kernel
  simp only [main, smallHost, hload, hvalid, loadStaticKey, Option.map_some]
  rfl

/-- A round at a time, with what `epoll_wait` returns in it. -/
def passAt (now : Time) (poll : Poll UInt8) : Pass UInt8 :=
  ⟨false, now, fun _ => ⟨none, some 11, true, now, now⟩, fun _ => sendEnv now, poll⟩

/-- Peer 2 connects in a round at second 100. -/
def connectingPass : Pass UInt8 :=
  passAt 100 (.ready [.sock (some (addr 2, initiation 2 1 10)) 100 (recvEnv 100 20)])

/-- What that round and one at second 130 read. -/
def connectingInputs : List (Input UInt8 × Time) := [
  (tickAt 100 11, 100),
  (.udpRecv (addr 2) (recvfrom (initiation 2 1 10)) 100 (recvEnv 100 20), 100),
  (tickAt 130 11, 130)]

theorem connectingInputs_clock : Machine.Guarded (clockStep crypto (params 1))
    (fun c x => x.1.Within c.2 x.2 ∧ KeepalivesLeave crypto x.1)
    (PeerState.initial [smallPeer] (some 4), 90) connectingInputs := by
  refine ⟨⟨tickAt_within (by decide) 11, keepalivesLeave_tickAt 100 11⟩,
    ⟨⟨?_, ⟨le_rfl, le_rfl, le_rfl, le_rfl, le_rfl⟩, le_rfl, le_rfl⟩, trivial⟩,
    ⟨tickAt_within (by decide) 11, keepalivesLeave_tickAt 130 11⟩, trivial⟩
  show (100 : ℤ) ≤ 100
  decide

end Sample

open Sample in
/-- Five seconds after the head of the round at second 130. -/
theorem main_deadlines_small :
    let st := (eventLoop crypto (params 1) (PeerState.initial [smallPeer] (some 4))
      ([connectingPass] ++ [passAt 130 .interrupted])).1.1
    st.sessions.map PeerSession.active = [true] ∧
      ∀ s ∈ st.sessions, s.active = true → 135 - s.lastSent < 25 + (10 + 5) := by
  intro st
  refine ⟨by decide +kernel, fun s hs ha => ?_⟩
  have hgoes : ∀ q ∈ [connectingPass], ¬ q.Fails := by
    simp [Pass.Fails, connectingPass, passAt, Ready.Fails]
  exact ((main_deadlines main_smallHost (by decide) [connectingPass] (passAt 130 .interrupted)
    hgoes rfl connectingInputs rfl connectingInputs_clock 135 5 (by decide +kernel)).2 s hs ha).2

end LaneCove
