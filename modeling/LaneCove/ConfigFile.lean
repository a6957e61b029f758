import LaneCove.Document
import LaneCove.Foundations.Numerals
import LaneCove.Hex
import LaneCove.Startup

/-!
# Writing a configuration down

The other direction of `load_config`: a configuration is written as a document, its key in
hexadecimal, its endpoints as `host:port`, its routes in CIDR notation. `load_config` gives the
configuration back: it loses nothing that fits into its buffers, and every table of peers that
fit is one that a file can set up.

## Main definitions

- `RootConfig.Fits`, `PeerEntry.Fits` — what can be written down
- `writeConfig` — the document

## Main results

- `entryOf_writePeer` — the mapping of a peer means its entry
- `eq_of_rootMeans` — the settings mean themselves
- `loadConfig_writeConfig` — the document is loaded as the configuration
-/

namespace LaneCove

open CString

-- ════════════════════════════════════════════════════════════════════════
-- The document
-- ════════════════════════════════════════════════════════════════════════

/-- A string that a buffer of `n + 1` bytes holds. -/
def IsText (n : ℕ) (s : Bytes) : Prop := s.length ≤ n ∧ 0 ∉ s

instance (n : ℕ) (s : Bytes) : Decidable (IsText n s) := inferInstanceAs (Decidable (_ ∧ _))

/-- A value of type `int`. -/
def IsInt (n : ℤ) : Prop := -2 ^ 31 ≤ n ∧ n < 2 ^ 31

instance (n : ℤ) : Decidable (IsInt n) := inferInstanceAs (Decidable (_ ∧ _))

/-- The settings fit into the variables of `main`. -/
structure RootConfig.Fits (root : RootConfig) : Prop where
  tunnel : IsText 15 root.tunnel
  address : IsText 63 root.address
  keyfile : IsText 255 root.keyfile
  psk : IsText 255 root.psk
  hasPsk : root.hasPsk = false → root.psk = []
  port : IsInt root.port
  keepaliveInterval : IsInt root.settings.keepaliveInterval
  rekeyAfter : IsInt root.settings.rekeyAfter
  reconnectInterval : IsInt root.settings.reconnectInterval
  sessionExpiry : IsInt root.settings.sessionExpiry
  prevKeyGrace : IsInt root.settings.prevKeyGrace
  handshakeTimeout : IsInt root.settings.handshakeTimeout
  handshakeCooldown : IsInt root.settings.handshakeCooldown

def writeEndpoint (peer : PeerEntry) : Bytes :=
  peer.endpointHost ++ 58 :: printInt peer.endpointPort

def writeRoute (route : IpPrefix) : Bytes :=
  Ipv4.ntop route.network ++ 47 :: printNat route.prefixLen.toNat

/-- The entry is well formed, its endpoint fits into the buffer it is copied to, and what the
file does not set is zero. -/
structure PeerEntry.Fits (peer : PeerEntry) : Prop extends peer.WellFormed where
  host : 0 ∉ peer.endpointHost
  endpoint_length : peer.hasEndpoint = true → (writeEndpoint peer).length < 255
  no_endpoint : peer.hasEndpoint = false → peer.endpoint = ⟨0, 0⟩ ∧ peer.endpointHost = [] ∧
    peer.endpointPort = 0
  lastAttempt : peer.lastAttempt = 0

/-- A scalar for which nothing is resolved. -/
def plain (value : Bytes) : Scalar := ⟨value, ⟨[], none⟩⟩

/-- The text of a setting. -/
def Setting.write (root : RootConfig) (s : Setting) : Bytes :=
  match s.get root with
  | .inl text => text
  | .inr n => printInt n

/-- The settings that are written: all but a pre-shared key that there is not. -/
def writtenSettings (root : RootConfig) : List Setting :=
  allSettings.filter fun s => s ≠ .preSharedKey || root.hasPsk

/-- The mapping of a peer. `memory` is what lies behind the endpoint buffer; for its endpoint,
`resolve_endpoint` returns the address of the peer. -/
def writePeer (memory : Bytes) (peer : PeerEntry) : List PeerField :=
  .scalar (plain (ascii "public_key")) (plain (peer.pub.flatMap printHex2)) ::
    ((if peer.hasEndpoint then
        [.scalar (plain (ascii "endpoint")) ⟨writeEndpoint peer, ⟨memory, some peer.endpoint⟩⟩]
      else []) ++
      [.allowedIps (plain (ascii "allowed_ips")) rfl
        (peer.routes.map fun route => plain (writeRoute route))])

/-- The settings, `verbose` if it is on, and the peers. -/
def writeConfig (memory : Bytes) (root : RootConfig) (peers : List PeerEntry) : List RootField :=
  ((writtenSettings root).map fun s => .scalar (plain (ascii s.key)) (plain (s.write root))) ++
    ((if root.verbose then [.scalar (plain (ascii "verbose")) (plain (ascii "true"))] else []) ++
      [.peers (plain (ascii "peers")) rfl (peers.map (writePeer memory))])

-- ════════════════════════════════════════════════════════════════════════
-- Values
-- ════════════════════════════════════════════════════════════════════════

theorem ofBuffer_of_notMem {s : Bytes} (h : 0 ∉ s) : ofBuffer s = s := by
  rw [ofBuffer, List.takeWhile_eq_self_iff]
  intro b hb
  simpa using fun he : b = 0 => h (he ▸ hb)

theorem text_plain {value : Bytes} (h : 0 ∉ value) : (plain value).text = value :=
  ofBuffer_of_notMem h

theorem IsText.take {n : ℕ} {s : Bytes} (h : IsText n s) : s.take n = s :=
  List.take_of_length_le h.1

theorem IsInt.atoi {n : ℤ} (h : IsInt n) : atoi (printInt n) = n := atoi_printInt h.1 h.2

variable {inetPton : Bytes → Option (BitVec 32)}

theorem hexToBytes_printed {pub : Bytes} (h : pub.length = dhPubkeyLen) :
    hexToBytes (pub.flatMap printHex2) dhPubkeyLen = some pub := by
  have hlen : (pub.flatMap printHex2).length = dhPubkeyLen * 2 := by
    simp [List.length_flatMap, printHex2, h]
  have hloop := hexLoop_printed pub []
  rw [List.append_nil, h] at hloop
  rw [hexToBytes, hlen, if_neg (by simp), hloop]

theorem hexToBytes_writeKey {pub : Bytes} (h : pub.length = dhPubkeyLen) :
    hexToBytes (plain (pub.flatMap printHex2)).text dhPubkeyLen = some pub := by
  rw [text_plain (by simp [zero_notMem_printHex2]), hexToBytes_printed h]

theorem zero_notMem_writeEndpoint {peer : PeerEntry} (h : 0 ∉ peer.endpointHost) :
    0 ∉ writeEndpoint peer := by
  simp [writeEndpoint, h, zero_notMem_printInt]

theorem zero_notMem_writeRoute (route : IpPrefix) : 0 ∉ writeRoute route := by
  have haddr := Ipv4.notMem_ntop (b := 0) (by decide) (by decide) route.network
  have hlen := notMem_printNat (b := 0) (by decide) route.prefixLen.toNat
  simp [writeRoute, haddr, hlen]

theorem parseEndpoint_writeEndpoint {peer : PeerEntry} (h : peer.Fits)
    (hend : peer.hasEndpoint = true) (memory : Bytes) :
    parseEndpoint (writeEndpoint peer) memory = .ok (peer.endpointHost, peer.endpointPort) := by
  obtain ⟨hhost, hpos, hle⟩ := h.endpoint hend
  have hcolon : 58 ∉ printInt peer.endpointPort := by
    rw [printInt, if_neg (by omega)]
    exact notMem_printNat (by decide) _
  have hport : atoi (printInt peer.endpointPort) = peer.endpointPort :=
    atoi_printInt (by omega) (by omega)
  have hlen := h.endpoint_length hend
  rw [parseEndpoint, endpointBuf, if_pos hlen, writeEndpoint, strrchr_append hcolon]
  simp only [hport]
  rw [if_neg hhost, if_neg (by simp; omega)]

theorem parseCidr_writeRoute (hpton : ∀ addr, inetPton (Ipv4.ntop addr) = some addr)
    {route : IpPrefix} (h : route.WellFormed) :
    parseCidr inetPton (writeRoute route) = some route := by
  obtain ⟨⟨hnonneg, hle⟩, hmask, hnet⟩ := h
  have hlen : (writeRoute route).length ≤ 31 := by
    have haddr := Ipv4.length_ntop_le route.network
    have hnat : (printNat route.prefixLen.toNat).length ≤ 2 := length_printNat_le (by omega)
    simp only [writeRoute, List.length_append, List.length_cons]
    omega
  have hnum : atoi (printNat route.prefixLen.toNat) = route.prefixLen := by
    rw [atoi_printNat (by omega)]
    omega
  have hparts : cidrParts inetPton (writeRoute route) = some (route.network, route.prefixLen) := by
    rw [cidrParts, List.take_of_length_le hlen, writeRoute,
      strchr_append (Ipv4.notMem_ntop (by decide) (by decide) _)]
    simp only [hnum, hpton, Option.map_some]
    rw [if_neg (by simp; omega)]
  rw [parseCidr, hparts, Option.map_some, ← hmask, hnet]

-- ════════════════════════════════════════════════════════════════════════
-- Peers
-- ════════════════════════════════════════════════════════════════════════

theorem routes_writePeer (hpton : ∀ addr, inetPton (Ipv4.ntop addr) = some addr)
    {routes : List IpPrefix} (h : ∀ route ∈ routes, route.WellFormed) :
    ((routes.map fun route => plain (writeRoute route)).filterMap fun s : Scalar =>
      parseCidr inetPton s.text) = routes := by
  rw [List.filterMap_map]
  conv_rhs => rw [← List.filterMap_some (l := routes)]
  refine List.filterMap_congr fun route hroute => ?_
  rw [Function.comp_apply, text_plain (zero_notMem_writeRoute route),
    parseCidr_writeRoute hpton (h route hroute)]

theorem public_keys_writePeer (memory : Bytes) (peer : PeerEntry) :
    (writePeer memory peer).filterMap (PeerField.valueFor (ascii "public_key")) =
      [plain (peer.pub.flatMap printHex2)] := by
  have hkey : (plain (ascii "public_key")).text = ascii "public_key" := rfl
  have hne : (plain (ascii "endpoint")).text ≠ ascii "public_key" := by decide
  cases hend : peer.hasEndpoint <;>
    simp [writePeer, PeerField.valueFor, hkey, hne, hend, List.filterMap_cons]

theorem endpoints_writePeer (memory : Bytes) (peer : PeerEntry) :
    (writePeer memory peer).filterMap (PeerField.valueFor (ascii "endpoint")) =
      if peer.hasEndpoint then [⟨writeEndpoint peer, ⟨memory, some peer.endpoint⟩⟩] else [] := by
  have hkey : (plain (ascii "endpoint")).text = ascii "endpoint" := rfl
  have hne : (plain (ascii "public_key")).text ≠ ascii "endpoint" := by decide
  cases hend : peer.hasEndpoint <;>
    simp [writePeer, PeerField.valueFor, hkey, hne, hend, List.filterMap_cons]

theorem cidrs_writePeer (memory : Bytes) (peer : PeerEntry) :
    cidrs (writePeer memory peer) = peer.routes.map fun route => plain (writeRoute route) := by
  cases hend : peer.hasEndpoint <;> simp [cidrs, writePeer, PeerField.cidrs, hend]

theorem endpointOf_writeEndpoint {peer : PeerEntry} (h : peer.Fits)
    (hend : peer.hasEndpoint = true) (env : LoadEnv) :
    endpointOf ⟨writeEndpoint peer, env⟩ = some (peer.endpointHost, peer.endpointPort) := by
  rw [endpointOf, Scalar.text, ofBuffer_of_notMem (zero_notMem_writeEndpoint h.host),
    parseEndpoint_writeEndpoint h hend]
  rfl

/-- **A peer**: its mapping means its entry. -/
theorem entryOf_writePeer (hpton : ∀ addr, inetPton (Ipv4.ntop addr) = some addr) (memory : Bytes)
    {peer : PeerEntry} (h : peer.Fits) : entryOf inetPton (writePeer memory peer) = peer := by
  simp only [entryOf, lastOf, public_keys_writePeer, endpoints_writePeer, cidrs_writePeer,
    routes_writePeer hpton h.routes, List.getLast?_singleton, Option.bind_some,
    hexToBytes_writeKey h.pub, Option.getD_some]
  by_cases hend : peer.hasEndpoint = true
  · simp only [hend, if_true, List.getLast?_singleton, Option.bind_some,
      endpointOf_writeEndpoint h hend, Option.map_some, Option.getD_some, Option.isSome_some]
    rw [← h.lastAttempt, ← hend]
  · rw [Bool.not_eq_true] at hend
    have hzero := h.no_endpoint hend
    have hlast := h.lastAttempt
    obtain ⟨⟨pub, routes, hasEndpoint, endpoint, lastAttempt⟩, host, port⟩ := peer
    obtain ⟨rfl, rfl, rfl⟩ := hzero
    obtain rfl := hend
    obtain rfl := hlast
    rfl

/-- There is nothing wrong with it. -/
theorem fieldFaults_writePeer (hpton : ∀ addr, inetPton (Ipv4.ntop addr) = some addr)
    (memory : Bytes) {peer : PeerEntry} (h : peer.Fits) :
    fieldFaults inetPton 0 (writePeer memory peer) = [] := by
  rw [fieldFaults_eq_nil (Nat.zero_le _), Sound, cidrs_writePeer, public_keys_writePeer,
    endpoints_writePeer, List.length_map, Nat.zero_add]
  refine ⟨h.routes_length, ?_, ?_, ?_⟩
  · rw [List.forall_mem_map]
    intro route hroute
    rw [text_plain (zero_notMem_writeRoute route),
      parseCidr_writeRoute hpton (h.routes route hroute)]
    simp
  · rw [List.forall_mem_singleton, hexToBytes_writeKey h.pub]
    simp
  · split
    · next hend =>
      rw [List.forall_mem_singleton, endpointOf_writeEndpoint h hend]
      simp
    · simp

-- ════════════════════════════════════════════════════════════════════════
-- Settings
-- ════════════════════════════════════════════════════════════════════════

theorem Setting.read_write {root : RootConfig} (h : root.Fits) (s : Setting) :
    s.read (s.write root) = s.get root := by
  cases s <;> simp [Setting.read, Setting.write, Setting.get, h.tunnel.take, h.address.take,
    h.keyfile.take, h.psk.take, h.port.atoi, h.keepaliveInterval.atoi, h.rekeyAfter.atoi,
    h.reconnectInterval.atoi, h.sessionExpiry.atoi, h.prevKeyGrace.atoi, h.handshakeTimeout.atoi,
    h.handshakeCooldown.atoi]

theorem Setting.zero_notMem_write {root : RootConfig} (h : root.Fits) (s : Setting) :
    0 ∉ s.write root := by
  cases s <;> simp [Setting.write, Setting.get, h.tunnel.2, h.address.2, h.keyfile.2, h.psk.2,
    zero_notMem_printInt]

theorem Setting.text_key (s : Setting) : (plain (ascii s.key)).text = ascii s.key := by
  cases s <;> rfl

/-- The settings are all of the configuration but two flags. -/
theorem RootConfig.ext_settings {root root' : RootConfig}
    (h : ∀ s : Setting, s.get root = s.get root') (hpsk : root.hasPsk = root'.hasPsk)
    (hverbose : root.verbose = root'.verbose) : root = root' := by
  obtain ⟨tunnel, address, port, keyfile, psk, hasPsk, verbose, settings⟩ := root
  obtain ⟨tunnel', address', port', keyfile', psk', hasPsk', verbose', settings'⟩ := root'
  obtain rfl : tunnel = tunnel' := Sum.inl.inj (h .interface)
  obtain rfl : address = address' := Sum.inl.inj (h .address)
  obtain rfl : port = port' := Sum.inr.inj (h .port)
  obtain rfl : keyfile = keyfile' := Sum.inl.inj (h .privateKeyFile)
  obtain rfl : psk = psk' := Sum.inl.inj (h .preSharedKey)
  obtain rfl : hasPsk = hasPsk' := hpsk
  obtain rfl : verbose = verbose' := hverbose
  have hsettings : settings = settings' := by
    rw [Settings.mk.injEq]
    exact ⟨Sum.inr.inj (h .rekeyAfter), Sum.inr.inj (h .reconnectInterval),
      Sum.inr.inj (h .sessionExpiry), Sum.inr.inj (h .prevKeyGrace),
      Sum.inr.inj (h .handshakeTimeout), Sum.inr.inj (h .handshakeCooldown),
      Sum.inr.inj (h .keepaliveInterval)⟩
  rw [hsettings]

theorem mem_writtenSettings {root : RootConfig} {s : Setting} :
    s ∈ writtenSettings root ↔ s ≠ .preSharedKey ∨ root.hasPsk = true := by
  have hall : s ∈ allSettings := by cases s <;> decide
  simp [writtenSettings, hall]

/-- The value of a key that is given once. -/
theorem filterMap_eq_key {l : List Setting} (hl : l.Nodup) (s : Setting) (w : Setting → Bytes) :
    (l.filterMap fun s' => if s' = s then some (w s') else none) = if s ∈ l then [w s] else [] := by
  induction l with
  | nil => rfl
  | cons s' l ih =>
    rw [List.nodup_cons] at hl
    by_cases heq : s' = s
    · obtain rfl := heq
      simp [ih hl.2, hl.1]
    · simp [heq, ih hl.2, Ne.symm heq]

theorem values_setting {root : RootConfig} (h : root.Fits) (memory : Bytes)
    (peers : List PeerEntry) (s : Setting) :
    valuesOf (writeConfig memory root peers) s.key =
      if s ∈ writtenSettings root then [s.write root] else [] := by
  have hnodup : (writtenSettings root).Nodup := List.Nodup.filter _ (by decide)
  rw [← filterMap_eq_key hnodup]
  have hverbose : (plain (ascii "verbose")).text ≠ ascii s.key := s.verbose_ne
  have hvalue : ∀ s' : Setting, (plain (s'.write root)).text = s'.write root :=
    fun s' => text_plain (Setting.zero_notMem_write h s')
  cases hv : root.verbose <;>
    simp [valuesOf, writeConfig, List.filterMap_map, Function.comp_def, hv, RootField.valueFor,
      Setting.text_key, Setting.key_inj, hvalue, hverbose, List.filterMap_cons]

theorem values_verbose (memory : Bytes) (root : RootConfig) (peers : List PeerEntry) :
    valuesOf (writeConfig memory root peers) "verbose" =
      if root.verbose then [ascii "true"] else [] := by
  have hkey : (plain (ascii "verbose")).text = ascii "verbose" := rfl
  have htrue : (plain (ascii "true")).text = ascii "true" := rfl
  have hne : ∀ s : Setting, ascii s.key ≠ ascii "verbose" := fun s => s.verbose_ne.symm
  cases hv : root.verbose <;>
    simp [valuesOf, writeConfig, List.filterMap_map, Function.comp_def, hv, RootField.valueFor,
      Setting.text_key, hne, hkey, htrue, List.filterMap_cons]

/-- **Settings**: what is written of them means the configuration and no other. -/
theorem eq_of_rootMeans {root root' : RootConfig} (h : root.Fits) {memory : Bytes}
    {peers : List PeerEntry} (hmeans : RootMeans (writeConfig memory root peers) root') :
    root' = root := by
  refine RootConfig.ext_settings (fun s => ?_) ?_ ?_
  · rw [hmeans.setting s, values_setting h]
    split
    · rw [List.getLast?_singleton, Option.map_some, Option.getD_some, Setting.read_write h]
    · next hs =>
      rw [mem_writtenSettings, not_or, not_not, Bool.not_eq_true] at hs
      obtain ⟨rfl, hpsk⟩ := hs
      exact congrArg Sum.inl (h.hasPsk hpsk).symm
  · rw [hmeans.hasPsk]
    change (valuesOf (writeConfig memory root peers) Setting.preSharedKey.key).getLast?.isSome = _
    rw [values_setting h]
    simp only [mem_writtenSettings, ne_eq, not_true_eq_false, false_or]
    cases root.hasPsk <;> rfl
  · rw [hmeans.verbose, values_verbose]
    cases root.verbose <;> rfl

-- ════════════════════════════════════════════════════════════════════════
-- The whole document
-- ════════════════════════════════════════════════════════════════════════

theorem items_writeConfig (memory : Bytes) (root : RootConfig) (peers : List PeerEntry) :
    items (writeConfig memory root peers) = peers.map (writePeer memory) := by
  cases hv : root.verbose <;>
    simp [items, writeConfig, RootField.items, hv, List.flatMap_map]

theorem endpointsFit_writePeer (memory : Bytes) {peer : PeerEntry} (h : peer.Fits) :
    EndpointsFit (writePeer memory peer) := by
  rw [EndpointsFit, endpoints_writePeer]
  split
  · next hend =>
    rw [List.forall_mem_singleton, Scalar.text,
      ofBuffer_of_notMem (zero_notMem_writeEndpoint h.host)]
    exact h.endpoint_length hend
  · simp

/-- **Round trip.** Every configuration that fits, of at most `MAX_PEERS` peers, is what
`load_config` makes of the document it is written down as, whatever lies in memory behind the
buffers. -/
theorem loadConfig_writeConfig (hpton : ∀ addr, inetPton (Ipv4.ntop addr) = some addr)
    (memory : Bytes) {root : RootConfig} (hroot : root.Fits) {peers : List PeerEntry}
    (hpeers : ∀ peer ∈ peers, peer.Fits) (hlen : peers.length ≤ maxPeers) :
    ∃ l, loadConfig inetPton (documentEvents (writeConfig memory root peers)) = .ok l ∧
      l.root = root ∧ l.peers = peers := by
  have hitems := items_writeConfig memory root peers
  have hfit : ∀ item ∈ items (writeConfig memory root peers), EndpointsFit item := by
    rw [hitems, List.forall_mem_map]
    exact fun peer hpeer => endpointsFit_writePeer memory (hpeers peer hpeer)
  have hfaults : itemFaults inetPton 0 (items (writeConfig memory root peers)) = [] := by
    rw [itemFaults_eq_nil (Nat.zero_le _), hitems, List.length_map, List.forall_mem_map]
    exact ⟨by omega, fun peer hpeer => fieldFaults_writePeer hpton memory (hpeers peer hpeer)⟩
  have hentries : (items (writeConfig memory root peers)).map (entryOf inetPton) = peers := by
    rw [hitems, List.map_map]
    conv_rhs => rw [← List.map_id peers]
    exact List.map_congr_left fun peer hpeer => entryOf_writePeer hpton memory (hpeers peer hpeer)
  obtain ⟨k, pk, root', hmeans, hload⟩ :=
    loadAll_root inetPton [] [] (writeConfig memory root peers) [] hfit rootMeans_nil
  obtain rfl := eq_of_rootMeans hroot hmeans
  rw [List.nil_append, hentries] at hload
  change loadAll inetPton {} _ = outcome (itemFaults inetPton 0 _) _ at hload
  rw [hfaults] at hload
  refine ⟨⟨.root, k, pk, root', peers⟩, ?_, rfl, rfl⟩
  have hinside : ∀ e ∈ (writeConfig memory root' peers).flatMap RootField.events,
      e.1 ≠ .streamEnd := by
    intro e he
    obtain ⟨field, -, hfield⟩ := List.mem_flatMap.mp he
    exact field.events_inside e hfield
  rw [documentEvents, loadConfig_fileEvents hinside, hload]
  rfl

namespace Sample

/-- A peer with an endpoint and two routes, and one that is only listened to. -/
def writtenPeers : List PeerEntry :=
  [⟨⟨List.replicate 32 7, [⟨0x0a090000, 0xffff0000, 16⟩, ⟨0xc0a80101, 0xffffffff, 32⟩], true,
      ⟨0x7f000001, 5040⟩, 0⟩, ascii "relay.example", 5040⟩,
    ⟨⟨List.replicate 32 9, [⟨0, 0, 0⟩], false, ⟨0, 0⟩, 0⟩, [], 0⟩]

def writtenRoot : RootConfig := { tunnel := ascii "tun0", psk := ascii "secret", hasPsk := true }

theorem writtenRoot_fits : writtenRoot.Fits := by
  constructor <;> decide

theorem writtenPeers_fit : ∀ peer ∈ writtenPeers, peer.Fits := by
  have hroute : ∀ route ∈ [(⟨0x0a090000, 0xffff0000, 16⟩ : IpPrefix),
      ⟨0xc0a80101, 0xffffffff, 32⟩, ⟨0, 0, 0⟩], route.WellFormed := by
    intro route hroute
    simp only [List.mem_cons, List.not_mem_nil, or_false] at hroute
    rcases hroute with rfl | rfl | rfl <;> exact ⟨by decide, by decide, by decide⟩
  simp only [writtenPeers, List.forall_mem_cons, List.not_mem_nil, false_imp_iff, implies_true,
    and_true]
  constructor
  · refine ⟨⟨rfl, by decide, ?_, fun _ => by decide⟩, by decide, fun _ => ?_, by decide, rfl⟩
    · intro route h
      exact hroute route (by simp_all; tauto)
    · simp [writeEndpoint, printInt, printNat, ascii]
  · refine ⟨⟨rfl, by decide, ?_, by decide⟩, by decide, by decide, fun _ => by decide, rfl⟩
    intro route h
    exact hroute route (by simp_all)

end Sample

open Sample in
/-- Two peers, with a pre-shared key. -/
theorem loadConfig_writeConfig_two :
    ∃ l, loadConfig Ipv4.pton (documentEvents (writeConfig [] writtenRoot writtenPeers)) = .ok l ∧
      l.root = writtenRoot ∧ l.peers = writtenPeers :=
  loadConfig_writeConfig Ipv4.pton_ntop [] writtenRoot_fits writtenPeers_fit (by decide)

end LaneCove
