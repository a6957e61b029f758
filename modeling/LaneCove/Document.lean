import LaneCove.Config
import LaneCove.Foundations.Numerals

/-!
# The meaning of a configuration file

A configuration file of the documented shape is a mapping of settings in which
`peers` is a list of mappings, and in these `allowed_ips` is a list. Here such a
document is a tree, with a meaning of its own: the faults in it, and for each
setting and each peer the last value given. `load_config` does not build the tree.
It keeps no stack either, only a state and the last keys read.

## Main definitions

- `RootField`, `PeerField` — documents as trees, and `documentEvents` for them
- `faults`, `Faulty` — what is wrong with a document, in document order
- `entryOf`, `Setting`, `RootMeans` — what a document says
- `loadAll` — the loop of `load_config` on a part of the events
- `outcome` — the first fault, or else a result

## Main results

- `loadAll_field`, `loadAll_item`, `loadAll_root` — the loop on each kind of subtree
- `loadConfig_meaning` — `load_config` computes the meaning of the document
-/

namespace LaneCove

open CString

-- ════════════════════════════════════════════════════════════════════════
-- Documents
-- ════════════════════════════════════════════════════════════════════════

/-- A scalar, with what the environment decides while it is handled. -/
structure Scalar where
  value : Bytes
  env : LoadEnv

/-- The scalar read as a C string. -/
def Scalar.text (s : Scalar) : Bytes := ofBuffer s.value

/-- An entry of the mapping of a peer. -/
inductive PeerField
  | scalar (key value : Scalar)
  | allowedIps (key : Scalar) (hkey : key.text = ascii "allowed_ips") (cidrs : List Scalar)

/-- An entry of the root mapping. -/
inductive RootField
  | scalar (key value : Scalar)
  | peers (key : Scalar) (hkey : key.text = ascii "peers") (items : List (List PeerField))

/-- The environment decides nothing while other events are handled. -/
def mark (ev : YamlEvent) : YamlEvent × LoadEnv := (ev, ⟨[], none⟩)

/-- An event with the part of the environment it depends on. -/
def relevant : YamlEvent × LoadEnv → YamlEvent × LoadEnv
  | (.scalar value, env) => (.scalar value, env)
  | (ev, _) => mark ev

def Scalar.event (s : Scalar) : YamlEvent × LoadEnv := (.scalar s.value, s.env)

def PeerField.events : PeerField → List (YamlEvent × LoadEnv)
  | .scalar key value => [key.event, value.event]
  | .allowedIps key _ cidrs =>
    key.event :: mark .sequenceStart :: (cidrs.map Scalar.event ++ [mark .sequenceEnd])

def itemEvents (item : List PeerField) : List (YamlEvent × LoadEnv) :=
  mark .mappingStart :: (item.flatMap PeerField.events ++ [mark .mappingEnd])

def RootField.events : RootField → List (YamlEvent × LoadEnv)
  | .scalar key value => [key.event, value.event]
  | .peers key _ items =>
    key.event :: mark .sequenceStart :: (items.flatMap itemEvents ++ [mark .sequenceEnd])

/-- The events of a file whose root is a mapping with these events inside. -/
def fileEvents (body : List (YamlEvent × LoadEnv)) : List (YamlEvent × LoadEnv) :=
  mark .streamStart :: mark .documentStart :: mark .mappingStart ::
    (body ++ [mark .mappingEnd, mark .documentEnd, mark .streamEnd])

/-- The events of a file that holds the document. -/
def documentEvents (doc : List RootField) : List (YamlEvent × LoadEnv) :=
  fileEvents (doc.flatMap RootField.events)

-- ════════════════════════════════════════════════════════════════════════
-- Their meaning
-- ════════════════════════════════════════════════════════════════════════

/-- The value of the entry, if it is one for this key. -/
def PeerField.valueFor (key : Bytes) : PeerField → Option Scalar
  | .scalar k value => if k.text = key then some value else none
  | .allowedIps .. => none

def PeerField.cidrs : PeerField → List Scalar
  | .scalar .. => []
  | .allowedIps _ _ cidrs => cidrs

/-- All CIDRs of a peer. -/
def cidrs (item : List PeerField) : List Scalar := item.flatMap PeerField.cidrs

/-- The last value given for a key of a peer. -/
def lastOf (item : List PeerField) (key : String) : Option Scalar :=
  (item.filterMap (PeerField.valueFor (ascii key))).getLast?

/-- Host and port of an endpoint, if it has this form. -/
def endpointOf (s : Scalar) : Option (Bytes × ℤ) := (parseEndpoint s.text []).toOption

/-- What the mapping of a peer says. -/
def entryOf (inetPton : Bytes → Option (BitVec 32)) (item : List PeerField) : PeerEntry where
  pub := ((lastOf item "public_key").bind fun s => hexToBytes s.text dhPubkeyLen).getD zeroKey32
  routes := (cidrs item).filterMap fun s => parseCidr inetPton s.text
  hasEndpoint := (lastOf item "endpoint").isSome
  endpoint := ((lastOf item "endpoint").bind fun s => s.env.resolved).getD ⟨0, 0⟩
  lastAttempt := 0
  endpointHost := (((lastOf item "endpoint").bind endpointOf).map Prod.fst).getD []
  endpointPort := (((lastOf item "endpoint").bind endpointOf).map Prod.snd).getD 0

/-- What is wrong with an endpoint: its form, or the host is not found. -/
def endpointFaults (s : Scalar) : List LoadError :=
  match parseEndpoint s.text [] with
  | .error e => [e]
  | .ok (host, _) => if s.env.resolved.isNone then [.endpointHost host] else []

/-- What is wrong with a scalar of a peer. -/
def scalarFaults (key value : Scalar) : List LoadError :=
  if key.text = ascii "public_key" then
    if (hexToBytes value.text dhPubkeyLen).isNone then [.publicKey value.text] else []
  else if key.text = ascii "endpoint" then endpointFaults value
  else []

/-- What is wrong with a CIDR that comes after `n` others. -/
def cidrFault (inetPton : Bytes → Option (BitVec 32)) (n : ℕ) (s : Scalar) : List LoadError :=
  if maxRoutesPerPeer ≤ n then [.tooManyAllowedIps]
  else if (parseCidr inetPton s.text).isNone then [.cidr s.text] else []

/-- What is wrong with CIDRs that come after `n` others. -/
def cidrFaults (inetPton : Bytes → Option (BitVec 32)) : ℕ → List Scalar → List LoadError
  | _, [] => []
  | n, s :: rest => cidrFault inetPton n s ++ cidrFaults inetPton (n + 1) rest

/-- What is wrong with an entry of a peer that comes after `n` CIDRs. -/
def PeerField.faults (inetPton : Bytes → Option (BitVec 32)) (n : ℕ) : PeerField → List LoadError
  | .scalar key value => scalarFaults key value
  | .allowedIps _ _ cidrs => cidrFaults inetPton n cidrs

/-- What is wrong with entries of a peer that come after `n` CIDRs. -/
def fieldFaults (inetPton : Bytes → Option (BitVec 32)) : ℕ → List PeerField → List LoadError
  | _, [] => []
  | n, field :: rest =>
    field.faults inetPton n ++ fieldFaults inetPton (n + field.cidrs.length) rest

/-- What is wrong with peers that come after `n` others. -/
def itemFaults (inetPton : Bytes → Option (BitVec 32)) :
    ℕ → List (List PeerField) → List LoadError
  | _, [] => []
  | n, item :: rest =>
    (if maxPeers ≤ n then [.tooManyPeers] else []) ++ fieldFaults inetPton 0 item ++
      itemFaults inetPton (n + 1) rest

def RootField.items : RootField → List (List PeerField)
  | .scalar .. => []
  | .peers _ _ items => items

/-- All peers of a document. -/
def items (doc : List RootField) : List (List PeerField) := doc.flatMap RootField.items

/-- What is wrong with a document, in document order. -/
def faults (inetPton : Bytes → Option (BitVec 32)) (doc : List RootField) : List LoadError :=
  itemFaults inetPton 0 (items doc)

/-- There is a peer too many, or a peer with a CIDR too many, a CIDR, a public key or an
endpoint that is malformed, or a host that is not found. -/
def Faulty (inetPton : Bytes → Option (BitVec 32)) (doc : List RootField) : Prop :=
  maxPeers < (items doc).length ∨ ∃ item ∈ items doc,
    maxRoutesPerPeer < (cidrs item).length ∨
    (∃ s ∈ cidrs item, parseCidr inetPton s.text = none) ∨
    (∃ s ∈ item.filterMap (PeerField.valueFor (ascii "public_key")),
      hexToBytes s.text dhPubkeyLen = none) ∨
    ∃ s ∈ item.filterMap (PeerField.valueFor (ascii "endpoint")),
      endpointOf s = none ∨ s.env.resolved = none

/-- No endpoint is too long for the buffer it is copied to. -/
def EndpointsFit (item : List PeerField) : Prop :=
  ∀ s ∈ item.filterMap (PeerField.valueFor (ascii "endpoint")), s.text.length < 255

instance (item : List PeerField) : Decidable (EndpointsFit item) :=
  inferInstanceAs (Decidable (∀ s ∈ _, _))

/-- The value of the entry, if it is one for this key. -/
def RootField.valueFor (key : Bytes) : RootField → Option Bytes
  | .scalar k value => if k.text = key then some value.text else none
  | .peers .. => none

/-- All values given for a key of the root mapping. -/
def valuesOf (doc : List RootField) (key : String) : List Bytes :=
  doc.filterMap (RootField.valueFor (ascii key))

/-- The settings other than `verbose`. -/
inductive Setting
  | interface
  | address
  | port
  | keepaliveInterval
  | rekeyAfter
  | reconnectInterval
  | sessionExpiry
  | prevKeyGrace
  | handshakeTimeout
  | handshakeCooldown
  | privateKeyFile
  | preSharedKey
deriving DecidableEq

def Setting.key : Setting → String
  | .interface => "interface"
  | .address => "address"
  | .port => "port"
  | .keepaliveInterval => "keepalive_interval"
  | .rekeyAfter => "rekey_after"
  | .reconnectInterval => "reconnect_interval"
  | .sessionExpiry => "session_expiry"
  | .prevKeyGrace => "prev_key_grace"
  | .handshakeTimeout => "handshake_timeout"
  | .handshakeCooldown => "handshake_cooldown"
  | .privateKeyFile => "private_key_file"
  | .preSharedKey => "pre_shared_key"

/-- A string is cut to the size of its field; a number is what `atoi` makes of it. -/
def Setting.read (value : Bytes) : Setting → Bytes ⊕ ℤ
  | .interface => .inl (value.take 15)
  | .address => .inl (value.take 63)
  | .privateKeyFile | .preSharedKey => .inl (value.take 255)
  | _ => .inr (atoi value)

def Setting.get (root : RootConfig) : Setting → Bytes ⊕ ℤ
  | .interface => .inl root.tunnel
  | .address => .inl root.address
  | .port => .inr root.port
  | .keepaliveInterval => .inr root.settings.keepaliveInterval
  | .rekeyAfter => .inr root.settings.rekeyAfter
  | .reconnectInterval => .inr root.settings.reconnectInterval
  | .sessionExpiry => .inr root.settings.sessionExpiry
  | .prevKeyGrace => .inr root.settings.prevKeyGrace
  | .handshakeTimeout => .inr root.settings.handshakeTimeout
  | .handshakeCooldown => .inr root.settings.handshakeCooldown
  | .privateKeyFile => .inl root.keyfile
  | .preSharedKey => .inl root.psk

/-- The root settings are those the document gives last, or else the defaults; there is
a pre-shared key if one is given, and logging is verbose if it is ever set to true. -/
structure RootMeans (doc : List RootField) (root : RootConfig) : Prop where
  setting : ∀ s : Setting, s.get root =
    ((valuesOf doc s.key).getLast?.map fun value => s.read value).getD (s.get {})
  hasPsk : root.hasPsk = (valuesOf doc "pre_shared_key").getLast?.isSome
  verbose : root.verbose = (valuesOf doc "verbose").contains (ascii "true")

-- ════════════════════════════════════════════════════════════════════════
-- The loop on a part of the events
-- ════════════════════════════════════════════════════════════════════════

/-- The loop of `load_config` on events that do not end the stream. -/
def loadAll (inetPton : Bytes → Option (BitVec 32)) :
    Loader → List (YamlEvent × LoadEnv) → Except LoadError Loader
  | l, [] => .ok l
  | l, (ev, env) :: rest => (loadStep inetPton l ev env).bind fun l => loadAll inetPton l rest

variable {inetPton : Bytes → Option (BitVec 32)}

theorem loadAll_append (l : Loader) (es fs : List (YamlEvent × LoadEnv)) :
    loadAll inetPton l (es ++ fs) =
      (loadAll inetPton l es).bind fun l => loadAll inetPton l fs := by
  induction es generalizing l with
  | nil => rfl
  | cons e es ih =>
    simp only [List.cons_append, loadAll]
    cases loadStep inetPton l e.1 e.2 with
    | error err => rfl
    | ok l => exact ih l

/-- `load_config` continues after a part of the file as from the loader it has there. -/
theorem loadEvents_append {l : Loader} {es : List (YamlEvent × LoadEnv)}
    (hes : ∀ e ∈ es, e.1 ≠ .streamEnd) (fs : List (YamlEvent × LoadEnv)) :
    loadEvents inetPton l (es ++ fs) =
      (loadAll inetPton l es).bind fun l => loadEvents inetPton l fs := by
  induction es generalizing l with
  | nil => rfl
  | cons e es ih =>
    obtain ⟨he, hes⟩ := List.forall_mem_cons.mp hes
    simp only [List.cons_append, loadAll, loadEvents, if_neg he]
    cases loadStep inetPton l e.1 e.2 with
    | error err => rfl
    | ok l => exact ih hes

theorem loadConfig_fileEvents {body : List (YamlEvent × LoadEnv)}
    (hbody : ∀ e ∈ body, e.1 ≠ .streamEnd) :
    loadConfig inetPton (fileEvents body) = (loadAll inetPton {} body).bind fun l =>
      loadEvents inetPton l [mark .mappingEnd, mark .documentEnd, mark .streamEnd] := by
  rw [← loadEvents_append hbody]
  rfl

theorem loadStep_relevant (l : Loader) (e : YamlEvent × LoadEnv) :
    loadStep inetPton l (relevant e).1 (relevant e).2 = loadStep inetPton l e.1 e.2 := by
  obtain ⟨ev, env⟩ := e
  cases ev <;> cases hstate : l.state <;> simp only [relevant, mark, loadStep, hstate]

theorem loadEvents_relevant (l : Loader) (events : List (YamlEvent × LoadEnv)) :
    loadEvents inetPton l (events.map relevant) = loadEvents inetPton l events := by
  have hev : ∀ e : YamlEvent × LoadEnv, (relevant e).1 = e.1 := by
    rintro ⟨ev, env⟩
    cases ev <;> rfl
  induction events generalizing l with
  | nil => rfl
  | cons e rest ih =>
    simp only [List.map_cons, loadEvents, loadStep_relevant]
    simp only [hev, ih]

/-- The first fault, or else the result. -/
def outcome {α : Type} (faults : List LoadError) (a : α) : Except LoadError α :=
  match faults with
  | [] => .ok a
  | e :: _ => .error e

theorem outcome_bind {α β : Type} {fs gs : List LoadError} {a : α} {b : β}
    {f : α → Except LoadError β} (h : fs = [] → f a = outcome gs b) :
    (outcome fs a).bind f = outcome (fs ++ gs) b := by
  cases fs with
  | nil => exact h rfl
  | cons e fs => rfl

theorem outcome_bind_ok {α β : Type} {fs : List LoadError} {a : α} {b : β}
    {f : α → Except LoadError β} (h : f a = .ok b) : (outcome fs a).bind f = outcome fs b := by
  cases fs with
  | nil => exact h
  | cons e fs => rfl

theorem outcome_map {α β : Type} (fs : List LoadError) (a : α) (f : α → β) :
    (outcome fs a).map f = outcome fs (f a) := by
  cases fs <;> rfl

-- ════════════════════════════════════════════════════════════════════════
-- One peer
-- ════════════════════════════════════════════════════════════════════════

/-- The key buffer holds a name shorter than itself only for that name. -/
theorem take_key_eq_iff {text name : Bytes} (hname : name.length < 63) :
    text.take 63 = name ↔ text = name := by
  constructor
  · intro h
    have hlen := congrArg List.length h
    rw [List.length_take] at hlen
    rwa [List.take_of_length_le (by omega)] at h
  · rintro rfl
    exact List.take_of_length_le (by omega)

theorem lastOf_concat (item : List PeerField) (field : PeerField) (key : String) :
    lastOf (item ++ [field]) key = (field.valueFor (ascii key)).or (lastOf item key) := by
  unfold lastOf
  cases h : field.valueFor (ascii key) with
  | none => simp [List.filterMap_append, h]
  | some s => simp [List.filterMap_append, h]

theorem cidrs_concat (item : List PeerField) (field : PeerField) :
    cidrs (item ++ [field]) = cidrs item ++ field.cidrs := by
  simp [cidrs]

/-- The memory behind the buffer has no part in a short endpoint. -/
theorem parseEndpoint_of_short {value : Bytes} (hshort : value.length < 255) (memory : Bytes) :
    parseEndpoint value memory = parseEndpoint value [] := by
  simp only [parseEndpoint, endpointBuf, if_pos hshort]

/-- Which endpoints are accepted, where the buffer has room for them. -/
theorem parseEndpoint_ok_iff {value : Bytes} (hshort : value.length < 255) (memory host : Bytes)
    (port : ℤ) : parseEndpoint value memory = .ok (host, port) ↔ ∃ t, value = host ++ 58 :: t ∧
      58 ∉ t ∧ host ≠ [] ∧ atoi t = port ∧ 1 ≤ port ∧ port ≤ 65535 := by
  rw [parseEndpoint, endpointBuf, if_pos hshort]
  constructor
  · intro h
    split at h
    · exact absurd h (by simp)
    · next buf t hcolon =>
      split at h
      · exact absurd h (by simp)
      · next hbuf =>
        split at h
        · exact absurd h (by simp)
        · next hrange =>
          obtain ⟨rfl, rfl⟩ := Prod.mk.inj (Except.ok.inj h)
          obtain ⟨hvalue, ht⟩ := strrchr_eq_some hcolon
          simp only [Bool.or_eq_true, decide_eq_true_eq] at hrange
          exact ⟨t, hvalue, ht, hbuf, rfl, by omega, by omega⟩
  · rintro ⟨t, rfl, ht, hhost, rfl, h1, hmax⟩
    simp only [strrchr_append ht, if_neg hhost]
    rw [if_neg (by simp; omega)]

theorem parseEndpoint_host {value host : Bytes} {port : ℤ} (hshort : value.length < 255)
    (h : parseEndpoint value [] = .ok (host, port)) : host.length < 255 := by
  obtain ⟨t, rfl, -⟩ := (parseEndpoint_ok_iff hshort [] host port).mp h
  rw [List.length_append] at hshort
  omega

theorem entryOf_nil : entryOf inetPton [] = PeerEntry.zero := rfl

/-- A scalar is the last value of its own key, -/
theorem lastOf_scalar {item : List PeerField} {key : Scalar} {name : String}
    (hkey : key.text = ascii name) (value : Scalar) :
    lastOf (item ++ [PeerField.scalar key value]) name = some value := by
  rw [lastOf_concat, PeerField.valueFor, if_pos hkey, Option.some_or]

/-- and of no other. -/
theorem lastOf_scalar_ne {item : List PeerField} {key : Scalar} {name : String}
    (hkey : key.text ≠ ascii name) (value : Scalar) :
    lastOf (item ++ [PeerField.scalar key value]) name = lastOf item name := by
  rw [lastOf_concat, PeerField.valueFor, if_neg hkey, Option.none_or]

/-- A scalar of a peer's mapping is read as its meaning says. -/
theorem setPeer_entryOf (item : List PeerField) (key value : Scalar)
    (hfit : key.text = ascii "endpoint" → value.text.length < 255) :
    setPeer (key.text.take 63) value.text value.env (entryOf inetPton item) =
      outcome (scalarFaults key value)
        (entryOf inetPton (item ++ [PeerField.scalar key value])) := by
  have hcidrs : cidrs (item ++ [PeerField.scalar key value]) = cidrs item := by
    rw [cidrs_concat, PeerField.cidrs, List.append_nil]
  unfold setPeer scalarFaults
  simp only [take_key_eq_iff (show (ascii "public_key").length < 63 by decide),
    take_key_eq_iff (show (ascii "endpoint").length < 63 by decide)]
  split
  · next hkey =>
    have hne : key.text ≠ ascii "endpoint" := by
      rw [hkey]
      decide
    cases hhex : hexToBytes value.text dhPubkeyLen with
    | none => rfl
    | some pub =>
      simp [outcome, entryOf, lastOf_scalar hkey, lastOf_scalar_ne hne, hcidrs, hhex]
  · next hpub =>
    split
    · next hkey =>
      have hshort := hfit hkey
      rw [parseEndpoint_of_short hshort, endpointFaults]
      cases hparse : parseEndpoint value.text [] with
      | error e => rfl
      | ok r =>
        have hhost : r.1.take 255 = r.1 :=
          List.take_of_length_le (parseEndpoint_host hshort hparse).le
        cases hres : value.env.resolved with
        | none => rfl
        | some endpoint =>
          simp [outcome, entryOf, endpointOf, lastOf_scalar hkey, lastOf_scalar_ne hpub, hcidrs,
            hparse, hres, hhost, Except.toOption]
    · next hend =>
      simp only [outcome, entryOf, lastOf_scalar_ne hpub, lastOf_scalar_ne hend, hcidrs]

theorem cidrFault_eq_nil {n : ℕ} {s : Scalar} : cidrFault inetPton n s = [] ↔
    n < maxRoutesPerPeer ∧ parseCidr inetPton s.text ≠ none := by
  unfold cidrFault
  split
  · next hlen =>
    simp only [List.cons_ne_self, false_iff, not_and]
    omega
  · next hlen =>
    cases parseCidr inetPton s.text with
    | none => simp
    | some route => simpa using hlen

theorem cidrFaults_eq_nil {cs : List Scalar} {n : ℕ} (hn : n ≤ maxRoutesPerPeer) :
    cidrFaults inetPton n cs = [] ↔ n + cs.length ≤ maxRoutesPerPeer ∧
      ∀ s ∈ cs, parseCidr inetPton s.text ≠ none := by
  induction cs generalizing n with
  | nil => simpa [cidrFaults] using hn
  | cons s cs ih =>
    rw [cidrFaults, List.append_eq_nil_iff, cidrFault_eq_nil, List.forall_mem_cons,
      List.length_cons]
    constructor
    · rintro ⟨⟨hlt, hparse⟩, hrest⟩
      obtain ⟨hlen, hall⟩ := (ih hlt).mp hrest
      exact ⟨by omega, hparse, hall⟩
    · rintro ⟨hlen, hparse, hall⟩
      exact ⟨⟨by omega, hparse⟩, (ih (by omega)).mpr ⟨by omega, hall⟩⟩

theorem addRoute_eq (s : Scalar) (peer : PeerEntry) :
    addRoute inetPton s.text peer = outcome (cidrFault inetPton peer.routes.length s)
      { peer with routes := peer.routes ++ (parseCidr inetPton s.text).toList } := by
  unfold addRoute cidrFault
  split
  · rfl
  · cases parseCidr inetPton s.text <;> rfl

theorem updateLast_concat (init : List PeerEntry) (peer : PeerEntry)
    (f : PeerEntry → Except LoadError PeerEntry) :
    updateLast (init ++ [peer]) f = (f peer).map fun peer => init ++ [peer] := by
  simp only [updateLast, List.getLast?_concat, List.dropLast_concat]

section Loop

variable {k pk : Bytes} {root : RootConfig} {init : List PeerEntry}

/-- A value in the mapping of a peer. -/
theorem loadStep_peerVal_scalar (peer : PeerEntry) (s : Scalar) :
    loadStep inetPton ⟨.peerVal, k, pk, root, init ++ [peer]⟩ (.scalar s.value) s.env =
      (setPeer pk s.text s.env peer).map fun peer => ⟨.peerMap, k, pk, root, init ++ [peer]⟩ := by
  simp only [loadStep, updateLast_concat]
  rw [show ofBuffer s.value = s.text from rfl]
  cases setPeer pk s.text s.env peer <;> rfl

/-- A CIDR. -/
theorem loadStep_allowedIps_scalar (peer : PeerEntry) (s : Scalar) :
    loadStep inetPton ⟨.allowedIpsSeq, k, pk, root, init ++ [peer]⟩ (.scalar s.value) s.env =
      (addRoute inetPton s.text peer).map fun peer =>
        ⟨.allowedIpsSeq, k, pk, root, init ++ [peer]⟩ := by
  simp only [loadStep, updateLast_concat]
  rw [show ofBuffer s.value = s.text from rfl]
  cases addRoute inetPton s.text peer <;> rfl

theorem loadAll_cidrs (cs : List Scalar) (peer : PeerEntry) :
    loadAll inetPton ⟨.allowedIpsSeq, k, pk, root, init ++ [peer]⟩ (cs.map Scalar.event) =
      outcome (cidrFaults inetPton peer.routes.length cs) ⟨.allowedIpsSeq, k, pk, root, init ++
        [{ peer with
          routes := peer.routes ++ cs.filterMap fun s : Scalar => parseCidr inetPton s.text }]⟩ := by
  induction cs generalizing peer with
  | nil => simp [loadAll, cidrFaults, outcome]
  | cons s cs ih =>
    simp only [List.map_cons, loadAll, Scalar.event]
    rw [loadStep_allowedIps_scalar, addRoute_eq, outcome_map, cidrFaults]
    refine outcome_bind fun hnone => ?_
    obtain ⟨route, hparse⟩ := Option.ne_none_iff_exists'.mp (cidrFault_eq_nil.mp hnone).2
    simpa [hparse] using ih { peer with routes := peer.routes ++ [route] }

/-- As long as nothing is wrong, every CIDR is a route. -/
theorem entryOf_routes_length {item : List PeerField} {field : PeerField}
    (hn : (entryOf inetPton item).routes.length ≤ maxRoutesPerPeer)
    (h : field.faults inetPton (entryOf inetPton item).routes.length = []) :
    (entryOf inetPton (item ++ [field])).routes.length =
        (entryOf inetPton item).routes.length + field.cidrs.length ∧
      (entryOf inetPton (item ++ [field])).routes.length ≤ maxRoutesPerPeer := by
  cases field with
  | scalar key value => simpa [entryOf, cidrs_concat, PeerField.cidrs] using hn
  | allowedIps key hkey cs =>
    obtain ⟨hlen, hall⟩ := (cidrFaults_eq_nil hn).mp h
    have hcs : (cs.filterMap fun s => parseCidr inetPton s.text).length = cs.length := by
      rw [List.length_filterMap_eq_countP, List.countP_eq_length]
      intro s hs
      exact Option.isSome_iff_ne_none.mpr (hall s hs)
    have hroutes : (entryOf inetPton (item ++ [PeerField.allowedIps key hkey cs])).routes =
        (entryOf inetPton item).routes ++ cs.filterMap fun s => parseCidr inetPton s.text := by
      simp only [entryOf, cidrs_concat, PeerField.cidrs, List.filterMap_append]
    rw [hroutes, List.length_append, hcs]
    exact ⟨rfl, hlen⟩

variable (inetPton k pk root init)

theorem loadAll_field (item : List PeerField) (field : PeerField) (hfit : EndpointsFit [field]) :
    ∃ pk', loadAll inetPton ⟨.peerMap, k, pk, root, init ++ [entryOf inetPton item]⟩ field.events =
      outcome (field.faults inetPton (entryOf inetPton item).routes.length)
        ⟨.peerMap, k, pk', root, init ++ [entryOf inetPton (item ++ [field])]⟩ := by
  cases field with
  | scalar key value =>
    refine ⟨key.text.take 63, ?_⟩
    have hfits : key.text = ascii "endpoint" → value.text.length < 255 := fun hkey =>
      hfit value (by simp [PeerField.valueFor, hkey])
    change (loadStep inetPton ⟨.peerVal, k, key.text.take 63, root, _⟩ (.scalar value.value)
      value.env).bind _ = _
    rw [loadStep_peerVal_scalar, setPeer_entryOf item key value hfits, outcome_map,
      PeerField.faults]
    exact outcome_bind_ok rfl
  | allowedIps key hkey cs =>
    refine ⟨ascii "allowed_ips", ?_⟩
    have htake : (ofBuffer key.value).take 63 = ascii "allowed_ips" :=
      (take_key_eq_iff (by decide)).mpr hkey
    simp only [PeerField.events, loadAll, Scalar.event, mark, loadStep, Except.bind, htake, if_true]
    rw [loadAll_append, loadAll_cidrs, PeerField.faults]
    refine outcome_bind_ok ?_
    simp [loadAll, loadStep, Except.bind, entryOf, cidrs_concat, PeerField.cidrs,
      lastOf_concat, PeerField.valueFor, List.filterMap_append]

/-- The invariant of the loop inside a mapping: the last entry means what was read of it. -/
theorem loadAll_fields (rest done : List PeerField) (hfit : EndpointsFit rest)
    (hn : (entryOf inetPton done).routes.length ≤ maxRoutesPerPeer) :
    ∃ pk', loadAll inetPton ⟨.peerMap, k, pk, root, init ++ [entryOf inetPton done]⟩
        (rest.flatMap PeerField.events) =
      outcome (fieldFaults inetPton (entryOf inetPton done).routes.length rest)
        ⟨.peerMap, k, pk', root, init ++ [entryOf inetPton (done ++ rest)]⟩ := by
  induction rest generalizing done pk with
  | nil => exact ⟨pk, by simp [loadAll, fieldFaults, outcome]⟩
  | cons field rest ih =>
    rw [EndpointsFit, ← List.singleton_append, List.filterMap_append, List.forall_mem_append] at hfit
    obtain ⟨pk₁, hfield⟩ := loadAll_field inetPton k pk root init done field hfit.1
    rw [List.flatMap_cons, loadAll_append, hfield, fieldFaults]
    by_cases hnone : field.faults inetPton (entryOf inetPton done).routes.length = []
    · obtain ⟨hlen, hle⟩ := entryOf_routes_length hn hnone
      obtain ⟨pk₂, hrest⟩ := ih pk₁ (done ++ [field]) hfit.2 hle
      refine ⟨pk₂, outcome_bind fun _ => ?_⟩
      rw [hrest, hlen, List.append_assoc, List.singleton_append]
    · exact ⟨pk, outcome_bind fun h => absurd h hnone⟩

theorem loadAll_item (item : List PeerField) (hfit : EndpointsFit item) (peers : List PeerEntry) :
    ∃ pk', loadAll inetPton ⟨.peersSeq, k, pk, root, peers⟩ (itemEvents item) =
      outcome ((if maxPeers ≤ peers.length then [LoadError.tooManyPeers] else []) ++
          fieldFaults inetPton 0 item)
        ⟨.peersSeq, k, pk', root, peers ++ [entryOf inetPton item]⟩ := by
  obtain ⟨pk', hfields⟩ :=
    loadAll_fields inetPton k pk root peers item [] hfit (Nat.zero_le _)
  refine ⟨pk', ?_⟩
  simp only [itemEvents, loadAll, mark, loadStep]
  split
  · rfl
  · rw [entryOf_nil] at hfields
    rw [Except.bind, loadAll_append, hfields]
    exact outcome_bind_ok rfl

theorem loadAll_items (is : List (List PeerField)) (hfit : ∀ item ∈ is, EndpointsFit item)
    (peers : List PeerEntry) :
    ∃ pk', loadAll inetPton ⟨.peersSeq, k, pk, root, peers⟩ (is.flatMap itemEvents) =
      outcome (itemFaults inetPton peers.length is)
        ⟨.peersSeq, k, pk', root, peers ++ is.map (entryOf inetPton)⟩ := by
  induction is generalizing peers pk with
  | nil => exact ⟨pk, by simp [loadAll, itemFaults, outcome]⟩
  | cons item is ih =>
    obtain ⟨hitem, his⟩ := List.forall_mem_cons.mp hfit
    obtain ⟨pk₁, hstep⟩ := loadAll_item inetPton k pk root item hitem peers
    obtain ⟨pk₂, hrest⟩ := ih pk₁ his (peers ++ [entryOf inetPton item])
    refine ⟨pk₂, ?_⟩
    rw [List.flatMap_cons, loadAll_append, hstep, itemFaults]
    refine outcome_bind fun _ => ?_
    simpa using hrest

end Loop

-- ════════════════════════════════════════════════════════════════════════
-- The root mapping
-- ════════════════════════════════════════════════════════════════════════

/-- Any other scalar is skipped. -/
theorem setRoot_of_unknown {key value : Bytes} (hkey : ∀ s : Setting, key ≠ ascii s.key)
    (hverbose : key = ascii "verbose" → value ≠ ascii "true") (root : RootConfig) :
    setRoot root key value = root :=
  (if_neg (hkey .interface)).trans <| (if_neg (hkey .address)).trans <|
  (if_neg (hkey .port)).trans <| (if_neg (hkey .keepaliveInterval)).trans <|
  (if_neg (hkey .rekeyAfter)).trans <| (if_neg (hkey .reconnectInterval)).trans <|
  (if_neg (hkey .sessionExpiry)).trans <| (if_neg (hkey .prevKeyGrace)).trans <|
  (if_neg (hkey .handshakeTimeout)).trans <| (if_neg (hkey .handshakeCooldown)).trans <|
  (if_neg (hkey .privateKeyFile)).trans <| (if_neg (by simpa using hverbose)).trans <|
  if_neg (hkey .preSharedKey)

theorem Setting.verbose_ne (s : Setting) : ascii "verbose" ≠ ascii s.key := by
  cases s <;> decide

/-- What the scalar of a setting changes. -/
def Setting.set (root : RootConfig) (value : Bytes) : Setting → RootConfig
  | .interface => { root with tunnel := value.take 15 }
  | .address => { root with address := value.take 63 }
  | .port => { root with port := atoi value }
  | .keepaliveInterval => { root with settings.keepaliveInterval := atoi value }
  | .rekeyAfter => { root with settings.rekeyAfter := atoi value }
  | .reconnectInterval => { root with settings.reconnectInterval := atoi value }
  | .sessionExpiry => { root with settings.sessionExpiry := atoi value }
  | .prevKeyGrace => { root with settings.prevKeyGrace := atoi value }
  | .handshakeTimeout => { root with settings.handshakeTimeout := atoi value }
  | .handshakeCooldown => { root with settings.handshakeCooldown := atoi value }
  | .privateKeyFile => { root with keyfile := value.take 255 }
  | .preSharedKey => { root with psk := value.take 255, hasPsk := true }

theorem setRoot_key (s : Setting) (root : RootConfig) (value : Bytes) :
    setRoot root (ascii s.key) value = s.set root value := by
  cases s <;> rfl

theorem Setting.get_set (s s' : Setting) (root : RootConfig) (value : Bytes) :
    s.get (s'.set root value) = if s' = s then s.read value else s.get root := by
  cases s' <;> cases s <;> rfl

def allSettings : List Setting :=
  [.interface, .address, .port, .keepaliveInterval, .rekeyAfter, .reconnectInterval,
    .sessionExpiry, .prevKeyGrace, .handshakeTimeout, .handshakeCooldown, .privateKeyFile,
    .preSharedKey]

theorem Setting.key_inj {s s' : Setting} : ascii s.key = ascii s'.key ↔ s = s' := by
  -- no earlier setting has the same name
  have hfind : ∀ s : Setting,
      allSettings.find? (fun s' => ascii s'.key = ascii s.key) = some s := by
    intro s
    cases s <;> decide
  constructor
  · intro h
    have hs := hfind s
    rw [h, hfind s'] at hs
    exact (Option.some.inj hs).symm
  · rintro rfl
    rfl

/-- A scalar that is no setting can only turn on verbose logging. -/
theorem setRoot_eq_verbose {key value : Bytes} (hkey : ∀ s : Setting, key ≠ ascii s.key)
    (root : RootConfig) : setRoot root key value =
      { root with
        verbose := root.verbose || decide (key = ascii "verbose" ∧ value = ascii "true") } := by
  by_cases hverbose : key = ascii "verbose" ∧ value = ascii "true"
  · obtain ⟨rfl, rfl⟩ := hverbose
    rw [decide_eq_true ⟨rfl, rfl⟩, Bool.or_true]
    rfl
  · rw [setRoot_of_unknown hkey (not_and.mp hverbose), decide_eq_false hverbose, Bool.or_false]

theorem Setting.get_setRoot (s : Setting) (root : RootConfig) (key value : Bytes) :
    s.get (setRoot root key value) = if key = ascii s.key then s.read value else s.get root := by
  by_cases hkey : ∃ s' : Setting, key = ascii s'.key
  · obtain ⟨s', rfl⟩ := hkey
    simp only [setRoot_key, get_set, key_inj]
  · rw [not_exists] at hkey
    rw [setRoot_eq_verbose hkey, if_neg (hkey s)]
    cases s <;> rfl

theorem setRoot_hasPsk (root : RootConfig) (key value : Bytes) :
    (setRoot root key value).hasPsk = (decide (key = ascii "pre_shared_key") || root.hasPsk) := by
  by_cases hkey : ∃ s : Setting, key = ascii s.key
  · obtain ⟨s, rfl⟩ := hkey
    rw [setRoot_key, show "pre_shared_key" = Setting.preSharedKey.key from rfl]
    simp only [Setting.key_inj]
    cases s <;> rfl
  · rw [not_exists] at hkey
    have hpsk : key ≠ ascii "pre_shared_key" := hkey .preSharedKey
    rw [setRoot_eq_verbose hkey, decide_eq_false hpsk, Bool.false_or]

theorem setRoot_verbose (root : RootConfig) (key value : Bytes) :
    (setRoot root key value).verbose =
      (root.verbose || decide (key = ascii "verbose" ∧ value = ascii "true")) := by
  by_cases hkey : ∃ s : Setting, key = ascii s.key
  · obtain ⟨s, rfl⟩ := hkey
    rw [setRoot_key, decide_eq_false fun h => s.verbose_ne h.1.symm, Bool.or_false]
    cases s <;> rfl
  · rw [not_exists] at hkey
    rw [setRoot_eq_verbose hkey]

theorem valuesOf_concat (doc : List RootField) (field : RootField) (key : String) :
    valuesOf (doc ++ [field]) key = valuesOf doc key ++ (field.valueFor (ascii key)).toList := by
  cases h : field.valueFor (ascii key) <;> simp [valuesOf, List.filterMap_append, h]

theorem Setting.key_length (s : Setting) : (ascii s.key).length < 63 := by
  cases s <;> decide

theorem RootMeans.scalar {doc : List RootField} {root : RootConfig} (h : RootMeans doc root)
    (key value : Scalar) :
    RootMeans (doc ++ [RootField.scalar key value])
      (setRoot root (key.text.take 63) value.text) where
  setting s := by
    rw [s.get_setRoot, valuesOf_concat, RootField.valueFor]
    simp only [take_key_eq_iff s.key_length]
    by_cases hkey : key.text = ascii s.key
    · simp [hkey]
    · simp [hkey, h.setting s]
  hasPsk := by
    rw [setRoot_hasPsk, valuesOf_concat, RootField.valueFor, h.hasPsk]
    simp only [take_key_eq_iff (show (ascii "pre_shared_key").length < 63 by decide)]
    by_cases hkey : key.text = ascii "pre_shared_key" <;> simp [hkey]
  verbose := by
    rw [setRoot_verbose, valuesOf_concat, RootField.valueFor, h.verbose]
    simp only [take_key_eq_iff (show (ascii "verbose").length < 63 by decide)]
    by_cases hkey : key.text = ascii "verbose"
    · simp [hkey, eq_comm]
    · simp [hkey]

theorem RootMeans.peers {doc : List RootField} {root : RootConfig} (h : RootMeans doc root)
    (key : Scalar) (hkey : key.text = ascii "peers") (is : List (List PeerField)) :
    RootMeans (doc ++ [RootField.peers key hkey is]) root := by
  have hvalues : ∀ name, valuesOf (doc ++ [RootField.peers key hkey is]) name = valuesOf doc name :=
    fun name => by rw [valuesOf_concat, RootField.valueFor, Option.toList_none, List.append_nil]
  exact ⟨fun s => by rw [hvalues]; exact h.setting s, by rw [hvalues]; exact h.hasPsk,
    by rw [hvalues]; exact h.verbose⟩

theorem rootMeans_nil : RootMeans [] {} := ⟨fun _ => rfl, rfl, rfl⟩

theorem itemFaults_append (n : ℕ) (is js : List (List PeerField)) :
    itemFaults inetPton n (is ++ js) =
      itemFaults inetPton n is ++ itemFaults inetPton (n + is.length) js := by
  induction is generalizing n with
  | nil => rfl
  | cons item is ih =>
    rw [List.cons_append, itemFaults, itemFaults, ih, List.length_cons, Nat.add_assoc,
      Nat.add_comm 1, ← List.append_assoc]

theorem items_concat (doc : List RootField) (field : RootField) :
    items (doc ++ [field]) = items doc ++ field.items := by
  simp [items]

theorem items_cons (field : RootField) (doc : List RootField) :
    items (field :: doc) = field.items ++ items doc := rfl

/-- An entry of the root mapping. -/
theorem loadAll_rootField (inetPton : Bytes → Option (BitVec 32)) (k pk : Bytes)
    {root : RootConfig} (done : List RootField)
    (field : RootField) (hfit : ∀ item ∈ field.items, EndpointsFit item)
    (hroot : RootMeans done root) :
    ∃ k' pk' root', RootMeans (done ++ [field]) root' ∧
      loadAll inetPton ⟨.root, k, pk, root, (items done).map (entryOf inetPton)⟩ field.events =
        outcome (itemFaults inetPton (items done).length field.items)
          ⟨.root, k', pk', root', (items (done ++ [field])).map (entryOf inetPton)⟩ := by
  cases field with
  | scalar key value =>
    refine ⟨key.text.take 63, pk, _, hroot.scalar key value, ?_⟩
    rw [items_concat, RootField.items, List.append_nil]
    rfl
  | peers key hkey is =>
    obtain ⟨pk', hitems⟩ := loadAll_items inetPton (ascii "peers") pk root is hfit
      ((items done).map (entryOf inetPton))
    refine ⟨ascii "peers", pk', root, hroot.peers key hkey is, ?_⟩
    have htake : (ofBuffer key.value).take 63 = ascii "peers" :=
      (take_key_eq_iff (by decide)).mpr hkey
    simp only [RootField.events, loadAll, Scalar.event, mark, loadStep, Except.bind, htake, if_true]
    rw [loadAll_append, hitems, List.length_map, RootField.items, items_concat, List.map_append]
    exact outcome_bind_ok rfl

/-- The invariant of the loop in the root mapping: the settings and the peers mean what
was read of the document. -/
theorem loadAll_root (inetPton : Bytes → Option (BitVec 32)) (k pk : Bytes)
    {root : RootConfig} (rest done : List RootField)
    (hfit : ∀ item ∈ items rest, EndpointsFit item) (hroot : RootMeans done root) :
    ∃ k' pk' root', RootMeans (done ++ rest) root' ∧
      loadAll inetPton ⟨.root, k, pk, root, (items done).map (entryOf inetPton)⟩
          (rest.flatMap RootField.events) =
        outcome (itemFaults inetPton (items done).length (items rest))
          ⟨.root, k', pk', root', (items (done ++ rest)).map (entryOf inetPton)⟩ := by
  induction rest generalizing done k pk root with
  | nil => exact ⟨k, pk, root, by simpa using hroot, by simp [loadAll, items, itemFaults, outcome]⟩
  | cons field rest ih =>
    rw [items_cons, List.forall_mem_append] at hfit
    obtain ⟨k₁, pk₁, root₁, hroot₁, hfield⟩ :=
      loadAll_rootField inetPton k pk done field hfit.1 hroot
    obtain ⟨k₂, pk₂, root₂, hroot₂, hrest⟩ := ih k₁ pk₁ (done ++ [field]) hfit.2 hroot₁
    rw [List.append_assoc, List.singleton_append] at hroot₂ hrest
    refine ⟨k₂, pk₂, root₂, hroot₂, ?_⟩
    rw [List.flatMap_cons, loadAll_append, hfield, items_cons, itemFaults_append]
    refine outcome_bind fun _ => ?_
    rw [hrest, items_concat, List.length_append]

-- ════════════════════════════════════════════════════════════════════════
-- Faults
-- ════════════════════════════════════════════════════════════════════════

theorem endpointFaults_eq_nil {s : Scalar} :
    endpointFaults s = [] ↔ endpointOf s ≠ none ∧ s.env.resolved ≠ none := by
  unfold endpointFaults endpointOf
  cases parseEndpoint s.text [] with
  | error e => simp [Except.toOption]
  | ok r => cases s.env.resolved <;> simp [Except.toOption]

theorem scalarFaults_eq_nil {key value : Scalar} : scalarFaults key value = [] ↔
    (key.text = ascii "public_key" → hexToBytes value.text dhPubkeyLen ≠ none) ∧
      (key.text = ascii "endpoint" → endpointOf value ≠ none ∧ value.env.resolved ≠ none) := by
  unfold scalarFaults
  split
  · next hkey =>
    have hne : key.text ≠ ascii "endpoint" := by
      rw [hkey]
      decide
    simp only [hne, false_imp_iff, and_true]
    cases hexToBytes value.text dhPubkeyLen <;> simp [hkey]
  · next hkey =>
    split
    · next hkey' =>
      rw [endpointFaults_eq_nil]
      exact ⟨fun h => ⟨fun h' => absurd h' hkey, fun _ => h⟩, fun h => h.2 hkey'⟩
    · next hkey' => simp [hkey, hkey']

/-- What makes an entry of a peer acceptable by itself. -/
def Sound (inetPton : Bytes → Option (BitVec 32)) (item : List PeerField) : Prop :=
  (∀ s ∈ cidrs item, parseCidr inetPton s.text ≠ none) ∧
  (∀ s ∈ item.filterMap (PeerField.valueFor (ascii "public_key")),
    hexToBytes s.text dhPubkeyLen ≠ none) ∧
  ∀ s ∈ item.filterMap (PeerField.valueFor (ascii "endpoint")),
    endpointOf s ≠ none ∧ s.env.resolved ≠ none

theorem sound_append {a b : List PeerField} :
    Sound inetPton (a ++ b) ↔ Sound inetPton a ∧ Sound inetPton b := by
  simp only [Sound, cidrs, List.flatMap_append, List.filterMap_append, List.forall_mem_append]
  constructor
  · rintro ⟨⟨hcidr, hcidr'⟩, ⟨hpub, hpub'⟩, hend, hend'⟩
    exact ⟨⟨hcidr, hpub, hend⟩, hcidr', hpub', hend'⟩
  · rintro ⟨⟨hcidr, hpub, hend⟩, hcidr', hpub', hend'⟩
    exact ⟨⟨hcidr, hcidr'⟩, ⟨hpub, hpub'⟩, hend, hend'⟩

theorem PeerField.faults_eq_nil {field : PeerField} {n : ℕ} (hn : n ≤ maxRoutesPerPeer) :
    field.faults inetPton n = [] ↔
      n + field.cidrs.length ≤ maxRoutesPerPeer ∧ Sound inetPton [field] := by
  cases field with
  | scalar key value =>
    rw [PeerField.faults, scalarFaults_eq_nil]
    by_cases hpub : key.text = ascii "public_key" <;>
      by_cases hend : key.text = ascii "endpoint" <;>
        simp [Sound, LaneCove.cidrs, PeerField.cidrs, PeerField.valueFor, hpub, hend, hn]
  | allowedIps key hkey cs =>
    rw [PeerField.faults, cidrFaults_eq_nil hn]
    simp [Sound, LaneCove.cidrs, PeerField.cidrs, PeerField.valueFor]

theorem fieldFaults_eq_nil {item : List PeerField} {n : ℕ} (hn : n ≤ maxRoutesPerPeer) :
    fieldFaults inetPton n item = [] ↔
      n + (cidrs item).length ≤ maxRoutesPerPeer ∧ Sound inetPton item := by
  induction item generalizing n with
  | nil => simpa [fieldFaults, Sound, cidrs] using hn
  | cons field item ih =>
    rw [fieldFaults, List.append_eq_nil_iff, PeerField.faults_eq_nil hn,
      show field :: item = [field] ++ item from rfl, sound_append, cidrs, List.flatMap_append,
      List.length_append, List.flatMap_singleton]
    constructor
    · rintro ⟨⟨hlen, hfield⟩, hrest⟩
      obtain ⟨hlen', hitem⟩ := (ih hlen).mp hrest
      rw [cidrs] at hlen'
      exact ⟨by omega, hfield, hitem⟩
    · rintro ⟨hlen, hfield, hitem⟩
      refine ⟨⟨by omega, hfield⟩, (ih (by omega)).mpr ⟨?_, hitem⟩⟩
      rw [cidrs]
      omega

theorem itemFaults_eq_nil {is : List (List PeerField)} {n : ℕ} (hn : n ≤ maxPeers) :
    itemFaults inetPton n is = [] ↔
      n + is.length ≤ maxPeers ∧ ∀ item ∈ is, fieldFaults inetPton 0 item = [] := by
  induction is generalizing n with
  | nil => simpa [itemFaults] using hn
  | cons item is ih =>
    rw [itemFaults, List.append_eq_nil_iff, List.append_eq_nil_iff, List.forall_mem_cons,
      List.length_cons]
    constructor
    · rintro ⟨⟨hfull, hitem⟩, hrest⟩
      have hlt : n < maxPeers := by
        by_contra hge
        rw [if_pos (not_lt.mp hge)] at hfull
        exact absurd hfull (by simp)
      obtain ⟨hlen, his⟩ := (ih hlt).mp hrest
      exact ⟨by omega, hitem, his⟩
    · rintro ⟨hlen, hitem, his⟩
      exact ⟨⟨if_neg (by omega), hitem⟩, (ih (by omega)).mpr ⟨by omega, his⟩⟩

theorem faults_eq_nil_iff {doc : List RootField} :
    faults inetPton doc = [] ↔ ¬ Faulty inetPton doc := by
  have hitem : ∀ item, fieldFaults inetPton 0 item = [] ↔
      (cidrs item).length ≤ maxRoutesPerPeer ∧ Sound inetPton item := by
    intro item
    rw [fieldFaults_eq_nil (Nat.zero_le _), Nat.zero_add]
  rw [faults, itemFaults_eq_nil (Nat.zero_le _), Nat.zero_add]
  simp only [hitem, Sound, Faulty, not_or, not_exists, not_and, not_lt, ne_eq]

theorem PeerField.events_inside (field : PeerField) : ∀ e ∈ field.events, e.1 ≠ .streamEnd := by
  intro e he
  cases field with
  | scalar key value =>
    simp only [PeerField.events, List.mem_cons, List.not_mem_nil, or_false] at he
    rcases he with rfl | rfl <;> simp [Scalar.event]
  | allowedIps key hkey cs =>
    simp only [PeerField.events, List.mem_cons, List.mem_append, List.mem_map, List.not_mem_nil,
      or_false] at he
    rcases he with rfl | rfl | ⟨s, -, rfl⟩ | rfl <;> simp [Scalar.event, mark]

theorem RootField.events_inside (field : RootField) : ∀ e ∈ field.events, e.1 ≠ .streamEnd := by
  intro e he
  cases field with
  | scalar key value =>
    simp only [RootField.events, List.mem_cons, List.not_mem_nil, or_false] at he
    rcases he with rfl | rfl <;> simp [Scalar.event]
  | peers key hkey is =>
    simp only [RootField.events, itemEvents, List.mem_cons, List.mem_append, List.mem_flatMap,
      List.not_mem_nil, or_false] at he
    rcases he with rfl | rfl | ⟨item, -, rfl | ⟨field, -, hfield⟩ | rfl⟩ | rfl
    case inr.inr.inl.inr.inl => exact field.events_inside e hfield
    all_goals simp [Scalar.event, mark]

/-- `load_config` computes the meaning of the document. -/
theorem loadConfig_meaning {doc : List RootField} {events : List (YamlEvent × LoadEnv)}
    (hevents : events.map relevant = documentEvents doc)
    (hfit : ∀ item ∈ items doc, EndpointsFit item) :
    (∀ e, loadConfig inetPton events = .error e ↔ (faults inetPton doc).head? = some e) ∧
    ((∃ e, loadConfig inetPton events = .error e) ↔ Faulty inetPton doc) ∧
    ∀ l, loadConfig inetPton events = .ok l →
      l.peers = (items doc).map (entryOf inetPton) ∧ RootMeans doc l.root := by
  obtain ⟨k, pk, root, hroot, hload⟩ := loadAll_root inetPton [] [] doc [] hfit rootMeans_nil
  change loadAll inetPton {} _ = outcome (faults inetPton doc) _ at hload
  have hinside : ∀ e ∈ doc.flatMap RootField.events, e.1 ≠ .streamEnd := by
    intro e he
    obtain ⟨field, -, hfield⟩ := List.mem_flatMap.mp he
    exact field.events_inside e hfield
  have houtcome : loadConfig inetPton events = outcome (faults inetPton doc)
      ⟨.root, k, pk, root, (items doc).map (entryOf inetPton)⟩ := by
    rw [loadConfig, ← loadEvents_relevant, hevents]
    change loadConfig inetPton (fileEvents _) = _
    rw [loadConfig_fileEvents hinside, hload]
    exact outcome_bind_ok rfl
  have hfaulty : faults inetPton doc ≠ [] ↔ Faulty inetPton doc :=
    (not_iff_not.mpr faults_eq_nil_iff).trans not_not
  rw [houtcome, ← hfaulty]
  cases faults inetPton doc with
  | nil =>
    refine ⟨by simp [outcome], by simp [outcome], fun l hl => ?_⟩
    obtain rfl := Except.ok.inj hl
    exact ⟨rfl, hroot⟩
  | cons e fs => exact ⟨by simp [outcome], by simp [outcome], by simp [outcome]⟩

namespace Document

/-- A scalar for which nothing has to be resolved. -/
def text (s : String) : Scalar := ⟨ascii s, ⟨[], none⟩⟩

def samplePeer : List PeerField :=
  [.scalar (text "endpoint") ⟨ascii "relay:5040", ⟨[], some ⟨0x0a000001, 5040⟩⟩⟩,
    .allowedIps (text "allowed_ips") rfl [text "10.9.0.2/32"]]

/-- The port is given twice, the peer comes between. -/
def sample : List RootField :=
  [.scalar (text "port") (text "5041"), .peers (text "peers") rfl [samplePeer],
    .scalar (text "port") (text "7000")]

end Document

open Document in
theorem loadConfig_meaning_sample :
    (loadConfig Ipv4.pton (documentEvents sample)).map (fun l => l.root.port) = .ok 7000 ∧
    ∀ l, loadConfig Ipv4.pton (documentEvents sample) = .ok l →
      l.peers = [entryOf Ipv4.pton samplePeer] ∧ RootMeans sample l.root :=
  ⟨by decide +kernel,
    (loadConfig_meaning (show _ = documentEvents sample from rfl) (by decide +kernel)).2.2⟩

end LaneCove
