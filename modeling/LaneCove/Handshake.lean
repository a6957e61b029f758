import LaneCove.Packet

/-!
# Handshake

The three handshake functions of `common.c`. Their cryptographic steps are
written over an abstract `Suite`, so that the same code runs on bytes and on
symbolic terms; `Crypto.suite` is the byte instance, and `encodeHs`/`decodeHs`
are the wire format

    [8 magic][32 eph_pub][48 AES-256-GCM(identity_key, static_pub)][32 HMAC]?

## Main definitions

- `Suite` — the operations a handshake is made of
- `Suite.clientSend`, `Suite.clientRecv`, `Suite.serverRespond` — the protocol steps
- `handshakeClientSend`, `handshakeClientRecv`, `handshakeServerRespond` — the
  functions of the source, on packets

## Main results

- `Suite.clientRecv_serverRespond` — both sides derive the same key
- `handshake_agreement` — the same for the packets on the wire
-/

namespace LaneCove

/-- Operations of the handshake over arbitrary types of keys and messages. -/
structure Suite (Priv Pub Secret Key Sealed Mac : Type) where
  /-- `x25519_shared_secret` -/
  sharedSecret : Priv → Pub → Option Secret
  /-- the key of `encrypt_identity`, SHA-256 of a shared secret -/
  identityKey : Secret → Key
  /-- `derive_session_key` -/
  sessionKey : Secret → Secret → Secret → Pub → Pub → Pub → Pub → Key
  /-- AES-GCM of a public key under the zero IV -/
  sealIdentity : Key → Pub → Option Sealed
  openIdentity : Key → Sealed → Option Pub
  /-- `compute_hmac` over the ephemeral key and the sealed identity -/
  mac : Key → Pub → Sealed → Option Mac

/-- The fields of a handshake packet, in either direction. -/
structure HsMessage (Pub Sealed Mac : Type) where
  ephPub : Pub
  encStatic : Sealed
  hmac : Option Mac

/-- `hs_client_state_t`: what the client keeps between sending and receiving.
The key pointer is `NULL` once the handshake is complete. -/
structure HsClientState (Priv Pub Secret : Type) where
  ephKey : Option Priv
  ephPub : Pub
  ecdhEcSs : Secret
deriving DecidableEq

/-- What `handshake_server_respond` has computed when it sends the response. The
session key is still missing if the last shared secret fails. -/
structure ServerReply (Pub Key Sealed Mac : Type) where
  clientStaticPub : Pub
  response : HsMessage Pub Sealed Mac
  sessionKey : Option Key

namespace Suite

variable {Priv Pub Secret Key Sealed Mac : Type}

/-- A shared secret from a key pointer, which fails on `NULL`. -/
def secret (S : Suite Priv Pub Secret Key Sealed Mac) (key : Option Priv) (pub : Pub) :
    Option Secret :=
  key.bind fun key => S.sharedSecret key pub

/-- The trailing HMAC of an outgoing packet, present only with a PSK. -/
def hmacField (S : Suite Priv Pub Secret Key Sealed Mac) (psk : Option Key) (ephPub : Pub)
    (encStatic : Sealed) : Option (Option Mac) :=
  match psk with
  | none => some none
  | some key => (S.mac key ephPub encStatic).map some

/-- The HMAC check on an incoming packet. -/
def hmacValid [DecidableEq Mac] (S : Suite Priv Pub Secret Key Sealed Mac) (psk : Option Key)
    (msg : HsMessage Pub Sealed Mac) : Bool :=
  match psk with
  | none => true
  | some key =>
    match S.mac key msg.ephPub msg.encStatic with
    | none => false
    | some expected => msg.hmac = some expected

/-- `handshake_client_send` after `generate_eph_keypair`, up to `sendto`. -/
def clientSend (S : Suite Priv Pub Secret Key Sealed Mac) (psk : Option Key)
    (staticPub serverStaticPub : Pub) (ephKey : Priv) (ephPub : Pub) :
    Option (HsMessage Pub Sealed Mac × HsClientState Priv Pub Secret) := do
  let ecdhEcSs ← S.sharedSecret ephKey serverStaticPub
  let encStatic ← S.sealIdentity (S.identityKey ecdhEcSs) staticPub
  let hmac ← S.hmacField psk ephPub encStatic
  some (⟨ephPub, encStatic, hmac⟩, ⟨some ephKey, ephPub, ecdhEcSs⟩)

/-- `handshake_client_recv` on the fields of a response: the session key. -/
def clientRecv [DecidableEq Pub] [DecidableEq Mac] (S : Suite Priv Pub Secret Key Sealed Mac)
    (psk : Option Key) (staticKey : Priv) (staticPub serverStaticPub : Pub)
    (state : HsClientState Priv Pub Secret) (resp : HsMessage Pub Sealed Mac) : Option Key :=
  if S.hmacValid psk resp then do
    let ecdhEph ← S.secret state.ephKey resp.ephPub
    let serverStaticPubRecv ← S.openIdentity (S.identityKey ecdhEph) resp.encStatic
    if serverStaticPubRecv ≠ serverStaticPub then none
    else do
      let ecdhScEs ← S.sharedSecret staticKey resp.ephPub
      some (S.sessionKey ecdhEph ecdhScEs state.ecdhEcSs state.ephPub resp.ephPub staticPub
        serverStaticPubRecv)
  else none

/-- `handshake_server_respond` on the fields of an initiation, up to `sendto`
and with the key derived after it. -/
def serverRespond [DecidableEq Mac] (S : Suite Priv Pub Secret Key Sealed Mac)
    (psk : Option Key) (staticKey : Priv) (staticPub : Pub) (ephKey : Option Priv)
    (ephPub : Pub) (init : HsMessage Pub Sealed Mac) :
    Option (ServerReply Pub Key Sealed Mac) :=
  if S.hmacValid psk init then do
    let ecdhEcSs ← S.sharedSecret staticKey init.ephPub
    let clientStaticPub ← S.openIdentity (S.identityKey ecdhEcSs) init.encStatic
    let ecdhEph ← S.secret ephKey init.ephPub
    let encServerStatic ← S.sealIdentity (S.identityKey ecdhEph) staticPub
    let hmac ← S.hmacField psk ephPub encServerStatic
    some {
      clientStaticPub
      response := ⟨ephPub, encServerStatic, hmac⟩
      sessionKey := (S.secret ephKey clientStaticPub).map fun ecdhScEs =>
        S.sessionKey ecdhEph ecdhScEs ecdhEcSs init.ephPub ephPub clientStaticPub staticPub }
  else none

/-- The initiator an initiation names, if its HMAC and its identity are valid. -/
def initiator [DecidableEq Mac] (S : Suite Priv Pub Secret Key Sealed Mac) (psk : Option Key)
    (staticKey : Priv) (init : HsMessage Pub Sealed Mac) : Option Pub :=
  if S.hmacValid psk init then do
    let ecdhEcSs ← S.sharedSecret staticKey init.ephPub
    S.openIdentity (S.identityKey ecdhEcSs) init.encStatic
  else none

/-- The response to an initiation, whoever sent it. -/
def response (S : Suite Priv Pub Secret Key Sealed Mac) (psk : Option Key) (staticPub : Pub)
    (ephKey : Option Priv) (ephPub : Pub) (init : HsMessage Pub Sealed Mac) :
    Option (HsMessage Pub Sealed Mac) := do
  let ecdhEph ← S.secret ephKey init.ephPub
  let encServerStatic ← S.sealIdentity (S.identityKey ecdhEph) staticPub
  let hmac ← S.hmacField psk ephPub encServerStatic
  some ⟨ephPub, encServerStatic, hmac⟩

/-- A key pair as the protocol uses it: both ends compute the same secret. -/
structure Agrees (S : Suite Priv Pub Secret Key Sealed Mac) (a b : Priv) (A B : Pub) : Prop where
  comm : S.sharedSecret a B = S.sharedSecret b A

/-- Identity encryption is inverted by decryption under the same key. -/
def OpensSealed (S : Suite Priv Pub Secret Key Sealed Mac) : Prop :=
  ∀ {key pub out}, S.sealIdentity key pub = some out → S.openIdentity key out = some pub

theorem hmacValid_of_hmacField [DecidableEq Mac] {S : Suite Priv Pub Secret Key Sealed Mac}
    {psk : Option Key} {ephPub : Pub} {encStatic : Sealed} {hmac : Option Mac}
    (h : S.hmacField psk ephPub encStatic = some hmac) :
    S.hmacValid psk ⟨ephPub, encStatic, hmac⟩ = true := by
  cases psk with
  | none => rfl
  | some key =>
    simp only [hmacField, Option.map_eq_some_iff] at h
    obtain ⟨mac, hmac', rfl⟩ := h
    simp [hmacValid, hmac']

theorem clientSend_eq_some {S : Suite Priv Pub Secret Key Sealed Mac} {psk : Option Key}
    {staticPub serverStaticPub : Pub} {ephKey : Priv} {ephPub : Pub}
    {init : HsMessage Pub Sealed Mac} {state : HsClientState Priv Pub Secret}
    (h : S.clientSend psk staticPub serverStaticPub ephKey ephPub = some (init, state)) :
    ∃ ecdhEcSs encStatic hmac, S.sharedSecret ephKey serverStaticPub = some ecdhEcSs ∧
      S.sealIdentity (S.identityKey ecdhEcSs) staticPub = some encStatic ∧
      S.hmacField psk ephPub encStatic = some hmac ∧
      init = ⟨ephPub, encStatic, hmac⟩ ∧ state = ⟨some ephKey, ephPub, ecdhEcSs⟩ := by
  simp only [clientSend, Option.bind_eq_bind, Option.bind_eq_some_iff, Option.some.injEq,
    Prod.mk.injEq] at h
  obtain ⟨ecdhEcSs, hss, encStatic, henc, hmac, hmac', rfl, rfl⟩ := h
  exact ⟨ecdhEcSs, encStatic, hmac, hss, henc, hmac', rfl, rfl⟩

theorem serverRespond_eq_some [DecidableEq Mac] {S : Suite Priv Pub Secret Key Sealed Mac}
    {psk : Option Key} {staticKey : Priv} {staticPub : Pub} {ephKey : Option Priv} {ephPub : Pub}
    {init : HsMessage Pub Sealed Mac} {reply : ServerReply Pub Key Sealed Mac}
    (h : S.serverRespond psk staticKey staticPub ephKey ephPub init = some reply) :
    ∃ ecdhEcSs ecdhEph encServerStatic hmac, S.hmacValid psk init = true ∧
      S.sharedSecret staticKey init.ephPub = some ecdhEcSs ∧
      S.openIdentity (S.identityKey ecdhEcSs) init.encStatic = some reply.clientStaticPub ∧
      S.secret ephKey init.ephPub = some ecdhEph ∧
      S.sealIdentity (S.identityKey ecdhEph) staticPub = some encServerStatic ∧
      S.hmacField psk ephPub encServerStatic = some hmac ∧
      reply.response = ⟨ephPub, encServerStatic, hmac⟩ ∧
      reply.sessionKey = (S.secret ephKey reply.clientStaticPub).map fun ecdhScEs =>
        S.sessionKey ecdhEph ecdhScEs ecdhEcSs init.ephPub ephPub reply.clientStaticPub
          staticPub := by
  unfold serverRespond at h
  split at h
  · next hv =>
    simp only [Option.bind_eq_bind, Option.bind_eq_some_iff, Option.some.injEq] at h
    obtain ⟨ecdhEcSs, hss, clientStaticPub, hopen, ecdhEph, heph, enc, henc, hmac, hmac', rfl⟩ := h
    exact ⟨ecdhEcSs, ecdhEph, enc, hmac, hv, hss, hopen, heph, henc, hmac', rfl, rfl⟩
  · exact absurd h (by simp)

/-- An initiation is answered exactly if it names an initiator and a response can
be made; the session key then needs one more shared secret. -/
theorem serverRespond_spec [DecidableEq Mac] (S : Suite Priv Pub Secret Key Sealed Mac)
    (psk : Option Key) (staticKey : Priv) (staticPub : Pub) (ephKey : Option Priv) (ephPub : Pub)
    (init : HsMessage Pub Sealed Mac) :
    match S.initiator psk staticKey init, S.response psk staticPub ephKey ephPub init with
    | some pub, some response =>
      ∃ key, S.serverRespond psk staticKey staticPub ephKey ephPub init = some ⟨pub, response, key⟩ ∧
        key.isSome = (S.secret ephKey pub).isSome
    | _, _ => S.serverRespond psk staticKey staticPub ephKey ephPub init = none := by
  unfold initiator response serverRespond
  by_cases hv : S.hmacValid psk init = true
  · simp only [if_pos hv, Option.bind_eq_bind]
    cases S.sharedSecret staticKey init.ephPub with
    | none => rfl
    | some ecSs =>
      simp only [Option.bind_some]
      cases S.openIdentity (S.identityKey ecSs) init.encStatic with
      | none => rfl
      | some pub =>
        simp only [Option.bind_some]
        cases S.secret ephKey init.ephPub with
        | none => rfl
        | some eph =>
          simp only [Option.bind_some]
          cases S.sealIdentity (S.identityKey eph) staticPub with
          | none => rfl
          | some enc =>
            simp only [Option.bind_some]
            cases S.hmacField psk ephPub enc with
            | none => rfl
            | some hmac => exact ⟨_, rfl, by simp⟩
  · simp only [if_neg hv]

/-- The server finds the name of the client in its initiation. -/
theorem initiator_clientSend [DecidableEq Mac]
    {S : Suite Priv Pub Secret Key Sealed Mac} (hopen : S.OpensSealed) {psk : Option Key}
    {staticS ephC : Priv} {pubC pubS ephPubC : Pub} {init : HsMessage Pub Sealed Mac}
    {state : HsClientState Priv Pub Secret} (hcs : S.Agrees ephC staticS ephPubC pubS)
    (hsend : S.clientSend psk pubC pubS ephC ephPubC = some (init, state)) :
    S.initiator psk staticS init = some pubC := by
  obtain ⟨ecSs, encC, hmacC, hss, henc, hmac, rfl, -⟩ := clientSend_eq_some hsend
  have hvalid := hmacValid_of_hmacField hmac
  have hshared : S.sharedSecret staticS ephPubC = some ecSs := hcs.comm.symm.trans hss
  simp [initiator, hvalid, hshared, hopen henc]

/-- The server reads the client's identity off its initiation. -/
theorem clientStaticPub_of_serverRespond [DecidableEq Mac]
    {S : Suite Priv Pub Secret Key Sealed Mac} (hopen : S.OpensSealed) {psk : Option Key}
    {staticS ephC : Priv} {pubC pubS ephPubC ephPubS : Pub} {ephS : Option Priv}
    {init : HsMessage Pub Sealed Mac} {state : HsClientState Priv Pub Secret}
    {reply : ServerReply Pub Key Sealed Mac} (hcs : S.Agrees ephC staticS ephPubC pubS)
    (hsend : S.clientSend psk pubC pubS ephC ephPubC = some (init, state))
    (hresp : S.serverRespond psk staticS pubS ephS ephPubS init = some reply) :
    reply.clientStaticPub = pubC := by
  obtain ⟨ecSs, encC, hmacC, hss, henc, -, rfl, rfl⟩ := clientSend_eq_some hsend
  obtain ⟨ecSs', eph, encS, hmacS, -, hss', hid, -⟩ := serverRespond_eq_some hresp
  have hcomm : some ecSs = some ecSs' := hss.symm.trans (hcs.comm.trans hss')
  obtain rfl := Option.some.inj hcomm
  have hopened := hopen henc
  rw [hid] at hopened
  exact Option.some.inj hopened

/-- **Key agreement.** The response to an initiation, given back unmodified to
the client state that sent it, yields the key the server derived, and the server
has identified the client. -/
theorem clientRecv_serverRespond [DecidableEq Pub] [DecidableEq Mac]
    {S : Suite Priv Pub Secret Key Sealed Mac} (hopen : S.OpensSealed) {psk : Option Key}
    {staticC staticS ephC ephS : Priv} {pubC pubS ephPubC ephPubS : Pub}
    {init : HsMessage Pub Sealed Mac} {state : HsClientState Priv Pub Secret}
    {reply : ServerReply Pub Key Sealed Mac} {key : Key}
    (hcs : S.Agrees ephC staticS ephPubC pubS) (hee : S.Agrees ephC ephS ephPubC ephPubS)
    (hse : S.Agrees staticC ephS pubC ephPubS)
    (hsend : S.clientSend psk pubC pubS ephC ephPubC = some (init, state))
    (hresp : S.serverRespond psk staticS pubS (some ephS) ephPubS init = some reply)
    (hkey : reply.sessionKey = some key) :
    reply.clientStaticPub = pubC ∧
      S.clientRecv psk staticC pubC pubS state reply.response = some key := by
  have hclient := clientStaticPub_of_serverRespond hopen hcs hsend hresp
  refine ⟨hclient, ?_⟩
  obtain ⟨ecSs, encC, hmacC, hss, -, -, rfl, rfl⟩ := clientSend_eq_some hsend
  obtain ⟨ecSs', eph, encS, hmacS, -, hss', -, heph, hencS, hmacS', hr, hk⟩ :=
    serverRespond_eq_some hresp
  have hcomm : some ecSs = some ecSs' := hss.symm.trans (hcs.comm.trans hss')
  obtain rfl := Option.some.inj hcomm
  rw [hclient] at hk
  rw [hkey] at hk
  obtain ⟨scEs, hsc, rfl⟩ := Option.map_eq_some_iff.mp hk.symm
  have heph' : S.secret (some ephC) ephPubS = some eph := hee.comm.trans heph
  have hsc' : S.sharedSecret staticC ephPubS = some scEs := hse.comm.trans hsc
  rw [hr]
  simp [clientRecv, hmacValid_of_hmacField hmacS', heph', hopen hencS, hsc']

end Suite

variable {Priv Key : Type}

/-- The all-zero IV of identity encryption. -/
def zeroIv : Bytes := List.replicate 12 0

/-- The handshake operations on bytes. -/
def Crypto.suite (C : Crypto Priv Key) : Suite Priv Bytes Bytes Key Bytes Bytes where
  sharedSecret := C.x25519SharedSecret
  identityKey keyMaterial := C.sha256 keyMaterial
  sessionKey ecdhEph ecdhScEs ecdhEcSs clientEphPub serverEphPub clientStaticPub serverStaticPub :=
    C.sha256 (ecdhEph ++ ecdhScEs ++ ecdhEcSs ++ clientEphPub ++ serverEphPub ++
      clientStaticPub ++ serverStaticPub)
  sealIdentity key pub := C.gcmEncrypt key zeroIv pub
  openIdentity key enc := C.gcmDecrypt key zeroIv enc
  mac psk ephPub encStatic := C.hmac psk (ephPub ++ encStatic)

/-- The size of a handshake packet, in both directions. -/
def hsSize (psk : Option Key) : ℕ := 8 + 32 + 48 + if psk.isSome then 32 else 0

/-- The packet the sender writes field by field. -/
def encodeHs (msg : HsMessage Bytes Bytes Bytes) : Bytes :=
  pktHeader ++ msg.ephPub ++ msg.encStatic ++ msg.hmac.getD []

/-- The fields the receiver reads at fixed offsets. -/
def decodeHs (psk : Option Key) (pkt : Bytes) : HsMessage Bytes Bytes Bytes where
  ephPub := (pkt.drop 8).take 32
  encStatic := (pkt.drop (8 + 32)).take 48
  hmac := if psk.isSome then some ((pkt.drop (8 + 32 + 48)).take 32) else none

/-- The test that opens both handshake branches of the event loop. -/
def isHandshake (psk : Option Key) (pkt : Bytes) : Bool :=
  pkt.length = hsSize psk && pkt.take 8 = pktHeader

/-- `handshake_client_send`: `ephKey` is what `generate_eph_keypair` delivered
and `sendOk` whether `sendto` succeeded. The result is the packet sent and the
state kept for the response. -/
def handshakeClientSend (C : Crypto Priv Key) (psk : Option Key) (staticPub serverStaticPub : Bytes)
    (ephKey : Option Priv) (sendOk : Bool) :
    Option (Bytes × HsClientState Priv Bytes Bytes) := do
  let ephKey ← ephKey
  let (init, state) ← C.suite.clientSend psk staticPub serverStaticPub ephKey (C.publicKey ephKey)
  if sendOk then some (encodeHs init, state) else none

/-- `handshake_client_recv`: the session key, and the client state with the
ephemeral key released on success only. -/
def handshakeClientRecv (C : Crypto Priv Key) (psk : Option Key) (staticKey : Priv)
    (staticPub serverStaticPub : Bytes) (state : HsClientState Priv Bytes Bytes) (resp : Bytes) :
    Option Key × HsClientState Priv Bytes Bytes :=
  if !isHandshake psk resp then (none, state)
  else
    match C.suite.clientRecv psk staticKey staticPub serverStaticPub state (decodeHs psk resp) with
    | none => (none, state)
    | some key => (some key, { state with ephKey := none })

/-- `handshake_server_respond`: the response if one was sent, and on success the
client's static key with the session key. -/
def handshakeServerRespond (C : Crypto Priv Key) (psk : Option Key) (staticKey : Priv)
    (staticPub : Bytes) (ephKey : Option Priv) (ephPub : Bytes) (sendOk : Bool) (pkt : Bytes) :
    Option Bytes × Option (Bytes × Key) :=
  if !isHandshake psk pkt then (none, none)
  else
    match C.suite.serverRespond psk staticKey staticPub ephKey ephPub (decodeHs psk pkt) with
    | none => (none, none)
    | some reply =>
      if sendOk then
        (some (encodeHs reply.response), reply.sessionKey.map fun key => (reply.clientStaticPub, key))
      else (none, none)

/-- Public keys and HMACs are 32 bytes long. -/
structure Crypto.Sized (C : Crypto Priv Key) : Prop where
  publicKey_length : ∀ key, (C.publicKey key).length = 32
  hmac_length : ∀ {psk msg out}, C.hmac psk msg = some out → out.length = 32

/-- The field lengths the wire format assumes. -/
structure HsMessage.WellSized (psk : Option Key) (msg : HsMessage Bytes Bytes Bytes) : Prop where
  ephPub_length : msg.ephPub.length = 32
  encStatic_length : msg.encStatic.length = 48
  hmac_isSome : msg.hmac.isSome = psk.isSome
  hmac_length : ∀ mac, msg.hmac = some mac → mac.length = 32

theorem HsMessage.WellSized.hmac_field_length {psk : Option Key} {msg : HsMessage Bytes Bytes Bytes}
    (h : msg.WellSized psk) : (msg.hmac.getD []).length = if psk.isSome then 32 else 0 := by
  cases hm : msg.hmac with
  | none =>
    have := h.hmac_isSome
    rw [hm] at this
    simp [← this]
  | some mac =>
    have hsome := h.hmac_isSome
    rw [hm] at hsome
    simp [← hsome, h.hmac_length mac hm]

/-- What is encoded is recognised as a handshake packet. -/
theorem isHandshake_encodeHs {psk : Option Key} {msg : HsMessage Bytes Bytes Bytes}
    (h : msg.WellSized psk) : isHandshake psk (encodeHs msg) = true := by
  have hlen : (encodeHs msg).length = hsSize psk := by
    simp only [encodeHs, hsSize, List.length_append, length_pktHeader, h.ephPub_length,
      h.encStatic_length, h.hmac_field_length]
  have hhead : (encodeHs msg).take 8 = pktHeader := by
    simp only [encodeHs, List.append_assoc]
    exact List.take_left' length_pktHeader
  simp [isHandshake, hlen, hhead]

/-- The receiver reads back the fields the sender wrote. -/
theorem decodeHs_encodeHs {psk : Option Key} {msg : HsMessage Bytes Bytes Bytes}
    (h : msg.WellSized psk) : decodeHs psk (encodeHs msg) = msg := by
  have h8 : (encodeHs msg).drop 8 = msg.ephPub ++ (msg.encStatic ++ msg.hmac.getD []) := by
    simp only [encodeHs, List.append_assoc]
    exact List.drop_left' length_pktHeader
  have h40 : (encodeHs msg).drop (8 + 32) = msg.encStatic ++ msg.hmac.getD [] := by
    rw [← List.drop_drop, h8]
    exact List.drop_left' h.ephPub_length
  have h88 : (encodeHs msg).drop (8 + 32 + 48) = msg.hmac.getD [] := by
    rw [← List.drop_drop, h40]
    exact List.drop_left' h.encStatic_length
  have hmac : (if psk.isSome then some ((msg.hmac.getD []).take 32) else none) = msg.hmac := by
    have hsome := h.hmac_isSome
    cases hm : msg.hmac with
    | none =>
      rw [hm] at hsome
      simp [← hsome]
    | some mac =>
      rw [hm] at hsome
      have hlen := h.hmac_length mac hm
      simp [← hsome, List.take_of_length_le hlen.le]
  rw [decodeHs, h8, h40, h88, hmac, List.take_left' h.ephPub_length,
    List.take_left' h.encStatic_length]

theorem hmacField_sized {C : Crypto Priv Key} (hs : C.Sized) {psk : Option Key}
    {ephPub enc : Bytes} {hmac : Option Bytes} (h : C.suite.hmacField psk ephPub enc = some hmac) :
    hmac.isSome = psk.isSome ∧ ∀ mac, hmac = some mac → mac.length = 32 := by
  cases psk with
  | none =>
    obtain rfl := Option.some.inj h
    simp
  | some key =>
    obtain ⟨mac, hmac', rfl⟩ := Option.map_eq_some_iff.mp h
    refine ⟨rfl, fun mac' he => ?_⟩
    obtain rfl := Option.some.inj he
    exact hs.hmac_length hmac'

theorem clientSend_wellSized {C : Crypto Priv Key} (hg : C.GcmCorrect) (hs : C.Sized)
    {psk : Option Key} {staticPub serverStaticPub : Bytes} {ephKey : Priv}
    {init : HsMessage Bytes Bytes Bytes} {state : HsClientState Priv Bytes Bytes}
    (hpub : staticPub.length = 32)
    (h : C.suite.clientSend psk staticPub serverStaticPub ephKey (C.publicKey ephKey) =
      some (init, state)) : init.WellSized psk := by
  obtain ⟨ecSs, enc, hmac, -, henc, hmac', rfl, -⟩ := Suite.clientSend_eq_some h
  have hlen := hg.encrypt_length henc
  obtain ⟨hsome, hsize⟩ := hmacField_sized hs hmac'
  exact ⟨hs.publicKey_length _, by simp only; omega, hsome, hsize⟩

theorem serverRespond_wellSized {C : Crypto Priv Key} (hg : C.GcmCorrect) (hs : C.Sized)
    {psk : Option Key} {staticKey : Priv} {staticPub ephPub : Bytes} {ephKey : Option Priv}
    {init : HsMessage Bytes Bytes Bytes} {reply : ServerReply Bytes Key Bytes Bytes}
    (hpub : staticPub.length = 32) (heph : ephPub.length = 32)
    (h : C.suite.serverRespond psk staticKey staticPub ephKey ephPub init = some reply) :
    reply.response.WellSized psk := by
  obtain ⟨-, ecdhEph, enc, hmac, -, -, -, -, henc, hmac', hr, -⟩ := Suite.serverRespond_eq_some h
  have hlen := hg.encrypt_length henc
  obtain ⟨hsome, hsize⟩ := hmacField_sized hs hmac'
  rw [hr]
  exact ⟨heph, by simp only; omega, hsome, hsize⟩

/-- What `handshake_client_send` sends is a handshake packet. -/
theorem isHandshake_handshakeClientSend {C : Crypto Priv Key} (hg : C.GcmCorrect) (hs : C.Sized)
    {psk : Option Key} {staticPub serverStaticPub packet : Bytes} {ephKey : Option Priv}
    {sendOk : Bool} {state : HsClientState Priv Bytes Bytes} (hpub : staticPub.length = 32)
    (h : handshakeClientSend C psk staticPub serverStaticPub ephKey sendOk = some (packet, state)) :
    isHandshake psk packet = true := by
  simp only [handshakeClientSend, Option.bind_eq_bind, Option.bind_eq_some_iff,
    Option.ite_none_right_eq_some, Option.some.injEq, Prod.mk.injEq] at h
  obtain ⟨ephKey, -, ⟨init, state'⟩, hsend, -, rfl, -⟩ := h
  exact isHandshake_encodeHs (clientSend_wellSized hg hs hpub hsend)

/-- What `handshake_server_respond` sends is a handshake packet. -/
theorem isHandshake_handshakeServerRespond {C : Crypto Priv Key} (hg : C.GcmCorrect) (hs : C.Sized)
    {psk : Option Key} {staticKey : Priv} {staticPub ephPub pkt packet : Bytes}
    {ephKey : Option Priv} {sendOk : Bool} (hpub : staticPub.length = 32)
    (heph : ephPub.length = 32)
    (h : (handshakeServerRespond C psk staticKey staticPub ephKey ephPub sendOk pkt).1 =
      some packet) : isHandshake psk packet = true := by
  unfold handshakeServerRespond at h
  split at h
  · exact absurd h (by simp)
  · split at h
    · exact absurd h (by simp)
    · next reply hreply =>
      split at h
      · obtain rfl := Option.some.inj h
        exact isHandshake_encodeHs (serverRespond_wellSized hg hs hpub heph hreply)
      · exact absurd h (by simp)

/-- What the program relies on from X25519: the shared secret of two key pairs exists,
and both ends compute the same one. -/
structure Crypto.DhCorrect (C : Crypto Priv Key) : Prop where
  comm : ∀ a b, C.x25519SharedSecret a (C.publicKey b) = C.x25519SharedSecret b (C.publicKey a)
  total : ∀ a b, (C.x25519SharedSecret a (C.publicKey b)).isSome = true

theorem Crypto.DhCorrect.agrees {C : Crypto Priv Key} (hD : C.DhCorrect) (a b : Priv) :
    C.suite.Agrees a b (C.publicKey a) (C.publicKey b) :=
  ⟨hD.comm a b⟩

/-- **Key agreement on the wire.** A server that answers an initiation of an honest
client derives a key for that client, and the client derives the same from the
response. -/
theorem handshake_agreement {C : Crypto Priv Key} (hC : C.GcmCorrect) (hS : C.Sized)
    (hD : C.DhCorrect) {psk : Option Key} {staticC staticS : Priv} {ephC ephS : Option Priv}
    {ephPubS init resp : Bytes} {sentOk respondOk : Bool} {state : HsClientState Priv Bytes Bytes}
    {derived : Option (Bytes × Key)} (heph : ∀ key, ephS = some key → ephPubS = C.publicKey key)
    (hsend : handshakeClientSend C psk (C.publicKey staticC) (C.publicKey staticS) ephC sentOk =
      some (init, state))
    (hresp : handshakeServerRespond C psk staticS (C.publicKey staticS) ephS ephPubS respondOk init =
      (some resp, derived)) :
    ∃ key, derived = some (C.publicKey staticC, key) ∧
      (handshakeClientRecv C psk staticC (C.publicKey staticC) (C.publicKey staticS) state
        resp).1 = some key := by
  simp only [handshakeClientSend, Option.bind_eq_bind, Option.bind_eq_some_iff,
    Option.ite_none_right_eq_some, Option.some.injEq, Prod.mk.injEq] at hsend
  obtain ⟨ephC, -, ⟨msg, state'⟩, hclient, -, rfl, rfl⟩ := hsend
  have hsized := clientSend_wellSized hC hS (hS.publicKey_length _) hclient
  simp only [handshakeServerRespond, isHandshake_encodeHs hsized, decodeHs_encodeHs hsized,
    Bool.not_true, Bool.false_eq_true, if_false] at hresp
  cases hserver : C.suite.serverRespond psk staticS (C.publicKey staticS) ephS ephPubS msg with
  | none => exact absurd hresp (by simp [hserver])
  | some reply =>
    simp only [hserver] at hresp
    split at hresp
    · obtain ⟨hencoded, rfl⟩ := Prod.mk.inj hresp
      obtain rfl := Option.some.inj hencoded
      obtain ⟨_, _, _, _, -, -, -, hephS, -, -, -, hkey⟩ := Suite.serverRespond_eq_some hserver
      cases ephS with
      | none => exact absurd hephS (by simp [Suite.secret])
      | some ephS =>
        obtain rfl := heph ephS rfl
        have hpub := Suite.clientStaticPub_of_serverRespond hC.decrypt_encrypt
          (hD.agrees ephC staticS) hclient hserver
        have hsecret : (C.suite.secret (some ephS) reply.clientStaticPub).isSome = true := by
          rw [hpub]
          exact hD.total ephS staticC
        obtain ⟨secret, hsecret⟩ := Option.isSome_iff_exists.mp hsecret
        rw [hsecret, Option.map_some, hpub] at hkey
        obtain ⟨-, hrecv⟩ := Suite.clientRecv_serverRespond hC.decrypt_encrypt
          (hD.agrees ephC staticS) (hD.agrees ephC ephS) (hD.agrees staticC ephS) hclient hserver hkey
        have hsized' := serverRespond_wellSized hC hS (hS.publicKey_length _)
          (hS.publicKey_length _) hserver
        refine ⟨_, by rw [hkey, hpub]; rfl, ?_⟩
        simp [handshakeClientRecv, isHandshake_encodeHs hsized', decodeHs_encodeHs hsized', hrecv]
    · exact absurd hresp (by simp)

end LaneCove
