import LaneCove.Answers
import LaneCove.Delivery
import LaneCove.Outbound

/-!
# What a session key is bound to

`derive_session_key` hashes three shared secrets and four public keys, each 32 bytes long.
Unless SHA-256 collides, two handshakes that end with the same key have hashed the same
fields, so they agree on who the two peers are and on the ephemeral keys.

## Main definitions

- `Transcript` — the arguments of `derive_session_key`
- `Derivation`, `derivationOf` — the call a reaction makes, and in which role
- `NoCollision` — the calls of a run have no collision

## Main results

- `Transcript.bytes_injective` — the fields can be read off the bytes
- `negotiations_step` — every key negotiated is the hash of its derivation
- `derivations_bound` — the derivations of a peer name the peer itself
- `Derivation.Bound.same_transcript` — who else can have derived the same key
-/

namespace LaneCove

variable {Priv Key : Type}

/-- The arguments of `derive_session_key`. -/
structure Transcript where
  ecdhEph : Bytes
  ecdhScEs : Bytes
  ecdhEcSs : Bytes
  clientEph : Bytes
  serverEph : Bytes
  clientStatic : Bytes
  serverStatic : Bytes
deriving DecidableEq

/-- The buffer that `derive_session_key` hashes. -/
def Transcript.bytes (t : Transcript) : Bytes :=
  t.ecdhEph ++ t.ecdhScEs ++ t.ecdhEcSs ++ t.clientEph ++ t.serverEph ++ t.clientStatic ++
    t.serverStatic

/-- Every argument is an array of 32 bytes. -/
structure Transcript.WellSized (t : Transcript) : Prop where
  ecdhEph : t.ecdhEph.length = 32
  ecdhScEs : t.ecdhScEs.length = 32
  ecdhEcSs : t.ecdhEcSs.length = 32
  clientEph : t.clientEph.length = 32
  serverEph : t.serverEph.length = 32
  clientStatic : t.clientStatic.length = 32
  serverStatic : t.serverStatic.length = 32

/-- The fields are at fixed places. -/
theorem Transcript.bytes_injective {t t' : Transcript} (h : t.WellSized) (h' : t'.WellSized)
    (heq : t.bytes = t'.bytes) : t = t' := by
  obtain ⟨heq, hss⟩ := List.append_inj' heq (h.serverStatic.trans h'.serverStatic.symm)
  obtain ⟨heq, hcs⟩ := List.append_inj' heq (h.clientStatic.trans h'.clientStatic.symm)
  obtain ⟨heq, hse⟩ := List.append_inj' heq (h.serverEph.trans h'.serverEph.symm)
  obtain ⟨heq, hce⟩ := List.append_inj' heq (h.clientEph.trans h'.clientEph.symm)
  obtain ⟨heq, hec⟩ := List.append_inj' heq (h.ecdhEcSs.trans h'.ecdhEcSs.symm)
  obtain ⟨hee, hsc⟩ := List.append_inj' heq (h.ecdhScEs.trans h'.ecdhScEs.symm)
  cases t
  cases t'
  simp_all

/-- A call of `derive_session_key`, as initiator or as responder. -/
structure Derivation where
  isOutbound : Bool
  transcript : Transcript
deriving DecidableEq

namespace Derivation

/-- The static key of the peer that derives. -/
def ownStatic (d : Derivation) : Bytes :=
  if d.isOutbound then d.transcript.clientStatic else d.transcript.serverStatic

/-- The static key of the peer it derives the key with. -/
def peerStatic (d : Derivation) : Bytes :=
  if d.isOutbound then d.transcript.serverStatic else d.transcript.clientStatic

/-- The ephemeral key of the peer that derives. -/
def ownEph (d : Derivation) : Bytes :=
  if d.isOutbound then d.transcript.clientEph else d.transcript.serverEph

/-- The session key derived. -/
def key (C : Crypto Priv Key) (d : Derivation) : Key := C.sha256 d.transcript.bytes

end Derivation

/-- The call in `handshake_client_recv`. -/
def clientTranscript (C : Crypto Priv Key) (P : PeerParams Priv Key) (pub : Bytes)
    (state : HsClientState Priv Bytes Bytes) (packet : Bytes) : Option Transcript := do
  let resp := decodeHs P.psk packet
  let ecdhEph ← C.suite.secret state.ephKey resp.ephPub
  let ecdhScEs ← C.x25519SharedSecret P.staticKey resp.ephPub
  some {
    ecdhEph, ecdhScEs, ecdhEcSs := state.ecdhEcSs
    clientEph := state.ephPub, serverEph := resp.ephPub
    clientStatic := P.staticPub, serverStatic := pub }

/-- The call in `handshake_server_respond`. -/
def serverTranscript (C : Crypto Priv Key) (P : PeerParams Priv Key) (st : PeerState Priv Key)
    (pub packet : Bytes) : Option Transcript := do
  let init := decodeHs P.psk packet
  let ecdhEph ← C.suite.secret st.precompEphKey init.ephPub
  let ecdhScEs ← C.suite.secret st.precompEphKey pub
  let ecdhEcSs ← C.x25519SharedSecret P.staticKey init.ephPub
  some {
    ecdhEph, ecdhScEs, ecdhEcSs
    clientEph := init.ephPub, serverEph := st.precompEphPub C
    clientStatic := pub, serverStatic := P.staticPub }

theorem clientTranscript_eq_some {C : Crypto Priv Key} {P : PeerParams Priv Key} {pub : Bytes}
    {state : HsClientState Priv Bytes Bytes} {packet : Bytes} {t : Transcript} :
    clientTranscript C P pub state packet = some t ↔ ∃ ecdhEph ecdhScEs,
      C.suite.secret state.ephKey (decodeHs P.psk packet).ephPub = some ecdhEph ∧
      C.x25519SharedSecret P.staticKey (decodeHs P.psk packet).ephPub = some ecdhScEs ∧
      t = ⟨ecdhEph, ecdhScEs, state.ecdhEcSs, state.ephPub, (decodeHs P.psk packet).ephPub,
        P.staticPub, pub⟩ := by
  simp only [clientTranscript, Option.bind_eq_bind, Option.bind_eq_some_iff, Option.some.injEq]
  constructor
  · rintro ⟨ecdhEph, heph, ecdhScEs, hsc, rfl⟩
    exact ⟨ecdhEph, ecdhScEs, heph, hsc, rfl⟩
  · rintro ⟨ecdhEph, ecdhScEs, heph, hsc, rfl⟩
    exact ⟨ecdhEph, heph, ecdhScEs, hsc, rfl⟩

theorem serverTranscript_eq_some {C : Crypto Priv Key} {P : PeerParams Priv Key}
    {st : PeerState Priv Key} {pub packet : Bytes} {t : Transcript} :
    serverTranscript C P st pub packet = some t ↔ ∃ ecdhEph ecdhScEs ecdhEcSs,
      C.suite.secret st.precompEphKey (decodeHs P.psk packet).ephPub = some ecdhEph ∧
      C.suite.secret st.precompEphKey pub = some ecdhScEs ∧
      C.x25519SharedSecret P.staticKey (decodeHs P.psk packet).ephPub = some ecdhEcSs ∧
      t = ⟨ecdhEph, ecdhScEs, ecdhEcSs, (decodeHs P.psk packet).ephPub, st.precompEphPub C, pub,
        P.staticPub⟩ := by
  simp only [serverTranscript, Option.bind_eq_bind, Option.bind_eq_some_iff, Option.some.injEq]
  constructor
  · rintro ⟨ecdhEph, heph, ecdhScEs, hsc, ecdhEcSs, hec, rfl⟩
    exact ⟨ecdhEph, ecdhScEs, ecdhEcSs, heph, hsc, hec, rfl⟩
  · rintro ⟨ecdhEph, ecdhScEs, ecdhEcSs, heph, hsc, hec, rfl⟩
    exact ⟨ecdhEph, heph, ecdhScEs, hsc, ecdhEcSs, hec, rfl⟩

/-- The call of `derive_session_key` that a reaction makes, if any. -/
def derivationOf (C : Crypto Priv Key) (P : PeerParams Priv Key) (st : PeerState Priv Key)
    (inp : Input Priv) : Option Derivation :=
  match inp with
  | .udpRecv src packet _ _ =>
    if isHandshake P.psk packet then
      match findPending st.pending src with
      | some j => st.pending[j]?.bind fun p =>
        if (responseKey C P st p packet).isSome then
          (clientTranscript C P (st.config p.cfgIdx).pub p.hsState packet).map (⟨true, ·⟩)
        else none
      | none => (respondCall C P st inp).2.bind fun r =>
        (serverTranscript C P st r.1 packet).map (⟨false, ·⟩)
    else none
  | .tick .. | .tunRead .. => none

-- ════════════════════════════════════════════════════════════════════════
-- Every key negotiated is the hash of its derivation
-- ════════════════════════════════════════════════════════════════════════

theorem Suite.clientRecv_eq_some {Pub Secret Sealed Mac : Type} [DecidableEq Pub] [DecidableEq Mac]
    {S : Suite Priv Pub Secret Key Sealed Mac} {psk : Option Key} {staticKey : Priv}
    {staticPub serverStaticPub : Pub} {state : HsClientState Priv Pub Secret}
    {resp : HsMessage Pub Sealed Mac} {key : Key}
    (h : S.clientRecv psk staticKey staticPub serverStaticPub state resp = some key) :
    ∃ ecdhEph ecdhScEs, S.secret state.ephKey resp.ephPub = some ecdhEph ∧
      S.sharedSecret staticKey resp.ephPub = some ecdhScEs ∧
      key = S.sessionKey ecdhEph ecdhScEs state.ecdhEcSs state.ephPub resp.ephPub staticPub
        serverStaticPub := by
  unfold clientRecv at h
  split at h
  · simp only [Option.bind_eq_bind, Option.bind_eq_some_iff] at h
    obtain ⟨ecdhEph, heph, pub, -, h⟩ := h
    split at h
    · exact absurd h (by simp)
    · next hpub =>
      simp only [Option.bind_eq_some_iff, Option.some.injEq] at h
      obtain ⟨ecdhScEs, hsc, rfl⟩ := h
      exact ⟨ecdhEph, ecdhScEs, heph, hsc, by rw [not_not.mp hpub]⟩
  · exact absurd h (by simp)

variable {C : Crypto Priv Key} {P : PeerParams Priv Key} {st : PeerState Priv Key}

/-- A key that `handshake_client_recv` returns is the hash of the client's transcript. -/
theorem responseKey_transcript {p : PendingHs Priv} {packet : Bytes} {key : Key}
    (h : responseKey C P st p packet = some key) :
    ∃ t, clientTranscript C P (st.config p.cfgIdx).pub p.hsState packet = some t ∧
      key = C.sha256 t.bytes := by
  unfold responseKey handshakeClientRecv at h
  split at h
  · exact absurd h (by simp)
  · split at h
    · exact absurd h (by simp)
    · next hrecv =>
      obtain ⟨ecdhEph, ecdhScEs, heph, hsc, hkey⟩ := Suite.clientRecv_eq_some hrecv
      refine ⟨_, clientTranscript_eq_some.mpr ⟨ecdhEph, ecdhScEs, heph, hsc, rfl⟩, ?_⟩
      rw [← Option.some.inj h, hkey]
      rfl

/-- A key that `handshake_server_respond` returns is the hash of the server's transcript; the
client's static key was decrypted from the initiation, and the response has left. -/
theorem respond_transcript {packet pub : Bytes} {sendOk : Bool} {key : Key}
    (h : (respond C P st packet sendOk).2 = some (pub, key)) :
    (∃ t, serverTranscript C P st pub packet = some t ∧ key = C.sha256 t.bytes) ∧
      (∃ identityKey, C.gcmDecrypt identityKey zeroIv (decodeHs P.psk packet).encStatic = some pub) ∧
      ∃ resp, (respond C P st packet sendOk).1 = some resp := by
  unfold respond handshakeServerRespond at h ⊢
  split at h
  · exact absurd h (by simp)
  · next hhs =>
    rw [if_neg hhs]
    split at h
    · exact absurd h (by simp)
    · next reply hreply =>
      split at h
      · next hsent =>
        rw [if_pos hsent]
        obtain ⟨key', hkey', heq⟩ := Option.map_eq_some_iff.mp h
        obtain ⟨rfl, rfl⟩ := Prod.mk.inj heq
        obtain ⟨ecSs, eph, _, _, -, hss, hopen, heph, -, -, -, hkey⟩ :=
          Suite.serverRespond_eq_some hreply
        rw [hkey'] at hkey
        obtain ⟨scEs, hsc, rfl⟩ := Option.map_eq_some_iff.mp hkey.symm
        exact ⟨⟨_, serverTranscript_eq_some.mpr ⟨eph, scEs, ecSs, heph, hsc, hss, rfl⟩, rfl⟩,
          ⟨_, hopen⟩, _, rfl⟩
      · exact absurd h (by simp)

@[simp] theorem negotiations_append (es fs : List (Event Key)) :
    negotiations (es ++ fs) = negotiations es ++ negotiations fs := List.filterMap_append

@[simp] theorem negotiations_cons (pub : Bytes) (key : Key) (es : List (Event Key)) :
    negotiations (.negotiated pub key :: es) = (pub, key) :: negotiations es := rfl

theorem negotiations_eq_nil {es : List (Event Key)} (h : ∀ pub key, .negotiated pub key ∉ es) :
    negotiations es = [] := by
  refine List.filterMap_eq_nil_iff.mpr fun e he => ?_
  cases e with
  | negotiated pub key => exact absurd he (h pub key)
  | _ => rfl

@[simp] theorem negotiations_responseEvents (src : SockAddr) (init : Bytes) (reply : Option Bytes) :
    negotiations (responseEvents src init reply : List (Event Key)) = [] := by
  cases reply <;> rfl

variable [Inhabited Key]

theorem negotiations_install (P : PeerParams Priv Key) (st : PeerState Priv Key) (c : Commit Key) :
    negotiations (install P st c).2 = [] := by
  refine negotiations_eq_nil fun pub key he => ?_
  rw [install_events] at he
  obtain ⟨_, -, heq⟩ := mem_installEvents.mp he
  exact absurd heq (by simp)

theorem negotiations_commitInbound (src : SockAddr) (packet : Bytes) (now : Time)
    (clk : InitClock) (pub : Bytes) (key : Key) :
    negotiations (commitInbound P st src packet now clk pub key).2 = [] := by
  unfold commitInbound
  split
  · rfl
  · split
    · rfl
    · exact negotiations_install P st _

/-- The response path negotiates what it derives. -/
theorem negotiations_response {src : SockAddr} {packet : Bytes} {now : Time} {env : RecvEnv Priv}
    {j : ℕ} (hhs : isHandshake P.psk packet = true) (hfind : findPending st.pending src = some j) :
    negotiations (step C P st (.udpRecv src packet now env)).2 =
      (derivationOf C P st (.udpRecv src packet now env)).toList.map
        fun d => (d.peerStatic, d.key C) := by
  obtain ⟨p, hp, -, -⟩ := findPending_eq_some hfind
  simp only [step, udpRecv, hhs, if_true, hfind, recvResponse, hp, derivationOf, Option.bind_some]
  cases hkey : responseKey C P st p packet with
  | none =>
    rw [responseKey] at hkey
    simp [hkey, negotiations]
  | some key =>
    obtain ⟨t, ht, rfl⟩ := responseKey_transcript hkey
    obtain ⟨_, _, -, -, rfl⟩ := clientTranscript_eq_some.mp ht
    rw [responseKey] at hkey
    simp only [hkey, ht, negotiations_cons, negotiations_install]
    rfl

/-- The path of an initiation negotiates what it derives. -/
theorem negotiations_init {src : SockAddr} {packet : Bytes} {now : Time} {env : RecvEnv Priv}
    (hhs : isHandshake P.psk packet = true) (hfind : findPending st.pending src = none) :
    negotiations (step C P st (.udpRecv src packet now env)).2 =
      (derivationOf C P st (.udpRecv src packet now env)).toList.map
        fun d => (d.peerStatic, d.key C) := by
  rw [step_inbound C P hhs hfind]
  simp only [derivationOf, hfind, respondCall, hhs, if_true, Option.isNone_none, Bool.true_and]
  cases inCooldown P.settings st.sessions (findSessionByAddr st.sessions src) now with
  | true => rfl
  | false =>
    simp only [Bool.false_eq_true, if_false, Bool.not_false, if_true]
    cases hderived : (respond C P st packet env.respondOk).2 with
    | none =>
      have hpair : respond C P st packet env.respondOk =
        ((respond C P st packet env.respondOk).1, none) := Prod.ext rfl hderived
      rw [hpair]
      simp
    | some r =>
      obtain ⟨pub, key⟩ := r
      have hpair : respond C P st packet env.respondOk =
        ((respond C P st packet env.respondOk).1, some (pub, key)) := Prod.ext rfl hderived
      obtain ⟨⟨t, ht, rfl⟩, -⟩ := respond_transcript hderived
      obtain ⟨_, _, _, -, -, -, rfl⟩ := serverTranscript_eq_some.mp ht
      rw [hpair]
      simp only [Option.bind_some, ht, negotiations_append, negotiations_responseEvents,
        negotiations_cons, negotiations_commitInbound]
      rfl

/-- **The keys of a reaction**: it negotiates what it derives, with the peer of the
derivation. -/
theorem negotiations_step (C : Crypto Priv Key) (P : PeerParams Priv Key) (st : PeerState Priv Key)
    (inp : Input Priv) : negotiations (step C P st inp).2 =
      (derivationOf C P st inp).toList.map fun d => (d.peerStatic, d.key C) := by
  cases inp with
  | tick now connect keepalive =>
    exact negotiations_eq_nil fun pub key he => tick_fromTimers now connect keepalive _ he
  | tunRead buffer env =>
    refine negotiations_eq_nil fun pub key he => ?_
    simp only [step, tunRead] at he
    split at he
    · split at he
      · exact absurd he (by simp)
      · obtain ⟨_, _, heq, -⟩ := mem_forwardOn he
        exact absurd heq (by simp)
    · exact absurd he (by simp)
  | udpRecv src packet now env =>
    by_cases hhs : isHandshake P.psk packet = true
    · cases hfind : findPending st.pending src with
      | some j => exact negotiations_response hhs hfind
      | none => exact negotiations_init hhs hfind
    · rw [derivationOf, if_neg hhs]
      refine negotiations_eq_nil fun pub key he => ?_
      simp only [step, udpRecv, if_neg hhs] at he
      split at he
      · exact absurd he (by simp)
      · split at he
        · exact absurd he (by simp)
        · rcases mem_recvData he with ⟨_, _, _, _, heq⟩ | ⟨_, _, _, heq⟩ | ⟨_, _, _, _, _, heq, -⟩ <;>
            exact absurd heq (by simp)

-- ════════════════════════════════════════════════════════════════════════
-- The derivations of a run
-- ════════════════════════════════════════════════════════════════════════

/-- The calls of `derive_session_key` in a run. -/
def derivations (C : Crypto Priv Key) (P : PeerParams Priv Key) (st : PeerState Priv Key)
    (is : List (Input Priv)) : List Derivation :=
  (Machine.run (Machine.observe (step C P) fun st inp => (derivationOf C P st inp).toList) st is).2

/-- The keys negotiated in a run are those derived. -/
theorem negotiations_run (C : Crypto Priv Key) (P : PeerParams Priv Key) (st : PeerState Priv Key)
    (is : List (Input Priv)) : negotiations (Machine.run (step C P) st is).2 =
      (derivations C P st is).map fun d => (d.peerStatic, d.key C) :=
  Machine.observe_invariant (step C P) _
    (I := fun _ tr (log : List Derivation) =>
      negotiations tr = log.map fun d => (d.peerStatic, d.key C))
    (fun st tr log inp h => by
      rw [negotiations_append, h, negotiations_step, List.map_append]) rfl is

omit [Inhabited Key] in
/-- Shared secrets are 32 bytes long, and a GCM output is a tag longer than what it decrypts
to. -/
structure Crypto.OutputSized (C : Crypto Priv Key) : Prop where
  secret_length : ∀ {priv pub out}, C.x25519SharedSecret priv pub = some out → out.length = 32
  decrypt_length : ∀ {key iv out plain}, C.gcmDecrypt key iv out = some plain →
    out.length = plain.length + 16

omit [Inhabited Key] in
/-- What the derivations of a peer have in common: their fields have their sizes, they name
the peer itself, and as initiator it names a configured peer. -/
structure Derivation.Bound (P : PeerParams Priv Key) (configs : List PeerConfig) (d : Derivation) :
    Prop where
  wellSized : d.transcript.WellSized
  ownStatic : d.ownStatic = P.staticPub
  configured : d.isOutbound = true → ∃ cfg ∈ configs, cfg.pub = d.peerStatic

omit [Inhabited Key] in
theorem decodeHs_lengths {psk : Option Key} {packet : Bytes} (h : isHandshake psk packet = true) :
    (decodeHs psk packet).ephPub.length = 32 ∧ (decodeHs psk packet).encStatic.length = 48 := by
  simp only [isHandshake, Bool.and_eq_true, decide_eq_true_eq] at h
  have hlen : 8 + 32 + 48 ≤ packet.length := h.1 ▸ Nat.le_add_right ..
  simp only [decodeHs, List.length_take, List.length_drop]
  omega

omit [Inhabited Key] in
theorem secret_eq_some {key : Option Priv} {pub out : Bytes}
    (h : C.suite.secret key pub = some out) :
    ∃ priv, key = some priv ∧ C.x25519SharedSecret priv pub = some out :=
  Option.bind_eq_some_iff.mp h

omit [Inhabited Key] in
/-- What `handshake_client_send` keeps for the response. -/
theorem handshakeClientSend_state {psk : Option Key} {staticPub serverStaticPub packet : Bytes}
    {ephKey : Option Priv} {sendOk : Bool} {state : HsClientState Priv Bytes Bytes}
    (h : handshakeClientSend C psk staticPub serverStaticPub ephKey sendOk = some (packet, state)) :
    ∃ eph msg, state.ephPub = C.publicKey eph ∧ msg.ephPub = C.publicKey eph ∧
      packet = encodeHs msg ∧ C.x25519SharedSecret eph serverStaticPub = some state.ecdhEcSs := by
  simp only [handshakeClientSend, Option.bind_eq_bind, Option.bind_eq_some_iff,
    Option.ite_none_right_eq_some, Option.some.injEq, Prod.mk.injEq] at h
  obtain ⟨eph, -, ⟨msg, state'⟩, hsend, -, rfl, rfl⟩ := h
  obtain ⟨_, _, _, hss, -, -, rfl, rfl⟩ := Suite.clientSend_eq_some hsend
  exact ⟨eph, _, rfl, rfl, rfl, hss⟩

section Bound

variable {configs : List PeerConfig} (hS : C.Sized) (hO : C.OutputSized) (hP : P.WellKeyed C)
  (hpubs : ∀ cfg ∈ configs, cfg.pub.length = 32)

omit [Inhabited Key] in
include hS hO hP hpubs in
theorem clientTranscript_bound (hsetup : SetupOk configs st)
    {inits : List Bytes} (hsent : PendingTraced C P configs st.pending inits) {j : ℕ}
    {p : PendingHs Priv}
    (hp : st.pending[j]? = some p) (ha : p.active = true) {packet : Bytes} {t : Transcript}
    (hhs : isHandshake P.psk packet = true)
    (ht : clientTranscript C P (st.config p.cfgIdx).pub p.hsState packet = some t) :
    Derivation.Bound P configs ⟨true, t⟩ := by
  obtain ⟨ecdhEph, ecdhScEs, heph, hsc, rfl⟩ := clientTranscript_eq_some.mp ht
  obtain ⟨_, -, heph⟩ := secret_eq_some heph
  obtain ⟨_, -, hsend⟩ := hsent j p hp ha
  obtain ⟨eph, _, hpub, -, -, hss⟩ := handshakeClientSend_state hsend
  obtain ⟨cfg, hcfg, hcfgPub, -⟩ := hsetup.config (hsetup.pending_lt j p hp ha)
  refine ⟨⟨hO.secret_length heph, hO.secret_length hsc, hO.secret_length hss, ?_,
    (decodeHs_lengths hhs).1, hP.length hS, ?_⟩, rfl, fun _ => ⟨cfg, hcfg, hcfgPub⟩⟩
  · exact hpub ▸ hS.publicKey_length eph
  · exact hcfgPub ▸ hpubs cfg hcfg

omit [Inhabited Key] in
include hS hO hP in
theorem serverTranscript_bound {packet pub : Bytes} {sendOk : Bool} {key : Key} {t : Transcript}
    (hhs : isHandshake P.psk packet = true)
    (hresp : (respond C P st packet sendOk).2 = some (pub, key))
    (ht : serverTranscript C P st pub packet = some t) :
    Derivation.Bound P configs ⟨false, t⟩ := by
  obtain ⟨-, ⟨_, hopen⟩, -⟩ := respond_transcript hresp
  obtain ⟨ecdhEph, ecdhScEs, ecdhEcSs, heph, hsc, hec, rfl⟩ := serverTranscript_eq_some.mp ht
  obtain ⟨_, -, heph⟩ := secret_eq_some heph
  obtain ⟨_, -, hsc⟩ := secret_eq_some hsc
  have hlens := decodeHs_lengths hhs
  have hpub := hO.decrypt_length hopen
  exact ⟨⟨hO.secret_length heph, hO.secret_length hsc, hO.secret_length hec, hlens.1,
    precompEphPub_length hS st, by dsimp only; omega, hP.length hS⟩, rfl,
    fun h => absurd h (by simp)⟩

omit [Inhabited Key] in
/-- The two ways to derive a key. -/
theorem derivationOf_eq_some {inp : Input Priv} {d : Derivation}
    (h : derivationOf C P st inp = some d) :
    ∃ src packet now env, inp = .udpRecv src packet now env ∧ isHandshake P.psk packet = true ∧
      ((∃ j p key t, findPending st.pending src = some j ∧ st.pending[j]? = some p ∧
          responseKey C P st p packet = some key ∧
          clientTranscript C P (st.config p.cfgIdx).pub p.hsState packet = some t ∧ d = ⟨true, t⟩) ∨
        ∃ pub key t, (respondCall C P st inp).2 = some (pub, key) ∧
          respondCall C P st inp = respond C P st packet env.respondOk ∧
          serverTranscript C P st pub packet = some t ∧ d = ⟨false, t⟩) := by
  cases inp with
  | tick => exact absurd h (by simp [derivationOf])
  | tunRead => exact absurd h (by simp [derivationOf])
  | udpRecv src packet now env =>
    refine ⟨src, packet, now, env, rfl, ?_⟩
    simp only [derivationOf, Option.ite_none_right_eq_some] at h
    obtain ⟨hhs, h⟩ := h
    refine ⟨hhs, ?_⟩
    split at h
    · next j hfind =>
      obtain ⟨p, hp, h⟩ := Option.bind_eq_some_iff.mp h
      simp only [Option.ite_none_right_eq_some, Option.map_eq_some_iff] at h
      obtain ⟨hkey, t, ht, rfl⟩ := h
      obtain ⟨key, hkey⟩ := Option.isSome_iff_exists.mp hkey
      exact Or.inl ⟨j, p, key, t, hfind, hp, hkey, ht, rfl⟩
    · obtain ⟨⟨pub, key⟩, hcall, h⟩ := Option.bind_eq_some_iff.mp h
      obtain ⟨t, ht, rfl⟩ := Option.map_eq_some_iff.mp h
      refine Or.inr ⟨pub, key, t, hcall, ?_, ht, rfl⟩
      simp only [respondCall] at hcall ⊢
      split at hcall
      · next hcond => rw [if_pos hcond]
      · exact absurd hcall (by simp)

omit [Inhabited Key] in
include hS hO hP hpubs in
theorem derivationOf_bound (hsetup : SetupOk configs st)
    {inits : List Bytes} (hsent : PendingTraced C P configs st.pending inits) {inp : Input Priv}
    {d : Derivation}
    (hd : derivationOf C P st inp = some d) : d.Bound P configs := by
  obtain ⟨src, packet, now, env, rfl, hhs, hresp | hinit⟩ := derivationOf_eq_some hd
  · obtain ⟨j, p, key, t, hfind, hp, -, ht, rfl⟩ := hresp
    obtain ⟨p', hp', ha, -⟩ := findPending_eq_some hfind
    obtain rfl : p' = p := Option.some.inj (hp'.symm.trans hp)
    exact clientTranscript_bound hS hO hP hpubs hsetup hsent hp ha hhs ht
  · obtain ⟨pub, key, t, hcall, hrespond, ht, rfl⟩ := hinit
    rw [hrespond] at hcall
    exact serverTranscript_bound hS hO hP hhs hcall ht

include hS hO hP hpubs in
/-- **Run**: every derivation is bound to the peer that makes it. -/
theorem derivations_bound (eph : Option Priv) (is : List (Input Priv)) :
    ∀ d ∈ derivations C P (PeerState.initial configs eph) is, d.Bound P configs := by
  have hrun := Machine.observe_invariant (step C P)
    (fun st inp => (derivationOf C P st inp).toList)
    (I := fun st tr log =>
      (SetupOk configs st ∧ PendingTraced C P configs st.pending (initiations tr)) ∧
        ∀ d ∈ log, d.Bound P configs)
    (s := PeerState.initial configs eph) (fun st tr log inp ⟨hst, hlog⟩ => by
      refine ⟨⟨hst.1.step C P inp, hst.2.step hst.1 inp⟩, fun d hd => ?_⟩
      rcases List.mem_append.mp hd with hd | hd
      · exact hlog d hd
      · exact derivationOf_bound hS hO hP hpubs hst.1 hst.2 (Option.mem_toList.mp hd))
    ⟨⟨.initial configs eph, .initial configs configs eph⟩, by simp⟩ is
  exact hrun.2

end Bound

-- ════════════════════════════════════════════════════════════════════════
-- The same key twice
-- ════════════════════════════════════════════════════════════════════════

omit [Inhabited Key]

/-- SHA-256 has no collision among these calls of `derive_session_key`. -/
def NoCollision (C : Crypto Priv Key) (ds : List Derivation) : Prop :=
  ∀ d ∈ ds, ∀ d' ∈ ds, d.key C = d'.key C → d.transcript.bytes = d'.transcript.bytes

instance [DecidableEq Key] (C : Crypto Priv Key) (ds : List Derivation) :
    Decidable (NoCollision C ds) :=
  inferInstanceAs (Decidable (∀ d ∈ ds, ∀ d' ∈ ds, _ → _))

theorem NoCollision.transcript_eq {ds : List Derivation} (h : NoCollision C ds)
    {P P' : PeerParams Priv Key} {configs configs' : List PeerConfig} {d d' : Derivation}
    (hd : d ∈ ds) (hd' : d' ∈ ds) (hb : d.Bound P configs) (hb' : d'.Bound P' configs')
    (hkey : d.key C = d'.key C) : d.transcript = d'.transcript :=
  Transcript.bytes_injective hb.wellSized hb'.wellSized (h d hd d' hd' hkey)

/-- Two derivations with the same fields, by the peers `P` and `P'`: the same role of the same
peer, with the same other peer, or the two roles of two peers that name each other. -/
theorem Derivation.Bound.same_transcript {P P' : PeerParams Priv Key}
    {configs configs' : List PeerConfig} {d d' : Derivation} (hb : d.Bound P configs)
    (hb' : d'.Bound P' configs') (ht : d.transcript = d'.transcript) :
    (d.isOutbound = d'.isOutbound ∧ P.staticPub = P'.staticPub ∧ d.peerStatic = d'.peerStatic) ∨
      (d.isOutbound ≠ d'.isOutbound ∧ d.peerStatic = P'.staticPub ∧
        d'.peerStatic = P.staticPub) := by
  have hown := hb.ownStatic
  have hown' := hb'.ownStatic
  rw [← hown, ← hown']
  obtain ⟨role, t⟩ := d
  obtain ⟨role', t'⟩ := d'
  obtain rfl : t = t' := ht
  cases role <;> cases role' <;> simp [Derivation.ownStatic, Derivation.peerStatic]

namespace Sample

theorem crypto_outputSized : crypto.OutputSized where
  secret_length h := by
    simp only [crypto, shared, Option.ite_none_left_eq_some, Option.some.injEq] at h
    simp [← h.2]
  decrypt_length {key iv out plain} h := by
    simp only [crypto, Option.ite_none_right_eq_some, Option.some.injEq] at h
    obtain ⟨htag, rfl⟩ := h
    have hlen := congrArg List.length htag
    simp only [tag, List.length_drop, BigEndian.length_encode] at hlen
    simp only [List.length_take]
    omega

end Sample

end LaneCove
