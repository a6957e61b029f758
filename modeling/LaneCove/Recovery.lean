import LaneCove.Authentication
import LaneCove.Capacity
import LaneCove.Outbound

/-!
# Coming back

Whatever has happened to two peers, one exchange of handshake packets that is not disturbed
connects them again: sessions that have expired, a restart of either side, handshakes that
were lost. The initiation of a handshake that is pending at one peer is answered by the other
if it is ready for it, and the response completes the handshake; the session tables have room
for both, and both sessions start from the same key with fresh counters.

## Main definitions

- `ConnectedTo` — an active session with a peer, at an address, fresh under a key
- `ReadyFor` — a peer that lets a handshake of another one through

## Main results

- `exchange_connects` — one exchange connects two peers from any states of any runs
-/

namespace LaneCove

variable {Priv Key : Type}

-- ════════════════════════════════════════════════════════════════════════
-- Sessions after a handshake
-- ════════════════════════════════════════════════════════════════════════

/-- The peer has an active session with the peer `pub` at `addr` under `key`, on which nothing
has been sent or accepted yet. -/
def ConnectedTo (st : PeerState Priv Key) (pub : Bytes) (addr : SockAddr) (key : Key) : Prop :=
  ∃ s ∈ st.sessions, s.active = true ∧ s.staticPub = pub ∧ s.addr = addr ∧ s.sessionKey = key ∧
    s.sendSeq = 0 ∧ s.recvSeq = ReplayState.zero

/-- The peer lets a handshake of `pub` from `src` through: it has none of its own pending with
this address, the peer is configured, and the cooldowns of the address and of the peer are
over. -/
structure ReadyFor (settings : Settings) (st : PeerState Priv Key) (pub : Bytes) (src : SockAddr)
    (now : Time) : Prop where
  idle : findPending st.pending src = none
  configured : (findPeerConfig st.configs pub).isSome = true
  addrCool : inCooldown settings st.sessions (findSessionByAddr st.sessions src) now = false
  pubCool : inCooldown settings st.sessions (findSessionByPub st.sessions pub) now = false

section Install

variable [Inhabited Key] {C : Crypto Priv Key} {P : PeerParams Priv Key}
  {configs : List PeerConfig} {st : PeerState Priv Key}

theorem install_connectedTo {c : Commit Key}
    (halloc : (allocSession st.sessions c.pub c.src).isSome = true) :
    ConnectedTo (install P st c).1 c.pub c.src c.key := by
  rcases installTable_cases P.settings c st.sessions with ⟨hnone, -⟩ | ⟨slot, s, -, -, hupd⟩
  · exact absurd halloc (by simp [hnone])
  · refine ⟨c.session P.settings s, ?_, rfl, rfl, rfl, rfl, rfl, rfl⟩
    rw [install_sessions]
    exact List.mem_of_getElem? hupd.self

/-- The responder, once it has answered. -/
theorem inbound_connects (h : TableOk configs st) (hlen : configs.length ≤ maxPeers)
    {pub packet resp : Bytes} {src : SockAddr} {now : Time} {env : RecvEnv Priv} {key : Key}
    (hhs : isHandshake P.psk packet = true) (hready : ReadyFor P.settings st pub src now)
    (hrespond : respond C P st packet env.respondOk = (some resp, some (pub, key))) :
    .sentResponse src packet resp ∈ (step C P st (.udpRecv src packet now env)).2 ∧
      ConnectedTo (step C P st (.udpRecv src packet now env)).1 pub src key := by
  obtain ⟨cfg, hcfg⟩ := Option.isSome_iff_exists.mp hready.configured
  obtain ⟨hpub, cfg₀, hmem, hpub₀, -⟩ := h.setup.findPeerConfig hcfg
  have halloc := h.allocSession_isSome hlen hmem src
  rw [hpub₀, hpub] at halloc
  rw [step_inbound C P hhs hready.idle, hready.addrCool, hrespond]
  refine ⟨by simp [responseEvents], ?_⟩
  have hfresh : (refreshPrecompEph st env.freshEph).sessions = st.sessions ∧
      (refreshPrecompEph st env.freshEph).configs = st.configs := by
    cases env.freshEph <;> exact ⟨rfl, rfl⟩
  show ConnectedTo (commitInbound P (refreshPrecompEph st env.freshEph) src packet now env.clk pub
    key).1 pub src key
  rw [commitInbound, hfresh.1, hfresh.2, hcfg, hready.pubCool]
  exact install_connectedTo (hfresh.1.symm ▸ halloc)

/-- The initiator, once the response has arrived. -/
theorem response_connects (h : TableOk configs st) (hlen : configs.length ≤ maxPeers) {j : ℕ}
    {p : PendingHs Priv} {src : SockAddr} {packet : Bytes} {now : Time} {env : RecvEnv Priv}
    {key : Key} (hhs : isHandshake P.psk packet = true)
    (hfind : findPending st.pending src = some j) (hp : st.pending[j]? = some p)
    (hrecv : (handshakeClientRecv C P.psk P.staticKey P.staticPub (configPub configs p.cfgIdx)
      p.hsState packet).1 = some key) :
    ConnectedTo (step C P st (.udpRecv src packet now env)).1 (configPub configs p.cfgIdx) src
      key := by
  obtain ⟨p', hp', ha, -⟩ := findPending_eq_some hfind
  obtain rfl := Option.some.inj (hp.symm.trans hp')
  obtain ⟨cfg, hmem, hpub, -⟩ := h.setup.config (h.setup.pending_lt j p hp ha)
  have halloc := h.allocSession_isSome hlen hmem src
  rw [hpub] at halloc
  rw [← h.setup.config_pub] at hrecv ⊢
  rw [step, udpRecv, if_pos hhs, hfind]
  simp only [recvResponse, hp, hrecv]
  exact install_connectedTo halloc

end Install

-- ════════════════════════════════════════════════════════════════════════
-- One exchange
-- ════════════════════════════════════════════════════════════════════════

variable {C : Crypto Priv Key} {P Q : PeerParams Priv Key}

/-- A peer that can answer answers the initiation of an honest one, and both derive one key. -/
theorem respond_agrees (hC : C.GcmCorrect) (hS : C.Sized) (hD : C.DhCorrect)
    (hP : P.WellKeyed C) (hQ : Q.WellKeyed C) (hpsk : Q.psk = P.psk) {ephC : Option Priv}
    {init : Bytes} {state : HsClientState Priv Bytes Bytes}
    (hsend : handshakeClientSend C P.psk P.staticPub Q.staticPub ephC true = some (init, state))
    {st : PeerState Priv Key} {sendOk : Bool} (hcan : canRespond C Q st init sendOk = true) :
    ∃ resp key, respond C Q st init sendOk = (some resp, some (P.staticPub, key)) ∧
      (handshakeClientRecv C P.psk P.staticKey P.staticPub Q.staticPub state resp).1 =
        some key := by
  rw [PeerParams.WellKeyed] at hP hQ
  unfold respond
  unfold canRespond at hcan
  rw [hpsk, hQ] at hcan ⊢
  rw [hP, hQ] at hsend
  rw [hP]
  cases ephC with
  | none => exact absurd hsend (by simp [handshakeClientSend])
  | some ephC =>
    have hsome : (handshakeServerRespond C P.psk Q.staticKey (C.publicKey Q.staticKey)
        st.precompEphKey (st.precompEphPub C) sendOk init).1.isSome = _ :=
      handshakeServerRespond_isSome hC hS hD sendOk hsend
    rw [hcan, Option.isSome_iff_exists] at hsome
    obtain ⟨resp, hresp⟩ := hsome
    obtain ⟨key, hkey, hrecv⟩ := handshake_agreement hC hS hD
      (fun key hkey => by simp [PeerState.precompEphPub, hkey]) hsend (Prod.ext hresp rfl)
    exact ⟨resp, key, Prod.ext hresp hkey, hrecv⟩

variable [Inhabited Key]

/-- **Reconnection.** Two peers with the parameters `P` and `Q` have been through any runs. The
initiation of every handshake that is pending at the first one for the second was sent; and if it
reaches the second while this is ready for the first and able to respond, and the response reaches
the first while the handshake is the one it takes the response for, then each has a session with
the other, both of them fresh and under the same key. -/
theorem exchange_connects (hC : C.GcmCorrect) (hS : C.Sized) (hD : C.DhCorrect)
    (hP : P.WellKeyed C) (hQ : Q.WellKeyed C) (hpsk : Q.psk = P.psk)
    (configs configs' : List PeerConfig) (hlen : configs.length ≤ maxPeers)
    (hlen' : configs'.length ≤ maxPeers) (eph eph' : Option Priv) (is is' : List (Input Priv)) :
    let r := Machine.run (step C P) (PeerState.initial configs eph) is
    let st' := (Machine.run (step C Q) (PeerState.initial configs' eph') is').1
    ∀ {j p src src'}, findPending r.1.pending src' = some j → r.1.pending[j]? = some p →
      configPub configs p.cfgIdx = Q.staticPub →
      ∃ init ∈ initiations r.2, ∀ now env, ReadyFor Q.settings st' P.staticPub src now →
        canRespond C Q st' init env.respondOk = true →
        ∃ resp key, .sentResponse src init resp ∈ (step C Q st' (.udpRecv src init now env)).2 ∧
          ConnectedTo (step C Q st' (.udpRecv src init now env)).1 P.staticPub src key ∧
          ∀ now' env', ConnectedTo (step C P r.1 (.udpRecv src' resp now' env')).1
            Q.staticPub src' key := by
  intro r st' j p src src' hfind hp hcfg
  obtain ⟨p', hp', ha, -⟩ := findPending_eq_some hfind
  obtain rfl := Option.some.inj (hp.symm.trans hp')
  obtain ⟨init, hinit, hsend⟩ := pendingTraced_run C P configs eph is j p hp ha
  refine ⟨init, hinit, fun now env hready hcan => ?_⟩
  rw [hcfg] at hsend
  obtain ⟨resp, key, hrespond, hrecv⟩ := respond_agrees hC hS hD hP hQ hpsk hsend hcan
  have hhs : isHandshake Q.psk init = true :=
    hpsk ▸ isHandshake_handshakeClientSend hC hS (hP.length hS) hsend
  have hhs' : isHandshake P.psk resp = true :=
    hpsk ▸ isHandshake_handshakeServerRespond hC hS (hQ.length hS) (precompEphPub_length hS st')
      (congrArg Prod.fst hrespond)
  obtain ⟨hsent, hconnected⟩ := inbound_connects (tableOk_run C Q configs' eph' is') hlen' hhs
    hready hrespond
  refine ⟨resp, key, hsent, hconnected, fun now' env' => ?_⟩
  rw [← hcfg] at hrecv ⊢
  exact response_connects (tableOk_run C P configs eph is) hlen hhs' hfind hp hrecv

namespace Sample

/-- Peer 2 after its first pass over the timers. -/
def waiting : PeerState UInt8 SKey × List (Event SKey) :=
  Machine.run (step crypto (params 2)) (PeerState.initial [peerConfig 1 true] (some 5))
    [tickAt 100 10]

/-- Peer 1, which has just been started. -/
def started : PeerState UInt8 SKey :=
  (Machine.run (step crypto (params 1)) (PeerState.initial [peerConfig 2 false] (some 4)) []).1

end Sample

open Sample in
theorem exchange_connects_first :
    ∃ init ∈ initiations waiting.2, ∃ resp key,
      .sentResponse (addr 2) init resp ∈
        (step crypto (params 1) started (.udpRecv (addr 2) init 100 (recvEnv 100 20))).2 ∧
      ConnectedTo (step crypto (params 1) started (.udpRecv (addr 2) init 100 (recvEnv 100 20))).1
        (params 2).staticPub (addr 2) key ∧
      ConnectedTo (step crypto (params 2) waiting.1 (.udpRecv (addr 1) resp 101 (recvEnv 101 6))).1
        (params 1).staticPub (addr 1) key := by
  have hfind : findPending waiting.1.pending (addr 1) = some 0 := by decide +kernel
  obtain ⟨p, hp, -⟩ := findPending_eq_some hfind
  have hidx : ∀ p ∈ waiting.1.pending[0]?,
      configPub [peerConfig 1 true] p.cfgIdx = (params 1).staticPub := by decide +kernel
  have hcan : ∀ init ∈ initiations waiting.2,
      canRespond crypto (params 1) started init true = true := by decide +kernel
  have hready : ReadyFor (params 1).settings started (params 2).staticPub (addr 2) 100 :=
    ⟨by decide +kernel, by decide +kernel, by decide +kernel, by decide +kernel⟩
  have hcfg := hidx p hp
  unfold waiting started at *
  obtain ⟨init, hinit, hexchange⟩ := exchange_connects (P := params 2) (Q := params 1)
    crypto_gcmCorrect crypto_sized crypto_dhCorrect rfl rfl rfl [peerConfig 1 true]
    [peerConfig 2 false] (by decide) (by decide) (some 5) (some 4) [tickAt 100 10] [] hfind hp hcfg
  obtain ⟨resp, key, hsent, hserver, hclient⟩ :=
    hexchange 100 (recvEnv 100 20) hready (hcan init hinit)
  exact ⟨init, hinit, resp, key, hsent, hserver, hclient 101 (recvEnv 101 6)⟩

end LaneCove
