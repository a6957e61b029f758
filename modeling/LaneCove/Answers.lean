import LaneCove.Responder

/-!
# The responder's ephemeral key

The responder's ephemeral key pair is generated in advance, and the event loop
replaces it when `handshake_server_respond` returns 0. That function sends the
response before its last key derivation, which fails for some identities an
initiator may name; then the pair stays and goes out with the next response again.

## Main definitions

- `respondCall` — what `handshake_server_respond` returns in a reaction that calls it
- `ephOf` — the ephemeral public key a response carries
- `generateStep` — the event loop, reporting the key pairs it generates
- `DerivesIfSent` — a response is only sent if the last derivation will succeed

## Main results

- `step_answers` — the response and the key pair after every reaction
- `ephemeral_used_once` — then no two responses of a run carry the same key
-/

namespace LaneCove

variable {Priv Key : Type}

@[simp] theorem responses_append (es fs : List (Event Key)) :
    responses (es ++ fs) = responses es ++ responses fs := List.filterMap_append

@[simp] theorem responses_responseEvents (src : SockAddr) (init : Bytes) (reply : Option Bytes) :
    responses (responseEvents src init reply : List (Event Key)) = reply.toList := by
  cases reply <;> rfl

theorem mem_responses {es : List (Event Key)} {dst : SockAddr} {init resp : Bytes}
    (h : .sentResponse dst init resp ∈ es) : resp ∈ responses es :=
  List.mem_filterMap.mpr ⟨_, h, rfl⟩

-- ════════════════════════════════════════════════════════════════════════
-- Where responses come from
-- ════════════════════════════════════════════════════════════════════════

/-- A part of the loop that neither sends a response nor touches the key pair. -/
structure Silent (st : PeerState Priv Key) (r : PeerState Priv Key × List (Event Key)) : Prop where
  eph : r.1.precompEphKey = st.precompEphKey
  responses : responses r.2 = []

theorem Silent.refl (st : PeerState Priv Key) : Silent st (st, []) := ⟨rfl, rfl⟩

theorem Silent.trans {st : PeerState Priv Key} {r r' : PeerState Priv Key × List (Event Key)}
    (h : Silent st r) (h' : Silent r.1 r') : Silent st (r'.1, r.2 ++ r'.2) :=
  ⟨h'.eph.trans h.eph, by rw [responses_append, h.responses, h'.responses, List.append_nil]⟩

theorem Silent.run {f : PeerState Priv Key → ℕ → PeerState Priv Key × List (Event Key)}
    (hf : ∀ st i, Silent st (f st i)) (st : PeerState Priv Key) (is : List ℕ) :
    Silent st (Machine.run f st is) := by
  induction is generalizing st with
  | nil => exact Silent.refl st
  | cons i is ih => exact (hf st i).trans (ih _)

theorem refreshPrecompEph_eph (st : PeerState Priv Key) (fresh : Option Priv) :
    (refreshPrecompEph st fresh).precompEphKey = (fresh <|> st.precompEphKey) := by
  cases fresh <;> rfl

theorem connectStep_silent (C : Crypto Priv Key) (P : PeerParams Priv Key) (now : Time)
    (env : ℕ → ConnectEnv Priv) (st : PeerState Priv Key) (i : ℕ) :
    Silent st (connectStep C P now env st i) := by
  unfold connectStep
  dsimp only
  split
  · generalize hst₁ : ({ st with configs := _, sessions := _ } : PeerState Priv Key) = st₁
    have heph : st₁.precompEphKey = st.precompEphKey := by rw [← hst₁]
    rcases initiateOutboundHandshake_cases C P st₁ i (env i) with hinit | ⟨_, _, _, -, -, hinit⟩ <;>
      rw [hinit] <;> exact ⟨heph, rfl⟩
  · exact Silent.refl st

theorem expirePendingStep_silent (P : PeerParams Priv Key) (now : Time) (st : PeerState Priv Key)
    (j : ℕ) : Silent st (expirePendingStep P now st j) := by
  unfold expirePendingStep
  split
  · exact Silent.refl st
  · split <;> exact ⟨rfl, rfl⟩

theorem expireSessionStep_silent (P : PeerParams Priv Key) (now : Time) (st : PeerState Priv Key)
    (j : ℕ) : Silent st (expireSessionStep P now st j) := by
  unfold expireSessionStep
  split
  · exact Silent.refl st
  · split <;> exact ⟨rfl, rfl⟩

theorem forwardOn_silent (C : Crypto Priv Key) (st : PeerState Priv Key) (j : ℕ) (payload : Bytes)
    (env : SendEnv) : Silent st (forwardOn C st j payload env) := by
  unfold forwardOn
  split
  · exact Silent.refl st
  · refine ⟨rfl, ?_⟩
    dsimp only
    split <;> rfl

theorem keepaliveStep_silent (C : Crypto Priv Key) (P : PeerParams Priv Key) (now : Time)
    (env : ℕ → SendEnv) (st : PeerState Priv Key) (j : ℕ) :
    Silent st (keepaliveStep C P now env st j) := by
  unfold keepaliveStep
  split
  · exact Silent.refl st
  · split
    · exact Silent.refl st
    · exact forwardOn_silent C st j [] (env j)

theorem timers_silent (C : Crypto Priv Key) (P : PeerParams Priv Key) (now : Time)
    (connect : ℕ → ConnectEnv Priv) (keepalive : ℕ → SendEnv) (st : PeerState Priv Key) :
    Silent st (timers C P now connect keepalive st) := by
  have h1 := Silent.run (connectStep_silent C P now connect) st (List.range st.configs.length)
  unfold timers
  dsimp only
  generalize Machine.run (connectStep C P now connect) st _ = r1 at h1 ⊢
  have h2 := h1.trans (Silent.run (expirePendingStep_silent P now) r1.1 (List.range maxPeers))
  generalize Machine.run (expirePendingStep P now) r1.1 _ = r2 at h2 ⊢
  have h3 := h2.trans (Silent.run (expireSessionStep_silent P now) r2.1
    (List.range r2.1.sessions.length))
  generalize Machine.run (expireSessionStep P now) r2.1 _ = r3 at h3 ⊢
  exact h3.trans (Silent.run (keepaliveStep_silent C P now keepalive) r3.1
    (List.range r3.1.sessions.length))

theorem tick_silent (C : Crypto Priv Key) (P : PeerParams Priv Key) (st : PeerState Priv Key)
    (now : Time) (connect : ℕ → ConnectEnv Priv) (keepalive : ℕ → SendEnv) :
    Silent st (tick C P st now connect keepalive) := by
  unfold tick
  split
  · exact Silent.refl st
  · have h := timers_silent C P now connect keepalive { st with lastRekeyCheck := now }
    exact ⟨h.eph, h.responses⟩

theorem tunRead_silent (C : Crypto Priv Key) (st : PeerState Priv Key) (buffer : Bytes)
    (env : SendEnv) : Silent st (tunRead C st buffer env) := by
  unfold tunRead
  split
  · split
    · exact Silent.refl st
    · exact forwardOn_silent C st _ buffer env
  · exact Silent.refl st

theorem recvData_silent (C : Crypto Priv Key) (st : PeerState Priv Key) (j : ℕ)
    (s : PeerSession Key) (packet : Bytes) (now : Time) (env : RecvEnv Priv) :
    Silent st (recvData C st j s packet now env) := by
  unfold recvData
  split
  · exact ⟨rfl, rfl⟩
  · next key usedPrevKey seq payload recvSeq _ =>
    dsimp only
    generalize hst₁ : ({ st with sessions := st.sessions.set j _ } : PeerState Priv Key) = st₁
    have heph : st₁.precompEphKey = st.precompEphKey := by rw [← hst₁]
    generalize nextHop _ j _ payload = hop
    have hrelay : Silent st₁ (relayTo C st₁ payload env.relay hop) := by
      unfold relayTo
      split
      · exact forwardOn_silent C st₁ _ payload env.relay
      · exact Silent.refl st₁
      · exact Silent.refl st₁
    refine ⟨hrelay.eph.trans heph, ?_⟩
    have hhand : responses (handOn packet usedPrevKey payload hop : List (Event Key)) = [] := by
      cases hop <;> rfl
    rw [List.cons_append, ← List.singleton_append, responses_append, responses_append, hhand,
      hrelay.responses]
    rfl

variable [Inhabited Key]

theorem install_silent (P : PeerParams Priv Key) (st : PeerState Priv Key) (c : Commit Key) :
    Silent st (install P st c) := by
  unfold install
  split <;> exact ⟨rfl, rfl⟩

theorem recvResponse_silent (C : Crypto Priv Key) (P : PeerParams Priv Key)
    (st : PeerState Priv Key) (j : ℕ) (src : SockAddr) (packet : Bytes) (env : RecvEnv Priv) :
    Silent st (recvResponse C P st j src packet env) := by
  unfold recvResponse
  split
  · exact Silent.refl st
  · dsimp only
    split
    · exact ⟨rfl, rfl⟩
    · exact ⟨(install_silent P _ _).eph, (install_silent P _ _).responses⟩

theorem commitInbound_silent (P : PeerParams Priv Key) (st : PeerState Priv Key) (src : SockAddr)
    (packet : Bytes) (now : Time) (clk : InitClock) (pub : Bytes) (key : Key) :
    Silent st (commitInbound P st src packet now clk pub key) := by
  unfold commitInbound
  split
  · exact Silent.refl st
  · split
    · exact Silent.refl st
    · exact install_silent P st _

omit [Inhabited Key] in
/-- What `handshake_server_respond` returns if the reaction calls it: for a handshake
packet from an address with no pending handshake and not in its cooldown. -/
def respondCall (C : Crypto Priv Key) (P : PeerParams Priv Key) (st : PeerState Priv Key) :
    Input Priv → Option Bytes × Option (Bytes × Key)
  | .udpRecv src packet now env =>
    if isHandshake P.psk packet && (findPending st.pending src).isNone &&
        !inCooldown P.settings st.sessions (findSessionByAddr st.sessions src) now then
      respond C P st packet env.respondOk
    else (none, none)
  | .tick .. | .tunRead .. => (none, none)

omit [Inhabited Key] in
/-- What `generate_eph_keypair` returns in a reaction that calls `refresh_precomp_eph`. -/
def Input.freshEph : Input Priv → Option Priv
  | .udpRecv _ _ _ env => env.freshEph
  | .tick .. | .tunRead .. => none

/-- The response and the key pair after a reaction: the pair is replaced exactly when
`handshake_server_respond` returned 0. -/
theorem step_answers (C : Crypto Priv Key) (P : PeerParams Priv Key) (st : PeerState Priv Key)
    (inp : Input Priv) :
    responses (step C P st inp).2 = (respondCall C P st inp).1.toList ∧
    (step C P st inp).1.precompEphKey =
      if (respondCall C P st inp).2.isSome then inp.freshEph <|> st.precompEphKey
      else st.precompEphKey := by
  cases inp with
  | tick now connect keepalive =>
    have h := tick_silent C P st now connect keepalive
    exact ⟨h.responses, h.eph⟩
  | tunRead buffer env =>
    have h := tunRead_silent C st buffer env
    exact ⟨h.responses, h.eph⟩
  | udpRecv src packet now env =>
    by_cases hhs : isHandshake P.psk packet = true
    · cases hpend : findPending st.pending src with
      | some j =>
        have h := recvResponse_silent C P st j src packet env
        simp only [step, udpRecv, hhs, if_true, hpend, respondCall, Option.isNone_some,
          Bool.and_false, Bool.false_and, Bool.false_eq_true, if_false]
        exact ⟨h.responses, h.eph⟩
      | none =>
        rw [step_inbound C P hhs hpend]
        simp only [respondCall, hhs, hpend, Option.isNone_none, Bool.true_and]
        cases inCooldown P.settings st.sessions (findSessionByAddr st.sessions src) now with
        | true => exact ⟨rfl, rfl⟩
        | false =>
          simp only [Bool.false_eq_true, if_false, Bool.not_false, if_true]
          obtain ⟨reply, derived⟩ := respond C P st packet env.respondOk
          cases derived with
          | none => exact ⟨responses_responseEvents .., rfl⟩
          | some r =>
            obtain ⟨pub, key⟩ := r
            have h := commitInbound_silent P (refreshPrecompEph st env.freshEph) src packet now
              env.clk pub key
            refine ⟨?_, h.eph.trans ?_⟩
            · rw [responses_append, responses_responseEvents, ← List.singleton_append,
                responses_append, h.responses]
              exact List.append_nil _
            · exact refreshPrecompEph_eph st env.freshEph
    · have hdata : Silent st (step C P st (.udpRecv src packet now env)) := by
        simp only [step, udpRecv, if_neg hhs]
        split
        · exact Silent.refl st
        · split
          · exact Silent.refl st
          · exact recvData_silent C st _ _ packet now env
      simp only [respondCall, Bool.not_eq_true _ ▸ hhs, Bool.false_and, Bool.false_eq_true,
        if_false]
      exact ⟨hdata.responses, hdata.eph⟩

/-- The response to a datagram goes back to its source. -/
theorem sentResponse_mem_iff {C : Crypto Priv Key} {P : PeerParams Priv Key}
    {st : PeerState Priv Key} {src : SockAddr} {packet resp : Bytes} {now : Time}
    {env : RecvEnv Priv} :
    .sentResponse src packet resp ∈ (step C P st (.udpRecv src packet now env)).2 ↔
      (respondCall C P st (.udpRecv src packet now env)).1 = some resp := by
  constructor
  · intro h
    have hresp := mem_responses h
    rw [(step_answers C P st _).1] at hresp
    simpa using hresp
  · intro h
    simp only [respondCall] at h
    split at h
    · next hcall =>
      simp only [Bool.and_eq_true, Option.isNone_iff_eq_none, Bool.not_eq_true'] at hcall
      obtain ⟨⟨hhs, hpend⟩, hcool⟩ := hcall
      rw [step_inbound C P hhs hpend, if_neg (by simp [hcool])]
      generalize respond C P st packet env.respondOk = r at h ⊢
      obtain ⟨reply, derived⟩ := r
      obtain rfl : reply = some resp := h
      cases derived <;> simp [responseEvents]
    · exact absurd h (by simp)

-- ════════════════════════════════════════════════════════════════════════
-- One response for each key pair
-- ════════════════════════════════════════════════════════════════════════

/-- The ephemeral public key a handshake packet carries. -/
def ephOf (packet : Bytes) : Bytes := (packet.drop 8).take 32

/-- The event loop, reporting what `generate_eph_keypair` returns to
`refresh_precomp_eph`. -/
def generateStep (C : Crypto Priv Key) (P : PeerParams Priv Key) (st : PeerState Priv Key)
    (inp : Input Priv) : PeerState Priv Key × List (Option Priv) :=
  ((step C P st inp).1, if (respondCall C P st inp).2.isSome then [inp.freshEph] else [])

/-- If the packet will be answered, then X25519 does not fail on the public key that
its initiator names. -/
def DerivesIfSent (C : Crypto Priv Key) (P : PeerParams Priv Key) (st : PeerState Priv Key) :
    Input Priv → Prop
  | .udpRecv src packet now env =>
    isHandshake P.psk packet = true → findPending st.pending src = none →
    inCooldown P.settings st.sessions (findSessionByAddr st.sessions src) now = false →
    canRespond C P st packet env.respondOk = true →
    ∀ pub ∈ initiatorOf C P packet, (C.suite.secret st.precompEphKey pub).isSome = true
  | .tick .. | .tunRead .. => True

omit [Inhabited Key] in
theorem ephOf_encodeHs {msg : HsMessage Bytes Bytes Bytes} (h : msg.ephPub.length = 32) :
    ephOf (encodeHs msg) = msg.ephPub := by
  have hdrop : (encodeHs msg).drop 8 = msg.ephPub ++ (msg.encStatic ++ msg.hmac.getD []) := by
    simp only [encodeHs, List.append_assoc]
    exact List.drop_left' length_pktHeader
  rw [ephOf, hdrop]
  exact List.take_left' h

omit [Inhabited Key] in
/-- A response carries the public key of the precomputed pair. -/
theorem ephOf_respond {C : Crypto Priv Key} (hC : C.Sized) {P : PeerParams Priv Key}
    {st : PeerState Priv Key} {eph : Priv} (heph : st.precompEphKey = some eph)
    {packet resp : Bytes} {sendOk : Bool} (h : (respond C P st packet sendOk).1 = some resp) :
    ephOf resp = C.publicKey eph := by
  have hpub : st.precompEphPub C = C.publicKey eph := by simp [PeerState.precompEphPub, heph]
  simp only [respond, handshakeServerRespond] at h
  split at h
  · exact absurd h (by simp)
  · split at h
    · exact absurd h (by simp)
    · next reply hreply =>
      split at h
      · obtain ⟨_, _, _, _, -, -, -, -, -, -, hr, -⟩ := Suite.serverRespond_eq_some hreply
        obtain rfl := Option.some.inj h
        rw [hpub] at hr
        have hlen := hC.publicKey_length eph
        rw [ephOf_encodeHs (by rw [hr]; exact hlen), hr]
      · exact absurd h (by simp)

omit [Inhabited Key] in
/-- Under the condition `handshake_server_respond` does not fail after it has sent. -/
theorem respondCall_cases {C : Crypto Priv Key} (hC : C.Sized) {P : PeerParams Priv Key}
    {st : PeerState Priv Key} {eph : Priv} (heph : st.precompEphKey = some eph) {inp : Input Priv}
    (hok : DerivesIfSent C P st inp) :
    respondCall C P st inp = (none, none) ∨
    ∃ resp r, respondCall C P st inp = (some resp, some r) ∧ ephOf resp = C.publicKey eph := by
  cases inp with
  | tick => exact Or.inl rfl
  | tunRead => exact Or.inl rfl
  | udpRecv src packet now env =>
    simp only [respondCall]
    split
    · next hcall =>
      simp only [Bool.and_eq_true, Option.isNone_iff_eq_none, Bool.not_eq_true'] at hcall
      obtain ⟨⟨hhs, hpend⟩, hcool⟩ := hcall
      have hspec := respond_spec C P st hhs env.respondOk
      split at hspec
      · next pub hinit hcan =>
        obtain ⟨resp, key, hresp, hkey⟩ := hspec
        rw [hok hhs hpend hcool hcan pub hinit] at hkey
        obtain ⟨key, rfl⟩ := Option.isSome_iff_exists.mp hkey
        have hcarries := ephOf_respond hC heph (by rw [hresp] :
          (respond C P st packet env.respondOk).1 = some resp)
        exact Or.inr ⟨resp, (pub, key), hresp, hcarries⟩
      · exact Or.inl hspec
    · exact Or.inl rfl

/-- **Run**: the responses carry the generated public keys in order, some left out. -/
theorem responses_sublist {C : Crypto Priv Key} (hC : C.Sized) {P : PeerParams Priv Key}
    {st : PeerState Priv Key} {eph : Priv} (heph : st.precompEphKey = some eph) {keys : List Priv}
    {is : List (Input Priv)} (hgen : (Machine.run (generateStep C P) st is).2 = keys.map some)
    (hok : Machine.Guarded (step C P) (DerivesIfSent C P) st is) :
    ((responses (Machine.run (step C P) st is).2).map ephOf).Sublist
      ((eph :: keys).map C.publicKey) := by
  induction is generalizing st eph keys with
  | nil => exact List.nil_sublist _
  | cons inp is ih =>
    obtain ⟨hsent, hnext⟩ := step_answers C P st inp
    have hstate : (generateStep C P st inp).1 = (step C P st inp).1 := rfl
    rw [Machine.run_cons, hstate] at hgen
    rw [Machine.run_cons, responses_append, hsent]
    rcases respondCall_cases hC heph hok.1 with hcall | ⟨resp, r, hcall, hcarries⟩
    · -- nothing sent, nothing generated
      simp only [generateStep, hcall] at hgen hnext
      rw [hcall]
      exact ih (hnext.trans heph) hgen hok.2
    · -- one response, and the next pair
      simp only [generateStep, hcall, Option.isSome_some, if_true, List.singleton_append] at hgen
      obtain ⟨key, keys, rfl, hfresh, hrest⟩ := List.map_eq_cons_iff.mp hgen.symm
      simp only [hcall, Option.isSome_some, if_true, ← hfresh] at hnext
      have hsub := ih hnext hrest.symm hok.2
      rw [hcall]
      simpa only [Option.toList_some, List.singleton_append, List.map_cons, hcarries] using
        hsub.cons_cons (C.publicKey eph)

/-- **A responder ephemeral is used once**: if `generate_eph_keypair` always succeeds with
a new public key, and X25519 never fails on the initiator of a packet that is answered,
no two responses of a run carry the same ephemeral public key. -/
theorem ephemeral_used_once {C : Crypto Priv Key} (hC : C.Sized) (P : PeerParams Priv Key)
    (configs : List PeerConfig) (eph : Priv) (keys : List Priv) (is : List (Input Priv))
    (hgen : (Machine.run (generateStep C P) (PeerState.initial configs (some eph)) is).2 =
      keys.map some)
    (hnew : ((eph :: keys).map C.publicKey).Nodup)
    (hok : Machine.Guarded (step C P) (DerivesIfSent C P)
      (PeerState.initial configs (some eph)) is) :
    ((responses (Machine.run (step C P) (PeerState.initial configs (some eph)) is).2).map
      ephOf).Nodup :=
  (responses_sublist hC rfl hgen hok).nodup hnew

instance (C : Crypto Priv Key) (P : PeerParams Priv Key) (st : PeerState Priv Key) :
    ∀ inp, Decidable (DerivesIfSent C P st inp)
  | .udpRecv .. => inferInstanceAs (Decidable (_ → findPending _ _ = none → _))
  | .tick .. | .tunRead .. => inferInstanceAs (Decidable True)

namespace Sample

/-- Peers 2 and 3 connect to peer 1. -/
def twoInitiations : List (Input UInt8) := [
  .udpRecv (addr 2) (initiation 2 1 10) 100 (recvEnv 100 20),
  .udpRecv (addr 3) (initiation 3 1 11) 101 (recvEnv 101 21)]

/-- X25519 as it is: no shared secret with a public key of low order. -/
def lowOrderCrypto : Crypto UInt8 SKey :=
  { crypto with x25519SharedSecret := fun priv pub =>
      if pub = zeroKey32 then none else shared priv pub }

/-- Two initiations that name the zero key as their initiator. -/
def lowOrderInitiations : List (Input UInt8) := [
  .udpRecv (addr 9) (initiation 0 1 10) 100 (recvEnv 100 20),
  .udpRecv (addr 9) (initiation 0 1 11) 101 (recvEnv 101 21)]

end Sample

open Sample in
theorem ephemeral_used_once_two :
    responses (serverRun twoInitiations).2 ≠ [] ∧
    ((responses (serverRun twoInitiations).2).map ephOf).Nodup :=
  ⟨by decide +kernel, ephemeral_used_once crypto_sized (params 1)
    [peerConfig 2 false, peerConfig 3 false] 4 [20, 21] twoInitiations (by decide +kernel)
    (by decide +kernel) (by decide +kernel)⟩

open Sample in
/-- Two initiations that name a key of low order are both answered, with the same
ephemeral key. -/
theorem ephemeral_sent_twice :
    let start := PeerState.initial [peerConfig 2 false] (some (4 : UInt8))
    (Machine.run (generateStep lowOrderCrypto (params 1)) start lowOrderInitiations).2 =
      ([] : List UInt8).map some ∧
    (lowOrderInitiations.map Input.freshEph = [some 20, some 21]) ∧
    (responses (Machine.run (step lowOrderCrypto (params 1)) start lowOrderInitiations).2).map
      ephOf = [crypto.publicKey 4, crypto.publicKey 4] := by
  decide +kernel

end LaneCove
