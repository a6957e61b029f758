import LaneCove.SessionTrace

/-!
# What a trace says about datagrams and keys

A peer sends handshake packets and encrypted frames, and the keys of its sessions are keys it
has negotiated. What a trace has to say about AES-GCM, beyond that decryption inverts encryption,
is a condition on the packets and the keys in it.

## Main definitions

- `Event.Genuine` — what an event says about the datagram it sends
- `KeyKnown` — the keys of a session were negotiated
- `Crypto.GcmKeyed` — no packet of a trace decrypts under another of its keys

## Main results

- `step_genuine` — every reaction sends handshake packets and encrypted frames only
- `KeysKnown.step` — the keys of all sessions are negotiated ones
-/

namespace LaneCove

variable {Priv Key : Type}

-- ════════════════════════════════════════════════════════════════════════
-- Datagrams
-- ════════════════════════════════════════════════════════════════════════

/-- A handshake datagram is recognised as one, and a data packet is a frame
encrypted under the key of its session. -/
def Event.Genuine (C : Crypto Priv Key) (psk : Option Key) : Event Key → Prop
  | .sentInit _ packet | .sentResponse _ _ packet => isHandshake psk packet = true
  | .sentData s payload packet =>
    ∃ iv, encryptPacket C s.sessionKey iv (frame s.sendSeq payload) = some packet
  | .negotiated .. | .installed .. | .accepted .. | .delivered .. => True

/-- The static public key belongs to the static key. -/
def PeerParams.WellKeyed (C : Crypto Priv Key) (P : PeerParams Priv Key) : Prop :=
  P.staticPub = C.publicKey P.staticKey

section Genuine

variable {C : Crypto Priv Key} {P : PeerParams Priv Key}

theorem PeerParams.WellKeyed.length (h : P.WellKeyed C) (hS : C.Sized) :
    P.staticPub.length = 32 := by
  rw [h]
  exact hS.publicKey_length _

theorem precompEphPub_length (hS : C.Sized) (st : PeerState Priv Key) :
    (st.precompEphPub C).length = 32 := by
  rw [PeerState.precompEphPub]
  cases st.precompEphKey with
  | none => rfl
  | some key => exact hS.publicKey_length key

theorem forwardOn_genuine (st : PeerState Priv Key) (j : ℕ) (payload : Bytes) (env : SendEnv) :
    ∀ e ∈ (forwardOn C st j payload env).2, e.Genuine C P.psk := by
  intro e he
  unfold forwardOn at he
  split at he
  · exact absurd he (by simp)
  · next s _ =>
    obtain ⟨packet, hsent, rfl⟩ := mem_sendEvents.mp he
    exact ⟨env.iv, encryptPacket_of_forwardToPeer hsent⟩

/-- Every initiation is a handshake packet. -/
theorem connectStep_genuine (hC : C.GcmCorrect) (hS : C.Sized) (hP : P.WellKeyed C) (now : Time)
    (env : ℕ → ConnectEnv Priv) (st : PeerState Priv Key) (i : ℕ) :
    ∀ e ∈ (connectStep C P now env st i).2, e.Genuine C P.psk := by
  intro e he
  unfold connectStep at he
  dsimp only at he
  split at he
  · split at he
    · exact absurd he (by simp)
    · next packet hinit =>
      obtain rfl := List.mem_singleton.mp he
      have hsent := congrArg Prod.snd hinit
      unfold initiateOutboundHandshake at hsent
      dsimp only at hsent
      split at hsent
      · exact absurd hsent (by simp)
      · split at hsent
        · exact absurd hsent (by simp)
        · next hsend =>
          obtain rfl := Option.some.inj hsent
          exact isHandshake_handshakeClientSend hC hS (hP.length hS) hsend
  · exact absurd he (by simp)

theorem tick_genuine (hC : C.GcmCorrect) (hS : C.Sized) (hP : P.WellKeyed C)
    (st : PeerState Priv Key) (now : Time) (connect : ℕ → ConnectEnv Priv)
    (keepalive : ℕ → SendEnv) :
    ∀ e ∈ (tick C P st now connect keepalive).2, e.Genuine C P.psk := by
  intro e he
  unfold tick at he
  split at he
  · exact absurd he (by simp)
  · obtain ⟨st', hes⟩ := timers_events C P now connect keepalive { st with lastRekeyCheck := now }
    rw [hes] at he
    rcases List.mem_append.mp he with he | he
    · exact Machine.forall_mem_run (connectStep_genuine hC hS hP now connect) _ _ e he
    · exact Machine.forall_mem_run (fun st j e he => forwardOn_genuine st j [] (keepalive j) e
        (mem_keepaliveStep he)) _ _ e he

theorem recvData_genuine (st : PeerState Priv Key) (j : ℕ) (s : PeerSession Key) (packet : Bytes)
    (now : Time) (env : RecvEnv Priv) :
    ∀ e ∈ (recvData C st j s packet now env).2, e.Genuine C P.psk := by
  intro e he
  unfold recvData at he
  split at he
  · exact absurd he (by simp)
  · next payload _ _ =>
    rcases List.mem_append.mp he with he | he
    · rcases List.mem_cons.mp he with rfl | he
      · trivial
      · obtain ⟨_, -, rfl⟩ := mem_handOn.mp he
        trivial
    · unfold relayTo at he
      split at he
      · exact forwardOn_genuine _ _ payload env.relay e he
      · exact absurd he (by simp)
      · exact absurd he (by simp)

variable [Inhabited Key]

theorem install_genuine (st : PeerState Priv Key) (c : Commit Key) :
    ∀ e ∈ (install P st c).2, e.Genuine C P.psk := by
  intro e he
  rw [install_events] at he
  obtain ⟨_, -, rfl⟩ := mem_installEvents.mp he
  trivial

theorem recvResponse_genuine (st : PeerState Priv Key) (j : ℕ) (src : SockAddr) (packet : Bytes)
    (env : RecvEnv Priv) : ∀ e ∈ (recvResponse C P st j src packet env).2, e.Genuine C P.psk := by
  intro e he
  unfold recvResponse at he
  split at he
  · exact absurd he (by simp)
  · dsimp only at he
    split at he
    · exact absurd he (by simp)
    · rcases List.mem_cons.mp he with rfl | he
      · trivial
      · exact install_genuine _ _ e he

theorem recvInit_genuine (hC : C.GcmCorrect) (hS : C.Sized) (hP : P.WellKeyed C)
    (st : PeerState Priv Key) (src : SockAddr) (packet : Bytes) (now : Time) (env : RecvEnv Priv) :
    ∀ e ∈ (recvInit C P st src packet now env).2, e.Genuine C P.psk := by
  have hresp : ∀ st' : PeerState Priv Key,
      ∀ e ∈ (responseEvents src packet (respond C P st' packet env.respondOk).1 : List (Event Key)),
        e.Genuine C P.psk := by
    intro st' e he
    cases hreply : (respond C P st' packet env.respondOk).1 with
    | none => simp [hreply, responseEvents] at he
    | some reply =>
      rw [hreply] at he
      obtain rfl := List.mem_singleton.mp he
      exact isHandshake_handshakeServerRespond hC hS (hP.length hS) (precompEphPub_length hS st')
        hreply
  intro e he
  unfold recvInit at he
  split at he
  · exact absurd he (by simp)
  · dsimp only at he
    split at he
    · exact absurd he (by simp)
    · split at he
      · exact hresp _ e he
      · rcases List.mem_append.mp he with he | he
        · exact hresp _ e he
        · rcases List.mem_cons.mp he with rfl | he
          · trivial
          · unfold commitInbound at he
            split at he
            · exact absurd he (by simp)
            · split at he
              · exact absurd he (by simp)
              · exact install_genuine _ _ e he

/-- Every reaction sends handshake packets and encrypted frames only. -/
theorem step_genuine (hC : C.GcmCorrect) (hS : C.Sized) (hP : P.WellKeyed C)
    (st : PeerState Priv Key) (inp : Input Priv) :
    ∀ e ∈ (step C P st inp).2, e.Genuine C P.psk := by
  intro e he
  cases inp with
  | tick now connect keepalive => exact tick_genuine hC hS hP st now connect keepalive e he
  | tunRead buffer env =>
    simp only [step, tunRead] at he
    split at he
    · split at he
      · exact absurd he (by simp)
      · exact forwardOn_genuine st _ buffer env e he
    · exact absurd he (by simp)
  | udpRecv src packet now env =>
    simp only [step, udpRecv] at he
    split at he
    · split at he
      · exact recvResponse_genuine st _ src packet env e he
      · exact recvInit_genuine hC hS hP st src packet now env e he
    · split at he
      · exact absurd he (by simp)
      · split at he
        · exact absurd he (by simp)
        · exact recvData_genuine st _ _ packet now env e he

end Genuine

-- ════════════════════════════════════════════════════════════════════════
-- Packets and keys of a trace
-- ════════════════════════════════════════════════════════════════════════

/-- The keys of a trace with the peers they were negotiated with. -/
def negotiations (tr : List (Event Key)) : List (Bytes × Key) :=
  tr.filterMap fun e => match e with
    | .negotiated pub key => some (pub, key)
    | _ => none

theorem mem_negotiations {tr : List (Event Key)} {pub : Bytes} {key : Key}
    (h : .negotiated pub key ∈ tr) : (pub, key) ∈ negotiations tr :=
  List.mem_filterMap.mpr ⟨_, h, rfl⟩

/-- The keys that were negotiated in a trace. -/
def negotiatedKeys (tr : List (Event Key)) : List Key := (negotiations tr).map Prod.snd

/-- The data packets a trace sent, each with the key it was sent under. -/
def packetsSent (tr : List (Event Key)) : List (Key × Bytes) :=
  tr.filterMap fun e => match e with
    | .sentData s _ packet => some (s.sessionKey, packet)
    | _ => none

/-- No data packet of the trace decrypts under a key of the trace that it was not sent under. -/
def Crypto.GcmKeyed (C : Crypto Priv Key) (tr : List (Event Key)) : Prop :=
  ∀ x ∈ packetsSent tr, OpensOnly C (negotiatedKeys tr) x.1 x.2

instance [DecidableEq Key] (C : Crypto Priv Key) (tr : List (Event Key)) :
    Decidable (C.GcmKeyed tr) :=
  inferInstanceAs (Decidable (∀ x ∈ packetsSent tr, OpensOnly C (negotiatedKeys tr) x.1 x.2))

theorem mem_negotiatedKeys {tr : List (Event Key)} {pub : Bytes} {key : Key}
    (h : .negotiated pub key ∈ tr) : key ∈ negotiatedKeys tr :=
  List.mem_map.mpr ⟨_, mem_negotiations h, rfl⟩

theorem negotiatedKeys_mono {tr tr' : List (Event Key)} (h : tr ⊆ tr') :
    negotiatedKeys tr ⊆ negotiatedKeys tr' :=
  List.map_subset _ (List.filterMap_subset _ h)

/-- In a library whose packets decrypt under their own key only, every genuine trace is keyed. -/
theorem Crypto.gcmKeyed_of_genuine {C : Crypto Priv Key} {psk : Option Key}
    {tr : List (Event Key)} (hgen : ∀ e ∈ tr, e.Genuine C psk)
    (hC : ∀ {key iv plain packet}, encryptPacket C key iv plain = some packet →
      ∀ keys, OpensOnly C keys key packet) : C.GcmKeyed tr := by
  intro x hx
  obtain ⟨e, he, heq⟩ := List.mem_filterMap.mp hx
  cases e with
  | sentData s payload packet =>
    obtain rfl := Option.some.inj heq
    obtain ⟨iv, henc⟩ := hgen _ he
    exact hC henc _
  | _ => exact absurd heq (by simp)

theorem Crypto.GcmKeyed.mono {C : Crypto Priv Key} {tr tr' : List (Event Key)}
    (h : C.GcmKeyed tr') (hsub : tr ⊆ tr') : C.GcmKeyed tr := fun x hx key hkey hne =>
  h x (List.filterMap_subset _ hsub hx) key (negotiatedKeys_mono hsub hkey) hne

theorem Crypto.GcmKeyed.opensOnly {C : Crypto Priv Key} {tr : List (Event Key)}
    (h : C.GcmKeyed tr) {s : PeerSession Key} {payload packet : Bytes}
    (he : .sentData s payload packet ∈ tr) :
    OpensOnly C (negotiatedKeys tr) s.sessionKey packet :=
  h (s.sessionKey, packet) (List.mem_filterMap.mpr ⟨_, he, rfl⟩)

-- ════════════════════════════════════════════════════════════════════════
-- The keys of a session
-- ════════════════════════════════════════════════════════════════════════

/-- The current key was negotiated with the peer of the session, and an active previous key with
some peer. -/
structure KeyKnown (tr : List (Event Key)) (s : PeerSession Key) : Prop where
  sessionKey : .negotiated s.staticPub s.sessionKey ∈ tr
  prevSessionKey : s.prevKeyActive = true → ∃ pub, .negotiated pub s.prevSessionKey ∈ tr

/-- The keys of all slots, active or not, were negotiated. -/
def KeysKnown (st : PeerState Priv Key) (tr : List (Event Key)) : Prop :=
  ∀ (i : ℕ) (s : PeerSession Key), st.sessions[i]? = some s → KeyKnown tr s

theorem KeyKnown.append {tr : List (Event Key)} {s : PeerSession Key} (h : KeyKnown tr s)
    (es : List (Event Key)) : KeyKnown (tr ++ es) s := by
  refine ⟨List.mem_append_left es h.sessionKey, fun hp => ?_⟩
  obtain ⟨pub, hmem⟩ := h.prevSessionKey hp
  exact ⟨pub, List.mem_append_left es hmem⟩

theorem KeyKnown.follows {tr : List (Event Key)} {s s' : PeerSession Key} (h : KeyKnown tr s)
    (hf : s.Follows s') : KeyKnown tr s' where
  sessionKey := by
    rw [hf.staticPub, hf.sessionKey]
    exact h.sessionKey
  prevSessionKey hp := by
    rw [hf.prevSessionKey]
    exact h.prevSessionKey (hf.prevKeyActive hp)

/-- A data packet is sent on a later state of a session of the table. -/
theorem Touches.sentData {rx : Option (Bytes × Time)} {ss ss' : List (PeerSession Key)}
    {es : List (Event Key)} (h : Touches C rx ss es ss') {s : PeerSession Key}
    {payload packet : Bytes} (he : .sentData s payload packet ∈ es) :
    ∃ (i : ℕ) (s₀ : PeerSession Key), ss[i]? = some s₀ ∧ s₀.Follows s := by
  induction h with
  | refl => exact absurd he (by simp)
  | head hstep _ ih =>
    rcases List.mem_append.mp he with he | he
    · cases hstep with
      | quiet hq =>
        rw [← List.mem_singleton.mp he] at hq
        exact absurd hq (by simp [Event.isQuiet])
      | slot hs hslot =>
        cases hslot with
        | rekeying => exact absurd he (by simp)
        | expire => exact absurd he (by simp)
        | send payload' env =>
          obtain ⟨_, -, heq⟩ := mem_sendEvents.mp he
          obtain ⟨rfl, -⟩ := Event.sentData.inj heq
          exact ⟨_, s, hs, .refl s⟩
        | reject => exact absurd he (by simp)
        | acceptCur =>
          obtain ⟨_, -, heq⟩ := mem_handOn.mp (List.mem_of_ne_of_mem (by simp) he)
          exact absurd heq (by simp)
        | acceptPrev =>
          obtain ⟨_, -, heq⟩ := mem_handOn.mp (List.mem_of_ne_of_mem (by simp) he)
          exact absurd heq (by simp)
    · obtain ⟨i, s₁, hs₁, hf⟩ := ih he
      obtain ⟨s₀, hs₀, hf₀⟩ := Touches.follows (.single hstep) hs₁
      exact ⟨i, s₀, hs₀, hf₀.trans hf⟩

section KnownKeys

variable [Inhabited Key] {C : Crypto Priv Key} {st : PeerState Priv Key} {tr : List (Event Key)}

omit [Inhabited Key] in
theorem keysKnown_initial (configs : List PeerConfig) (eph : Option Priv) :
    KeysKnown (PeerState.initial configs eph : PeerState Priv Key) [] :=
  fun j s hs => absurd hs (by simp [PeerState.initial])

theorem KeysKnown.step (h : KeysKnown st tr) (C : Crypto Priv Key) (P : PeerParams Priv Key)
    (inp : Input Priv) : KeysKnown (step C P st inp).1 (tr ++ (step C P st inp).2) := by
  intro i s hs
  rcases step_cases C P st inp with ⟨-, ht⟩ | ⟨c, pre, -, -, hss, hes⟩
  · obtain ⟨s₀, hs₀, hf⟩ := ht.follows hs
    exact ((h i s₀ hs₀).append _).follows hf
  · rw [hss] at hs
    rcases installTable_cases P.settings c st.sessions with ⟨-, he⟩ | ⟨slot, s₀, -, halloc, hupd⟩
    · rw [he] at hs
      exact (h i s hs).append _
    · rcases hupd.cases hs with ⟨rfl, rfl⟩ | ⟨-, hs⟩
      · refine ⟨by simp [hes, Commit.session, sessionInit], fun hp => ?_⟩
        have ha : s₀.active = true := hp
        have hslot : st.sessions[i]? = some s₀ := by
          cases halloc with
          | byPub hs => exact hs
          | byAddr _ hs => exact hs
          | free _ _ hs => exact hs
          | fresh => exact absurd ha (by simp [PeerSession.zero])
        refine ⟨s₀.staticPub, List.mem_append_left _ ?_⟩
        simpa [Commit.session, sessionInit, ha] using (h i s₀ hslot).sessionKey
      · exact (h i s hs).append _

/-- A data packet is sent under a key that was negotiated with the peer of the session. -/
theorem KeysKnown.sentData (h : KeysKnown st tr) {P : PeerParams Priv Key} {inp : Input Priv}
    {s : PeerSession Key} {payload packet : Bytes}
    (he : .sentData s payload packet ∈ (LaneCove.step C P st inp).2) :
    .negotiated s.staticPub s.sessionKey ∈ tr := by
  obtain ⟨i, s₀, hs₀, hf⟩ := (touches_of_mem he rfl (by simp)).sentData he
  exact ((h i s₀ hs₀).follows hf).sessionKey

/-- A data packet is accepted under a key that was negotiated. -/
theorem KeysKnown.accepted (h : KeysKnown st tr) {P : PeerParams Priv Key} {inp : Input Priv}
    {slot : ℕ} {key : Key} {usedPrevKey : Bool} {packet payload : Bytes} {seq : BitVec 64}
    (he : .accepted slot key usedPrevKey packet seq payload ∈ (LaneCove.step C P st inp).2) :
    ∃ pub, .negotiated pub key ∈ tr := by
  obtain ⟨s, hs, -, -, now, -, hkey⟩ := (touches_of_mem he rfl (by simp)).accepted he
  rcases hkey with ⟨-, rfl⟩ | ⟨-, rfl, hp, -⟩
  · exact ⟨s.staticPub, (h slot s hs).sessionKey⟩
  · exact (h slot s hs).prevSessionKey hp

end KnownKeys

end LaneCove
