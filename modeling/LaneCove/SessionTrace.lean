import LaneCove.EventLoop

/-!
# What a reaction does to the session table

Every reaction of the event loop changes the session table either by a sequence
of updates of single slots (`Touch`) or by installing one completed handshake
(`installTable`). The invariants of the table are proved from these two cases
and never unfold the loop again.

## Main definitions

- `SlotStep` — one update of one session, with the events it causes
- `Touch` — one update of the table
- `PeerSession.Follows` — what no such update changes
- `commitOf` — the handshake a reaction completes, if any

## Main results

- `step_cases` — every reaction is a sequence of touches or an install
- `Touches.follows` — the sessions before and after a sequence of touches
-/

namespace LaneCove

variable {Priv Key : Type} {rx : Option (Bytes × Time)}

/-- Events that say nothing about a session. -/
def Event.isQuiet : Event Key → Bool
  | .sentInit .. | .sentResponse .. | .negotiated .. => true
  | .sentData .. | .installed .. | .accepted .. | .delivered .. => false

/-- A `session_init`. -/
def Event.isInstall : Event Key → Bool
  | .installed .. => true
  | .sentInit .. | .sentResponse .. | .negotiated .. | .sentData .. | .accepted ..
  | .delivered .. => false

theorem Event.isInstall_of_isQuiet {e : Event Key} (h : e.isQuiet = true) : e.isInstall = false := by
  cases e with
  | installed => exact absurd h (by simp [Event.isQuiet])
  | _ => rfl

/-- The event of one `forward_to_peer`. -/
def sendEvents (C : Crypto Priv Key) (s : PeerSession Key) (payload : Bytes) (env : SendEnv) :
    List (Event Key) :=
  match (forwardToPeer C s payload env).2 with
  | none => []
  | some packet => [.sentData s payload packet]

/-- The data packet a reaction handles, with the time, if any. -/
def Input.dataPacket (psk : Option Key) : Input Priv → Option (Bytes × Time)
  | .udpRecv _ packet now _ => if isHandshake psk packet then none else some (packet, now)
  | .tick .. | .tunRead .. => none

theorem Input.dataPacket_eq_some {psk : Option Key} {inp : Input Priv} {packet : Bytes} {now : Time}
    (h : inp.dataPacket psk = some (packet, now)) :
    isHandshake psk packet = false ∧ ∃ src env, inp = .udpRecv src packet now env := by
  cases inp with
  | udpRecv src packet' now' env =>
    simp only [Input.dataPacket, Option.ite_none_left_eq_some, Option.some.injEq,
      Prod.mk.injEq, Bool.not_eq_true] at h
    obtain ⟨hhs, rfl, rfl⟩ := h
    exact ⟨hhs, src, env, rfl⟩
  | tick => exact absurd h (by simp [Input.dataPacket])
  | tunRead => exact absurd h (by simp [Input.dataPacket])

/-- One update of the session in a slot, other than `session_init`, while the data
packet `rx` is handled. -/
inductive SlotStep (C : Crypto Priv Key) (rx : Option (Bytes × Time)) (slot : ℕ) :
    PeerSession Key → List (Event Key) → PeerSession Key → Prop
  /-- a write of the `rekeying` flag -/
  | rekeying (s : PeerSession Key) (flag : Bool) :
      SlotStep C rx slot s [] { s with rekeying := flag }
  /-- the session expires -/
  | expire (s : PeerSession Key) : SlotStep C rx slot s [] { s with active := false }
  /-- `forward_to_peer` -/
  | send (s : PeerSession Key) (payload : Bytes) (env : SendEnv) :
      SlotStep C rx slot s (sendEvents C s payload env) (forwardToPeer C s payload env).1
  /-- a data packet that is dropped -/
  | reject {s : PeerSession Key} (ha : s.active = true) {packet : Bytes} {now : Time}
      (hrx : rx = some (packet, now)) :
      SlotStep C rx slot s [] (afterDecrypt C s packet now)
  /-- a data packet that is accepted under the current key -/
  | acceptCur {s : PeerSession Key} (ha : s.active = true) {packet plain payload : Bytes}
      {seq : BitVec 64} {recv : ReplayState} {now : Time} (hrx : rx = some (packet, now))
      (hd : decryptPacket C s.sessionKey packet = some plain)
      (hu : unframe plain = some (seq, payload)) (hr : checkReplay seq s.recvSeq = (0, recv))
      {hop : Option (Option ℕ)} (hhop : hop.isSome = true → s.admits payload = true) :
      SlotStep C rx slot s (.accepted slot s.sessionKey false packet seq payload ::
          handOn packet false payload hop)
        (afterAccept C s packet now recv)
  /-- a data packet that is accepted under the previous key -/
  | acceptPrev {s : PeerSession Key} (ha : s.active = true) {packet plain payload : Bytes}
      {seq : BitVec 64} {now : Time} (hrx : rx = some (packet, now))
      (hcur : decryptPacket C s.sessionKey packet = none)
      (hp : s.prevKeyActive = true) (hnow : now ≤ s.prevKeyExpires)
      (hd : decryptPacket C s.prevSessionKey packet = some plain)
      (hu : unframe plain = some (seq, payload)) {hop : Option (Option ℕ)}
      (hhop : hop.isSome = true → s.admits payload = true) :
      SlotStep C rx slot s (.accepted slot s.prevSessionKey true packet seq payload ::
          handOn packet true payload hop)
        (afterAccept C s packet now s.recvSeq)

/-- One update of the session table other than an install. -/
inductive Touch (C : Crypto Priv Key) (rx : Option (Bytes × Time)) :
    List (PeerSession Key) → List (Event Key) → List (PeerSession Key) → Prop
  /-- an event about no session -/
  | quiet (ss : List (PeerSession Key)) {e : Event Key} (he : e.isQuiet = true) :
      Touch C rx ss [e] ss
  /-- an update of one slot -/
  | slot {ss : List (PeerSession Key)} {i : ℕ} {s s' : PeerSession Key} {es : List (Event Key)}
      (hs : ss[i]? = some s) (h : SlotStep C rx i s es s') : Touch C rx ss es (ss.set i s')

/-- A sequence of updates. -/
abbrev Touches (C : Crypto Priv Key) (rx : Option (Bytes × Time)) := Machine.Steps (Touch C rx)

-- ════════════════════════════════════════════════════════════════════════
-- What an update keeps
-- ════════════════════════════════════════════════════════════════════════

/-- `s'` is a later state of the session `s`: the same peer, address and keys,
and nothing became active. -/
structure PeerSession.Follows (s s' : PeerSession Key) : Prop where
  active : s'.active = true → s.active = true
  addr : s'.addr = s.addr
  staticPub : s'.staticPub = s.staticPub
  sessionKey : s'.sessionKey = s.sessionKey
  prevSessionKey : s'.prevSessionKey = s.prevSessionKey
  prevKeyActive : s'.prevKeyActive = true → s.prevKeyActive = true
  prevKeyExpires : s'.prevKeyExpires = s.prevKeyExpires
  lastHandshake : s'.lastHandshake = s.lastHandshake
  routes : s'.routes = s.routes

theorem PeerSession.Follows.refl (s : PeerSession Key) : s.Follows s :=
  ⟨id, rfl, rfl, rfl, rfl, id, rfl, rfl, rfl⟩

theorem PeerSession.Follows.trans {s s' s'' : PeerSession Key} (h : s.Follows s')
    (h' : s'.Follows s'') : s.Follows s'' where
  active ha := h.active (h'.active ha)
  addr := h'.addr.trans h.addr
  staticPub := h'.staticPub.trans h.staticPub
  sessionKey := h'.sessionKey.trans h.sessionKey
  prevSessionKey := h'.prevSessionKey.trans h.prevSessionKey
  prevKeyActive hp := h.prevKeyActive (h'.prevKeyActive hp)
  prevKeyExpires := h'.prevKeyExpires.trans h.prevKeyExpires
  lastHandshake := h'.lastHandshake.trans h.lastHandshake
  routes := h'.routes.trans h.routes

theorem forwardToPeer_follows (C : Crypto Priv Key) (s : PeerSession Key) (payload : Bytes)
    (env : SendEnv) : s.Follows (forwardToPeer C s payload env).1 := by
  unfold forwardToPeer
  split
  · exact ⟨id, rfl, rfl, rfl, rfl, id, rfl, rfl, rfl⟩
  · split <;> exact ⟨id, rfl, rfl, rfl, rfl, id, rfl, rfl, rfl⟩

theorem afterDecrypt_follows (C : Crypto Priv Key) (s : PeerSession Key) (packet : Bytes)
    (now : Time) : s.Follows (afterDecrypt C s packet now) := by
  refine ⟨id, rfl, rfl, rfl, rfl, fun h => ?_, rfl, rfl, rfl⟩
  simp only [afterDecrypt, Bool.and_eq_true] at h
  exact h.1

theorem SlotStep.follows {C : Crypto Priv Key} {slot : ℕ} {s s' : PeerSession Key}
    {es : List (Event Key)} (h : SlotStep C rx slot s es s') : s.Follows s' := by
  have haccept : ∀ packet now recv, s.Follows (afterAccept C s packet now recv) :=
    fun packet now _ =>
      (afterDecrypt_follows C s packet now).trans ⟨id, rfl, rfl, rfl, rfl, id, rfl, rfl, rfl⟩
  cases h with
  | rekeying flag => exact ⟨id, rfl, rfl, rfl, rfl, id, rfl, rfl, rfl⟩
  | expire => exact ⟨fun h => absurd h (by simp), rfl, rfl, rfl, rfl, id, rfl, rfl, rfl⟩
  | send payload env => exact forwardToPeer_follows C s payload env
  | reject _ _ => exact afterDecrypt_follows C s _ _
  | acceptCur => exact haccept ..
  | acceptPrev => exact haccept ..

/-- Every slot after a sequence of updates holds a later state of the session it
held before. -/
theorem Touches.follows {C : Crypto Priv Key} {ss ss' : List (PeerSession Key)}
    {es : List (Event Key)} (h : Touches C rx ss es ss') {i : ℕ} {s' : PeerSession Key}
    (hs' : ss'[i]? = some s') : ∃ s, ss[i]? = some s ∧ s.Follows s' := by
  induction h generalizing s' with
  | refl => exact ⟨s', hs', .refl s'⟩
  | head hstep _ ih =>
    obtain ⟨s, hs, hf⟩ := ih hs'
    cases hstep with
    | quiet => exact ⟨s, hs, hf⟩
    | slot hj hslot =>
      rcases (SlotTable.updated_set hj _).cases hs with ⟨rfl, rfl⟩ | ⟨-, hs⟩
      · exact ⟨_, hj, hslot.follows.trans hf⟩
      · exact ⟨s, hs, hf⟩

/-- Uniqueness of what no update changes is kept. -/
theorem Touches.unique {κ : Type*} {f : PeerSession Key → κ} {C : Crypto Priv Key}
    {ss ss' : List (PeerSession Key)} {es : List (Event Key)} (ht : Touches C rx ss es ss')
    (hf : ∀ {s s' : PeerSession Key}, s.Follows s' → f s' = f s)
    (h : SlotTable.Unique PeerSession.active f ss) : SlotTable.Unique PeerSession.active f ss' := by
  intro i j a b ha hb hla hlb hab
  obtain ⟨a₀, ha₀, hfa⟩ := ht.follows ha
  obtain ⟨b₀, hb₀, hfb⟩ := ht.follows hb
  refine h i j a₀ b₀ ha₀ hb₀ (hfa.active hla) (hfb.active hlb) ?_
  rw [← hf hfa, ← hf hfb, hab]

-- ════════════════════════════════════════════════════════════════════════
-- What the events of an update say
-- ════════════════════════════════════════════════════════════════════════

theorem mem_sendEvents {C : Crypto Priv Key} {s : PeerSession Key} {payload : Bytes} {env : SendEnv}
    {e : Event Key} : e ∈ sendEvents C s payload env ↔
      ∃ packet, (forwardToPeer C s payload env).2 = some packet ∧
        e = .sentData s payload packet := by
  unfold sendEvents
  cases (forwardToPeer C s payload env).2 <;> simp

theorem mem_handOn {packet payload : Bytes} {usedPrevKey : Bool} {hop : Option (Option ℕ)}
    {e : Event Key} : e ∈ handOn packet usedPrevKey payload hop ↔
      ∃ relay, hop = some relay ∧ e = .delivered packet usedPrevKey payload relay := by
  cases hop <;> simp [handOn]

/-- An accepted packet decrypts under a key of the active session. -/
theorem SlotStep.accepted {C : Crypto Priv Key} {i slot : ℕ} {s s' : PeerSession Key}
    {es : List (Event Key)} (h : SlotStep C rx i s es s') {key : Key} {usedPrevKey : Bool}
    {packet payload : Bytes} {seq : BitVec 64}
    (he : .accepted slot key usedPrevKey packet seq payload ∈ es) :
    slot = i ∧ s.active = true ∧
      (∃ plain, decryptPacket C key packet = some plain ∧ unframe plain = some (seq, payload)) ∧
      ∃ now, rx = some (packet, now) ∧ ((usedPrevKey = false ∧ key = s.sessionKey) ∨
        (usedPrevKey = true ∧ key = s.prevSessionKey ∧ s.prevKeyActive = true ∧
          now ≤ s.prevKeyExpires)) := by
  cases h with
  | rekeying flag => exact absurd he (by simp)
  | expire => exact absurd he (by simp)
  | send payload' env =>
    obtain ⟨_, -, he⟩ := mem_sendEvents.mp he
    exact absurd he (by simp)
  | reject _ _ => exact absurd he (by simp)
  | acceptCur ha hrx hd hu _ _ =>
    rcases List.mem_cons.mp he with he | he
    · obtain ⟨rfl, rfl, rfl, rfl, rfl, rfl⟩ := Event.accepted.inj he
      exact ⟨rfl, ha, ⟨_, hd, hu⟩, _, hrx, Or.inl ⟨rfl, rfl⟩⟩
    · obtain ⟨_, -, he⟩ := mem_handOn.mp he
      exact absurd he (by simp)
  | acceptPrev ha hrx _ hp hnow hd hu _ =>
    rcases List.mem_cons.mp he with he | he
    · obtain ⟨rfl, rfl, rfl, rfl, rfl, rfl⟩ := Event.accepted.inj he
      exact ⟨rfl, ha, ⟨_, hd, hu⟩, _, hrx, Or.inr ⟨rfl, rfl, hp, hnow⟩⟩
    · obtain ⟨_, -, he⟩ := mem_handOn.mp he
      exact absurd he (by simp)

/-- A payload that was handed on is admitted, and its packet was accepted. -/
theorem SlotStep.delivered {C : Crypto Priv Key} {i : ℕ} {s s' : PeerSession Key}
    {es : List (Event Key)} (h : SlotStep C rx i s es s') {packet payload : Bytes}
    {usedPrevKey : Bool} {relay : Option ℕ}
    (he : .delivered packet usedPrevKey payload relay ∈ es) :
    s.admits payload = true ∧
      ∃ key seq, .accepted i key usedPrevKey packet seq payload ∈ es := by
  cases h with
  | rekeying flag => exact absurd he (by simp)
  | expire => exact absurd he (by simp)
  | send payload' env =>
    obtain ⟨_, -, he⟩ := mem_sendEvents.mp he
    exact absurd he (by simp)
  | reject _ _ => exact absurd he (by simp)
  | acceptCur _ _ _ _ _ hhop =>
    obtain ⟨_, hhop', he⟩ := mem_handOn.mp (List.mem_of_ne_of_mem (by simp) he)
    obtain ⟨rfl, rfl, rfl, rfl⟩ := Event.delivered.inj he
    exact ⟨hhop (by simp [hhop']), _, _, List.mem_cons_self⟩
  | acceptPrev _ _ _ _ _ _ _ hhop =>
    obtain ⟨_, hhop', he⟩ := mem_handOn.mp (List.mem_of_ne_of_mem (by simp) he)
    obtain ⟨rfl, rfl, rfl, rfl⟩ := Event.delivered.inj he
    exact ⟨hhop (by simp [hhop']), _, _, List.mem_cons_self⟩

theorem SlotStep.isInstall {C : Crypto Priv Key} {i : ℕ} {s s' : PeerSession Key}
    {es : List (Event Key)} (h : SlotStep C rx i s es s') {e : Event Key} (he : e ∈ es) :
    e.isInstall = false := by
  have hhandOn : ∀ {packet payload : Bytes} {usedPrevKey : Bool} {hop : Option (Option ℕ)}
      {slot : ℕ} {key : Key} {seq : BitVec 64},
      e ∈ .accepted slot key usedPrevKey packet seq payload ::
        handOn packet usedPrevKey payload hop → e.isInstall = false := by
    intro packet payload usedPrevKey hop slot key seq he
    rcases List.mem_cons.mp he with rfl | he
    · rfl
    · obtain ⟨_, -, rfl⟩ := mem_handOn.mp he
      rfl
  cases h with
  | rekeying flag => exact absurd he (by simp)
  | expire => exact absurd he (by simp)
  | send payload env =>
    obtain ⟨_, -, rfl⟩ := mem_sendEvents.mp he
    rfl
  | reject _ _ => exact absurd he (by simp)
  | acceptCur _ _ _ _ _ _ => exact hhandOn he
  | acceptPrev _ _ _ _ _ _ _ _ => exact hhandOn he

/-- Updates of the table other than an install do not install. -/
theorem Touches.isInstall {C : Crypto Priv Key} {ss ss' : List (PeerSession Key)}
    {es : List (Event Key)} (h : Touches C rx ss es ss') :
    ∀ e ∈ es, e.isInstall = false := by
  induction h with
  | refl => simp
  | head hstep _ ih =>
    intro e he
    rcases List.mem_append.mp he with he | he
    · cases hstep with
      | quiet hq => exact Event.isInstall_of_isQuiet (List.mem_singleton.mp he ▸ hq)
      | slot _ hslot => exact hslot.isInstall he
    · exact ih e he

theorem PeerSession.Follows.admits {s s' : PeerSession Key} (h : s.Follows s') (payload : Bytes) :
    s'.admits payload = s.admits payload := by
  simp only [PeerSession.admits, checkAllowedSrc, h.routes]

/-- An accepted packet decrypts under a key the session in its slot had before. -/
theorem Touches.accepted {C : Crypto Priv Key} {ss ss' : List (PeerSession Key)}
    {es : List (Event Key)} (h : Touches C rx ss es ss') {slot : ℕ} {key : Key} {usedPrevKey : Bool}
    {packet payload : Bytes} {seq : BitVec 64}
    (he : .accepted slot key usedPrevKey packet seq payload ∈ es) :
    ∃ s, ss[slot]? = some s ∧ s.active = true ∧
      (∃ plain, decryptPacket C key packet = some plain ∧ unframe plain = some (seq, payload)) ∧
      ∃ now, rx = some (packet, now) ∧ ((usedPrevKey = false ∧ key = s.sessionKey) ∨
        (usedPrevKey = true ∧ key = s.prevSessionKey ∧ s.prevKeyActive = true ∧
          now ≤ s.prevKeyExpires)) := by
  induction h with
  | refl => exact absurd he (by simp)
  | head hstep _ ih =>
    rcases List.mem_append.mp he with he | he
    · cases hstep with
      | quiet hq =>
        rw [← List.mem_singleton.mp he] at hq
        exact absurd hq (by simp [Event.isQuiet])
      | slot hs hslot =>
        obtain ⟨rfl, h⟩ := hslot.accepted he
        exact ⟨_, hs, h⟩
    · obtain ⟨s, hs, ha, hd, now, hrx, hkey⟩ := ih he
      obtain ⟨s₀, hs₀, hf⟩ := Touches.follows (.single hstep) hs
      refine ⟨s₀, hs₀, hf.active ha, hd, now, hrx, ?_⟩
      rw [← hf.sessionKey, ← hf.prevSessionKey, ← hf.prevKeyExpires]
      exact hkey.imp id fun ⟨hu, hk, hp, hnow⟩ => ⟨hu, hk, hf.prevKeyActive hp, hnow⟩

/-- A payload that was handed on is admitted by the session that accepted it. -/
theorem Touches.delivered {C : Crypto Priv Key} {ss ss' : List (PeerSession Key)}
    {es : List (Event Key)} (h : Touches C rx ss es ss') {packet payload : Bytes}
    {usedPrevKey : Bool} {relay : Option ℕ}
    (he : .delivered packet usedPrevKey payload relay ∈ es) :
    ∃ slot s key seq, ss[slot]? = some s ∧ s.admits payload = true ∧
      .accepted slot key usedPrevKey packet seq payload ∈ es := by
  induction h with
  | refl => exact absurd he (by simp)
  | head hstep _ ih =>
    rcases List.mem_append.mp he with he | he
    · cases hstep with
      | quiet hq =>
        rw [← List.mem_singleton.mp he] at hq
        exact absurd hq (by simp [Event.isQuiet])
      | slot hs hslot =>
        obtain ⟨hadm, key, seq, hacc⟩ := hslot.delivered he
        exact ⟨_, _, key, seq, hs, hadm, List.mem_append_left _ hacc⟩
    · obtain ⟨slot, s, key, seq, hs, hadm, hacc⟩ := ih he
      obtain ⟨s₀, hs₀, hf⟩ := Touches.follows (.single hstep) hs
      exact ⟨slot, s₀, key, seq, hs₀, hf.admits payload ▸ hadm, List.mem_append_right _ hacc⟩

theorem touches_quiet (C : Crypto Priv Key) (ss : List (PeerSession Key)) {es : List (Event Key)}
    (he : ∀ e ∈ es, e.isQuiet = true) : Touches C rx ss es ss := by
  induction es with
  | nil => exact .refl ss
  | cons e es ih =>
    exact .head (.quiet ss (he e (by simp))) (ih fun e' h => he e' (by simp [h]))

theorem touches_setRekeying (C : Crypto Priv Key) (ss : List (PeerSession Key)) (pub : Bytes)
    (flag : Bool) : Touches C rx ss [] (setRekeying ss pub flag) := by
  unfold setRekeying
  split
  · exact .refl ss
  · next i hi =>
    obtain ⟨s, hs, -⟩ := findSessionByPub_eq_some hi
    rw [List.modify_eq_set_getElem?, hs]
    exact .single (.slot hs (.rekeying s flag))

-- ════════════════════════════════════════════════════════════════════════
-- Timers and TUN
-- ════════════════════════════════════════════════════════════════════════

/-- An attempt either fails or takes a free pending slot. -/
theorem initiateOutboundHandshake_cases (C : Crypto Priv Key) (P : PeerParams Priv Key)
    (st : PeerState Priv Key) (i : ℕ) (env : ConnectEnv Priv) :
    let st' := { st with
      configs := st.configs.modify i fun cfg => { cfg with lastAttempt := env.clk } }
    initiateOutboundHandshake C P st i env = (st', none) ∨
    ∃ slot packet hsState, st.pending.findIdx? (fun p => !p.active) = some slot ∧
      handshakeClientSend C P.psk P.staticPub (st.config i).pub env.ephKey env.sendOk =
        some (packet, hsState) ∧
      initiateOutboundHandshake C P st i env = ({ st' with pending := st.pending.set slot {
        active := true, cfgIdx := i, sentAt := env.sentClk, hsState,
        serverAddr := (st.config i).endpoint } }, some packet) := by
  intro st'
  simp only [initiateOutboundHandshake]
  cases hslot : st.pending.findIdx? fun p => !p.active with
  | none => exact Or.inl rfl
  | some slot =>
    cases hsend : handshakeClientSend C P.psk P.staticPub (st.config i).pub env.ephKey env.sendOk with
    | none => exact Or.inl rfl
    | some r => exact Or.inr ⟨slot, r.1, r.2, rfl, rfl, rfl⟩

theorem initiateOutboundHandshake_sessions (C : Crypto Priv Key) (P : PeerParams Priv Key)
    (st : PeerState Priv Key) (i : ℕ) (env : ConnectEnv Priv) :
    (initiateOutboundHandshake C P st i env).1.sessions = st.sessions := by
  rcases initiateOutboundHandshake_cases C P st i env with hinit | ⟨_, _, _, -, -, hinit⟩ <;>
    rw [hinit]

theorem connectStep_touches (C : Crypto Priv Key) (P : PeerParams Priv Key) (now : Time)
    (env : ℕ → ConnectEnv Priv) (st : PeerState Priv Key) (i : ℕ) :
    Touches C rx st.sessions (connectStep C P now env st i).2
      (connectStep C P now env st i).1.sessions := by
  unfold connectStep
  dsimp only
  split
  · split
    · next st' hinit =>
      have hsess := congrArg (fun r => r.1.sessions) hinit
      simp only [initiateOutboundHandshake_sessions] at hsess
      rw [← hsess]
      exact (touches_setRekeying C _ _ true).trans (touches_setRekeying C _ _ false)
    · next st' packet hinit =>
      have hsess := congrArg (fun r => r.1.sessions) hinit
      simp only [initiateOutboundHandshake_sessions] at hsess
      rw [← hsess]
      exact (touches_setRekeying C _ _ true).trans (.single (.quiet _ rfl))
  · exact .refl _

theorem expirePendingStep_touches (C : Crypto Priv Key) (P : PeerParams Priv Key) (now : Time)
    (st : PeerState Priv Key) (j : ℕ) :
    Touches C rx st.sessions (expirePendingStep P now st j).2
      (expirePendingStep P now st j).1.sessions := by
  unfold expirePendingStep
  split
  · exact .refl _
  · split
    · exact .refl _
    · exact touches_setRekeying C _ _ false

theorem expireSessionStep_touches (C : Crypto Priv Key) (P : PeerParams Priv Key) (now : Time)
    (st : PeerState Priv Key) (j : ℕ) :
    Touches C rx st.sessions (expireSessionStep P now st j).2
      (expireSessionStep P now st j).1.sessions := by
  unfold expireSessionStep
  split
  · exact .refl _
  · next s hs =>
    split
    · exact .single (.slot hs (.expire s))
    · exact .refl _

theorem forwardOn_touches (C : Crypto Priv Key) (st : PeerState Priv Key) (j : ℕ)
    (payload : Bytes) (env : SendEnv) :
    Touches C rx st.sessions (forwardOn C st j payload env).2
      (forwardOn C st j payload env).1.sessions := by
  unfold forwardOn
  split
  · exact .refl _
  · next s hs => exact .single (.slot hs (.send s payload env))

theorem keepaliveStep_touches (C : Crypto Priv Key) (P : PeerParams Priv Key) (now : Time)
    (env : ℕ → SendEnv) (st : PeerState Priv Key) (j : ℕ) :
    Touches C rx st.sessions (keepaliveStep C P now env st j).2
      (keepaliveStep C P now env st j).1.sessions := by
  unfold keepaliveStep
  split
  · exact .refl _
  · split
    · exact .refl _
    · exact forwardOn_touches C st j [] (env j)

theorem timers_touches (C : Crypto Priv Key) (P : PeerParams Priv Key) (now : Time)
    (connect : ℕ → ConnectEnv Priv) (keepalive : ℕ → SendEnv) (st : PeerState Priv Key) :
    Touches C rx st.sessions (timers C P now connect keepalive st).2
      (timers C P now connect keepalive st).1.sessions := by
  have h1 := Machine.steps_run (R := Touch C rx) PeerState.sessions
    (connectStep_touches C P now connect)
  have h2 := Machine.steps_run (R := Touch C rx) PeerState.sessions
    (expirePendingStep_touches C P now)
  have h3 := Machine.steps_run (R := Touch C rx) PeerState.sessions
    (expireSessionStep_touches C P now)
  have h4 := Machine.steps_run (R := Touch C rx) PeerState.sessions
    (keepaliveStep_touches C P now keepalive)
  unfold timers
  dsimp only
  exact (((h1 st _).trans (h2 _ _)).trans (h3 _ _)).trans (h4 _ _)

theorem expirePendingStep_events (P : PeerParams Priv Key) (now : Time) (st : PeerState Priv Key)
    (j : ℕ) : (expirePendingStep P now st j).2 = [] := by
  unfold expirePendingStep
  split
  · rfl
  · split <;> rfl

theorem expireSessionStep_events (P : PeerParams Priv Key) (now : Time) (st : PeerState Priv Key)
    (j : ℕ) : (expireSessionStep P now st j).2 = [] := by
  unfold expireSessionStep
  split
  · rfl
  · split <;> rfl

theorem mem_keepaliveStep {C : Crypto Priv Key} {P : PeerParams Priv Key} {now : Time}
    {env : ℕ → SendEnv} {st : PeerState Priv Key} {j : ℕ} {e : Event Key}
    (he : e ∈ (keepaliveStep C P now env st j).2) : e ∈ (forwardOn C st j [] (env j)).2 := by
  unfold keepaliveStep at he
  split at he
  · exact absurd he (by simp)
  · split at he
    · exact absurd he (by simp)
    · exact he

/-- The events of the timers are those of the first loop and, on a later state, of the fourth. -/
theorem timers_events (C : Crypto Priv Key) (P : PeerParams Priv Key) (now : Time)
    (connect : ℕ → ConnectEnv Priv) (keepalive : ℕ → SendEnv) (st : PeerState Priv Key) :
    ∃ st', (timers C P now connect keepalive st).2 =
      (Machine.run (connectStep C P now connect) st (List.range st.configs.length)).2 ++
        (Machine.run (keepaliveStep C P now keepalive) st'
          (List.range st'.sessions.length)).2 := by
  unfold timers
  dsimp only
  rw [Machine.run_events_eq_nil (expirePendingStep_events P now),
    Machine.run_events_eq_nil (expireSessionStep_events P now), List.append_nil, List.append_nil]
  exact ⟨_, rfl⟩

theorem tick_touches (C : Crypto Priv Key) (P : PeerParams Priv Key) (st : PeerState Priv Key)
    (now : Time) (connect : ℕ → ConnectEnv Priv) (keepalive : ℕ → SendEnv) :
    Touches C rx st.sessions (tick C P st now connect keepalive).2
      (tick C P st now connect keepalive).1.sessions := by
  unfold tick
  split
  · exact .refl _
  · exact timers_touches C P now connect keepalive { st with lastRekeyCheck := now }

theorem tunRead_touches (C : Crypto Priv Key) (st : PeerState Priv Key) (buffer : Bytes)
    (env : SendEnv) :
    Touches C rx st.sessions (tunRead C st buffer env).2 (tunRead C st buffer env).1.sessions := by
  unfold tunRead
  split
  · split
    · exact .refl _
    · exact forwardOn_touches C st _ buffer env
  · exact .refl _

-- ════════════════════════════════════════════════════════════════════════
-- Data packets
-- ════════════════════════════════════════════════════════════════════════

theorem relayTo_touches (C : Crypto Priv Key) (st : PeerState Priv Key) (payload : Bytes)
    (env : SendEnv) (hop : Option (Option ℕ)) :
    Touches C rx st.sessions (relayTo C st payload env hop).2
      (relayTo C st payload env hop).1.sessions := by
  unfold relayTo
  split
  · exact forwardOn_touches C st _ payload env
  · exact .refl _
  · exact .refl _

theorem decryptOn_eq_some {C : Crypto Priv Key} {s : PeerSession Key} {packet plain : Bytes}
    {now : Time} {usedPrevKey : Bool} {key : Key}
    (h : decryptOn C s packet now = some (plain, usedPrevKey, key)) :
    (usedPrevKey = false ∧ key = s.sessionKey ∧ decryptPacket C s.sessionKey packet = some plain) ∨
    (usedPrevKey = true ∧ key = s.prevSessionKey ∧ decryptPacket C s.sessionKey packet = none ∧
      s.prevKeyActive = true ∧ now ≤ s.prevKeyExpires ∧
      decryptPacket C s.prevSessionKey packet = some plain) := by
  unfold decryptOn at h
  split at h
  · next plain' hcur =>
    simp only [Option.some.injEq, Prod.mk.injEq] at h
    obtain ⟨rfl, rfl, rfl⟩ := h
    exact Or.inl ⟨rfl, rfl, hcur⟩
  · next hcur =>
    split at h
    · next hprev =>
      simp only [Bool.and_eq_true, decide_eq_true_eq] at hprev
      obtain ⟨plain', hd, he⟩ := Option.map_eq_some_iff.mp h
      simp only [Prod.mk.injEq] at he
      obtain ⟨rfl, rfl, rfl⟩ := he
      exact Or.inr ⟨rfl, rfl, hcur, hprev.1, hprev.2, hd⟩
    · exact absurd h (by simp)

theorem checkReplay_ret (seq : BitVec 64) (st : ReplayState) :
    (checkReplay seq st).1 = 0 ∨ checkReplay seq st = (-1, st) := by
  rcases checkReplay_refines seq st with ⟨_, _, h, _⟩ | ⟨_, h⟩
  · exact Or.inl h
  · exact Or.inr h

/-- A packet that passes the receive path was decrypted under the current key and
is new, or under the previous key within its grace period. -/
theorem openData_eq_some {C : Crypto Priv Key} {s : PeerSession Key} {packet payload : Bytes}
    {now : Time} {usedPrevKey : Bool} {key : Key} {seq : BitVec 64} {recv : ReplayState}
    (h : openData C s packet now = some (key, usedPrevKey, seq, payload, recv)) :
    ∃ plain, unframe plain = some (seq, payload) ∧
      ((usedPrevKey = false ∧ key = s.sessionKey ∧
          decryptPacket C s.sessionKey packet = some plain ∧
          checkReplay seq s.recvSeq = (0, recv)) ∨
        (usedPrevKey = true ∧ key = s.prevSessionKey ∧ recv = s.recvSeq ∧
          decryptPacket C s.sessionKey packet = none ∧ s.prevKeyActive = true ∧
          now ≤ s.prevKeyExpires ∧ decryptPacket C s.prevSessionKey packet = some plain)) := by
  simp only [openData, Option.bind_eq_bind, Option.bind_eq_some_iff] at h
  obtain ⟨⟨plain, used, key'⟩, hd, ⟨seq', payload'⟩, hu, h⟩ := h
  refine ⟨plain, ?_⟩
  dsimp only at hu h
  rcases decryptOn_eq_some hd with ⟨rfl, rfl, hcur⟩ | ⟨rfl, rfl, hcur, hp, hnow, hprev⟩
  · rcases checkReplay_ret seq' s.recvSeq with h0 | hneg
    · simp only [Bool.false_eq_true, if_false, h0, lt_irrefl, Option.some.injEq,
        Prod.mk.injEq] at h
      obtain ⟨rfl, rfl, rfl, rfl, rfl⟩ := h
      exact ⟨hu, Or.inl ⟨rfl, rfl, hcur, Prod.ext h0 rfl⟩⟩
    · simp [hneg] at h
  · simp only [if_true, lt_irrefl, if_false, Option.some.injEq, Prod.mk.injEq] at h
    obtain ⟨rfl, rfl, rfl, rfl, rfl⟩ := h
    exact ⟨hu, Or.inr ⟨rfl, rfl, rfl, hcur, hp, hnow, hprev⟩⟩

/-- A packet under the current key is subject to the replay check only. -/
theorem openData_current {C : Crypto Priv Key} (hC : C.GcmCorrect) {s : PeerSession Key}
    {seq : BitVec 64}
    {payload packet : Bytes} {iv : Option Iv}
    (henc : encryptPacket C s.sessionKey iv (frame seq payload) = some packet) (now : Time) :
    openData C s packet now =
      if (checkReplay seq s.recvSeq).1 < 0 then none
      else some (s.sessionKey, false, seq, payload, (checkReplay seq s.recvSeq).2) := by
  simp [openData, decryptOn, decryptPacket_encryptPacket hC henc, unframe_frame]

/-- An admitted payload goes to the session it is routed to, or to the TUN device. -/
theorem nextHop_eq (sessions : List (PeerSession Key)) (j : ℕ) (s : PeerSession Key)
    (payload : Bytes) : nextHop sessions j s payload = if s.admits payload then
      some (if isIpv4 payload then (routeLookup sessions (ipAt payload 16)).filter (· ≠ j) else none)
      else none := by
  rw [nextHop]
  cases s.admits payload with
  | false => rfl
  | true =>
    cases isIpv4 payload with
    | false => rfl
    | true =>
      cases routeLookup sessions (ipAt payload 16) with
      | none => rfl
      | some fwd => by_cases hfwd : fwd = j <;> simp [hfwd, Option.filter]

/-- Only an admitted payload goes anywhere. -/
theorem admits_of_nextHop {ss : List (PeerSession Key)} {j : ℕ} {s : PeerSession Key}
    {payload : Bytes} (h : (nextHop ss j s payload).isSome = true) : s.admits payload = true := by
  cases ha : s.admits payload with
  | true => rfl
  | false => simp [nextHop, ha] at h

/-- The data path either drops the packet or accepts it and delivers. -/
theorem recvData_touches (C : Crypto Priv Key) {st : PeerState Priv Key} {j : ℕ}
    {s : PeerSession Key} (hs : st.sessions[j]? = some s) (ha : s.active = true) (packet : Bytes)
    (now : Time) (env : RecvEnv Priv) :
    Touches C (some (packet, now)) st.sessions (recvData C st j s packet now env).2
      (recvData C st j s packet now env).1.sessions := by
  unfold recvData
  split
  · exact .single (.slot hs (.reject ha rfl))
  · next key usedPrevKey seq payload recv hopen =>
    refine .head ?_ (relayTo_touches C _ payload env.relay _)
    obtain ⟨plain, hu, ⟨rfl, rfl, hd, hr⟩ | ⟨rfl, rfl, rfl, hcur, hp, hnow, hd⟩⟩ :=
      openData_eq_some hopen
    · exact .slot hs (.acceptCur ha rfl hd hu hr admits_of_nextHop)
    · exact .slot hs (.acceptPrev ha rfl hcur hp hnow hd hu admits_of_nextHop)

-- ════════════════════════════════════════════════════════════════════════
-- Handshakes
-- ════════════════════════════════════════════════════════════════════════

/-- The handshake that a response completes for the first pending entry of its
source address. -/
def commitResponse (C : Crypto Priv Key) (P : PeerParams Priv Key) (st : PeerState Priv Key)
    (p : PendingHs Priv) (src : SockAddr) (packet : Bytes) (env : RecvEnv Priv) :
    Option (Commit Key) :=
  let cfg := st.config p.cfgIdx
  (handshakeClientRecv C P.psk P.staticKey P.staticPub cfg.pub p.hsState packet).1.map fun key =>
    { src, pub := cfg.pub, key, cfg, isOutbound := true, cause := packet, clk := env.clk }

/-- The handshake with a peer that `handshake_server_respond` has identified: it is
configured and its cooldown is over. -/
def commitKnown (P : PeerParams Priv Key) (st : PeerState Priv Key) (src : SockAddr)
    (packet : Bytes) (now : Time) (clk : InitClock) (pub : Bytes) (key : Key) :
    Option (Commit Key) :=
  match findPeerConfig st.configs pub with
  | none => none
  | some cfg =>
    if inCooldown P.settings st.sessions (findSessionByPub st.sessions pub) now then none
    else some { src, pub, key, cfg, isOutbound := false, cause := packet, clk }

/-- The handshake that an initiation completes: the cooldown of its address is
over and the response went out. -/
def commitInit (C : Crypto Priv Key) (P : PeerParams Priv Key) (st : PeerState Priv Key)
    (src : SockAddr) (packet : Bytes) (now : Time) (env : RecvEnv Priv) : Option (Commit Key) :=
  if inCooldown P.settings st.sessions (findSessionByAddr st.sessions src) now then none
  else
    match (respond C P st packet env.respondOk).2 with
    | none => none
    | some (pub, key) => commitKnown P st src packet now env.clk pub key

/-- The handshake a reaction completes, if any. -/
def commitOf (C : Crypto Priv Key) (P : PeerParams Priv Key) (st : PeerState Priv Key) :
    Input Priv → Option (Commit Key)
  | .udpRecv src packet now env =>
    if isHandshake P.psk packet then
      match findPending st.pending src with
      | some j => st.pending[j]?.bind fun p => commitResponse C P st p src packet env
      | none => commitInit C P st src packet now env
    else none
  | .tick .. | .tunRead .. => none

/-- The two ways to complete a handshake, with what was checked on the way. -/
inductive Completes (C : Crypto Priv Key) (P : PeerParams Priv Key) (st : PeerState Priv Key) :
    Input Priv → Commit Key → Prop
  /-- by the response to a pending initiation -/
  | response {src : SockAddr} {packet : Bytes} {now : Time} {env : RecvEnv Priv} {j : ℕ}
      {p : PendingHs Priv} {key : Key} (hhs : isHandshake P.psk packet = true)
      (hfind : findPending st.pending src = some j) (hp : st.pending[j]? = some p)
      (hrecv : (handshakeClientRecv C P.psk P.staticKey P.staticPub (st.config p.cfgIdx).pub
        p.hsState packet).1 = some key) :
      Completes C P st (.udpRecv src packet now env)
        { src, pub := (st.config p.cfgIdx).pub, key, cfg := st.config p.cfgIdx, isOutbound := true,
          cause := packet, clk := env.clk }
  /-- by answering an initiation -/
  | init {src : SockAddr} {packet : Bytes} {now : Time} {env : RecvEnv Priv} {pub : Bytes}
      {key : Key} {cfg : PeerConfig} (hhs : isHandshake P.psk packet = true)
      (hpend : findPending st.pending src = none)
      (haddr : inCooldown P.settings st.sessions (findSessionByAddr st.sessions src) now = false)
      (hresp : (respond C P st packet env.respondOk).2 = some (pub, key))
      (hcfg : findPeerConfig st.configs pub = some cfg)
      (hpub : inCooldown P.settings st.sessions (findSessionByPub st.sessions pub) now = false) :
      Completes C P st (.udpRecv src packet now env)
        { src, pub, key, cfg, isOutbound := false, cause := packet, clk := env.clk }

theorem completes_of_commitOf {C : Crypto Priv Key} {P : PeerParams Priv Key}
    {st : PeerState Priv Key} {inp : Input Priv} {c : Commit Key}
    (h : commitOf C P st inp = some c) : Completes C P st inp c := by
  cases inp with
  | tick => exact absurd h (by simp [commitOf])
  | tunRead => exact absurd h (by simp [commitOf])
  | udpRecv src packet now env =>
    simp only [commitOf, Option.ite_none_right_eq_some] at h
    obtain ⟨hhs, h⟩ := h
    cases hfind : findPending st.pending src with
    | some j =>
      rw [hfind] at h
      obtain ⟨p, hp, hc⟩ := Option.bind_eq_some_iff.mp h
      obtain ⟨key, hrecv, rfl⟩ := Option.map_eq_some_iff.mp hc
      exact .response hhs hfind hp hrecv
    | none =>
      simp only [hfind, commitInit, Option.ite_none_left_eq_some, Bool.not_eq_true] at h
      obtain ⟨haddr, h⟩ := h
      cases hresp : (respond C P st packet env.respondOk).2 with
      | none => exact absurd h (by simp [hresp])
      | some r =>
        obtain ⟨pub, key⟩ := r
        simp only [hresp, commitKnown] at h
        cases hcfg : findPeerConfig st.configs pub with
        | none => exact absurd h (by simp [hcfg])
        | some cfg =>
          simp only [hcfg, Option.ite_none_left_eq_some, Bool.not_eq_true] at h
          obtain ⟨hpub, h⟩ := h
          obtain rfl := Option.some.inj h
          exact .init hhs hfind haddr hresp hcfg hpub

/-- The tie-break loop finds no entry: the response path has taken every datagram
for which there is one. -/
theorem tieBreak_of_findPending_none {P : PeerParams Priv Key} {st : PeerState Priv Key}
    {src : SockAddr} (h : findPending st.pending src = none) : tieBreak P st src = some st := by
  rw [tieBreak, h]

@[simp] theorem refreshPrecompEph_sessions (st : PeerState Priv Key) (fresh : Option Priv) :
    (refreshPrecompEph st fresh).sessions = st.sessions := by
  cases fresh <;> rfl

@[simp] theorem refreshPrecompEph_configs (st : PeerState Priv Key) (fresh : Option Priv) :
    (refreshPrecompEph st fresh).configs = st.configs := by
  cases fresh <;> rfl

theorem responseEvents_isQuiet (src : SockAddr) (init : Bytes) (reply : Option Bytes) :
    ∀ e ∈ (responseEvents src init reply : List (Event Key)), e.isQuiet = true := by
  cases reply <;> simp [responseEvents, Event.isQuiet]

variable [Inhabited Key]

/-- The event of an install, if the table has room. -/
def installEvents (c : Commit Key) (ss : List (PeerSession Key)) : List (Event Key) :=
  match allocSession ss c.pub c.src with
  | none => []
  | some (slot, _) => [.installed slot c.src c.pub c.key c.isOutbound c.cause]

theorem install_sessions (P : PeerParams Priv Key) (st : PeerState Priv Key) (c : Commit Key) :
    (install P st c).1.sessions = installTable P.settings c st.sessions := by
  unfold install installTable
  cases allocSession st.sessions c.pub c.src <;> rfl

theorem install_events (P : PeerParams Priv Key) (st : PeerState Priv Key) (c : Commit Key) :
    (install P st c).2 = installEvents c st.sessions := by
  unfold install installEvents
  cases allocSession st.sessions c.pub c.src <;> rfl

/-- What a reaction does to the session table, and the events it causes. -/
def Reaction (C : Crypto Priv Key) (P : PeerParams Priv Key) (rx : Option (Bytes × Time))
    (commit : Option (Commit Key)) (ss : List (PeerSession Key)) (es : List (Event Key))
    (ss' : List (PeerSession Key)) : Prop :=
  match commit with
  | none => Touches C rx ss es ss'
  | some c => ss' = installTable P.settings c ss ∧ ∃ pre, (∀ e ∈ pre, e.isQuiet = true) ∧
      es = pre ++ .negotiated c.pub c.key :: installEvents c ss

theorem recvResponse_reaction (C : Crypto Priv Key) (P : PeerParams Priv Key)
    (st : PeerState Priv Key) (j : ℕ) (src : SockAddr) (packet : Bytes) (env : RecvEnv Priv) :
    Reaction C P rx (st.pending[j]?.bind fun p => commitResponse C P st p src packet env) st.sessions
      (recvResponse C P st j src packet env).2
      (recvResponse C P st j src packet env).1.sessions := by
  unfold recvResponse
  split
  · next hp =>
    rw [hp]
    exact .refl _
  · next p hp =>
    rw [hp, Option.bind_some]
    unfold commitResponse
    dsimp only
    split
    · next hrecv =>
      rw [hrecv]
      exact touches_setRekeying C _ _ false
    · next key hrecv =>
      rw [hrecv]
      refine ⟨?_, [], by simp, ?_⟩
      · rw [install_sessions]
      · rw [install_events]
        rfl

theorem commitInbound_reaction (rx : Option (Bytes × Time)) (C : Crypto Priv Key)
    (P : PeerParams Priv Key) (st : PeerState Priv Key) (src : SockAddr) (packet : Bytes)
    (now : Time) (clk : InitClock) (pub : Bytes) (key : Key) {sent : List (Event Key)}
    (hsent : ∀ e ∈ sent, e.isQuiet = true) :
    Reaction C P rx (commitKnown P st src packet now clk pub key) st.sessions
      (sent ++ .negotiated pub key :: (commitInbound P st src packet now clk pub key).2)
      (commitInbound P st src packet now clk pub key).1.sessions := by
  have hquiet : ∀ e ∈ sent ++ [Event.negotiated pub key], e.isQuiet = true := by
    simp only [List.mem_append, List.mem_singleton]
    rintro e (he | rfl)
    · exact hsent e he
    · rfl
  unfold commitInbound commitKnown
  cases hcfg : findPeerConfig st.configs pub with
  | none => exact touches_quiet C _ hquiet
  | some cfg =>
    dsimp only
    by_cases hcool :
        inCooldown P.settings st.sessions (findSessionByPub st.sessions pub) now = true
    · rw [if_pos hcool, if_pos hcool]
      exact touches_quiet C _ hquiet
    · rw [if_neg hcool, if_neg hcool]
      exact ⟨install_sessions .., sent, hsent, by rw [install_events]⟩

theorem recvInit_reaction (C : Crypto Priv Key) (P : PeerParams Priv Key)
    (st : PeerState Priv Key) (src : SockAddr) (packet : Bytes) (now : Time) (env : RecvEnv Priv)
    (hpend : findPending st.pending src = none) :
    Reaction C P rx (commitInit C P st src packet now env) st.sessions
      (recvInit C P st src packet now env).2
      (recvInit C P st src packet now env).1.sessions := by
  have hsent : ∀ e ∈ (responseEvents src packet (respond C P st packet env.respondOk).1 :
      List (Event Key)), e.isQuiet = true := responseEvents_isQuiet src packet _
  unfold recvInit commitInit
  rw [tieBreak_of_findPending_none hpend]
  dsimp only
  by_cases hcool : inCooldown P.settings st.sessions (findSessionByAddr st.sessions src) now = true
  · rw [if_pos hcool, if_pos hcool]
    exact .refl _
  · rw [if_neg hcool, if_neg hcool]
    cases hreply : (respond C P st packet env.respondOk).2 with
    | none => exact touches_quiet C _ hsent
    | some r =>
      have h := commitInbound_reaction rx C P (refreshPrecompEph st env.freshEph) src packet now
        env.clk r.1 r.2 hsent
      rw [refreshPrecompEph_sessions] at h
      simpa [commitKnown] using h

/-- **Every reaction** is a sequence of touches, or completes one handshake. -/
theorem step_reaction (C : Crypto Priv Key) (P : PeerParams Priv Key) (st : PeerState Priv Key)
    (inp : Input Priv) :
    Reaction C P (inp.dataPacket P.psk) (commitOf C P st inp) st.sessions (step C P st inp).2
      (step C P st inp).1.sessions := by
  cases inp with
  | tick now connect keepalive => exact tick_touches C P st now connect keepalive
  | tunRead buffer env => exact tunRead_touches C st buffer env
  | udpRecv src packet now env =>
    unfold step udpRecv commitOf
    dsimp only
    by_cases hhs : isHandshake P.psk packet = true
    · rw [if_pos hhs, if_pos hhs]
      cases hpend : findPending st.pending src with
      | some j => exact recvResponse_reaction C P st j src packet env
      | none => exact recvInit_reaction C P st src packet now env hpend
    · rw [if_neg hhs, if_neg hhs]
      cases hfind : findSessionByAddr st.sessions src with
      | none => exact .refl _
      | some j =>
        obtain ⟨s, hs, ha, -⟩ := findSessionByAddr_eq_some hfind
        have hdata : (Input.udpRecv src packet now env).dataPacket P.psk = some (packet, now) := by
          simp [Input.dataPacket, hhs]
        dsimp only
        rw [hs, hdata]
        exact recvData_touches C hs ha packet now env

/-- The same as a case distinction. -/
theorem step_cases (C : Crypto Priv Key) (P : PeerParams Priv Key) (st : PeerState Priv Key)
    (inp : Input Priv) :
    (commitOf C P st inp = none ∧
      Touches C (inp.dataPacket P.psk) st.sessions (step C P st inp).2
        (step C P st inp).1.sessions) ∨
    ∃ c pre, commitOf C P st inp = some c ∧ (∀ e ∈ pre, e.isQuiet = true) ∧
      (step C P st inp).1.sessions = installTable P.settings c st.sessions ∧
      (step C P st inp).2 = pre ++ .negotiated c.pub c.key :: installEvents c st.sessions := by
  have h := step_reaction C P st inp
  cases hc : commitOf C P st inp with
  | none =>
    rw [hc] at h
    exact Or.inl ⟨rfl, h⟩
  | some c =>
    rw [hc] at h
    obtain ⟨hss, pre, hpre, hes⟩ := h
    exact Or.inr ⟨c, pre, rfl, hpre, hss, hes⟩

theorem mem_installEvents {c : Commit Key} {ss : List (PeerSession Key)} {e : Event Key} :
    e ∈ installEvents c ss ↔ ∃ slot, (allocSession ss c.pub c.src).map Prod.fst = some slot ∧
      e = .installed slot c.src c.pub c.key c.isOutbound c.cause := by
  unfold installEvents
  cases allocSession ss c.pub c.src <;> simp

/-- A reaction that installs a session completes a handshake. -/
theorem installed_of_mem {C : Crypto Priv Key} {P : PeerParams Priv Key} {st : PeerState Priv Key}
    {inp : Input Priv} {slot : ℕ} {addr : SockAddr} {pub : Bytes} {key : Key} {isOutbound : Bool}
    {cause : Bytes}
    (he : .installed slot addr pub key isOutbound cause ∈ (step C P st inp).2) :
    ∃ c, commitOf C P st inp = some c ∧
      (allocSession st.sessions c.pub c.src).map Prod.fst = some slot ∧
      (step C P st inp).1.sessions = installTable P.settings c st.sessions ∧
      c.src = addr ∧ c.pub = pub ∧ c.key = key ∧ c.isOutbound = isOutbound ∧ c.cause = cause := by
  rcases step_cases C P st inp with ⟨-, ht⟩ | ⟨c, pre, hc, hpre, hss, hes⟩
  · exact absurd (ht.isInstall _ he) (by simp [Event.isInstall])
  · rw [hes] at he
    rcases List.mem_append.mp he with he | he
    · exact absurd (hpre _ he) (by simp [Event.isQuiet])
    · obtain ⟨slot', halloc, heq⟩ := mem_installEvents.mp (List.mem_of_ne_of_mem (by simp) he)
      obtain ⟨rfl, rfl, rfl, rfl, rfl, rfl⟩ := Event.installed.inj heq
      exact ⟨c, hc, halloc, hss, rfl, rfl, rfl, rfl, rfl⟩

/-- A reaction with an event that is neither quiet nor an install touches sessions. -/
theorem touches_of_mem {C : Crypto Priv Key} {P : PeerParams Priv Key} {st : PeerState Priv Key}
    {inp : Input Priv} {e : Event Key} (he : e ∈ (step C P st inp).2) (hq : e.isQuiet = false)
    (hi : ∀ slot addr pub key isOutbound cause, e ≠ .installed slot addr pub key isOutbound cause) :
    Touches C (inp.dataPacket P.psk) st.sessions (step C P st inp).2
      (step C P st inp).1.sessions := by
  rcases step_cases C P st inp with ⟨-, ht⟩ | ⟨c, pre, -, hpre, -, hes⟩
  · exact ht
  · rw [hes] at he
    rcases List.mem_append.mp he with he | he
    · exact absurd (hpre e he) (by simp [hq])
    · rcases List.mem_cons.mp he with rfl | he
      · exact absurd hq (by simp [Event.isQuiet])
      · obtain ⟨slot, -, he⟩ := mem_installEvents.mp he
        exact absurd he (hi _ _ _ _ _ _)

theorem distinctPubs_step (C : Crypto Priv Key) (P : PeerParams Priv Key)
    {st : PeerState Priv Key} (h : DistinctPubs st.sessions) (inp : Input Priv) :
    DistinctPubs (step C P st inp).1.sessions := by
  rcases step_cases C P st inp with ⟨-, ht⟩ | ⟨c, pre, -, -, hss, -⟩
  · exact ht.unique PeerSession.Follows.staticPub h
  · rw [hss]
    exact h.install P.settings c

theorem distinctPubs_run (C : Crypto Priv Key) (P : PeerParams Priv Key)
    (configs : List PeerConfig) (eph : Option Priv) (is : List (Input Priv)) :
    DistinctPubs (Machine.run (step C P) (PeerState.initial configs eph) is).1.sessions := by
  have hinit : DistinctPubs (PeerState.initial configs eph : PeerState Priv Key).sessions := by
    intro i j a b ha
    exact absurd ha (by simp [PeerState.initial])
  exact Machine.run_state_invariant is
    (P := fun st : PeerState Priv Key => DistinctPubs st.sessions)
    (fun st inp _ h => distinctPubs_step C P h inp) hinit

end LaneCove
