import LaneCove.Duo
import LaneCove.Responder
import LaneCove.Foundations.KeySwitch

/-!
# The reactions of a peer with one peer configured

The session table of such a peer has at most one entry. `View` reads it as one end
of a key switch, and `PeerRel` adds what its configuration and its pending handshakes
look like. The lemmas here say what each kind of reaction does to that view.

## Main definitions

- `View` — the session table as an end of a link
- `PeerRel` — the whole state of a peer
- `LocalMove` — what a reaction to anything but a datagram does

## Main results

- `PeerRel.react_local` — such a reaction is a local move
- `PeerRel.recv_current`, `PeerRel.recv_previous` — data packets under a key of the session
- `PeerRel.install` — an install moves to the new key and keeps the one before
-/

namespace LaneCove

open KeySwitch (Party)

variable {Priv Key : Type}

/-- The previous key, while it is active. -/
def PeerSession.prevKey (s : PeerSession Key) : Option Key :=
  if s.prevKeyActive then some s.prevSessionKey else none

/-- The session table as an end of a link: no session yet, or one with this address
and this public key. What the end has sent is not in the table. -/
inductive View (addr : SockAddr) (pub : Bytes) : List (PeerSession Key) → Party Key → Prop
  | empty : View addr pub [] ⟨none, none, 0, []⟩
  | single {s : PeerSession Key} {n : ℕ} {acc : List (BitVec 64)} (ha : s.active = true)
      (haddr : s.addr = addr) (hpub : s.staticPub = pub) (hrep : s.recvSeq.Represents acc) :
      View addr pub [s] ⟨some s.sessionKey, s.prevKey, n, (acc.map BitVec.toNat).reverse⟩

/-- `init` is an initiation of side `a` for side `b`, and `state` what is kept with it. -/
def Initiates (C : Crypto Priv Key) (P : Side → PeerParams Priv Key) (init : Bytes)
    (state : HsClientState Priv Bytes Bytes) : Prop :=
  handshakeClientSend C (P .a).psk (P .a).staticPub (P .b).staticPub state.ephKey true =
    some (init, state)

/-- Side `a` derives the key `key` from the response `resp` to `init`. -/
def Derives (C : Crypto Priv Key) (P : Side → PeerParams Priv Key) (init resp : Bytes)
    (key : Key) : Prop :=
  ∀ state, Initiates C P init state →
    (handshakeClientRecv C (P .a).psk (P .a).staticKey (P .a).staticPub (P .b).staticPub state
      resp).1 = some key

/-- The state of side `side` of a pair of peers. -/
structure PeerRel (C : Crypto Priv Key) (P : Side → PeerParams Priv Key) (addr : Side → SockAddr)
    (side : Side) (st : PeerState Priv Key) (party : Party Key) (active : Set Bytes) : Prop where
  view : View (addr side.other) (P side.other).staticPub st.sessions party
  config : ∃ cfg, st.configs = [cfg] ∧ cfg.pub = (P side.other).staticPub ∧
    (cfg.hasEndpoint = true → side = .a ∧ cfg.endpoint = addr .b)
  pending : ∀ p ∈ st.pending, p.active = true → side = .a ∧ p.cfgIdx = 0 ∧
    p.serverAddr = addr .b ∧ ∃ m ∈ active, Initiates C P m p.hsState

variable {addr : SockAddr} {pub : Bytes} {ss : List (PeerSession Key)} {party : Party Key}

theorem View.rekeying {s : PeerSession Key} (h : View addr pub [s] party) (flag : Bool) :
    View addr pub [{ s with rekeying := flag }] party := by
  cases h with
  | single ha haddr hpub hrep => exact .single ha haddr hpub hrep

theorem View.setRekeying (h : View addr pub ss party) (pub' : Bytes) (flag : Bool) :
    View addr pub (setRekeying ss pub' flag) party := by
  cases h with
  | empty => exact .empty
  | @single s next acc ha haddr hpub hrep =>
    rw [LaneCove.setRekeying]
    split
    · exact .single ha haddr hpub hrep
    · next i hi =>
      obtain ⟨s', hs', -⟩ := findSessionByPub_eq_some hi
      obtain rfl : i = 0 := by
        have := (List.getElem?_eq_some_iff.mp hs').1
        simpa using this
      exact View.rekeying (.single ha haddr hpub hrep) flag

/-- `forward_to_peer` changes nothing the link depends on. -/
theorem View.forward {s : PeerSession Key} (h : View addr pub [s] party) (next : ℕ)
    (C : Crypto Priv Key) (payload : Bytes) (env : SendEnv) :
    View addr pub [(forwardToPeer C s payload env).1] { party with next } := by
  cases h with
  | single ha haddr hpub hrep =>
    simp only [forwardToPeer]
    split
    · exact View.single (s := { s with sendSeq := s.sendSeq + 1 }) ha haddr hpub hrep
    · split
      · exact View.single (s := { s with sendSeq := s.sendSeq + 1, lastSent := env.clk }) ha haddr
          hpub hrep
      · exact View.single (s := { s with sendSeq := s.sendSeq + 1 }) ha haddr hpub hrep

/-- What a reaction to anything but a datagram sends: an initiation, if side `a` does,
and then at most one data packet. -/
inductive LocalMove (C : Crypto Priv Key) (P : Side → PeerParams Priv Key) (side : Side)
    (party : Party Key) : List (Event Key) → Party Key → Prop
  | idle : LocalMove C P side party [] party
  | send {s : PeerSession Key} (payload packet : Bytes) (hcur : party.cur = some s.sessionKey) :
      LocalMove C P side party [.sentData s payload packet]
        { party with next := s.sendSeq.toNat + 1 }
  | start {party' : Party Key} {es : List (Event Key)} (hside : side = .a) (dst : SockAddr)
      {init : Bytes} {state : HsClientState Priv Bytes Bytes} (hinit : Initiates C P init state)
      (h : LocalMove C P side party es party') :
      LocalMove C P side party (.sentInit dst init :: es) party'

theorem LocalMove.cur_eq {C : Crypto Priv Key} {P : Side → PeerParams Priv Key} {side : Side}
    {party' : Party Key} {es : List (Event Key)} (h : LocalMove C P side party es party') :
    party'.cur = party.cur := by
  induction h with
  | start _ _ _ _ ih => exact ih
  | _ => rfl

theorem LocalMove.sent_under {C : Crypto Priv Key} {P : Side → PeerParams Priv Key} {side : Side}
    {party' : Party Key} {es : List (Event Key)} (h : LocalMove C P side party es party')
    {s : PeerSession Key} {payload packet : Bytes} (he : .sentData s payload packet ∈ es) :
    party.cur = some s.sessionKey := by
  induction h with
  | idle => exact absurd he List.not_mem_nil
  | send payload packet hcur =>
    obtain ⟨rfl, -⟩ := Event.sentData.inj (List.mem_singleton.mp he)
    exact hcur
  | start _ _ _ _ ih => exact ih (List.mem_of_ne_of_mem (by simp) he)

/-- The link expects the number after the last one that was sent. -/
theorem LocalMove.next_eq {C : Crypto Priv Key} {P : Side → PeerParams Priv Key} {side : Side}
    {party' : Party Key} {es : List (Event Key)} (h : LocalMove C P side party es party') :
    party'.next = party.next ∨ ∃ s payload packet, .sentData s payload packet ∈ es ∧
      party'.cur = some s.sessionKey ∧ party'.next = s.sendSeq.toNat + 1 := by
  induction h with
  | idle => exact Or.inl rfl
  | send payload packet hcur =>
    exact Or.inr ⟨_, payload, packet, List.mem_singleton_self _, hcur, rfl⟩
  | start _ _ _ _ ih =>
    refine ih.imp id ?_
    rintro ⟨s, payload, packet, he, hnext⟩
    exact ⟨s, payload, packet, List.mem_cons_of_mem _ he, hnext⟩

theorem LocalMove.initiations_eq_nil {C : Crypto Priv Key} {P : Side → PeerParams Priv Key}
    {party' : Party Key} {es : List (Event Key)} (h : LocalMove C P .b party es party') :
    initiations es = [] := by
  cases h with
  | start hside => exact absurd hside (by simp)
  | _ => rfl

/-- A pending entry keeps the ephemeral key its initiation was made with. -/
theorem handshakeClientSend_again {C : Crypto Priv Key} {psk : Option Key}
    {staticPub serverStaticPub packet : Bytes} {ephKey : Option Priv} {sendOk : Bool}
    {state : HsClientState Priv Bytes Bytes}
    (h : handshakeClientSend C psk staticPub serverStaticPub ephKey sendOk = some (packet, state)) :
    handshakeClientSend C psk staticPub serverStaticPub state.ephKey true =
      some (packet, state) := by
  simp only [handshakeClientSend, Option.bind_eq_bind, Option.bind_eq_some_iff,
    Option.ite_none_right_eq_some, Option.some.injEq, Prod.mk.injEq] at h
  obtain ⟨key, rfl, ⟨init, state'⟩, hsend, -, rfl, rfl⟩ := h
  obtain ⟨_, _, _, -, -, -, -, rfl⟩ := Suite.clientSend_eq_some hsend
  simp [handshakeClientSend, hsend]

section Local

variable {C : Crypto Priv Key} {P : Side → PeerParams Priv Key} {addr : Side → SockAddr}
  {side : Side} {st : PeerState Priv Key} {active : Set Bytes}

theorem PeerRel.mono {active' : Set Bytes} (h : PeerRel C P addr side st party active)
    (hsub : active ⊆ active') : PeerRel C P addr side st party active' :=
  { h with
    pending := fun p hp ha => by
      obtain ⟨hside, hidx, haddr, m, hm, hsend⟩ := h.pending p hp ha
      exact ⟨hside, hidx, haddr, m, hsub hm, hsend⟩ }

/-- The first timer loop may send an initiation. -/
theorem PeerRel.connectStep (h : PeerRel C P addr side st party active) (now : Time)
    (env : ℕ → ConnectEnv Priv)
    (hres : (env 0).resolved = none ∨ (env 0).resolved = some (addr .b)) :
    ((connectStep C (P side) now env st 0).2 = [] ∧
      PeerRel C P addr side (connectStep C (P side) now env st 0).1 party active) ∨
    ∃ m state, side = .a ∧ Initiates C P m state ∧
      (connectStep C (P side) now env st 0).2 = [.sentInit (addr .b) m] ∧
      PeerRel C P addr side (connectStep C (P side) now env st 0).1 party (insert m active) := by
  obtain ⟨cfg, hcfg, hpub, hend⟩ := h.config
  have hconfig : st.config 0 = cfg := by simp [PeerState.config, hcfg]
  simp only [LaneCove.connectStep, hconfig]
  split
  · next hcond =>
    simp only [Bool.and_eq_true] at hcond
    obtain ⟨rfl, hcfgEnd⟩ := hend hcond.1.1
    have hendpoint : (env 0).resolved.getD cfg.endpoint = addr .b := by
      rcases hres with hres | hres
      · simp [hres, hcfgEnd]
      · simp [hres]
    rw [hendpoint]
    let st₁ : PeerState Priv Key := { st with
      configs := st.configs.modify 0 fun cfg => { cfg with endpoint := addr .b }
      sessions := setRekeying st.sessions cfg.pub true }
    have hconfig₁ : st₁.config 0 = { cfg with endpoint := addr .b } := by
      simp [st₁, PeerState.config, hcfg]
    rcases initiateOutboundHandshake_cases C (P .a) st₁ 0 (env 0) with
      hinit | ⟨slot, m, hs, -, hsend, hinit⟩
    · rw [hinit]
      refine Or.inl ⟨rfl, ?_, ?_, h.pending⟩
      · exact (h.view.setRekeying _ _).setRekeying _ _
      · exact ⟨{ cfg with endpoint := addr .b, lastAttempt := (env 0).clk }, by simp [st₁, hcfg],
          hpub, fun _ => ⟨rfl, rfl⟩⟩
    · rw [hconfig₁] at hsend
      have hinitiates : Initiates C P m hs := by
        rw [Initiates, ← show cfg.pub = (P .b).staticPub from hpub]
        exact handshakeClientSend_again hsend
      rw [hinit]
      refine Or.inr ⟨m, hs, rfl, hinitiates, rfl, h.view.setRekeying _ _, ?_, fun p hp ha => ?_⟩
      · exact ⟨{ cfg with endpoint := addr .b, lastAttempt := (env 0).clk }, by simp [st₁, hcfg],
          hpub, fun _ => ⟨rfl, rfl⟩⟩
      · rcases List.mem_or_eq_of_mem_set hp with hp | rfl
        · obtain ⟨hside, hidx, haddr, m', hm', hsend'⟩ := h.pending p hp ha
          exact ⟨hside, hidx, haddr, m', Set.mem_insert_of_mem _ hm', hsend'⟩
        · exact ⟨rfl, rfl, by rw [hconfig₁], m, Set.mem_insert _ _, hinitiates⟩
  · exact Or.inl ⟨rfl, h⟩

/-- The second timer loop only cancels pending entries. -/
theorem PeerRel.expirePendingStep (h : PeerRel C P addr side st party active) (now : Time) (j : ℕ) :
    PeerRel C P addr side (expirePendingStep (P side) now st j).1 party active := by
  simp only [LaneCove.expirePendingStep]
  split
  · exact h
  · next p hp =>
    split
    · exact h
    · refine ⟨h.view.setRekeying _ _, h.config, fun q hq ha => ?_⟩
      rcases List.mem_or_eq_of_mem_set hq with hq | rfl
      · exact h.pending q hq ha
      · exact absurd ha (by simp [PendingHs.cancel])

theorem PeerRel.forwardOn (h : PeerRel C P addr side st party active) (j : ℕ) (payload : Bytes)
    (env : SendEnv) :
    ∃ party', LocalMove C P side party (forwardOn C st j payload env).2 party' ∧
      PeerRel C P addr side (forwardOn C st j payload env).1 party' active := by
  simp only [LaneCove.forwardOn]
  split
  · exact ⟨party, .idle, h⟩
  · next s hs =>
    have hview := h.view
    generalize hss : st.sessions = ss at hview hs
    cases hview with
    | empty => exact absurd hs (by simp)
    | @single s' next acc ha haddr hpub hrep =>
      obtain rfl : j = 0 := by
        have := (List.getElem?_eq_some_iff.mp hs).1
        simpa using this
      obtain rfl : s' = s := by simpa using hs
      have hview : ∀ next', View (addr side.other) (P side.other).staticPub
          [(forwardToPeer C s' payload env).1]
          ⟨some s'.sessionKey, s'.prevKey, next', (acc.map BitVec.toNat).reverse⟩ := fun next' =>
        (View.single (n := next) ha haddr hpub hrep).forward next' C payload env
      cases (forwardToPeer C s' payload env).2 with
      | none => exact ⟨_, .idle, hview next, h.config, h.pending⟩
      | some packet => exact ⟨_, .send payload packet rfl, hview _, h.config, h.pending⟩

/-- The last two timer loops, if no session expires, send at most a keepalive. -/
theorem PeerRel.sessionTimers (h : PeerRel C P addr side st party active) (now : Time)
    (keepalive : ℕ → SendEnv) :
    let r3 := Machine.run (expireSessionStep (P side) now) st (List.range st.sessions.length)
    let r4 := Machine.run (keepaliveStep C (P side) now keepalive) r3.1
      (List.range r3.1.sessions.length)
    (∀ s ∈ r4.1.sessions, s.active = true) →
    ∃ party', LocalMove C P side party (r3.2 ++ r4.2) party' ∧
      PeerRel C P addr side r4.1 party' active := by
  have hview := h.view
  generalize hss : st.sessions = ss at hview
  cases hview with
  | empty =>
    intro r3 r4 _
    have hr3 : r3 = (st, []) := rfl
    have hr4 : r4 = (st, []) := by
      simp only [r4, hr3, hss]
      rfl
    rw [hr3, hr4]
    exact ⟨_, .idle, h⟩
  | @single s next acc ha haddr hpub hrep =>
    intro r3 r4 halive
    have hr3 : r3 = ((expireSessionStep (P side) now st 0).1,
        (expireSessionStep (P side) now st 0).2 ++ []) := rfl
    by_cases hexp : s.expired (P side).settings now = true
    · -- an expired session stays inactive
      have hr3' : r3 = ({ st with sessions := [{ s with active := false }] }, []) := by
        rw [hr3]
        simp [expireSessionStep, hss, hexp]
      have hr4 : r4.1.sessions = [{ s with active := false }] := by
        simp only [r4, hr3']
        simp [keepaliveStep, List.range_succ]
      exact absurd (halive { s with active := false } (by simp [hr4])) (by simp)
    · have hr3' : r3 = (st, []) := by
        rw [hr3]
        simp [expireSessionStep, hss, hexp]
      have hr4 : r4 = ((keepaliveStep C (P side) now keepalive st 0).1,
          (keepaliveStep C (P side) now keepalive st 0).2 ++ []) := by
        simp only [r4, hr3', hss]
        rfl
      rw [hr3', hr4]
      simp only [keepaliveStep, hss, List.getElem?_cons_zero, List.append_nil, List.nil_append]
      split
      · exact ⟨_, .idle, h⟩
      · exact h.forwardOn 0 [] (keepalive 0)

theorem PeerRel.timers (h : PeerRel C P addr side st party active) (now : Time)
    (connect : ℕ → ConnectEnv Priv)
    (hres : (connect 0).resolved = none ∨ (connect 0).resolved = some (addr .b))
    (keepalive : ℕ → SendEnv)
    (halive : ∀ s ∈ (timers C (P side) now connect keepalive st).1.sessions, s.active = true) :
    ∃ party', LocalMove C P side party (timers C (P side) now connect keepalive st).2 party' ∧
      PeerRel C P addr side (timers C (P side) now connect keepalive st).1 party'
        (active ∪ { m | m ∈ initiations (timers C (P side) now connect keepalive st).2 }) := by
  obtain ⟨cfg, hcfg, -⟩ := h.config
  unfold LaneCove.timers at halive ⊢
  dsimp only at halive ⊢
  generalize hr1 : Machine.run (LaneCove.connectStep C (P side) now connect) st
    (List.range st.configs.length) = r1 at halive ⊢
  generalize hr2 : Machine.run (LaneCove.expirePendingStep (P side) now) r1.1
    (List.range maxPeers) = r2 at halive ⊢
  have hst1 : r1.1 = (LaneCove.connectStep C (P side) now connect st 0).1 := by
    rw [← hr1, hcfg]
    rfl
  have hes1 : r1.2 = (LaneCove.connectStep C (P side) now connect st 0).2 := by
    rw [← hr1, hcfg]
    exact List.append_nil _
  have hes2 : r2.2 = [] := by
    rw [← hr2]
    exact Machine.run_events_eq_nil (expirePendingStep_events (P side) now) r1.1 _
  have hrel2 : ∀ {active' : Set Bytes}, PeerRel C P addr side r1.1 party active' →
      PeerRel C P addr side r2.1 party active' := by
    intro active' h1
    rw [← hr2]
    exact Machine.run_state_invariant (List.range maxPeers)
      (P := fun st => PeerRel C P addr side st party active')
      (fun st j _ h => h.expirePendingStep now j) h1
  rw [hes1, hes2, List.append_nil, List.append_assoc]
  rcases h.connectStep now connect hres with ⟨hnone, h1⟩ | ⟨m, state, rfl, hinit, hsent, h1⟩
  · rw [← hst1] at h1
    obtain ⟨party', hmove, hrel⟩ := (hrel2 h1).sessionTimers now keepalive halive
    rw [hnone]
    exact ⟨party', hmove, hrel.mono Set.subset_union_left⟩
  · rw [← hst1] at h1
    obtain ⟨party', hmove, hrel⟩ := (hrel2 h1).sessionTimers now keepalive halive
    rw [hsent]
    refine ⟨party', .start rfl (addr .b) hinit hmove, hrel.mono ?_⟩
    rintro m' (rfl | hm')
    · exact Or.inr List.mem_cons_self
    · exact Or.inl hm'

/-- **A local reaction**: whatever happens but a datagram is a local move. -/
theorem PeerRel.react_local [Inhabited Key] (h : PeerRel C P addr side st party active)
    {inp : Input Priv} (hinp : inp.Local addr)
    (halive : ∀ s ∈ (step C (P side) st inp).1.sessions, s.active = true) :
    ∃ party', LocalMove C P side party (step C (P side) st inp).2 party' ∧
      PeerRel C P addr side (step C (P side) st inp).1 party'
        (active ∪ { m | m ∈ initiations (step C (P side) st inp).2 }) := by
  cases inp with
  | tick now connect keepalive =>
    simp only [step, tick] at halive ⊢
    split
    · exact ⟨party, .idle, h.mono Set.subset_union_left⟩
    · next hdue =>
      rw [if_neg hdue] at halive
      have h' : PeerRel C P addr side { st with lastRekeyCheck := now } party active :=
        ⟨h.view, h.config, h.pending⟩
      exact h'.timers now connect hinp keepalive halive
  | tunRead buffer env =>
    simp only [step, tunRead]
    split
    · split
      · exact ⟨party, .idle, h.mono Set.subset_union_left⟩
      · next j _ =>
        obtain ⟨party', hmove, hrel⟩ := h.forwardOn j buffer env
        exact ⟨party', hmove, hrel.mono Set.subset_union_left⟩
    · exact ⟨party, .idle, h.mono Set.subset_union_left⟩
  | udpRecv => exact hinp.elim

end Local

theorem routeScan_snd (dst : BitVec 32) (i : ℕ) (routes : List IpPrefix) (best : ℤ × Option ℕ) :
    (routeScan dst i best routes).2 = best.2 ∨ (routeScan dst i best routes).2 = some i := by
  induction routes generalizing best with
  | nil => exact Or.inl rfl
  | cons route routes ih =>
    rw [routeScan, List.foldl_cons]
    split
    · rcases ih (route.prefixLen, some i) with h | h <;> exact Or.inr h
    · exact ih best

/-- With one session there is no relay. -/
theorem relayTo_nextHop_single (C : Crypto Priv Key) (st : PeerState Priv Key)
    (s s' : PeerSession Key) (payload : Bytes) (env : SendEnv) :
    relayTo C st payload env (nextHop [s] 0 s' payload) = (st, []) := by
  have hroute : routeLookup [s] (ipAt payload 16) = none ∨
      routeLookup [s] (ipAt payload 16) = some 0 := by
    simp only [routeLookup, routeLoop]
    split
    · exact routeScan_snd _ _ _ _
    · exact Or.inl rfl
  simp only [nextHop]
  split
  · rfl
  · split
    · rcases hroute with h | h <;> rw [h] <;> rfl
    · rfl

section Data

variable [Inhabited Key] {C : Crypto Priv Key} {P : Side → PeerParams Priv Key}
  {addr : Side → SockAddr} {side : Side} {st : PeerState Priv Key} {active : Set Bytes}

/-- A datagram that is no handshake packet goes to the session. -/
theorem step_data {src : SockAddr} {packet : Bytes} {s : PeerSession Key}
    {psk : PeerParams Priv Key} (hhs : isHandshake psk.psk packet = false)
    (hss : st.sessions = [s]) (ha : s.active = true) (haddr : s.addr = src) (now : Time)
    (env : RecvEnv Priv) :
    step C psk st (.udpRecv src packet now env) = recvData C st 0 s packet now env := by
  simp [step, udpRecv, hhs, hss, findSessionByAddr, ha, haddr]

omit [Inhabited Key] in
/-- An accepted packet changes its session, and nothing is sent. -/
theorem recvData_accept {s : PeerSession Key} {packet payload : Bytes} {now : Time} {key : Key}
    {usedPrevKey : Bool} {seq : BitVec 64} {recv : ReplayState} (hss : st.sessions = [s])
    (hopen : openData C s packet now = some (key, usedPrevKey, seq, payload, recv))
    (env : RecvEnv Priv) :
    ∃ hop, recvData C st 0 s packet now env =
      ({ st with sessions := [afterAccept C s packet now recv] },
        .accepted 0 key usedPrevKey packet seq payload ::
          handOn packet usedPrevKey payload hop) := by
  simp only [recvData, hopen, hss, List.set_cons_zero, relayTo_nextHop_single, List.append_nil]
  exact ⟨_, rfl⟩

omit [Inhabited Key] in
/-- The replay check accepts a number above all it has accepted. -/
theorem checkReplay_of_forall_lt {recv : ReplayState} {acc : List (BitVec 64)} {seq : BitVec 64}
    (h : recv.Represents acc) (hlt : ∀ n ∈ acc, n.toNat < seq.toNat) :
    (checkReplay seq recv).1 = 0 ∧ (checkReplay seq recv).2.Represents (seq :: acc) := by
  have hmax : SlidingWindow.maxAccepted (acc.map BitVec.toNat) ≤ seq.toNat := by
    refine SlidingWindow.maxAccepted_le fun n hn => ?_
    obtain ⟨n', hn', rfl⟩ := List.mem_map.mp hn
    exact (hlt n' hn').le
  rcases h.checkReplay seq with ⟨hret, -, -, hrep⟩ | ⟨-, hbad⟩
  · exact ⟨hret, hrep⟩
  · refine absurd ⟨fun hmem => ?_, Or.inr ?_⟩ hbad
    · exact absurd (hlt seq hmem) (lt_irrefl _)
    · rw [Nat.sub_eq_zero_of_le hmax]
      norm_num

/-- A packet under the current key, with a number above all that were accepted, is
accepted and ends the grace period. -/
theorem PeerRel.recv_current (hC : C.GcmCorrect) (h : PeerRel C P addr side st party active)
    {key : Key} {seq : BitVec 64} {payload packet : Bytes} {iv : Option Iv}
    (henc : encryptPacket C key iv (frame seq payload) = some packet)
    (hhs : isHandshake (P side).psk packet = false) (hcur : party.cur = some key)
    (hnew : ∀ n ∈ party.seen, n < seq.toNat) (now : Time) (env : RecvEnv Priv) :
    ∃ hop st', step C (P side) st (.udpRecv (addr side.other) packet now env) =
        (st', .accepted 0 key false packet seq payload :: handOn packet false payload hop) ∧
      PeerRel C P addr side st' { party with prev := none, seen := party.seen ++ [seq.toNat] }
        active := by
  have hview := h.view
  generalize hss : st.sessions = ss at hview
  cases hview with
  | empty => exact absurd hcur (by simp)
  | @single s next acc ha haddr hpub hrep =>
    obtain rfl : s.sessionKey = key := Option.some.inj hcur
    have hdec := decryptPacket_encryptPacket hC henc
    obtain ⟨hret, hrep'⟩ := checkReplay_of_forall_lt hrep (fun n hn =>
      hnew n.toNat (by simpa using ⟨n, hn, rfl⟩))
    have hopen : openData C s packet now =
        some (s.sessionKey, false, seq, payload, (checkReplay seq s.recvSeq).2) := by
      rw [openData_current hC henc, hret]
      rfl
    obtain ⟨hop, hrecv⟩ := recvData_accept hss hopen env
    refine ⟨hop, _, (step_data hhs hss ha haddr now env).trans hrecv, ?_, h.config, h.pending⟩
    have hprev : (afterAccept C s packet now (checkReplay seq s.recvSeq).2).prevKey = none := by
      simp [PeerSession.prevKey, afterAccept, afterDecrypt, hdec]
    have hview' := View.single (s := afterAccept C s packet now (checkReplay seq s.recvSeq).2)
      (n := next) ha haddr hpub hrep'
    rw [hprev, List.map_cons, List.reverse_cons] at hview'
    exact hview'

/-- A packet under the previous key changes nothing the link depends on; it is accepted
if it comes in time. -/
theorem PeerRel.recv_previous (hC : C.GcmCorrect) (h : PeerRel C P addr side st party active)
    {key : Key} {seq : BitVec 64} {payload packet : Bytes} {iv : Option Iv} {keys : List Key}
    (hK : OpensOnly C keys key packet) (hkeys : ∀ s ∈ st.sessions, s.sessionKey ∈ keys)
    (henc : encryptPacket C key iv (frame seq payload) = some packet)
    (hhs : isHandshake (P side).psk packet = false) (hcur : party.cur ≠ some key)
    (hprev : party.prev = some key) (now : Time) (env : RecvEnv Priv) :
    PeerRel C P addr side
      (step C (P side) st (.udpRecv (addr side.other) packet now env)).1 party active ∧
    (outgoing (step C (P side) st (.udpRecv (addr side.other) packet now env)).2 = []) ∧
    ((∀ s ∈ st.sessions, s.sessionKey = key ∨ now ≤ s.prevKeyExpires) → ∃ hop,
      (step C (P side) st (.udpRecv (addr side.other) packet now env)).2 =
        .accepted 0 key true packet seq payload :: handOn packet true payload hop) := by
  have hview := h.view
  generalize hss : st.sessions = ss at hview
  cases hview with
  | empty => exact absurd hprev (by simp)
  | @single s next acc ha haddr hpub hrep =>
    have hne : s.sessionKey ≠ key := fun heq => hcur (congrArg some heq)
    have hnone := hK s.sessionKey (hkeys s (by simp [hss])) hne
    obtain ⟨hact, hkey⟩ : s.prevKeyActive = true ∧ s.prevSessionKey = key := by
      simpa [PeerSession.prevKey] using hprev
    rw [step_data hhs hss ha haddr now env]
    have hafter : ∀ recv, recv.Represents acc →
        View (addr side.other) (P side.other).staticPub [afterAccept C s packet now recv]
          ⟨some s.sessionKey, s.prevKey, next, (acc.map BitVec.toNat).reverse⟩ := by
      intro recv hrecv
      have hview' := View.single (s := afterAccept C s packet now recv) (n := next) ha haddr hpub
        hrecv
      simpa [PeerSession.prevKey, afterAccept, afterDecrypt, hnone] using hview'
    by_cases hnow : now ≤ s.prevKeyExpires
    · have hdec := decryptPacket_encryptPacket hC henc
      have hopen : openData C s packet now = some (key, true, seq, payload, s.recvSeq) := by
        simp [openData, decryptOn, hnone, hact, hnow, hdec, unframe_frame, hkey]
      obtain ⟨hop, hrecv⟩ := recvData_accept hss hopen env
      rw [hrecv]
      refine ⟨⟨hafter _ hrep, h.config, h.pending⟩, ?_, fun _ => ⟨hop, rfl⟩⟩
      cases hop <;> rfl
    · have hopen : openData C s packet now = none := by
        simp [openData, decryptOn, hnone, hnow]
      simp only [recvData, hopen, hss, List.set_cons_zero]
      refine ⟨⟨hafter _ hrep, h.config, h.pending⟩, rfl, fun hin => ?_⟩
      exact absurd (hin s (List.mem_singleton_self s)) (by simp [hne, hnow])

end Data

section Handshake

variable [Inhabited Key] {C : Crypto Priv Key} {P : Side → PeerParams Priv Key}
  {addr : Side → SockAddr} {side : Side} {st : PeerState Priv Key} {active : Set Bytes}

omit [Inhabited Key] in
theorem index_eq_of_countP_le_one {l : List (PendingHs Priv)}
    (h : l.countP (fun p => p.active) ≤ 1) {i j : ℕ} {p q : PendingHs Priv} (hp : l[i]? = some p)
    (hq : l[j]? = some q) (hpa : p.active = true) (hqa : q.active = true) : i = j := by
  induction l generalizing i j with
  | nil => exact absurd hp (by simp)
  | cons x l ih =>
    have hpos : ∀ {k : ℕ} {r : PendingHs Priv}, l[k]? = some r → r.active = true →
        0 < l.countP fun p => p.active := fun hr hra =>
      List.countP_pos_iff.mpr ⟨_, List.mem_of_getElem? hr, hra⟩
    rw [List.countP_cons] at h
    cases i with
    | zero =>
      obtain rfl : x = p := by simpa using hp
      cases j with
      | zero => rfl
      | succ j =>
        have := hpos (List.getElem?_cons_succ ▸ hq) hqa
        rw [if_pos hpa] at h
        omega
    | succ i =>
      cases j with
      | zero =>
        obtain rfl : x = q := by simpa using hq
        have := hpos (List.getElem?_cons_succ ▸ hp) hpa
        rw [if_pos hqa] at h
        omega
      | succ j =>
        exact congrArg (· + 1) (ih (by omega) (List.getElem?_cons_succ ▸ hp)
          (List.getElem?_cons_succ ▸ hq))

omit [Inhabited Key] in
theorem findSessionByPub_single {s : PeerSession Key} {pub : Bytes} (ha : s.active = true)
    (hpub : s.staticPub = pub) : findSessionByPub [s] pub = some 0 := by
  simp [findSessionByPub, ha, hpub]

/-- An install moves to the new key and remembers the one before. -/
theorem PeerRel.install (h : PeerRel C P addr side st party active) {c : Commit Key}
    (hsrc : c.src = addr side.other) (hpub : c.pub = (P side.other).staticPub) :
    ∃ st', install (P side) st c = (st', [.installed 0 c.src c.pub c.key c.isOutbound c.cause]) ∧
      PeerRel C P addr side st' ⟨some c.key, party.cur, 0, []⟩ active := by
  have hview := h.view
  generalize hss : st.sessions = ss at hview
  cases hview with
  | empty =>
    have halloc : allocSession ([] : List (PeerSession Key)) c.pub c.src =
        some (0, [PeerSession.zero]) := rfl
    refine ⟨{ st with sessions := [c.session (P side).settings PeerSession.zero] },
      by simp [LaneCove.install, hss, halloc], ?_, h.config, h.pending⟩
    exact View.single (s := c.session (P side).settings PeerSession.zero) rfl hsrc hpub
      represents_zero
  | @single s next acc ha haddr hpub' hrep =>
    have halloc : allocSession [s] c.pub c.src = some (0, [s]) := by
      rw [allocSession, findSessionByPub_single ha (hpub'.trans hpub.symm)]
    refine ⟨{ st with sessions := [c.session (P side).settings s] },
      by simp [LaneCove.install, hss, halloc], ?_, h.config, h.pending⟩
    have hview' := View.single (s := c.session (P side).settings s) (n := 0) rfl hsrc hpub
      represents_zero
    have hprev : (c.session (P side).settings s).prevKey = some s.sessionKey := by
      simp [PeerSession.prevKey, Commit.session, sessionInit, ha]
    rw [hprev] at hview'
    exact hview'

omit [Inhabited Key] in
/-- Side `b` has no pending handshakes. -/
theorem PeerRel.findPending_eq_none (h : PeerRel C P addr .b st party active) (src : SockAddr) :
    findPending st.pending src = none := by
  refine List.findIdx?_eq_none_iff.mpr fun p hp => ?_
  cases ha : p.active with
  | false => rfl
  | true => exact absurd (h.pending p hp ha).1 (by simp)

omit [Inhabited Key] in
/-- The cooldowns by address and by public key are those of the one session. -/
theorem PeerRel.inCooldown_pub (h : PeerRel C P addr side st party active) (settings : Settings)
    (now : Time) :
    inCooldown settings st.sessions
        (findSessionByPub st.sessions (P side.other).staticPub) now =
      inCooldown settings st.sessions (findSessionByAddr st.sessions (addr side.other)) now := by
  have hview := h.view
  generalize st.sessions = ss at hview
  cases hview with
  | empty => rfl
  | single ha haddr hpub _ =>
    rw [findSessionByPub_single ha hpub]
    simp [findSessionByAddr, ha, haddr]

omit [Inhabited Key] in
theorem PeerRel.refreshPrecompEph (h : PeerRel C P addr side st party active)
    (fresh : Option Priv) : PeerRel C P addr side (refreshPrecompEph st fresh) party active := by
  cases fresh with
  | none => exact h
  | some key => exact ⟨h.view, h.config, h.pending⟩

/-- An initiation that named side `a` and was answered is committed. -/
theorem PeerRel.commitInbound (h : PeerRel C P addr side st party active) {now : Time}
    (hcool : ¬ inCooldown (P side).settings st.sessions
      (findSessionByAddr st.sessions (addr side.other)) now = true)
    (packet : Bytes) (clk : InitClock) (key : Key) :
    ∃ st', commitInbound (P side) st (addr side.other) packet now clk
        (P side.other).staticPub key =
        (st', [.installed 0 (addr side.other) (P side.other).staticPub key false packet]) ∧
      PeerRel C P addr side st' ⟨some key, party.cur, 0, []⟩ active := by
  obtain ⟨cfg, hcfg, hpub, -⟩ := h.config
  have hfind : findPeerConfig st.configs (P side.other).staticPub = some cfg := by
    simp [findPeerConfig, hcfg, hpub]
  have hcool' := (h.inCooldown_pub (P side).settings now).trans (Bool.eq_false_of_not_eq_true hcool)
  simp only [LaneCove.commitInbound, hfind, hcool', Bool.false_eq_true, if_false]
  exact h.install rfl rfl

/-- **An initiation arrives**: it is ignored, or it is answered with a key that the
initiator will derive too, and the session moves to this key. -/
theorem PeerRel.recv_init (hC : C.GcmCorrect) (hS : C.Sized) (hD : C.DhCorrect)
    (hkeyed : ∀ side, (P side).WellKeyed C) (hpsk : ∀ side, (P side).psk = (P .a).psk)
    (h : PeerRel C P addr .b st party active) {init : Bytes}
    {state : HsClientState Priv Bytes Bytes} (hsend : Initiates C P init state) (now : Time)
    (env : RecvEnv Priv) :
    step C (P .b) st (.udpRecv (addr .a) init now env) = (st, []) ∨
    ∃ st' resp key, step C (P .b) st (.udpRecv (addr .a) init now env) =
        (st', [.sentResponse (addr .a) init resp, .negotiated (P .a).staticPub key,
          .installed 0 (addr .a) (P .a).staticPub key false init]) ∧
      PeerRel C P addr .b st' ⟨some key, party.cur, 0, []⟩ active ∧ Derives C P init resp key := by
  have hhs : isHandshake (P .b).psk init = true := by
    rw [hpsk]
    exact isHandshake_handshakeClientSend hC hS ((hkeyed .a).length hS) hsend
  rw [step_inbound C (P .b) hhs (h.findPending_eq_none _) now env]
  split
  · exact Or.inl rfl
  · next hcool =>
    have hagree : ∀ {resp derived}, respond C (P .b) st init env.respondOk = (some resp, derived) →
        ∀ state, Initiates C P init state → ∃ key, derived = some ((P .a).staticPub, key) ∧
          (handshakeClientRecv C (P .a).psk (P .a).staticKey (P .a).staticPub (P .b).staticPub
            state resp).1 = some key := by
      intro resp derived hresp state hsend
      rw [Initiates, hkeyed .a, hkeyed .b] at hsend
      rw [hkeyed .a, hkeyed .b]
      rw [respond, hpsk .b, hkeyed .b] at hresp
      refine handshake_agreement hC hS hD (fun key hkey => ?_) hsend hresp
      simp [PeerState.precompEphPub, hkey]
    have hspec := respond_spec C (P .b) st hhs env.respondOk
    cases hresp : respond C (P .b) st init env.respondOk with
    | mk reply derived =>
      cases reply with
      | none =>
        have hnone : derived = none := by
          rw [hresp] at hspec
          split at hspec
          · obtain ⟨resp, key, heq, -⟩ := hspec
            exact absurd (congrArg Prod.fst heq) (by simp)
          · exact congrArg Prod.snd hspec
        rw [hnone]
        exact Or.inl rfl
      | some resp =>
        obtain ⟨key, rfl, -⟩ := hagree hresp state hsend
        rw [← refreshPrecompEph_sessions st env.freshEph] at hcool
        obtain ⟨st', hcommit, hrel⟩ :=
          (h.refreshPrecompEph env.freshEph).commitInbound hcool init env.clk key
        refine Or.inr ⟨st', resp, key, ?_, hrel, fun state hsend => ?_⟩
        · have hcommit' : LaneCove.commitInbound (P .b) (LaneCove.refreshPrecompEph st env.freshEph)
              (addr .a) init now env.clk (P .a).staticPub key = _ := hcommit
          simp only [hcommit']
          rfl
        · obtain ⟨key', heq, hrecv⟩ := hagree hresp state hsend
          obtain ⟨-, rfl⟩ := Prod.mk.inj (Option.some.inj heq)
          exact hrecv

/-- **A response arrives** at the one pending entry that waits for it, and the session
moves to the key it carries. -/
theorem PeerRel.recv_response (h : PeerRel C P addr .a st party active)
    (hone : st.pending.countP (fun p => p.active) ≤ 1) {init resp : Bytes} {key : Key}
    {p : PendingHs Priv} (hp : p ∈ st.pending) (ha : p.active = true)
    (hinit : p.initiation C (P .a) (P .b).staticPub = some init)
    (hhs : isHandshake (P .a).psk resp = true) (hderive : Derives C P init resp key) (now : Time)
    (env : RecvEnv Priv) :
    ∃ st', step C (P .a) st (.udpRecv (addr .b) resp now env) =
        (st', [.negotiated (P .b).staticPub key,
          .installed 0 (addr .b) (P .b).staticPub key true resp]) ∧
      PeerRel C P addr .a st' ⟨some key, party.cur, 0, []⟩ ∅ ∧ init ∈ active := by
  obtain ⟨-, hidx, hserver, m, hm, hsend⟩ := h.pending p hp ha
  obtain ⟨cfg, hcfg, hpub, -⟩ := h.config
  have hconfig : st.config p.cfgIdx = cfg := by simp [PeerState.config, hidx, hcfg]
  obtain rfl : m = init := by
    rw [Initiates] at hsend
    simpa [PendingHs.initiation, hsend] using hinit
  -- the entry the response path finds is the only active one
  obtain ⟨i, hi⟩ := List.getElem?_of_mem hp
  obtain ⟨j, hfind⟩ : ∃ j, findPending st.pending (addr .b) = some j := by
    refine Option.isSome_iff_exists.mp (List.findIdx?_isSome.trans ?_)
    exact List.any_eq_true.mpr ⟨p, hp, by simp [ha, hserver]⟩
  obtain ⟨hlt, hq, -⟩ := List.findIdx?_eq_some_iff_getElem.mp hfind
  obtain rfl : i = j := index_eq_of_countP_le_one hone hi (List.getElem?_eq_getElem hlt) ha
    (by simp only [Bool.and_eq_true] at hq; exact hq.1)
  let st₁ : PeerState Priv Key := { st with pending := st.pending.set i { p with
    active := false
    hsState := (handshakeClientRecv C (P .a).psk (P .a).staticKey (P .a).staticPub cfg.pub
      p.hsState resp).2 } }
  have hrel₁ : PeerRel C P addr .a st₁ party ∅ := by
    refine ⟨h.view, h.config, fun q hq hqa => ?_⟩
    obtain ⟨j, hj⟩ := List.getElem?_of_mem hq
    rcases (SlotTable.updated_set hi _).cases hj with ⟨-, rfl⟩ | ⟨hne, hj⟩
    · exact absurd hqa (by simp)
    · exact absurd (index_eq_of_countP_le_one hone hj hi hqa ha) hne
  have hrecv : (handshakeClientRecv C (P .a).psk (P .a).staticKey (P .a).staticPub cfg.pub
      p.hsState resp).1 = some key := by
    rw [hpub]
    exact hderive _ hsend
  obtain ⟨st', hinstall, hrel⟩ := hrel₁.install
    (c := ⟨addr .b, cfg.pub, key, cfg, true, resp, env.clk⟩) rfl hpub
  refine ⟨st', ?_, hrel, hm⟩
  simp only [step, udpRecv, hhs, if_true, hfind, recvResponse, hi, hconfig, hrecv]
  rw [hinstall, hpub]
  rfl

end Handshake

end LaneCove
