import LaneCove.Genuine
import LaneCove.KeyBinding
import LaneCove.Timing

/-!
# How much a peer sends

A datagram makes the loop send at most one datagram, of the same length: a handshake packet is
answered by a handshake packet, and a relayed packet is opened and sealed again around the same
payload. So the source address of a datagram, which anyone can choose, gets no more than was
sent in its name. What else a peer sends comes from its TUN device, with 44 bytes around each
packet, and from its timers.

## Main definitions

- `Event.size`, `bytesSent` — the bytes an event and a trace put on the wire
- `allowance`, `allowances` — what a reaction and the reactions of a run may send

## Main results

- `reply_same_length` — one datagram of the same length at most, to whom
- `bytesSent_le` — the bytes sent in a run
-/

namespace LaneCove

variable {Priv Key : Type} {C : Crypto Priv Key} {P : PeerParams Priv Key}
  {st : PeerState Priv Key}

/-- The bytes an event puts on the wire. -/
def Event.size (e : Event Key) : ℕ := (e.datagram.map List.length).getD 0

/-- The bytes a trace puts on the wire. -/
def bytesSent (tr : List (Event Key)) : ℕ := (tr.map Event.size).sum

@[simp] theorem bytesSent_nil : bytesSent ([] : List (Event Key)) = 0 := rfl

@[simp] theorem bytesSent_append (es fs : List (Event Key)) :
    bytesSent (es ++ fs) = bytesSent es + bytesSent fs := by
  simp [bytesSent]

theorem bytesSent_singleton (e : Event Key) : bytesSent [e] = e.size := by
  simp [bytesSent]

theorem bytesSent_eq (tr : List (Event Key)) :
    bytesSent tr = ((datagrams tr).map List.length).sum := by
  induction tr with
  | nil => rfl
  | cons e tr ih =>
    cases he : e.datagram with
    | none => simpa [bytesSent, datagrams, Event.size, he] using ih
    | some packet => simpa [bytesSent, datagrams, Event.size, he] using ih

-- ════════════════════════════════════════════════════════════════════════
-- Lengths
-- ════════════════════════════════════════════════════════════════════════

theorem encryptPacket_length (hC : C.GcmCorrect) {key : Key} {iv : Option Iv} {plain packet : Bytes}
    (h : encryptPacket C key iv plain = some packet) : packet.length = plain.length + 28 := by
  obtain ⟨iv', out, -, hout, rfl⟩ := encryptPacket_eq_some h
  have hlen := hC.encrypt_length hout
  have hiv := iv'.2
  rw [List.length_append]
  omega

theorem decryptPacket_length (hO : C.OutputSized) {key : Key} {packet plain : Bytes}
    (h : decryptPacket C key packet = some plain) : packet.length = plain.length + 28 := by
  rw [decryptPacket, Option.ite_none_left_eq_some] at h
  have hlen := hO.decrypt_length h.2
  rw [List.length_drop] at hlen
  omega

theorem unframe_length {plain payload : Bytes} {seq : BitVec 64}
    (h : unframe plain = some (seq, payload)) : plain.length = payload.length + 16 := by
  rw [unframe, Option.ite_none_left_eq_some, Option.some.injEq, Prod.mk.injEq] at h
  obtain ⟨hlen, -, rfl⟩ := h
  rw [List.length_drop]
  omega

theorem length_of_isHandshake {psk : Option Key} {packet : Bytes}
    (h : isHandshake psk packet = true) : packet.length = hsSize psk := by
  simp only [isHandshake, Bool.and_eq_true, decide_eq_true_eq] at h
  exact h.1

/-- What a session sends is 44 bytes longer than its payload. -/
theorem length_of_mem_forwardOn (hC : C.GcmCorrect) {j : ℕ} {payload : Bytes} {env : SendEnv}
    {e : Event Key} (he : e ∈ (forwardOn C st j payload env).2) : e.size = payload.length + 44 := by
  unfold forwardOn at he
  split at he
  · exact absurd he (by simp)
  · obtain ⟨packet, hsent, rfl⟩ := mem_sendEvents.mp he
    have hlen := encryptPacket_length hC (encryptPacket_of_forwardToPeer hsent)
    rw [length_frame] at hlen
    show packet.length = _
    omega

theorem forwardOn_events_length (C : Crypto Priv Key) (st : PeerState Priv Key) (j : ℕ)
    (payload : Bytes) (env : SendEnv) : (forwardOn C st j payload env).2.length ≤ 1 := by
  unfold forwardOn
  split
  · exact Nat.zero_le 1
  · dsimp only
    split <;> simp

theorem bytesSent_forwardOn (hC : C.GcmCorrect) (j : ℕ) (payload : Bytes) (env : SendEnv) :
    bytesSent (forwardOn C st j payload env).2 ≤ payload.length + 44 := by
  have hone := forwardOn_events_length C st j payload env
  match hes : (forwardOn C st j payload env).2 with
  | [] => exact Nat.zero_le _
  | [e] =>
    rw [bytesSent_singleton]
    exact (length_of_mem_forwardOn hC (by rw [hes]; exact List.mem_singleton_self e)).le
  | _ :: _ :: _ => exact absurd hone (by simp [hes])

-- ════════════════════════════════════════════════════════════════════════
-- Replies
-- ════════════════════════════════════════════════════════════════════════

/-- Where an event sends its datagram. -/
def Event.destination : Event Key → Option SockAddr
  | .sentInit dst _ | .sentResponse dst _ _ => some dst
  | .sentData s _ _ => some s.addr
  | .negotiated .. | .installed .. | .accepted .. | .delivered .. => none

/-- What is sent in reaction to a datagram of `n` bytes from `src`: at most one datagram of `n`
bytes, to `src` or to a session of the table. -/
structure Reply (src : SockAddr) (n : ℕ) (ss : List (PeerSession Key)) (es : List (Event Key)) :
    Prop where
  one : (datagrams es).length ≤ 1
  length : ∀ e ∈ es, ∀ packet, e.datagram = some packet → packet.length = n
  destination : ∀ e ∈ es, ∀ dst, e.destination = some dst →
    dst = src ∨ ∃ s ∈ ss, s.active = true ∧ s.addr = dst

theorem Reply.of_silent {src : SockAddr} {n : ℕ} {ss : List (PeerSession Key)}
    {es : List (Event Key)} (h : ∀ e ∈ es, e.datagram = none) : Reply src n ss es := by
  refine ⟨?_, fun e he packet hp => absurd hp (by simp [h e he]), fun e he dst hd => ?_⟩
  · rw [datagrams, List.filterMap_eq_nil_iff.mpr h]
    exact Nat.zero_le 1
  · have hnone := h e he
    cases e <;> simp_all [Event.datagram, Event.destination]

theorem routeScan_slot {dst : BitVec 32} {i j : ℕ} {routes : List IpPrefix} {best : ℤ × Option ℕ}
    (h : (routeScan dst i best routes).2 = some j) : best.2 = some j ∨ j = i := by
  induction routes generalizing best with
  | nil => exact Or.inl h
  | cons route routes ih =>
    rcases ih h with hbest | hi
    · dsimp only at hbest
      split at hbest
      · exact Or.inr (Option.some.inj hbest).symm
      · exact Or.inl hbest
    · exact Or.inr hi

theorem routeLoop_active {ss : List (PeerSession Key)} {dst : BitVec 32} {i j : ℕ}
    {best : ℤ × Option ℕ} (h : (routeLoop dst i best ss).2 = some j) :
    best.2 = some j ∨ ∃ (k : ℕ) (s : PeerSession Key), ss[k]? = some s ∧ s.active = true ∧
      j = i + k := by
  induction ss generalizing i best with
  | nil => exact Or.inl h
  | cons s ss ih =>
    rcases ih h with hbest | ⟨k, s', hs', ha, rfl⟩
    · split at hbest
      · next ha =>
        rcases routeScan_slot hbest with hbest | rfl
        · exact Or.inl hbest
        · exact Or.inr ⟨0, s, rfl, ha, rfl⟩
      · exact Or.inl hbest
    · exact Or.inr ⟨k + 1, s', hs', ha, by omega⟩

/-- `route_lookup` returns a slot with an active session. -/
theorem routeLookup_active {ss : List (PeerSession Key)} {dst : BitVec 32} {j : ℕ}
    (h : routeLookup ss dst = some j) : ∃ s, ss[j]? = some s ∧ s.active = true := by
  rcases routeLoop_active h with hnone | ⟨k, s, hs, ha, rfl⟩
  · exact absurd hnone (by simp)
  · exact ⟨s, by rwa [Nat.zero_add], ha⟩

theorem nextHop_active {ss : List (PeerSession Key)} {j fwd : ℕ} {s : PeerSession Key}
    {payload : Bytes} (h : nextHop ss j s payload = some (some fwd)) :
    ∃ s', ss[fwd]? = some s' ∧ s'.active = true := by
  unfold nextHop at h
  split at h
  · exact absurd h (by simp)
  · split at h
    · split at h
      · exact absurd h (by simp)
      · next hroute =>
        split at h
        · exact absurd h (by simp)
        · obtain rfl := Option.some.inj (Option.some.inj h)
          exact routeLookup_active hroute
    · exact absurd h (by simp)

/-- A packet that is relayed is opened and sealed again around the same payload. -/
theorem recvData_reply (hC : C.GcmCorrect) (hO : C.OutputSized) {j : ℕ} {s : PeerSession Key}
    (hs : st.sessions[j]? = some s) (src : SockAddr) (packet : Bytes) (now : Time)
    (env : RecvEnv Priv) :
    Reply src packet.length st.sessions (recvData C st j s packet now env).2 := by
  unfold recvData
  split
  · exact .of_silent (by simp)
  · next key usedPrevKey seq payload recv hopen =>
    have hsilent : ∀ hop, ∀ e ∈ .accepted j key usedPrevKey packet seq payload ::
        handOn packet usedPrevKey payload hop, Event.datagram e = none := by
      intro hop e he
      rcases List.mem_cons.mp he with rfl | he
      · rfl
      · obtain ⟨_, -, rfl⟩ := mem_handOn.mp he
        rfl
    dsimp only
    generalize hhop : nextHop _ j _ payload = hop
    unfold relayTo
    split
    · next fwd =>
      have hlen : payload.length + 44 = packet.length := by
        obtain ⟨plain, hu, ⟨-, -, hd, -⟩ | ⟨-, -, -, -, -, -, hd⟩⟩ := openData_eq_some hopen <;>
          rw [decryptPacket_length hO hd, unframe_length hu]
      obtain ⟨s', hs', ha'⟩ := nextHop_active hhop
      refine ⟨?_, fun e he packet' hp => ?_, fun e he dst hd => ?_⟩
      · rw [datagrams, List.filterMap_append, List.filterMap_eq_nil_iff.mpr (hsilent _),
          List.nil_append]
        exact (List.length_filterMap_le _ _).trans
          (forwardOn_events_length C _ fwd payload env.relay)
      · rcases List.mem_append.mp he with he | he
        · exact absurd hp (by simp [hsilent _ e he])
        · have hsize := length_of_mem_forwardOn hC he
          rw [Event.size, hp, Option.map_some, Option.getD_some] at hsize
          exact hsize.trans hlen
      · rcases List.mem_append.mp he with he | he
        · have hnone := hsilent _ e he
          cases e <;> simp_all [Event.datagram, Event.destination]
        · obtain ⟨s'', packet', rfl, hs''⟩ := mem_forwardOn he
          obtain rfl := Option.some.inj (hs'.symm.trans hs'')
          obtain rfl := Option.some.inj hd
          refine Or.inr ?_
          rcases (SlotTable.updated_set hs _).cases hs' with ⟨-, rfl⟩ | ⟨-, hs'⟩
          · exact ⟨s, List.mem_of_getElem? hs, ha', rfl⟩
          · exact ⟨s', List.mem_of_getElem? hs', ha', rfl⟩
    · exact .of_silent (by simpa using hsilent _)
    · exact .of_silent (by simpa using hsilent _)

/-- One response of the right length, and nothing else. -/
theorem Reply.response {src : SockAddr} {n : ℕ} {ss : List (PeerSession Key)} {init : Bytes}
    {reply : Option Bytes} (hlen : ∀ resp, reply = some resp → resp.length = n)
    {es : List (Event Key)} (hes : ∀ e ∈ es, e.datagram = none) :
    Reply src n ss (responseEvents src init reply ++ es) := by
  cases reply with
  | none => exact .of_silent (by simpa [responseEvents] using hes)
  | some resp =>
    refine ⟨?_, fun e he packet hp => ?_, fun e he dst hd => ?_⟩
    · rw [responseEvents, datagrams, List.filterMap_append, List.filterMap_eq_nil_iff.mpr hes,
        List.append_nil]
      exact List.length_filterMap_le _ _
    · rcases List.mem_cons.mp he with rfl | he
      · obtain rfl := Option.some.inj hp
        exact hlen _ rfl
      · exact absurd hp (by simp [hes e he])
    · rcases List.mem_cons.mp he with rfl | he
      · exact Or.inl (Option.some.inj hd).symm
      · have hnone := hes e he
        cases e <;> simp_all [Event.datagram, Event.destination]

variable [Inhabited Key]

theorem install_datagram (P : PeerParams Priv Key) (st : PeerState Priv Key) (c : Commit Key) :
    ∀ e ∈ (install P st c).2, e.datagram = none := by
  intro e he
  rw [install_events] at he
  obtain ⟨_, -, rfl⟩ := mem_installEvents.mp he
  rfl

theorem commitInbound_datagram (P : PeerParams Priv Key) (st : PeerState Priv Key) (src : SockAddr)
    (packet : Bytes) (now : Time) (clk : InitClock) (pub : Bytes) (key : Key) :
    ∀ e ∈ (commitInbound P st src packet now clk pub key).2, e.datagram = none := by
  unfold commitInbound
  split
  · simp
  · split
    · simp
    · exact install_datagram P st _

theorem recvResponse_datagram (j : ℕ) (src : SockAddr) (packet : Bytes) (env : RecvEnv Priv) :
    ∀ e ∈ (recvResponse C P st j src packet env).2, e.datagram = none := by
  unfold recvResponse
  split
  · simp
  · dsimp only
    split
    · simp
    · intro e he
      rcases List.mem_cons.mp he with rfl | he
      · rfl
      · exact install_datagram P _ _ e he

/-- An answer is a handshake packet like the initiation, and goes back to its source. -/
theorem inbound_reply (hC : C.GcmCorrect) (hS : C.Sized) (hP : P.WellKeyed C) {src : SockAddr}
    {packet : Bytes} (hhs : isHandshake P.psk packet = true)
    (hpend : findPending st.pending src = none) (now : Time) (env : RecvEnv Priv) :
    Reply src packet.length st.sessions (step C P st (.udpRecv src packet now env)).2 := by
  have hlen : ∀ resp, (respond C P st packet env.respondOk).1 = some resp →
      resp.length = packet.length := fun resp hresp =>
    (length_of_isHandshake (isHandshake_handshakeServerRespond hC hS (hP.length hS)
      (precompEphPub_length hS st) hresp)).trans (length_of_isHandshake hhs).symm
  rw [step_inbound C P hhs hpend]
  split
  · exact .of_silent (by simp)
  · cases hrespond : respond C P st packet env.respondOk with
    | mk reply derived =>
      rw [hrespond] at hlen
      cases derived with
      | none =>
        have hreply : Reply src packet.length st.sessions (responseEvents src packet reply ++ []) :=
          .response hlen (by simp)
        rwa [List.append_nil] at hreply
      | some r =>
        refine .response hlen fun e he => ?_
        rcases List.mem_cons.mp he with rfl | he
        · rfl
        · exact commitInbound_datagram P _ src packet now env.clk r.1 r.2 e he

theorem udpRecv_reply (hC : C.GcmCorrect) (hO : C.OutputSized) (hS : C.Sized) (hP : P.WellKeyed C)
    (st : PeerState Priv Key) (src : SockAddr) (packet : Bytes) (now : Time) (env : RecvEnv Priv) :
    Reply src packet.length st.sessions (step C P st (.udpRecv src packet now env)).2 := by
  by_cases hhs : isHandshake P.psk packet = true
  · cases hpend : findPending st.pending src with
    | none => exact inbound_reply hC hS hP hhs hpend now env
    | some j =>
      simp only [step, udpRecv, hhs, if_true, hpend]
      exact .of_silent (recvResponse_datagram j src packet env)
  · simp only [step, udpRecv, if_neg hhs]
    split
    · exact .of_silent (by simp)
    · split
      · exact .of_silent (by simp)
      · next s hs => exact recvData_reply hC hO hs src packet now env

/-- For every state and every datagram: the loop sends at most one datagram in reaction, it has
exactly the length of the one received, and it goes back to the source address or to the address
of an active session. -/
theorem reply_same_length (hC : C.GcmCorrect) (hO : C.OutputSized) (hS : C.Sized)
    (hP : P.WellKeyed C) (st : PeerState Priv Key) (src : SockAddr) (packet : Bytes) (now : Time)
    (env : RecvEnv Priv) :
    let es := (step C P st (.udpRecv src packet now env)).2
    (datagrams es).length ≤ 1 ∧ (∀ d ∈ datagrams es, d.length = packet.length) ∧
      ∀ e ∈ es, ∀ dst, e.destination = some dst →
        dst = src ∨ ∃ s ∈ st.sessions, s.active = true ∧ s.addr = dst := by
  intro es
  have hreply : Reply src packet.length st.sessions es :=
    udpRecv_reply hC hO hS hP st src packet now env
  refine ⟨hreply.one, fun d hd => ?_, hreply.destination⟩
  obtain ⟨e, he, hdatagram⟩ := List.mem_filterMap.mp hd
  exact hreply.length e he d hdatagram

open Sample in
/-- Peer 1 answers an initiation of 88 bytes. -/
theorem reply_same_length_initiation :
    let es := (serverRun [.udpRecv (addr 2) (initiation 2 1 10) 100 (recvEnv 100 20)]).2
    (datagrams es).length = 1 ∧ ∀ d ∈ datagrams es, d.length = 88 := by
  have hreply := reply_same_length crypto_gcmCorrect crypto_outputSized crypto_sized
    (P := params 1) rfl (PeerState.initial [peerConfig 2 false, peerConfig 3 false] (some 4))
    (addr 2) (initiation 2 1 10) 100 (recvEnv 100 20)
  have hinit : (initiation 2 1 10).length = 88 := by decide +kernel
  exact ⟨by decide +kernel, fun d hd => (hreply.2.1 d (by simpa [serverRun] using hd)).trans hinit⟩

-- ════════════════════════════════════════════════════════════════════════
-- All traffic of a run
-- ════════════════════════════════════════════════════════════════════════

omit [Inhabited Key] in
/-- What a reaction may send, with `n` configured peers: as much as it was sent, 44 bytes more
than it reads, or in a pass over the timers an initiation for every peer and a keepalive on every
session. Within ten seconds of the last pass there is none. -/
def allowance (n : ℕ) (psk : Option Key) (st : PeerState Priv Key) : Input Priv → ℕ
  | .tick now _ _ =>
    if now - st.lastRekeyCheck < 10 then 0 else n * hsSize psk + maxPeers * 44
  | .tunRead buffer _ => buffer.length + 44
  | .udpRecv _ packet _ _ => packet.length

/-- What the reactions of a run may send, one after the other. -/
def allowances (C : Crypto Priv Key) (P : PeerParams Priv Key) (n : ℕ) (st : PeerState Priv Key)
    (is : List (Input Priv)) : List ℕ :=
  (Machine.run (Machine.observe (step C P) fun st inp => [allowance n P.psk st inp]) st is).2

omit [Inhabited Key] in
theorem Reply.bytes_le {src : SockAddr} {n : ℕ} {ss : List (PeerSession Key)}
    {es : List (Event Key)} (h : Reply src n ss es) : bytesSent es ≤ n := by
  have hlen : ∀ d ∈ datagrams es, d.length = n := by
    intro d hd
    obtain ⟨e, he, hdatagram⟩ := List.mem_filterMap.mp hd
    exact h.length e he d hdatagram
  have hone := h.one
  rw [bytesSent_eq]
  match hes : datagrams es with
  | [] => exact Nat.zero_le n
  | [d] => simp [hlen d (by simp [hes])]
  | _ :: _ :: _ => exact absurd hone (by simp [hes])

omit [Inhabited Key] in
theorem bytesSent_connectStep (hC : C.GcmCorrect) (hS : C.Sized) (hP : P.WellKeyed C) (now : Time)
    (env : ℕ → ConnectEnv Priv) (st : PeerState Priv Key) (i : ℕ) :
    bytesSent (connectStep C P now env st i).2 ≤ hsSize P.psk := by
  unfold connectStep
  dsimp only
  split
  · generalize ({ st with configs := _, sessions := _ } : PeerState Priv Key) = st₁
    rcases initiateOutboundHandshake_cases C P st₁ i (env i) with
      hinit | ⟨_, packet, _, -, hsend, hinit⟩ <;> rw [hinit]
    · exact Nat.zero_le _
    · rw [bytesSent_singleton]
      exact (length_of_isHandshake
        (isHandshake_handshakeClientSend hC hS (hP.length hS) hsend)).le
  · exact Nat.zero_le _

omit [Inhabited Key] in
theorem bytesSent_keepaliveStep (hC : C.GcmCorrect) (now : Time) (env : ℕ → SendEnv)
    (st : PeerState Priv Key) (j : ℕ) : bytesSent (keepaliveStep C P now env st j).2 ≤ 44 := by
  unfold keepaliveStep
  split
  · exact Nat.zero_le 44
  · split
    · exact Nat.zero_le 44
    · simpa using bytesSent_forwardOn hC j [] (env j)

omit [Inhabited Key] in
/-- A loop each of whose turns sends at most `b` bytes. -/
theorem bytesSent_run_le {f : PeerState Priv Key → ℕ → PeerState Priv Key × List (Event Key)}
    {b : ℕ} (hf : ∀ st i, bytesSent (f st i).2 ≤ b) (st : PeerState Priv Key) (n : ℕ) :
    bytesSent (Machine.run f st (List.range n)).2 ≤ n * b := by
  have hturn : ∀ st i (is : List ℕ), True →
      bytesSent (f st i).2 + is.length * b ≤ (i :: is).length * b := by
    intro st i is _
    rw [List.length_cons, Nat.succ_mul, Nat.add_comm]
    exact Nat.add_le_add_left (hf st i) _
  have hrun := Machine.run_weight_le (b := fun is => is.length * b) bytesSent_nil bytesSent_append
    (fun _ _ _ => trivial) hturn (s := st) trivial (List.range n)
  simpa using hrun

omit [Inhabited Key] in
theorem length_setRekeying (ss : List (PeerSession Key)) (pub : Bytes) (flag : Bool) :
    (setRekeying ss pub flag).length = ss.length := by
  unfold setRekeying
  split
  · rfl
  · exact List.length_modify ..

omit [Inhabited Key] in
theorem connectStep_length (now : Time) (env : ℕ → ConnectEnv Priv) (st : PeerState Priv Key)
    (i : ℕ) : (connectStep C P now env st i).1.sessions.length = st.sessions.length := by
  rcases connectStep_cases C P now env st i with ⟨-, hst⟩ | ⟨-, -, hss | hss, -⟩
  · rw [hst]
  · rw [hss, length_setRekeying]
  · rw [hss, length_setRekeying, length_setRekeying]

omit [Inhabited Key] in
theorem expirePendingStep_length (now : Time) (st : PeerState Priv Key) (j : ℕ) :
    (expirePendingStep P now st j).1.sessions.length = st.sessions.length := by
  unfold expirePendingStep
  split
  · rfl
  · split
    · rfl
    · exact length_setRekeying ..

omit [Inhabited Key] in
theorem bytesSent_timers (hC : C.GcmCorrect) (hS : C.Sized) (hP : P.WellKeyed C) (now : Time)
    (connect : ℕ → ConnectEnv Priv) (keepalive : ℕ → SendEnv) (st : PeerState Priv Key) :
    bytesSent (timers C P now connect keepalive st).2 ≤
      st.configs.length * hsSize P.psk + st.sessions.length * 44 := by
  unfold timers
  dsimp only
  have h1 := bytesSent_run_le (bytesSent_connectStep hC hS hP now connect) st st.configs.length
  have hlen1 := run_sessions_length (connectStep_length (C := C) (P := P) now connect) st
    (List.range st.configs.length)
  generalize Machine.run (connectStep C P now connect) st _ = r1 at h1 hlen1 ⊢
  have h2 := Machine.run_events_eq_nil (expirePendingStep_events P now) r1.1 (List.range maxPeers)
  have hlen2 := run_sessions_length (expirePendingStep_length (P := P) now) r1.1
    (List.range maxPeers)
  generalize Machine.run (expirePendingStep P now) r1.1 _ = r2 at h2 hlen2 ⊢
  have h3 := Machine.run_events_eq_nil (expireSessionStep_events P now) r2.1
    (List.range r2.1.sessions.length)
  have hlen3 := run_sessions_length (expireSessionStep_length (P := P) now) r2.1
    (List.range r2.1.sessions.length)
  generalize Machine.run (expireSessionStep P now) r2.1 _ = r3 at h3 hlen3 ⊢
  have h4 := bytesSent_run_le (bytesSent_keepaliveStep (P := P) hC now keepalive) r3.1
    r3.1.sessions.length
  rw [hlen3, hlen2, hlen1] at h4
  rw [h2, h3, List.append_nil, List.append_nil, bytesSent_append, hlen3, hlen2, hlen1]
  exact Nat.add_le_add h1 h4

/-- **Step**: a reaction sends no more than it may. -/
theorem bytesSent_step (hC : C.GcmCorrect) (hO : C.OutputSized) (hS : C.Sized) (hP : P.WellKeyed C)
    {configs : List PeerConfig} (h : TableOk configs st) (inp : Input Priv) :
    bytesSent (step C P st inp).2 ≤ allowance configs.length P.psk st inp := by
  cases inp with
  | tick now connect keepalive =>
    unfold step tick allowance
    dsimp only
    split
    · exact le_rfl
    · refine (bytesSent_timers hC hS hP now connect keepalive _).trans ?_
      exact Nat.add_le_add (Nat.mul_le_mul_right _ h.setup.length_eq.le)
        (Nat.mul_le_mul_right 44 h.length_le)
  | tunRead buffer env =>
    unfold step tunRead
    dsimp only
    split
    · split
      · exact Nat.zero_le _
      · exact bytesSent_forwardOn hC _ buffer env
    · exact Nat.zero_le _
  | udpRecv src packet now env =>
    exact (udpRecv_reply hC hO hS hP st src packet now env).bytes_le

/-- In every run: the bytes sent are at most the bytes received on the socket, the bytes read from
the TUN device with 44 more for each packet, and for each pass over the timers one initiation for
each configured peer and 64 keepalives. -/
theorem bytesSent_le (hC : C.GcmCorrect) (hO : C.OutputSized) (hS : C.Sized) (hP : P.WellKeyed C)
    (configs : List PeerConfig) (eph : Option Priv) (is : List (Input Priv)) :
    bytesSent (Machine.run (step C P) (PeerState.initial configs eph) is).2 ≤
      (allowances C P configs.length (PeerState.initial configs eph) is).sum := by
  have hrun := Machine.observe_invariant (step C P)
    (fun st inp => [allowance configs.length P.psk st inp])
    (I := fun st tr log => TableOk configs st ∧ bytesSent tr ≤ log.sum)
    (fun st tr log inp ⟨h, hle⟩ => by
      refine ⟨h.step C P inp, ?_⟩
      rw [bytesSent_append, List.sum_append, List.sum_singleton]
      exact Nat.add_le_add hle (bytesSent_step hC hO hS hP h inp))
    ⟨.initial configs eph, bytesSent_nil.le⟩ is
  exact hrun.2

open Sample in
/-- Peer 2 sends an initiation and a data packet, 88 and 64 bytes. -/
theorem bytesSent_le_client :
    bytesSent (clientRun clientInputs).2 = 88 + 64 ∧
      bytesSent (clientRun clientInputs).2 ≤
        (allowances crypto (params 2) 1 (PeerState.initial [peerConfig 1 true] (some 5))
          clientInputs).sum :=
  ⟨by decide +kernel, bytesSent_le crypto_gcmCorrect crypto_outputSized crypto_sized
    (P := params 2) rfl [peerConfig 1 true] (some 5) clientInputs⟩

end LaneCove
