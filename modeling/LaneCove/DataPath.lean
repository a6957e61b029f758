import Mathlib.Data.List.Nodup
import LaneCove.Sample
import LaneCove.SessionTrace

/-!
# The data path between two peers

What happens to a datagram of `forward_to_peer` on the receive path of a peer that
holds the same current key: it fits the receive buffer, it reaches the session of its
source address, and the replay check alone decides. Over a whole schedule of
deliveries this gives at-most-once delivery, and exactly-once delivery for whatever
arrives while it is less than 2048 behind.

## Main definitions

- `recvfrom` — a datagram as the receive buffer holds it
- `tunWrites` — what a trace wrote to the TUN device
- `sendAll` — a sequence of payloads sent on one session
- `Receiving` — a peer with a session for an address and what it has accepted there

## Main results

- `Receiving.deliver`, `Receiving.run` — one delivery, and a schedule of them
- `delivered_within_window` — end-to-end delivery within one key
-/

namespace LaneCove

variable {Priv Key : Type}

/-- `sizeof(wire_buf)`, which is `BUFFER_SIZE + WIRE_OVERHEAD`. -/
def wireBufSize : ℕ := 2048 + (8 + 8 + (12 + 16))

/-- `recvfrom` into `wire_buf` cuts a datagram off at the end of the buffer. -/
def recvfrom (datagram : Bytes) : Bytes := datagram.take wireBufSize

/-- A payload that fits the TUN buffer makes a datagram that fits the receive buffer. -/
theorem recvfrom_encryptPacket {C : Crypto Priv Key} (hC : C.GcmCorrect) {key : Key}
    {iv : Option Iv} {seq : BitVec 64} {payload packet : Bytes} (hlen : payload.length ≤ 2048)
    (henc : encryptPacket C key iv (frame seq payload) = some packet) :
    recvfrom packet = packet := by
  obtain ⟨iv', out, -, hout, rfl⟩ := encryptPacket_eq_some henc
  have hlength := hC.encrypt_length hout
  rw [length_frame] at hlength
  refine List.take_of_length_le ?_
  rw [List.length_append, iv'.2, wireBufSize]
  omega

/-- A data packet starts with its IV. -/
theorem take_encryptPacket_ne {C : Crypto Priv Key} {key : Key} {iv : Option Iv}
    {plain packet : Bytes} (hiv : ∀ iv' : Iv, iv = some iv' → iv'.1.take 8 ≠ pktHeader)
    (henc : encryptPacket C key iv plain = some packet) : packet.take 8 ≠ pktHeader := by
  obtain ⟨iv', out, hiv', -, rfl⟩ := encryptPacket_eq_some henc
  rw [List.take_append_of_le_length (by rw [iv'.2]; decide)]
  exact hiv iv' hiv'

/-- One payload after the other on a session; a payload that could not be sent leaves
no datagram. -/
def sendAll (C : Crypto Priv Key) (s : PeerSession Key) (sends : List (Bytes × SendEnv)) :
    PeerSession Key × List (Option Bytes) :=
  Machine.run (fun s send => ((forwardToPeer C s send.1 send.2).1,
    [(forwardToPeer C s send.1 send.2).2])) s sends

theorem forwardToPeer_sendSeq (C : Crypto Priv Key) (s : PeerSession Key) (payload : Bytes)
    (env : SendEnv) : (forwardToPeer C s payload env).1.sendSeq = s.sendSeq + 1 := by
  unfold forwardToPeer
  split
  · rfl
  · split <;> rfl

/-- The datagram of the `i`-th payload carries the `i`-th number from the start. -/
theorem sendAll_getElem? {C : Crypto Priv Key} {s : PeerSession Key}
    {sends : List (Bytes × SendEnv)} {i : ℕ} {packet : Bytes}
    (h : (sendAll C s sends).2[i]? = some (some packet)) :
    ∃ payload env, sends[i]? = some (payload, env) ∧
      encryptPacket C s.sessionKey env.iv (frame (s.sendSeq + BitVec.ofNat 64 i) payload) =
        some packet := by
  induction sends generalizing s i with
  | nil => exact absurd h (by simp [sendAll])
  | cons send sends ih =>
    cases i with
    | zero =>
      have hpacket : (forwardToPeer C s send.1 send.2).2 = some packet := Option.some.inj h
      refine ⟨send.1, send.2, rfl, ?_⟩
      simpa using encryptPacket_of_forwardToPeer hpacket
    | succ i =>
      obtain ⟨payload, env, hsend, henc⟩ := ih (s := (forwardToPeer C s send.1 send.2).1) h
      refine ⟨payload, env, hsend, ?_⟩
      have hnum : s.sendSeq + 1 + BitVec.ofNat 64 i = s.sendSeq + BitVec.ofNat 64 (i + 1) := by
        rw [BitVec.ofNat_add, BitVec.add_assoc, BitVec.add_comm 1]
        rfl
      rwa [(forwardToPeer_follows C s send.1 send.2).sessionKey, forwardToPeer_sendSeq, hnum]
        at henc

/-- The numbers and payloads that a trace accepted, in order. -/
def acceptedData (es : List (Event Key)) : List (BitVec 64 × Bytes) :=
  es.filterMap fun
    | .accepted _ _ _ _ seq payload => some (seq, payload)
    | _ => none

@[simp] theorem acceptedData_append (es es' : List (Event Key)) :
    acceptedData (es ++ es') = acceptedData es ++ acceptedData es' := List.filterMap_append

@[simp] theorem acceptedData_handOn (packet payload : Bytes) (usedPrevKey : Bool)
    (hop : Option (Option ℕ)) :
    acceptedData (handOn packet usedPrevKey payload hop : List (Event Key)) = [] := by
  cases hop <;> rfl

@[simp] theorem acceptedData_forwardOn (C : Crypto Priv Key) (st : PeerState Priv Key) (j : ℕ)
    (payload : Bytes) (env : SendEnv) : acceptedData (forwardOn C st j payload env).2 = [] := by
  unfold forwardOn
  split
  · rfl
  · split <;> rfl

/-- A table lookup reads one column of the table only. -/
theorem findSessionByAddr_congr {ss ss' : List (PeerSession Key)}
    (h : ss'.map (fun s => (s.active, s.addr)) = ss.map fun s => (s.active, s.addr))
    (addr : SockAddr) : findSessionByAddr ss' addr = findSessionByAddr ss addr := by
  have hcol : ∀ ss : List (PeerSession Key), findSessionByAddr ss addr =
      (ss.map fun s => (s.active, s.addr)).findIdx? fun x => x.1 && x.2 = addr := by
    intro ss
    rw [List.findIdx?_map]
    rfl
  rw [hcol, hcol, h]

/-- What a trace wrote to the TUN device. -/
def tunWrites (es : List (Event Key)) : List Bytes :=
  es.filterMap fun
    | .delivered _ _ payload none => some payload
    | _ => none

/-- The lookup reads two columns of the table, neither of which the receive path writes. -/
theorem routeLookup_congr {ss ss' : List (PeerSession Key)}
    (h : ss'.map (fun s => (s.active, s.routes)) = ss.map fun s => (s.active, s.routes))
    (dst : BitVec 32) : routeLookup ss' dst = routeLookup ss dst := by
  have hloop : ∀ (i : ℕ) (best : ℤ × Option ℕ),
      routeLoop dst i best ss' = routeLoop dst i best ss := by
    induction ss generalizing ss' with
    | nil =>
      obtain rfl := List.map_eq_nil_iff.mp h
      exact fun _ _ => rfl
    | cons s ss ih =>
      cases ss' with
      | nil => exact absurd h (by simp)
      | cons s' ss' =>
        obtain ⟨hhead, htail⟩ := List.cons.inj h
        obtain ⟨hactive, hroutes⟩ := Prod.mk.inj hhead
        intro i best
        rw [routeLoop, routeLoop, hactive, hroutes, ih htail]
  rw [routeLookup, routeLookup, hloop]

/-- A column in which the new content of a slot equals the old is unchanged. -/
theorem map_set_of_eq {α β : Type*} {f : α → β} {t : List α} {i : ℕ} {a b : α}
    (h : t[i]? = some a) (hf : f b = f a) : (t.set i b).map f = t.map f := by
  rw [List.map_set, hf]
  refine List.ext_getElem? fun j => ?_
  by_cases hj : i = j
  · subst hj
    obtain ⟨hi, rfl⟩ := List.getElem?_eq_some_iff.mp h
    simp [hi]
  · rw [List.getElem?_set_ne hj]

/-- The column of addresses after a packet was sent on a slot. -/
theorem map_forwardOn (C : Crypto Priv Key) (st : PeerState Priv Key) (j : ℕ) (payload : Bytes)
    (env : SendEnv) :
    (forwardOn C st j payload env).1.sessions.map (fun s => (s.active, s.addr)) =
      st.sessions.map fun s => (s.active, s.addr) := by
  unfold forwardOn
  split
  · rfl
  · next s hs =>
    refine map_set_of_eq hs ?_
    unfold forwardToPeer
    split
    · rfl
    · split <;> rfl

theorem nextHop_ne {ss : List (PeerSession Key)} {j fwd : ℕ} {s : PeerSession Key}
    {payload : Bytes} (h : nextHop ss j s payload = some (some fwd)) : fwd ≠ j := by
  rw [nextHop_eq] at h
  split at h
  · split at h
    · simpa using (Option.filter_eq_some_iff.mp (Option.some.inj h)).2
    · exact absurd h (by simp)
  · exact absurd h (by simp)

/-- The relay shortcut leaves the slot alone that the packet came from. -/
theorem relayTo_nextHop (C : Crypto Priv Key) (st : PeerState Priv Key) (j : ℕ)
    (s : PeerSession Key) (payload : Bytes) (env : SendEnv) :
    let r := relayTo C st payload env (nextHop st.sessions j s payload)
    r.1.sessions[j]? = st.sessions[j]? ∧ acceptedData r.2 = [] ∧
      r.1.sessions.map (fun s => (s.active, s.addr)) =
        st.sessions.map fun s => (s.active, s.addr) := by
  intro r
  match hhop : nextHop st.sessions j s payload with
  | none => simp [r, hhop, relayTo, acceptedData]
  | some none => simp [r, hhop, relayTo, acceptedData]
  | some (some fwd) =>
    have hr : r = forwardOn C st fwd payload env := by simp [r, hhop, relayTo]
    rw [hr]
    refine ⟨?_, acceptedData_forwardOn .., map_forwardOn ..⟩
    unfold forwardOn
    split
    · rfl
    · exact List.getElem?_set_ne (nextHop_ne hhop)

/-- A packet that is rejected leaves its mark on the session. -/
theorem recvData_rejected {C : Crypto Priv Key} {st : PeerState Priv Key} {j : ℕ}
    {s : PeerSession Key} {packet : Bytes} {now : Time} (h : openData C s packet now = none)
    (env : RecvEnv Priv) :
    recvData C st j s packet now env =
      ({ st with sessions := st.sessions.set j (afterDecrypt C s packet now) }, []) := by
  rw [recvData, h]

/-- A packet that is accepted goes to its next hop. -/
theorem recvData_accepted {C : Crypto Priv Key} {st : PeerState Priv Key} {j : ℕ}
    {s : PeerSession Key} {packet payload : Bytes} {now : Time} {key : Key} {usedPrevKey : Bool}
    {seq : BitVec 64} {recv : ReplayState}
    (h : openData C s packet now = some (key, usedPrevKey, seq, payload, recv))
    (env : RecvEnv Priv) :
    recvData C st j s packet now env =
      let s' := afterAccept C s packet now recv
      let st' := { st with sessions := st.sessions.set j s' }
      let hop := nextHop st'.sessions j s' payload
      ((relayTo C st' payload env.relay hop).1,
        .accepted j key usedPrevKey packet seq payload :: handOn packet usedPrevKey payload hop ++
          (relayTo C st' payload env.relay hop).2) := by
  rw [recvData, h]

/-- The session for `src` is in slot `j`, its current key is `key`, and under this key
it has accepted the numbers in `acc`. -/
structure Receiving (st : PeerState Priv Key) (src : SockAddr) (j : ℕ) (key : Key)
    (acc : List (BitVec 64)) : Prop where
  find : findSessionByAddr st.sessions src = some j
  session : ∃ s, st.sessions[j]? = some s ∧ s.sessionKey = key ∧ s.recvSeq.Represents acc

/-- The table after the receive path wrote slot `j`, whatever the relay did. -/
theorem Receiving.of_set {st st' : PeerState Priv Key} {src : SockAddr} {j : ℕ} {key : Key}
    {acc acc' : List (BitVec 64)} {s : PeerSession Key} (h : Receiving st src j key acc)
    (s' : PeerSession Key) (hs : st.sessions[j]? = some s)
    (hfollows : (s'.active, s'.addr) = (s.active, s.addr)) (hkey : s'.sessionKey = key)
    (hrep : s'.recvSeq.Represents acc') (hslot : st'.sessions[j]? = (st.sessions.set j s')[j]?)
    (hcol : st'.sessions.map (fun s => (s.active, s.addr)) =
      (st.sessions.set j s').map fun s => (s.active, s.addr)) :
    Receiving st' src j key acc' where
  find := by
    rw [findSessionByAddr_congr (hcol.trans (map_set_of_eq hs hfollows)), h.find]
  session := by
    obtain ⟨hj, -⟩ := List.getElem?_eq_some_iff.mp hs
    exact ⟨s', by rw [hslot, List.getElem?_set_self hj], hkey, hrep⟩

/-- The datagram with number `index` arrives. -/
structure Arrival (Priv : Type) where
  index : ℕ
  now : Time
  env : RecvEnv Priv

/-- What the loop reacts to when a datagram of `sent` arrives from `src`. -/
def Arrival.input (sent : List (Option Bytes)) (src : SockAddr) (a : Arrival Priv) : Input Priv :=
  .udpRecv src (recvfrom ((sent.getD a.index none).getD [])) a.now a.env

/-- In a list with distinct keys, one entry has a given key. -/
theorem filter_fst_eq_singleton {α β : Type*} [DecidableEq α] {l : List (α × β)} {x : α × β}
    (hnodup : (l.map Prod.fst).Nodup) (hx : x ∈ l) : l.filter (fun y => y.1 = x.1) = [x] := by
  induction l with
  | nil => exact absurd hx (by simp)
  | cons y l ih =>
    rw [List.map_cons, List.nodup_cons] at hnodup
    rcases List.mem_cons.mp hx with rfl | hx
    · rw [List.filter_cons_of_pos (by simp)]
      refine congrArg _ (List.filter_eq_nil_iff.mpr fun z hz he => hnodup.1 ?_)
      rw [← of_decide_eq_true he]
      exact List.mem_map_of_mem hz
    · rw [List.filter_cons_of_neg, ih hnodup.2 hx]
      intro he
      rw [of_decide_eq_true he] at hnodup
      exact hnodup.1 (List.mem_map_of_mem hx)

section Schedule

variable [Inhabited Key] {C : Crypto Priv Key} {P : PeerParams Priv Key} {st : PeerState Priv Key}
  {src : SockAddr} {j : ℕ} {key : Key} {acc : List (BitVec 64)}

/-- A datagram that is no handshake goes to the session of its address. -/
theorem step_recvData {packet : Bytes} {s : PeerSession Key}
    (hhs : isHandshake P.psk packet = false) (hfind : findSessionByAddr st.sessions src = some j)
    (hs : st.sessions[j]? = some s) (now : Time) (env : RecvEnv Priv) :
    step C P st (.udpRecv src packet now env) = recvData C st j s packet now env := by
  simp [step, udpRecv, hhs, hfind, hs]

/-- A datagram that does not start with the magic goes to the session of its source. -/
theorem step_udpRecv_data {packet : Bytes} {s : PeerSession Key}
    (hmagic : packet.take 8 ≠ pktHeader) (hfind : findSessionByAddr st.sessions src = some j)
    (hs : st.sessions[j]? = some s) (now : Time) (env : RecvEnv Priv) :
    step C P st (.udpRecv src packet now env) = recvData C st j s packet now env :=
  step_recvData (by simp [isHandshake, hmagic]) hfind hs now env

/-- One delivery of a datagram under the current key: it is accepted exactly if its
number is new and less than 2048 behind. -/
theorem Receiving.deliver (hC : C.GcmCorrect) (h : Receiving st src j key acc) {iv : Option Iv}
    {seq : BitVec 64} {payload packet : Bytes}
    (henc : encryptPacket C key iv (frame seq payload) = some packet)
    (hmagic : packet.take 8 ≠ pktHeader) (now : Time) (env : RecvEnv Priv) :
    (acceptedData (step C P st (.udpRecv src packet now env)).2 = [(seq, payload)] ∧ seq ∉ acc ∧
      Receiving (step C P st (.udpRecv src packet now env)).1 src j key (seq :: acc)) ∨
    (acceptedData (step C P st (.udpRecv src packet now env)).2 = [] ∧
      (seq ∈ acc ∨ seq.toNat + 2048 ≤ SlidingWindow.maxAccepted (acc.map BitVec.toNat)) ∧
      Receiving (step C P st (.udpRecv src packet now env)).1 src j key acc) := by
  obtain ⟨s, hs, rfl, hrep⟩ := h.session
  rw [step_udpRecv_data hmagic h.find hs]
  have hopen := openData_current hC henc now
  rcases hrep.checkReplay seq with ⟨hret, hnew, -, hrep'⟩ | ⟨hret, hold⟩
  · left
    rw [if_neg (by simp [hret])] at hopen
    rw [recvData_accepted hopen]
    let s' := afterAccept C s packet now (checkReplay seq s.recvSeq).2
    obtain ⟨hslot, hevents, hcol⟩ :=
      relayTo_nextHop C { st with sessions := st.sessions.set j s' } j s' payload env.relay
    refine ⟨?_, hnew, h.of_set s' hs rfl rfl hrep' hslot hcol⟩
    rw [acceptedData_append, hevents, List.append_nil]
    exact congrArg _ (acceptedData_handOn ..)
  · right
    rw [if_pos (by simp [hret])] at hopen
    rw [recvData_rejected hopen]
    refine ⟨rfl, ?_, h.of_set (afterDecrypt C s packet now) hs rfl rfl hrep rfl rfl⟩
    by_cases hmem : seq ∈ acc
    · exact .inl hmem
    · have hfar := not_or.mp fun hnear => hold ⟨hmem, hnear⟩
      exact .inr (by omega)

/-- The datagram that arrives is the one of its number under the current key. -/
def Arrival.Valid (C : Crypto Priv Key) (key : Key) (sent : List (Option Bytes))
    (payload : ℕ → Bytes) (a : Arrival Priv) : Prop :=
  ∃ iv packet, recvfrom ((sent.getD a.index none).getD []) = packet ∧
    encryptPacket C key iv (frame (BitVec.ofNat 64 a.index) (payload a.index)) = some packet ∧
    packet.take 8 ≠ pktHeader

/-- A schedule of deliveries: the numbers accepted are new each time, and each comes
with the payload of an arrival. -/
theorem Receiving.run (hC : C.GcmCorrect) {sent : List (Option Bytes)} {payload : ℕ → Bytes}
    {as : List (Arrival Priv)} (h : Receiving st src j key acc) (hnodup : acc.Nodup)
    (hvalid : ∀ a ∈ as, a.Valid C key sent payload) :
    let r := Machine.run (step C P) st (as.map (Arrival.input sent src))
    Receiving r.1 src j key (((acceptedData r.2).map Prod.fst).reverse ++ acc) ∧
      (((acceptedData r.2).map Prod.fst).reverse ++ acc).Nodup ∧
      ∀ x ∈ acceptedData r.2, ∃ a ∈ as, x = (BitVec.ofNat 64 a.index, payload a.index) := by
  induction as generalizing st acc with
  | nil => exact ⟨h, hnodup, fun x hx => absurd hx (by simp [acceptedData])⟩
  | cons a as ih =>
    obtain ⟨iv, packet, hpacket, henc, hmagic⟩ := hvalid a (by simp)
    have hrest : ∀ b ∈ as, b.Valid C key sent payload := fun b hb => hvalid b (by simp [hb])
    simp only [List.map_cons, Machine.run_cons, acceptedData_append, Arrival.input, hpacket]
    rcases h.deliver hC henc hmagic a.now a.env (P := P) with
      ⟨hacc, hnew, hrecv⟩ | ⟨hacc, -, hrecv⟩
    · obtain ⟨hend, hnodup', hmem⟩ := ih hrecv (List.nodup_cons.mpr ⟨hnew, hnodup⟩) hrest
      rw [hacc]
      simp only [List.singleton_append, List.map_cons, List.reverse_cons, List.append_assoc]
      refine ⟨hend, hnodup', fun x hx => ?_⟩
      rcases List.mem_cons.mp hx with rfl | hx
      · exact ⟨a, by simp, rfl⟩
      · obtain ⟨b, hb, rfl⟩ := hmem x hx
        exact ⟨b, by simp [hb], rfl⟩
    · obtain ⟨hend, hnodup', hmem⟩ := ih hrecv hnodup hrest
      rw [hacc]
      refine ⟨hend, hnodup', fun x hx => ?_⟩
      obtain ⟨b, hb, rfl⟩ := hmem x hx
      exact ⟨b, by simp [hb], rfl⟩

/-- A datagram that arrives before any that is 2048 or more ahead of it has been
accepted by then. -/
theorem Receiving.accepted_in_time (hC : C.GcmCorrect) {sent : List (Option Bytes)}
    {payload : ℕ → Bytes} {pre post : List (Arrival Priv)} {a : Arrival Priv}
    (h : Receiving st src j key [])
    (hvalid : ∀ b ∈ pre ++ a :: post, b.Valid C key sent payload)
    (hlt : ∀ b ∈ pre ++ a :: post, b.index < 2 ^ 64)
    (hpre : ∀ b ∈ pre, b.index < a.index + 2048) :
    (BitVec.ofNat 64 a.index, payload a.index) ∈ acceptedData
      (Machine.run (step C P) st ((pre ++ a :: post).map (Arrival.input sent src))).2 := by
  have hnat : ∀ b ∈ pre ++ a :: post, (BitVec.ofNat 64 b.index).toNat = b.index := fun b hb => by
    rw [BitVec.toNat_ofNat, Nat.mod_eq_of_lt (hlt b hb)]
  have ha : a ∈ pre ++ a :: post := by simp
  obtain ⟨hrecv, -, hmem⟩ := h.run hC List.nodup_nil
    (fun b hb => hvalid b (List.mem_append_left _ hb)) (P := P)
  obtain ⟨iv, packet, hpacket, henc, hmagic⟩ := hvalid a ha
  rw [List.append_nil] at hrecv
  rw [List.map_append, Machine.run_append, acceptedData_append, List.map_cons, Machine.run_cons,
    acceptedData_append]
  generalize Machine.run (step C P) st (pre.map (Arrival.input sent src)) = r at *
  simp only [Arrival.input, hpacket]
  rcases hrecv.deliver hC henc hmagic a.now a.env (P := P) with ⟨hacc, -⟩ | ⟨-, hold, -⟩
  · rw [hacc]
    simp
  · -- it was rejected, so it is old news: the window has not moved past it
    have hmax : SlidingWindow.maxAccepted
        (((acceptedData r.2).map Prod.fst).reverse.map BitVec.toNat) ≤ a.index + 2047 := by
      refine SlidingWindow.maxAccepted_le fun n hn => ?_
      simp only [List.mem_map, List.mem_reverse] at hn
      obtain ⟨_, ⟨x, hx, rfl⟩, rfl⟩ := hn
      obtain ⟨b, hb, rfl⟩ := hmem x hx
      have := hpre b hb
      rw [hnat b (List.mem_append_left _ hb)]
      omega
    rcases hold with hold | hfar
    · rw [List.mem_reverse] at hold
      obtain ⟨x, hx, hseq⟩ := List.mem_map.mp hold
      obtain ⟨b, hb, rfl⟩ := hmem x hx
      have hindex : b.index = a.index := by
        rw [← hnat b (List.mem_append_left _ hb), ← hnat a ha]
        exact congrArg BitVec.toNat hseq
      rw [← hindex]
      exact List.mem_append_left _ hx
    · rw [hnat a ha] at hfar
      omega

omit [Inhabited Key] in
/-- Every datagram of a session that started at number 0 is a valid arrival. -/
theorem arrival_valid (hC : C.GcmCorrect) {s : PeerSession Key} {sends : List (Bytes × SendEnv)}
    (hseq : s.sendSeq = 0) (hsize : ∀ send ∈ sends, send.1.length ≤ 2048)
    (hiv : ∀ send ∈ sends, ∀ iv : Iv, send.2.iv = some iv → iv.1.take 8 ≠ pktHeader)
    {a : Arrival Priv} {packet : Bytes}
    (hsent : (sendAll C s sends).2[a.index]? = some (some packet)) :
    a.Valid C s.sessionKey (sendAll C s sends).2
      fun i => (sends.getD i ([], ⟨none, false, 0⟩)).1 := by
  obtain ⟨payload, env, hsend, henc⟩ := sendAll_getElem? hsent
  have hmem := List.mem_of_getElem? hsend
  have hnum : s.sendSeq + BitVec.ofNat 64 a.index = BitVec.ofNat 64 a.index := by
    rw [hseq]
    exact BitVec.zero_add _
  rw [hnum] at henc
  refine ⟨env.iv, packet, ?_, ?_, ?_⟩
  · simp only [List.getD_eq_getElem?_getD, hsent, Option.getD_some]
    exact recvfrom_encryptPacket hC (hsize _ hmem) henc
  · simp only [List.getD_eq_getElem?_getD, hsend, Option.getD_some]
    exact henc
  · exact take_encryptPacket_ne (hiv _ hmem) henc

/-- **End-to-end delivery within one key.** A sender that starts at number 0 sends
payloads of at most 2048 bytes, and its datagrams arrive in any order, any number of
times, at a peer that has their key and has accepted nothing yet. Payload `i` is
accepted at most once, as it was sent and under number `i`; and it is accepted if a
copy arrives before any datagram that is 2048 or more ahead. -/
theorem delivered_within_window (hC : C.GcmCorrect) {s r : PeerSession Key}
    {sends : List (Bytes × SendEnv)} (hseq : s.sendSeq = 0)
    (hcount : sends.length ≤ 2 ^ 64) (hsize : ∀ send ∈ sends, send.1.length ≤ 2048)
    (hiv : ∀ send ∈ sends, ∀ iv : Iv, send.2.iv = some iv → iv.1.take 8 ≠ pktHeader)
    (hfind : findSessionByAddr st.sessions src = some j) (hr : st.sessions[j]? = some r)
    (hkey : r.sessionKey = s.sessionKey) (hfresh : r.recvSeq = ReplayState.zero)
    {as : List (Arrival Priv)}
    (hsent : ∀ a ∈ as, ∃ packet, (sendAll C s sends).2[a.index]? = some (some packet)) :
    let got := acceptedData
      (Machine.run (step C P) st (as.map (Arrival.input (sendAll C s sends).2 src))).2
    (∀ x ∈ got, ∃ i payload env, sends[i]? = some (payload, env) ∧
      x = (BitVec.ofNat 64 i, payload)) ∧
    ∀ i payload env, sends[i]? = some (payload, env) →
      (got.filter (fun x => x.1 = BitVec.ofNat 64 i) = [] ∨
        got.filter (fun x => x.1 = BitVec.ofNat 64 i) = [(BitVec.ofNat 64 i, payload)]) ∧
      ∀ pre a post, as = pre ++ a :: post → a.index = i → (∀ b ∈ pre, b.index < i + 2048) →
        got.filter (fun x => x.1 = BitVec.ofNat 64 i) = [(BitVec.ofNat 64 i, payload)] := by
  intro got
  have hpayload : ∀ {i payload env}, sends[i]? = some (payload, env) →
      (sends.getD i ([], ⟨none, false, 0⟩)).1 = payload := by
    intro i payload env h
    simp only [List.getD_eq_getElem?_getD, h, Option.getD_some]
  have hvalid : ∀ a ∈ as, a.Valid C s.sessionKey (sendAll C s sends).2
      fun i => (sends.getD i ([], ⟨none, false, 0⟩)).1 := by
    intro a ha
    obtain ⟨packet, hpacket⟩ := hsent a ha
    exact arrival_valid hC hseq hsize hiv hpacket
  have hlt : ∀ {i x}, sends[i]? = some x → i < 2 ^ 64 := fun h =>
    (List.getElem?_eq_some_iff.mp h).1.trans_le hcount
  have hstart : Receiving st src j s.sessionKey [] :=
    ⟨hfind, r, hr, hkey, by rw [hfresh]; exact represents_zero⟩
  obtain ⟨-, hnodup, hmem⟩ := hstart.run hC List.nodup_nil hvalid (P := P)
  rw [List.append_nil, List.nodup_reverse] at hnodup
  have hall : ∀ x ∈ got, ∃ i payload env, sends[i]? = some (payload, env) ∧
      x = (BitVec.ofNat 64 i, payload) := by
    intro x hx
    obtain ⟨a, ha, rfl⟩ := hmem x hx
    obtain ⟨packet, hpacket⟩ := hsent a ha
    obtain ⟨payload, env, hsend, -⟩ := sendAll_getElem? hpacket
    exact ⟨a.index, payload, env, hsend, by rw [hpayload hsend]⟩
  refine ⟨hall, fun i payload env hsend => ⟨?_, ?_⟩⟩
  · by_cases hgot : ∃ x ∈ got, x.1 = BitVec.ofNat 64 i
    · obtain ⟨x, hx, hxi⟩ := hgot
      obtain ⟨i', payload', env', hsend', rfl⟩ := hall x hx
      -- below 2 ^ 64 a number determines the index
      have hindex : i' = i := by
        have hnat := congrArg BitVec.toNat hxi
        rwa [BitVec.toNat_ofNat, BitVec.toNat_ofNat, Nat.mod_eq_of_lt (hlt hsend'),
          Nat.mod_eq_of_lt (hlt hsend)] at hnat
      subst hindex
      obtain ⟨rfl, -⟩ := Prod.mk.inj (Option.some.inj (hsend'.symm.trans hsend))
      exact .inr (filter_fst_eq_singleton hnodup hx)
    · refine .inl (List.filter_eq_nil_iff.mpr fun x hx he => hgot ⟨x, hx, of_decide_eq_true he⟩)
  · rintro pre a post rfl rfl hpre
    have hbound : ∀ b ∈ pre ++ a :: post, b.index < 2 ^ 64 := by
      intro b hb
      obtain ⟨packet, hpacket⟩ := hsent b hb
      obtain ⟨payload, env, hsend, -⟩ := sendAll_getElem? hpacket
      exact hlt hsend
    have hin := hstart.accepted_in_time hC hvalid hbound hpre (P := P)
    rw [hpayload hsend] at hin
    exact filter_fst_eq_singleton hnodup hin

end Schedule

namespace Sample

/-- A session under key 5 with a peer at address 1. -/
def session : PeerSession SKey :=
  { PeerSession.zero with active := true, addr := addr 1, sessionKey := 5 }

/-- A peer that has just this session. -/
def receiver : PeerState UInt8 SKey := ⟨[], [session], [], none, 0⟩

def twoSends : List (Bytes × SendEnv) := [(ipPacket, sendEnv 1), ([1, 2, 3], sendEnv 2)]

/-- Both datagrams arrive, in the wrong order, and the second once more. -/
def reordered : List (Arrival UInt8) :=
  [⟨1, 3, recvEnv 3 0⟩, ⟨0, 4, recvEnv 4 0⟩, ⟨1, 5, recvEnv 5 0⟩]

end Sample

open Sample in
/-- The packet with number 0 is accepted once, although it arrives late. -/
theorem delivered_within_window_reordered :
    (acceptedData (Machine.run (step crypto (params 2)) receiver
      (reordered.map (Arrival.input (sendAll crypto session twoSends).2 (addr 1)))).2).filter
        (fun x => x.1 = BitVec.ofNat 64 0) = [(BitVec.ofNat 64 0, ipPacket)] := by
  have hsent : ∀ a ∈ reordered, ∃ packet,
      (sendAll crypto session twoSends).2[a.index]? = some (some packet) := by
    intro a ha
    simp only [reordered, List.mem_cons, List.not_mem_nil, or_false] at ha
    rcases ha with rfl | rfl | rfl <;> exact ⟨_, rfl⟩
  have hiv : ∀ send ∈ twoSends, ∀ iv : Iv, send.2.iv = some iv → iv.1.take 8 ≠ pktHeader := by
    intro send hsend iv hiv
    simp only [twoSends, List.mem_cons, List.not_mem_nil, or_false] at hsend
    rcases hsend with rfl | rfl <;> obtain rfl := Option.some.inj hiv <;> decide
  obtain ⟨-, hall⟩ := delivered_within_window (P := params 2) crypto_gcmCorrect
    (rfl : session.sendSeq = 0) (by decide) (by decide) hiv
    (rfl : findSessionByAddr receiver.sessions (addr 1) = some 0) rfl rfl rfl hsent
  exact (hall 0 ipPacket (sendEnv 1) rfl).2 [⟨1, 3, recvEnv 3 0⟩] ⟨0, 4, recvEnv 4 0⟩
    [⟨1, 5, recvEnv 5 0⟩] rfl rfl (by decide)

end LaneCove
