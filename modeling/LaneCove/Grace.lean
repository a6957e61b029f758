import LaneCove.DataPath

/-!
# Two keys of one session

After a rekeying a session holds its current and its previous key. The receive path
tries the current key first, then the previous one within its grace period. A packet
under the current key ends the grace period for good, even if packets under the
previous key are still on their way. Packets under the previous key skip the replay
check and leave the window of the current key alone.

## Main definitions

- `Delivery` — a data packet that arrives, with the time
- `PeerSession.receive` — what the receive path does to the session
- `OnSession` — the session that the data packets of an address go to
- `oldKeyOnly` — a packet that decrypts only under the previous key

## Main results

- `OnSession.step`, `OnSession.run` — the session after one delivery, and after many
- `prevKey_honoured_iff` — when a packet under the previous key is still decrypted
- `oldKey_packets_harmless` — packets under the previous key do not disturb others
-/

namespace LaneCove

variable {Priv Key : Type}

/-- A data packet that arrives. -/
structure Delivery (Priv : Type) where
  packet : Bytes
  now : Time
  env : RecvEnv Priv

/-- What the loop reacts to. -/
def Delivery.input (src : SockAddr) (d : Delivery Priv) : Input Priv :=
  .udpRecv src d.packet d.now d.env

/-- The session after the receive path has handled a data packet. -/
def PeerSession.receive (C : Crypto Priv Key) (s : PeerSession Key) (d : Delivery Priv) :
    PeerSession Key :=
  match openData C s d.packet d.now with
  | none => afterDecrypt C s d.packet d.now
  | some (_, _, _, _, recvSeq) => afterAccept C s d.packet d.now recvSeq

/-- Data packets from `src` go to slot `j`, which holds `s`. -/
structure OnSession (st : PeerState Priv Key) (src : SockAddr) (j : ℕ) (s : PeerSession Key) :
    Prop where
  find : findSessionByAddr st.sessions src = some j
  slot : st.sessions[j]? = some s

section Receive

variable {C : Crypto Priv Key} {s : PeerSession Key} {d : Delivery Priv}

theorem receive_follows (C : Crypto Priv Key) (s : PeerSession Key) (d : Delivery Priv) :
    s.Follows (s.receive C d) := by
  have hdecrypt := afterDecrypt_follows C s d.packet d.now
  unfold PeerSession.receive
  split
  · exact hdecrypt
  · exact hdecrypt.trans ⟨id, rfl, rfl, rfl, rfl, id, rfl, rfl, rfl⟩

theorem receive_prevKeyActive (C : Crypto Priv Key) (s : PeerSession Key) (d : Delivery Priv) :
    (s.receive C d).prevKeyActive =
      (s.prevKeyActive && (decryptPacket C s.sessionKey d.packet).isNone) := by
  unfold PeerSession.receive
  split <;> rfl

theorem receive_active_addr (C : Crypto Priv Key) (s : PeerSession Key) (d : Delivery Priv) :
    ((s.receive C d).active, (s.receive C d).addr) = (s.active, s.addr) := by
  unfold PeerSession.receive
  split <;> rfl

end Receive

variable [Inhabited Key] {C : Crypto Priv Key} {P : PeerParams Priv Key} {st : PeerState Priv Key}
  {src : SockAddr} {j : ℕ} {s : PeerSession Key} {d : Delivery Priv}

/-- One delivery: the session is as `receive` leaves it, and the packet is accepted
exactly if it passes the receive path. -/
theorem OnSession.step (h : OnSession st src j s) (hdata : isHandshake P.psk d.packet = false) :
    OnSession (step C P st (d.input src)).1 src j (s.receive C d) ∧
      acceptedData (LaneCove.step C P st (d.input src)).2 =
        ((openData C s d.packet d.now).map fun r => (r.2.2.1, r.2.2.2.1)).toList := by
  obtain ⟨hj, -⟩ := List.getElem?_eq_some_iff.mp h.slot
  have hcol := receive_active_addr C s d
  rw [Delivery.input, step_recvData hdata h.find h.slot]
  unfold PeerSession.receive at hcol ⊢
  cases hopen : openData C s d.packet d.now with
  | none =>
    rw [hopen] at hcol
    rw [recvData_rejected hopen]
    refine ⟨⟨?_, List.getElem?_set_self hj⟩, rfl⟩
    rw [findSessionByAddr_congr (map_set_of_eq h.slot hcol), h.find]
  | some r =>
    obtain ⟨key, usedPrevKey, seq, payload, recv⟩ := r
    rw [hopen] at hcol
    rw [recvData_accepted hopen]
    dsimp only at hcol ⊢
    obtain ⟨hslot, hevents, hcols⟩ := relayTo_nextHop C
      { st with sessions := st.sessions.set j (afterAccept C s d.packet d.now recv) } j
      (afterAccept C s d.packet d.now recv) payload d.env.relay
    refine ⟨⟨?_, hslot.trans (List.getElem?_set_self hj)⟩, ?_⟩
    · rw [findSessionByAddr_congr (hcols.trans (map_set_of_eq h.slot hcol)), h.find]
    · rw [acceptedData_append, hevents, List.append_nil]
      exact congrArg _ (acceptedData_handOn ..)

/-- Many deliveries. -/
theorem OnSession.run (h : OnSession st src j s) {ds : List (Delivery Priv)}
    (hdata : ∀ d ∈ ds, isHandshake P.psk d.packet = false) :
    OnSession (Machine.run (LaneCove.step C P) st (ds.map (Delivery.input src))).1 src j
      (ds.foldl (PeerSession.receive C) s) := by
  induction ds generalizing st s with
  | nil => exact h
  | cons d ds ih =>
    have hnext := (h.step (hdata d (by simp)) (C := C)).1
    exact ih hnext fun d' hd' => hdata d' (by simp [hd'])

omit [Inhabited Key] in
/-- Deliveries keep the two keys and the end of the grace period. The previous key
stays active as long as no packet decrypts under the current key. -/
theorem foldl_receive (C : Crypto Priv Key) (s : PeerSession Key) (ds : List (Delivery Priv)) :
    s.Follows (ds.foldl (PeerSession.receive C) s) ∧
      ((ds.foldl (PeerSession.receive C) s).prevKeyActive = true ↔ s.prevKeyActive = true ∧
        ∀ d ∈ ds, decryptPacket C s.sessionKey d.packet = none) := by
  induction ds generalizing s with
  | nil => exact ⟨.refl s, by simp⟩
  | cons d ds ih =>
    have hfollows := receive_follows C s d
    obtain ⟨hrest, hactive⟩ := ih (s.receive C d)
    refine ⟨hfollows.trans hrest, ?_⟩
    rw [List.foldl_cons, hactive, receive_prevKeyActive, hfollows.sessionKey]
    simp only [Bool.and_eq_true, Option.isNone_iff_eq_none, List.mem_cons, forall_eq_or_imp,
      and_assoc]

/-- `session_init` on the active session of the same peer keeps the key it replaces. -/
theorem rekeyed_slot {inp : Input Priv} {c : Commit Key} (hc : commitOf C P st inp = some c)
    (hpub : findSessionByPub st.sessions c.pub = some j) (hs : st.sessions[j]? = some s) :
    (step C P st inp).1.sessions[j]? = some (c.session P.settings s) ∧ s.active = true := by
  obtain ⟨s', hs', ha, -⟩ := findSessionByPub_eq_some hpub
  obtain rfl : s = s' := Option.some.inj (hs.symm.trans hs')
  refine ⟨?_, ha⟩
  rcases step_cases C P st inp with ⟨hnone, -⟩ | ⟨c', _, hc', -, hsessions, -⟩
  · rw [hc] at hnone
    exact absurd hnone (by simp)
  · obtain rfl : c = c' := Option.some.inj (hc.symm.trans hc')
    rw [hsessions, installTable, allocSession, hpub]
    exact (SlotTable.updated_modify hs _).self

/-- Let a completed handshake replace the key of an active session of the same peer,
and let data packets arrive on the session after that. A datagram under the replaced
key that arrives within the grace period is decrypted if and only if none of the
packets before it decrypts under the new key, or else it does so itself. -/
theorem prevKey_honoured_iff (hC : C.GcmCorrect) (P : PeerParams Priv Key)
    {st : PeerState Priv Key} {inp : Input Priv} {c : Commit Key}
    (hc : commitOf C P st inp = some c) (hpub : findSessionByPub st.sessions c.pub = some j)
    (hs : st.sessions[j]? = some s)
    (hfind : findSessionByAddr (step C P st inp).1.sessions c.src = some j)
    {ds : List (Delivery Priv)} (hdata : ∀ d ∈ ds, isHandshake P.psk d.packet = false) :
    let st' := (Machine.run (step C P) (step C P st inp).1 (ds.map (Delivery.input c.src))).1
    ∃ s', st'.sessions[j]? = some s' ∧ findSessionByAddr st'.sessions c.src = some j ∧
      ∀ iv plain packet now, encryptPacket C s.sessionKey iv plain = some packet →
        now ≤ c.clk.grace + P.settings.prevKeyGrace →
        ((decryptOn C s' packet now).isSome = true ↔
          (∀ d ∈ ds, decryptPacket C c.key d.packet = none) ∨
            (decryptPacket C c.key packet).isSome = true) := by
  intro st'
  obtain ⟨hslot, ha⟩ := rekeyed_slot hc hpub hs
  have hrun := OnSession.run (C := C) ⟨hfind, hslot⟩ hdata
  refine ⟨_, hrun.slot, hrun.find, fun iv plain packet now henc hnow => ?_⟩
  obtain ⟨hfollows, hactive⟩ := foldl_receive C (c.session P.settings s) ds
  generalize ds.foldl (PeerSession.receive C) (c.session P.settings s) = s' at *
  have hkey : s'.sessionKey = c.key := hfollows.sessionKey
  have hprev : s'.prevSessionKey = s.sessionKey := by
    rw [hfollows.prevSessionKey]
    simp [Commit.session, sessionInit, ha]
  have hexpires : s'.prevKeyExpires = c.clk.grace + P.settings.prevKeyGrace := by
    rw [hfollows.prevKeyExpires]
    simp [Commit.session, sessionInit, ha]
  have hdec := decryptPacket_encryptPacket hC henc
  simp only [Commit.session, sessionInit, ha, true_and] at hactive
  rw [decryptOn, hkey]
  cases hcur : decryptPacket C c.key packet with
  | some plain' => simp
  | none => simp [hprev, hdec, hexpires, hnow, ← hactive]

namespace Sample

/-- Peer 2 connects to peer 1 and rekeys at time 200. -/
def rekeyInit : Input UInt8 := .udpRecv (addr 2) (initiation 2 1 11) 200 (recvEnv 200 21)

def beforeRekeying : PeerState UInt8 SKey :=
  (serverRun [.udpRecv (addr 2) (initiation 2 1 10) 100 (recvEnv 100 20)]).1

def afterRekeying : PeerState UInt8 SKey := (step crypto (params 1) beforeRekeying rekeyInit).1

/-- The current key of the first session. -/
def keyOf (st : PeerState UInt8 SKey) : SKey := (st.sessions.headD PeerSession.zero).sessionKey

/-- A packet of peer 2 under a key. -/
def dataUnder (key : SKey) : Bytes :=
  (encryptPacket crypto key (sendEnv 0).iv (frame 0 ipPacket)).getD []

/-- A packet of peer 2 arrives. -/
def arriveUnder (key : SKey) (now : Time) : Delivery UInt8 := ⟨dataUnder key, now, recvEnv now 22⟩

end Sample

open Sample in
/-- As long as packets under neither key arrive, the old key is honoured to the end. -/
theorem prevKey_honoured_iff_idle :
    let st' := (Machine.run (step crypto (params 1)) afterRekeying
      ([arriveUnder 77 250].map (Delivery.input (addr 2)))).1
    ∃ s', st'.sessions[0]? = some s' ∧
      (decryptOn crypto s' (dataUnder (keyOf beforeRekeying)) 290).isSome = true := by
  intro st'
  obtain ⟨c, hc, heq⟩ := Option.map_eq_some_iff.mp (show (commitOf crypto (params 1) beforeRekeying
    rekeyInit).map (fun c => (c.pub, c.src, c.clk.grace, c.key)) =
      some (crypto.publicKey 2, addr 2, 200, keyOf afterRekeying) by decide +kernel)
  obtain ⟨hpub, hsrc, hclk, hkey⟩ : c.pub = _ ∧ c.src = _ ∧ c.clk.grace = _ ∧ c.key = _ := by
    simpa only [Prod.mk.injEq] using heq
  obtain ⟨s, hs, hold⟩ := Option.map_eq_some_iff.mp (show beforeRekeying.sessions[0]?.map
    PeerSession.sessionKey = some (keyOf beforeRekeying) by decide +kernel)
  obtain ⟨s', hs', -, hiff⟩ := prevKey_honoured_iff crypto_gcmCorrect (params 1) (j := 0) hc
    (by rw [hpub]; decide +kernel) hs (by rw [hsrc]; decide +kernel)
    (show ∀ d ∈ [arriveUnder 77 250], isHandshake (params 1).psk d.packet = false by decide +kernel)
  rw [hsrc, show (step crypto (params 1) beforeRekeying rekeyInit).1 = afterRekeying from rfl] at hs'
  refine ⟨s', hs', (hiff (sendEnv 0).iv (frame 0 ipPacket) _ 290 ?_ ?_).mpr (Or.inl ?_)⟩
  · rw [hold]
    decide +kernel
  · rw [hclk]
    decide
  · rw [hkey]
    decide +kernel

open Sample in
/-- Peer 2 rekeys at time 200. A packet under its new key arrives at time 201, and then
at time 202, 88 seconds before the grace period ends, one under the old key, which is
dropped. -/
theorem prevKey_dropped :
    let st' := (Machine.run (step crypto (params 1)) afterRekeying
      ([arriveUnder (keyOf afterRekeying) 201].map (Delivery.input (addr 2)))).1
    (commitOf crypto (params 1) beforeRekeying rekeyInit).map
        (fun c => (c.pub, c.src, c.clk.grace)) =
        some (crypto.publicKey 2, addr 2, 200) ∧
      findSessionByPub beforeRekeying.sessions (crypto.publicKey 2) = some 0 ∧
      findSessionByAddr afterRekeying.sessions (addr 2) = some 0 ∧
      encryptPacket crypto (keyOf beforeRekeying) (sendEnv 0).iv (frame 0 ipPacket) =
        some (dataUnder (keyOf beforeRekeying)) ∧
      (202 : Time) ≤ 200 + (params 1).settings.prevKeyGrace ∧
      (st'.sessions[0]?.map fun s =>
        (decryptOn crypto s (dataUnder (keyOf beforeRekeying)) 202).isNone) = some true := by
  decide +kernel

/-- The packet decrypts under the previous key and not under the current one. -/
def oldKeyOnly (C : Crypto Priv Key) (cur prev : Key) (d : Delivery Priv) : Bool :=
  (decryptPacket C cur d.packet).isNone && (decryptPacket C prev d.packet).isSome

/-- The event loop on the data packets of one address, reporting which are accepted. -/
def acceptStep (C : Crypto Priv Key) (P : PeerParams Priv Key) (src : SockAddr)
    (st : PeerState Priv Key) (d : Delivery Priv) :
    PeerState Priv Key × List (Delivery Priv × Bool) :=
  ((step C P st (d.input src)).1, [(d, !(acceptedData (step C P st (d.input src)).2).isEmpty)])

/-- A session with these keys and this window. -/
structure HasWindow (cur prev : Key) (recvSeq : ReplayState) (s : PeerSession Key) : Prop where
  sessionKey : s.sessionKey = cur
  prevSessionKey : s.prevSessionKey = prev
  recvSeq : s.recvSeq = recvSeq

section Window

variable {cur prev : Key} {recvSeq : ReplayState} {s' : PeerSession Key}

omit [Inhabited Key] in
/-- A packet under the previous key only leaves the window alone. -/
theorem HasWindow.receive_old (h : HasWindow cur prev recvSeq s)
    (hold : oldKeyOnly C cur prev d = true) : HasWindow cur prev recvSeq (s.receive C d) := by
  have hfollows := receive_follows C s d
  refine ⟨hfollows.sessionKey.trans h.sessionKey, hfollows.prevSessionKey.trans h.prevSessionKey, ?_⟩
  simp only [oldKeyOnly, Bool.and_eq_true, Option.isNone_iff_eq_none] at hold
  unfold PeerSession.receive
  split
  · exact h.recvSeq
  · next hopen =>
    obtain ⟨plain, -, ⟨-, -, hcur, -⟩ | ⟨-, -, hrecv, -⟩⟩ := openData_eq_some hopen
    · rw [h.sessionKey, hold.1] at hcur
      exact absurd hcur (by simp)
    · exact hrecv.trans h.recvSeq

omit [Inhabited Key] in
/-- For every other packet the decision depends on the keys and the window only. -/
theorem HasWindow.openData_eq (h : HasWindow cur prev recvSeq s)
    (h' : HasWindow cur prev recvSeq s') (hnew : oldKeyOnly C cur prev d = false) :
    openData C s d.packet d.now = openData C s' d.packet d.now := by
  have hdecrypt : decryptOn C s d.packet d.now = decryptOn C s' d.packet d.now := by
    unfold decryptOn
    rw [h.sessionKey, h.prevSessionKey, h'.sessionKey, h'.prevSessionKey]
    cases hcur : decryptPacket C cur d.packet with
    | some plain => rfl
    | none =>
      have hprev : decryptPacket C prev d.packet = none := by
        simpa [oldKeyOnly, hcur] using hnew
      simp [hprev]
  simp only [openData, hdecrypt, h.recvSeq, h'.recvSeq]

omit [Inhabited Key] in
/-- And so does the next window. -/
theorem HasWindow.receive_new (h : HasWindow cur prev recvSeq s)
    (h' : HasWindow cur prev recvSeq s') (hnew : oldKeyOnly C cur prev d = false) :
    ∃ recvSeq', HasWindow cur prev recvSeq' (s.receive C d) ∧
      HasWindow cur prev recvSeq' (s'.receive C d) := by
  have hfollows := receive_follows C s d
  have hfollows' := receive_follows C s' d
  refine ⟨(s.receive C d).recvSeq, ⟨hfollows.sessionKey.trans h.sessionKey,
    hfollows.prevSessionKey.trans h.prevSessionKey, rfl⟩, hfollows'.sessionKey.trans h'.sessionKey,
    hfollows'.prevSessionKey.trans h'.prevSessionKey, ?_⟩
  unfold PeerSession.receive
  rw [h.openData_eq h' hnew]
  cases openData C s' d.packet d.now with
  | none => exact h'.recvSeq.trans h.recvSeq.symm
  | some r => rfl

end Window

/-- For every state and every sequence of data packets that arrive on one session:
leaving out all packets that decrypt only under the previous key changes neither
which of the others are accepted nor the window at the end. -/
theorem oldKey_packets_harmless (C : Crypto Priv Key) (P : PeerParams Priv Key)
    (h : OnSession st src j s) {ds : List (Delivery Priv)}
    (hdata : ∀ d ∈ ds, isHandshake P.psk d.packet = false) :
    let keep (d : Delivery Priv) := !oldKeyOnly C s.sessionKey s.prevSessionKey d
    let r := Machine.run (acceptStep C P src) st ds
    let r' := Machine.run (acceptStep C P src) st (ds.filter keep)
    r.2.filter (fun decision => keep decision.1) = r'.2 ∧
      r.1.sessions[j]?.map PeerSession.recvSeq = r'.1.sessions[j]?.map PeerSession.recvSeq := by
  intro keep r r'
  -- both runs have the session in slot `j`, with the same keys and the same window
  let R (st st' : PeerState Priv Key) : Prop := ∃ a b recvSeq, OnSession st src j a ∧
    OnSession st' src j b ∧ HasWindow s.sessionKey s.prevSessionKey recvSeq a ∧
    HasWindow s.sessionKey s.prevSessionKey recvSeq b
  have hrun : R r.1 r'.1 ∧ r.2.filter (fun decision => keep decision.1) = r'.2 := by
    refine Machine.run_filter (R := R) ds ?_ ?_
      ⟨s, s, s.recvSeq, h, h, ⟨rfl, rfl, rfl⟩, ⟨rfl, rfl, rfl⟩⟩
    · rintro st₁ st₂ d hd ⟨a, b, recvSeq, ha, hb, hwa, hwb⟩ hskip
      have hold : oldKeyOnly C s.sessionKey s.prevSessionKey d = true := by simpa [keep] using hskip
      exact ⟨⟨_, b, recvSeq, (ha.step (hdata d hd)).1, hb, hwa.receive_old hold, hwb⟩,
        by simp [acceptStep, hskip]⟩
    · rintro st₁ st₂ d hd ⟨a, b, recvSeq, ha, hb, hwa, hwb⟩ hkeep
      have hnew : oldKeyOnly C s.sessionKey s.prevSessionKey d = false := by simpa [keep] using hkeep
      obtain ⟨hnexta, hacca⟩ := ha.step (hdata d hd) (C := C)
      obtain ⟨hnextb, haccb⟩ := hb.step (hdata d hd) (C := C)
      obtain ⟨recvSeq', hwa', hwb'⟩ := hwa.receive_new hwb hnew
      refine ⟨⟨_, _, recvSeq', hnexta, hnextb, hwa', hwb'⟩, ?_⟩
      simp only [acceptStep, hacca, haccb, hwa.openData_eq hwb hnew]
      simp [hkeep]
  obtain ⟨⟨a, b, recvSeq, ha, hb, hwa, hwb⟩, hdecisions⟩ := hrun
  refine ⟨hdecisions, ?_⟩
  rw [ha.slot, hb.slot, Option.map_some, Option.map_some, hwa.recvSeq, hwb.recvSeq]

open Sample in
/-- After the rekeying of peer 2, packets under its old key and under its new key. -/
theorem oldKey_packets_harmless_rekeyed :
    let ds := [arriveUnder (keyOf beforeRekeying) 201, arriveUnder (keyOf afterRekeying) 202,
      arriveUnder (keyOf beforeRekeying) 203, arriveUnder (keyOf afterRekeying) 204]
    let r := Machine.run (acceptStep crypto (params 1) (addr 2)) afterRekeying
      (ds.filter fun d => !oldKeyOnly crypto (keyOf afterRekeying) (keyOf beforeRekeying) d)
    r.2.map Prod.snd = [true, false] ∧
      (Machine.run (acceptStep crypto (params 1) (addr 2)) afterRekeying
        ds).1.sessions[0]?.map PeerSession.recvSeq = r.1.sessions[0]?.map PeerSession.recvSeq := by
  intro ds r
  obtain ⟨s, hs, hkeys⟩ := Option.map_eq_some_iff.mp (show afterRekeying.sessions[0]?.map
    (fun s => (s.sessionKey, s.prevSessionKey)) = some (keyOf afterRekeying, keyOf beforeRekeying)
    by decide +kernel)
  obtain ⟨hcur, hprev⟩ := Prod.mk.inj hkeys
  have hsession : OnSession afterRekeying (addr 2) 0 s := ⟨by decide +kernel, hs⟩
  have hdata : ∀ d ∈ ds, isHandshake (params 1).psk d.packet = false := by decide +kernel
  have hrun := (oldKey_packets_harmless crypto (params 1) hsession hdata).2
  rw [hcur, hprev] at hrun
  refine ⟨by decide +kernel, ?_⟩
  rw [hrun]

end LaneCove
