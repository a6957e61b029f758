import LaneCove.Capacity
import LaneCove.RekeyFlag
import LaneCove.Responder

/-!
# Outstanding handshakes

The event loop takes the first handshake packet from the address of a pending
handshake as its response. It makes the entry inactive before it verifies the
packet, so one datagram with the right size and header that comes from, or claims
to come from, that address ends the handshake, and the genuine response finds no
entry any more.

## Main definitions

- `Rejected` — neither a valid response nor a valid initiation
- `Undisturbed` — same pending handshakes, same rekeying flags
- `Takes` — the datagram is handled as the response to an entry
- `CompletedBy` — the response completes the handshake of an entry

## Main results

- `step_pending_iff` — an entry ends by its timeout or by a datagram that takes it
- `rejected_harmless_iff` — when a rejected datagram changes nothing, and when the
  genuine response still completes the handshake
-/

namespace LaneCove

variable {Priv Key : Type}

-- ════════════════════════════════════════════════════════════════════════
-- The table of pending handshakes
-- ════════════════════════════════════════════════════════════════════════

theorem findPending_eq_some {pending : List (PendingHs Priv)} {src : SockAddr} {j : ℕ}
    (h : findPending pending src = some j) :
    ∃ p, pending[j]? = some p ∧ p.active = true ∧ p.serverAddr = src := by
  obtain ⟨hj, hp, -⟩ := List.findIdx?_eq_some_iff_getElem.mp h
  simp only [Bool.and_eq_true, decide_eq_true_eq] at hp
  exact ⟨_, List.getElem?_eq_getElem hj, hp⟩

section Parts

variable (C : Crypto Priv Key) (P : PeerParams Priv Key) (st : PeerState Priv Key)

theorem forwardOn_pending (j : ℕ) (payload : Bytes) (env : SendEnv) :
    (forwardOn C st j payload env).1.pending = st.pending := by
  unfold forwardOn
  split <;> rfl

theorem tunRead_pending (buffer : Bytes) (env : SendEnv) :
    (tunRead C st buffer env).1.pending = st.pending := by
  unfold tunRead
  split
  · split
    · rfl
    · exact forwardOn_pending C st _ buffer env
  · rfl

theorem recvData_pending (j : ℕ) (s : PeerSession Key) (packet : Bytes) (now : Time)
    (env : RecvEnv Priv) : (recvData C st j s packet now env).1.pending = st.pending := by
  unfold recvData
  split
  · rfl
  · dsimp only
    unfold relayTo
    split
    · exact forwardOn_pending C _ _ _ _
    · rfl
    · rfl

theorem refreshPrecompEph_pending (fresh : Option Priv) :
    (refreshPrecompEph st fresh).pending = st.pending := by
  cases fresh <;> rfl

/-- A new handshake takes an inactive entry. -/
theorem connectStep_pending {j : ℕ} {p : PendingHs Priv} (hp : st.pending[j]? = some p)
    (ha : p.active = true) (now : Time) (env : ℕ → ConnectEnv Priv) (i : ℕ) :
    (connectStep C P now env st i).1.pending[j]? = some p := by
  unfold connectStep
  dsimp only
  split
  · generalize hst₁ : ({ st with configs := _, sessions := _ } : PeerState Priv Key) = st₁
    have hp₁ : st₁.pending[j]? = some p := by rw [← hst₁]; exact hp
    rcases initiateOutboundHandshake_cases C P st₁ i (env i) with
      hinit | ⟨slot, packet, hsState, hslot, -, hinit⟩
    · rw [hinit]
      exact hp₁
    · rw [hinit]
      obtain ⟨hlt, hfree, -⟩ := List.findIdx?_eq_some_iff_getElem.mp hslot
      have hne : slot ≠ j := by
        rintro rfl
        rw [List.getElem?_eq_getElem hlt] at hp₁
        obtain rfl := Option.some.inj hp₁
        exact absurd hfree (by simp [ha])
      exact (List.getElem?_set_ne hne).trans hp₁
  · exact hp

/-- An entry that has not timed out stays. -/
theorem expirePendingStep_pending {j : ℕ} {p : PendingHs Priv} (hp : st.pending[j]? = some p)
    {now : Time} (hnow : now - p.sentAt < P.settings.handshakeTimeout) (k : ℕ) :
    (expirePendingStep P now st k).1.pending[j]? = some p := by
  by_cases hk : j = k
  · subst hk
    simp [expirePendingStep, hp, hnow]
  · rw [expirePendingStep_of_ne P now st hk]
    exact hp

theorem tick_pending {j : ℕ} {p : PendingHs Priv} (hp : st.pending[j]? = some p)
    (ha : p.active = true) {now : Time} (hnow : now - p.sentAt < P.settings.handshakeTimeout)
    (connect : ℕ → ConnectEnv Priv) (keepalive : ℕ → SendEnv) :
    (tick C P st now connect keepalive).1.pending[j]? = some p := by
  unfold tick
  split
  · exact hp
  · rw [timers_pending]
    have hstart : ({ st with lastRekeyCheck := now } : PeerState Priv Key).pending[j]? = some p := hp
    have hconnect := Machine.run_state_invariant
      (P := fun st : PeerState Priv Key => st.pending[j]? = some p)
      (List.range st.configs.length)
      (fun st' i _ h => connectStep_pending C P st' h ha now connect i) hstart
    exact Machine.run_state_invariant
      (P := fun st : PeerState Priv Key => st.pending[j]? = some p) (List.range maxPeers)
      (fun st' k _ h => expirePendingStep_pending P st' h hnow k) hconnect

variable [Inhabited Key]

theorem recvInit_pending {src : SockAddr} (hpend : findPending st.pending src = none)
    (packet : Bytes) (now : Time) (env : RecvEnv Priv) :
    (recvInit C P st src packet now env).1.pending = st.pending := by
  unfold recvInit
  rw [tieBreak_of_findPending_none hpend]
  dsimp only
  split
  · rfl
  · split
    · rfl
    · unfold commitInbound
      split
      · exact refreshPrecompEph_pending st env.freshEph
      · split
        · exact refreshPrecompEph_pending st env.freshEph
        · rw [install_pending]
          exact refreshPrecompEph_pending st env.freshEph

/-- The response path ends the entry it was taken for, whatever the packet is. -/
theorem recvResponse_pending {j : ℕ} {p : PendingHs Priv} (hp : st.pending[j]? = some p)
    (src : SockAddr) (packet : Bytes) (env : RecvEnv Priv) :
    ∃ p', p'.active = false ∧
      (recvResponse C P st j src packet env).1.pending = st.pending.set j p' := by
  unfold recvResponse
  rw [hp]
  dsimp only
  split
  · exact ⟨_, rfl, rfl⟩
  · rw [install_pending]
    exact ⟨_, rfl, rfl⟩

end Parts

-- ════════════════════════════════════════════════════════════════════════
-- The fate of one entry
-- ════════════════════════════════════════════════════════════════════════

/-- The datagram is handled as the response to entry `j`. -/
def Takes (P : PeerParams Priv Key) (j : ℕ) (st : PeerState Priv Key) : Input Priv → Prop
  | .udpRecv src packet _ _ => isHandshake P.psk packet = true ∧ findPending st.pending src = some j
  | .tick .. | .tunRead .. => False

/-- No pass over the timers at or after the deadline. -/
def Input.Before (deadline : Time) : Input Priv → Prop
  | .tick now _ _ => now < deadline
  | .udpRecv .. | .tunRead .. => True

/-- The key that `handshake_client_recv` derives from the packet for a pending entry. -/
def responseKey (C : Crypto Priv Key) (P : PeerParams Priv Key) (st : PeerState Priv Key)
    (p : PendingHs Priv) (packet : Bytes) : Option Key :=
  (handshakeClientRecv C P.psk P.staticKey P.staticPub (st.config p.cfgIdx).pub p.hsState packet).1

/-- A handshake packet that is no valid response to an active entry of its source
address and that `handshake_server_respond` rejects. -/
structure Rejected (C : Crypto Priv Key) (P : PeerParams Priv Key) (st : PeerState Priv Key)
    (src : SockAddr) (packet : Bytes) (sendOk : Bool) : Prop where
  handshake : isHandshake P.psk packet = true
  response : ∀ p ∈ st.pending, p.active = true → p.serverAddr = src →
    responseKey C P st p packet = none
  initiation : (respond C P st packet sendOk).2 = none

/-- The pending handshakes and the rekeying flags are the same. -/
def Undisturbed (st st' : PeerState Priv Key) : Prop :=
  st'.pending = st.pending ∧
    st'.sessions.map PeerSession.rekeying = st.sessions.map PeerSession.rekeying

/-- The reaction to the packet ends entry `j` with a session for the peer `pub`, under
the key negotiated. -/
structure CompletedBy (j : ℕ) (pub : Bytes) (key : Key) (packet : Bytes)
    (r : PeerState Priv Key × List (Event Key)) : Prop where
  ended : ∃ p, r.1.pending[j]? = some p ∧ p.active = false
  negotiated : .negotiated pub key ∈ r.2
  installed : ∃ slot src s, .installed slot src pub key true packet ∈ r.2 ∧
    r.1.sessions[slot]? = some s ∧ s.active = true ∧ s.staticPub = pub ∧ s.sessionKey = key

theorem isHandshake_of_responseKey {C : Crypto Priv Key} {P : PeerParams Priv Key}
    {st : PeerState Priv Key} {p : PendingHs Priv} {packet : Bytes} {key : Key}
    (h : responseKey C P st p packet = some key) : isHandshake P.psk packet = true := by
  by_contra hhs
  rw [responseKey, handshakeClientRecv, if_pos (by simpa using hhs)] at h
  exact absurd h (by simp)

variable [Inhabited Key] {C : Crypto Priv Key} {P : PeerParams Priv Key} {st : PeerState Priv Key}
  {j : ℕ} {p : PendingHs Priv}

/-- **Step**: before its timeout an active entry ends exactly if a handshake packet is
taken for its response. -/
theorem step_pending_iff (hp : st.pending[j]? = some p) (ha : p.active = true) {inp : Input Priv}
    (hb : inp.Before (p.sentAt + P.settings.handshakeTimeout)) :
    (step C P st inp).1.pending[j]? = some p ↔ ¬ Takes P j st inp := by
  cases inp with
  | tick now connect keepalive =>
    have hnow : now - p.sentAt < P.settings.handshakeTimeout := sub_lt_iff_lt_add'.mpr hb
    exact iff_of_true (tick_pending C P st hp ha hnow connect keepalive) id
  | tunRead buffer env =>
    have hsame : (step C P st (.tunRead buffer env)).1.pending = st.pending :=
      tunRead_pending C st buffer env
    exact iff_of_true (hsame ▸ hp) id
  | udpRecv src packet now env =>
    unfold Takes step udpRecv
    by_cases hhs : isHandshake P.psk packet = true
    · simp only [hhs, if_true, true_and]
      cases hfind : findPending st.pending src with
      | none =>
        dsimp only
        rw [recvInit_pending C P st hfind]
        exact iff_of_true hp (by simp)
      | some i =>
        obtain ⟨q, hq, -⟩ := findPending_eq_some hfind
        obtain ⟨q', hend, hset⟩ := recvResponse_pending C P st hq src packet env
        dsimp only
        rw [hset]
        by_cases hij : i = j
        · -- the entry itself is over
          subst hij
          obtain ⟨hi, -⟩ := List.getElem?_eq_some_iff.mp hp
          rw [List.getElem?_set_self hi]
          refine iff_of_false (fun heq => ?_) (by simp)
          rw [Option.some.inj heq, ha] at hend
          exact absurd hend (by simp)
        · rw [List.getElem?_set_ne hij]
          exact iff_of_true hp fun h => hij (Option.some.inj h)
    · refine iff_of_true ?_ fun ht => hhs ht.1
      dsimp only
      rw [if_neg hhs]
      split
      · exact hp
      · split
        · exact hp
        · rw [recvData_pending]
          exact hp

/-- A rejected datagram does no harm exactly if no entry is pending for its address. -/
theorem undisturbed_iff {src : SockAddr} {packet : Bytes} {env : RecvEnv Priv}
    (h : Rejected C P st src packet env.respondOk) (now : Time) :
    Undisturbed st (step C P st (.udpRecv src packet now env)).1 ↔
      findPending st.pending src = none := by
  cases hfind : findPending st.pending src with
  | none =>
    have hstate : (step C P st (.udpRecv src packet now env)).1 = st := by
      rw [step_inbound C P h.handshake hfind]
      split
      · rfl
      · have hnone := h.initiation
        generalize respond C P st packet env.respondOk = r at hnone
        obtain ⟨reply, derived⟩ := r
        obtain rfl : derived = none := hnone
        rfl
    rw [hstate]
    exact iff_of_true ⟨rfl, rfl⟩ rfl
  | some j =>
    obtain ⟨p, hp, ha, -⟩ := findPending_eq_some hfind
    refine iff_of_false (fun hsame => ?_) (by simp)
    have hkept : (step C P st (.udpRecv src packet now env)).1.pending[j]? = some p :=
      hsame.1 ▸ hp
    have hb : (Input.udpRecv src packet now env).Before
      (p.sentAt + P.settings.handshakeTimeout) := trivial
    exact (step_pending_iff hp ha hb).mp hkept ⟨h.handshake, hfind⟩

/-- A valid response for an entry completes its handshake exactly if the entry is the
first active one of its address. -/
theorem completedBy_iff {configs : List PeerConfig} (htable : TableOk configs st)
    (hlen : configs.length ≤ maxPeers) (hp : st.pending[j]? = some p) (ha : p.active = true)
    {packet : Bytes} {key : Key} (hkey : responseKey C P st p packet = some key) (now : Time)
    (env : RecvEnv Priv) :
    CompletedBy j (st.config p.cfgIdx).pub key packet
        (step C P st (.udpRecv p.serverAddr packet now env)) ↔
      findPending st.pending p.serverAddr = some j := by
  have hhs := isHandshake_of_responseKey hkey
  have hb : (Input.udpRecv p.serverAddr packet now env).Before
    (p.sentAt + P.settings.handshakeTimeout) := trivial
  have hkept := step_pending_iff (C := C) hp ha hb
  constructor
  · intro h
    by_contra hfind
    obtain ⟨p', hp', hend⟩ := h.ended
    rw [hkept.mpr fun ht => hfind ht.2] at hp'
    obtain rfl := Option.some.inj hp'
    exact absurd ha (by simp [hend])
  · intro hfind
    let c : Commit Key := ⟨p.serverAddr, (st.config p.cfgIdx).pub, key, st.config p.cfgIdx, true,
      packet, env.clk⟩
    have hrecv : (handshakeClientRecv C P.psk P.staticKey P.staticPub (st.config p.cfgIdx).pub
      p.hsState packet).1 = some key := hkey
    have hc : commitOf C P st (.udpRecv p.serverAddr packet now env) = some c := by
      simp [commitOf, hhs, hfind, hp, commitResponse, hrecv, c]
    obtain ⟨slot, hinst⟩ := htable.installed hlen hc
    obtain ⟨p', hend, hset⟩ := recvResponse_pending C P st hp p.serverAddr packet env
    refine ⟨⟨p', ?_, hend⟩, ?_, slot, p.serverAddr, ?_⟩
    · obtain ⟨hj, -⟩ := List.getElem?_eq_some_iff.mp hp
      simp [step, udpRecv, hhs, hfind, hset, hj]
    · rcases step_cases C P st (.udpRecv p.serverAddr packet now env) with
        ⟨hnone, -⟩ | ⟨c', pre, hc', -, -, hes⟩
      · rw [hnone] at hc
        exact absurd hc (by simp)
      · obtain rfl : c' = c := Option.some.inj (hc'.symm.trans hc)
        rw [hes]
        simp [c]
    · obtain ⟨c', hc', hslot, hss, -⟩ := installed_of_mem hinst
      obtain rfl : c' = c := Option.some.inj (hc'.symm.trans hc)
      rcases installTable_cases P.settings c st.sessions with
        ⟨hfull, -⟩ | ⟨slot', s, hslot', -, hupd⟩
      · exact absurd hslot (by simp [hfull])
      · obtain rfl : slot' = slot := Option.some.inj (hslot'.symm.trans hslot)
        exact ⟨_, hinst, hss ▸ hupd.self, rfl, rfl, rfl⟩

/-- **When rejected handshake packets do no harm.** In every state of every run: a
rejected datagram leaves pending handshakes and rekeying flags alone exactly if no
entry is pending for its address. An outstanding entry survives a sequence of inputs
before its timeout exactly if no handshake packet among them is taken for its
response, and then a valid response completes the handshake exactly if the entry is
the first one pending for its address. -/
theorem rejected_harmless_iff (C : Crypto Priv Key) (P : PeerParams Priv Key)
    {configs : List PeerConfig} (hlen : configs.length ≤ maxPeers) (eph : Option Priv)
    (is : List (Input Priv)) :
    let st := (Machine.run (step C P) (PeerState.initial configs eph) is).1
    (∀ src packet now env, Rejected C P st src packet env.respondOk →
      (Undisturbed st (step C P st (.udpRecv src packet now env)).1 ↔
        findPending st.pending src = none)) ∧
    ∀ (j : ℕ) (p : PendingHs Priv), st.pending[j]? = some p → p.active = true →
      ∀ is', (∀ inp ∈ is', inp.Before (p.sentAt + P.settings.handshakeTimeout)) →
        (Machine.Guarded (step C P) (fun st inp => ¬ Takes P j st inp) st is' ↔
          ∀ k, (Machine.run (step C P) st (is'.take k)).1.pending[j]? = some p) ∧
        (Machine.Guarded (step C P) (fun st inp => ¬ Takes P j st inp) st is' →
          let st' := (Machine.run (step C P) st is').1
          ∀ packet now env key, responseKey C P st' p packet = some key →
            (CompletedBy j (st'.config p.cfgIdx).pub key packet
                (step C P st' (.udpRecv p.serverAddr packet now env)) ↔
              findPending st'.pending p.serverAddr = some j)) := by
  intro st
  refine ⟨fun src packet now env h => undisturbed_iff h now, fun j p hp ha is' hb => ?_⟩
  have hiff := Machine.guarded_iff_invariant
    (P := fun st : PeerState Priv Key => st.pending[j]? = some p) is'
    (fun _ inp hinp hp => step_pending_iff (C := C) hp ha (hb inp hinp)) hp
  refine ⟨hiff, fun hok => ?_⟩
  intro st' packet now env key hkey
  have hp' : st'.pending[j]? = some p := by simpa using hiff.mp hok is'.length
  have htable : TableOk configs st' := by
    have hrun := tableOk_run C P configs eph (is ++ is')
    rwa [Machine.run_append] at hrun
  exact completedBy_iff htable hlen hp' ha hkey now env

namespace Sample

/-- A handshake packet by its size and header, with nothing in it. -/
def forged : Bytes := pktHeader ++ List.replicate 80 0

/-- Peer 2 has initiated to peer 1 at time 100. -/
def initiated : PeerState UInt8 SKey := (clientRun [tickAt 100 10]).1

/-- The forged packet arrives, from the address `n`. -/
def forgedFrom (n : ℕ) : Input UInt8 := .udpRecv (addr n) forged 101 (recvEnv 101 6)

/-- The genuine response arrives, in time. -/
def answered : Input UInt8 := .udpRecv (addr 1) response 102 (recvEnv 102 7)

end Sample

open Sample in
/-- A forged packet from another address does no harm. -/
theorem rejected_harmless_elsewhere :
    Rejected crypto (params 2) initiated (addr 9) forged true ∧
    Undisturbed initiated (step crypto (params 2) initiated (forgedFrom 9)).1 ∧
    ∃ pub key, CompletedBy 0 pub key response
      (step crypto (params 2) (step crypto (params 2) initiated (forgedFrom 9)).1 answered) := by
  have hall := rejected_harmless_iff crypto (params 2)
    (show [peerConfig 1 true].length ≤ maxPeers by decide) (some 5) [tickAt 100 10]
  rw [show (Machine.run (step crypto (params 2)) (PeerState.initial [peerConfig 1 true] (some 5))
    [tickAt 100 10]).1 = initiated from rfl] at hall
  have hrej : Rejected crypto (params 2) initiated (addr 9) forged true :=
    ⟨by decide +kernel, by decide +kernel, by decide +kernel⟩
  have hnone : findPending initiated.pending (addr 9) = none := by decide +kernel
  refine ⟨hrej, (hall.1 (addr 9) forged 101 (recvEnv 101 6) hrej).mpr hnone, ?_⟩
  obtain ⟨p, hp, hp'⟩ := Option.map_eq_some_iff.mp (show initiated.pending[0]?.map
    (fun p => (p.active, p.serverAddr)) = some (true, addr 1) by decide +kernel)
  obtain ⟨ha, haddr⟩ := Prod.mk.inj hp'
  have hguard : Machine.Guarded (step crypto (params 2)) (fun st inp => ¬ Takes (params 2) 0 st inp)
      initiated [forgedFrom 9] := by
    refine ⟨fun ht => ?_, trivial⟩
    rw [forgedFrom, Takes, hnone] at ht
    exact absurd ht.2 (by simp)
  have hdone := (hall.2 0 p hp ha [forgedFrom 9] (by simp [forgedFrom, Input.Before])).2 hguard
    response 102 (recvEnv 102 7)
  simp only [haddr, Machine.run_cons, Machine.run_nil] at hdone
  have hkey : (initiated.pending[0]?.bind fun p => responseKey crypto (params 2)
      (step crypto (params 2) initiated (forgedFrom 9)).1 p response).isSome = true := by
    decide +kernel
  rw [hp, Option.bind_some] at hkey
  obtain ⟨key, hkey⟩ := Option.isSome_iff_exists.mp hkey
  have hfirst : findPending (step crypto (params 2) initiated (forgedFrom 9)).1.pending (addr 1) =
    some 0 := by decide +kernel
  generalize (step crypto (params 2) initiated (forgedFrom 9)).1 = st' at hkey hfirst hdone ⊢
  exact ⟨_, key, (hdone key hkey).mpr hfirst⟩

open Sample in
/-- One forged packet from the address of the server ends the handshake: the genuine
response, two seconds after the initiation, is no longer taken. -/
theorem rejected_cancels :
    Rejected crypto (params 2) initiated (addr 1) forged true ∧
    ¬ Undisturbed initiated (step crypto (params 2) initiated (forgedFrom 1)).1 ∧
    (initiated.pending.map PendingHs.active).count true = 1 ∧
    (clientRun [tickAt 100 10, answered]).1.sessions.map PeerSession.active = [true] ∧
    (clientRun [tickAt 100 10, forgedFrom 1, answered]).1.sessions.map PeerSession.active = [] := by
  refine ⟨⟨by decide +kernel, by decide +kernel, by decide +kernel⟩, fun h => ?_, by decide +kernel,
    by decide +kernel, by decide +kernel⟩
  have hactive := congrArg (fun ps => (ps.map PendingHs.active).count true) h.1
  exact absurd hactive (by decide +kernel)

end LaneCove
