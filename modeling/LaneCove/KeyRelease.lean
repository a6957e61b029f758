import LaneCove.Outstanding

/-!
# Release of ephemeral keys

A pending handshake owns the ephemeral key that `handshake_client_send` has created.
The timeout frees the key with the entry, and `handshake_client_recv` frees it when it
succeeds. When a response is rejected, the event loop makes the entry inactive and
leaves its key behind; the next initiation that takes the slot overwrites the pointer.

## Main definitions

- `KeysMatch` — a slot holds a key exactly while it is active
- `rejectsResponse` — a datagram that is taken for a response, and rejected

## Main results

- `step_keysMatch_iff` — exactly such a datagram leaves a key behind
- `pending_keys_iff` — the same for runs, and for the slots that are used again
-/

namespace LaneCove

variable {Priv Key : Type}

/-- Every slot holds an ephemeral key if and only if it is active. -/
def KeysMatch (pending : List (PendingHs Priv)) : Prop :=
  ∀ p ∈ pending, p.hsState.ephKey.isSome = p.active

/-- The datagram is taken for the response to a pending handshake, and
`handshake_client_recv` rejects it. -/
def rejectsResponse (C : Crypto Priv Key) (P : PeerParams Priv Key) (st : PeerState Priv Key) :
    Input Priv → Bool
  | .udpRecv src packet _ _ => isHandshake P.psk packet &&
      ((findPending st.pending src).bind fun j => st.pending[j]?).any fun p =>
        (responseKey C P st p packet).isNone
  | .tick .. | .tunRead .. => false

-- ════════════════════════════════════════════════════════════════════════
-- Slots
-- ════════════════════════════════════════════════════════════════════════

theorem keysMatch_zero (n : ℕ) : KeysMatch (List.replicate n (PendingHs.zero : PendingHs Priv)) := by
  intro p hp
  rw [List.eq_of_mem_replicate hp]
  rfl

theorem KeysMatch.set {pending : List (PendingHs Priv)} (h : KeysMatch pending) (j : ℕ)
    {p : PendingHs Priv} (hp : p.hsState.ephKey.isSome = p.active) :
    KeysMatch (pending.set j p) := by
  intro q hq
  rcases List.mem_or_eq_of_mem_set hq with hq | rfl
  · exact h q hq
  · exact hp

/-- After a change of one slot, the slot itself decides. -/
theorem KeysMatch.set_iff {pending : List (PendingHs Priv)} (h : KeysMatch pending) {j : ℕ}
    (hj : j < pending.length) (p : PendingHs Priv) :
    KeysMatch (pending.set j p) ↔ p.hsState.ephKey.isSome = p.active := by
  refine ⟨fun hset => hset p ?_, h.set j⟩
  exact List.mem_set hj p

/-- The slot that the next initiation takes holds no key. -/
theorem KeysMatch.free {pending : List (PendingHs Priv)} (h : KeysMatch pending) {slot : ℕ}
    {p : PendingHs Priv} (hslot : pending.findIdx? (fun p => !p.active) = some slot)
    (hp : pending[slot]? = some p) : p.hsState.ephKey = none := by
  obtain ⟨hlt, hfree, -⟩ := List.findIdx?_eq_some_iff_getElem.mp hslot
  rw [List.getElem?_eq_getElem hlt] at hp
  obtain rfl := Option.some.inj hp
  have hkey := h _ (List.getElem_mem hlt)
  have hinactive : (pending[slot].active) = false := by simpa using hfree
  rw [hinactive, Option.isSome_eq_false_iff] at hkey
  exact Option.isNone_iff_eq_none.mp hkey

-- ════════════════════════════════════════════════════════════════════════
-- Steps
-- ════════════════════════════════════════════════════════════════════════

section Steps

variable (C : Crypto Priv Key) (P : PeerParams Priv Key)

/-- The state that is kept for the response holds the key. -/
theorem ephKey_handshakeClientSend {psk : Option Key} {staticPub serverStaticPub packet : Bytes}
    {ephKey : Option Priv} {sendOk : Bool} {hsState : HsClientState Priv Bytes Bytes}
    (h : handshakeClientSend C psk staticPub serverStaticPub ephKey sendOk =
      some (packet, hsState)) :
    hsState.ephKey.isSome = true := by
  simp only [handshakeClientSend, Option.bind_eq_bind, Option.bind_eq_some_iff] at h
  obtain ⟨key, -, ⟨init, state⟩, hsend, hsent⟩ := h
  obtain ⟨_, _, _, -, -, -, -, rfl⟩ := Suite.clientSend_eq_some hsend
  split at hsent
  · obtain ⟨-, rfl⟩ := Prod.mk.inj (Option.some.inj hsent)
    rfl
  · exact absurd hsent (by simp)

/-- `handshake_client_recv` frees the key exactly if it succeeds. -/
theorem ephKey_handshakeClientRecv (psk : Option Key) (staticKey : Priv)
    (staticPub serverStaticPub : Bytes) {hsState : HsClientState Priv Bytes Bytes}
    (h : hsState.ephKey.isSome = true) (resp : Bytes) :
    let recv := handshakeClientRecv C psk staticKey staticPub serverStaticPub hsState resp
    recv.2.ephKey.isSome = false ↔ recv.1.isNone = false := by
  unfold handshakeClientRecv
  split
  · simp [h]
  · split
    · simp [h]
    · simp

theorem KeysMatch.connectStep {st : PeerState Priv Key} (h : KeysMatch st.pending) (now : Time)
    (env : ℕ → ConnectEnv Priv) (i : ℕ) :
    KeysMatch (LaneCove.connectStep C P now env st i).1.pending := by
  unfold LaneCove.connectStep
  dsimp only
  split
  · generalize hst₁ : ({ st with configs := _, sessions := _ } : PeerState Priv Key) = st₁
    have h₁ : KeysMatch st₁.pending := by rw [← hst₁]; exact h
    rcases initiateOutboundHandshake_cases C P st₁ i (env i) with
      hinit | ⟨slot, packet, hsState, -, hsend, hinit⟩
    · rw [hinit]
      exact h₁
    · rw [hinit]
      exact h₁.set slot (ephKey_handshakeClientSend C hsend)
  · exact h

theorem KeysMatch.expirePendingStep {st : PeerState Priv Key} (h : KeysMatch st.pending)
    (now : Time) (j : ℕ) : KeysMatch (LaneCove.expirePendingStep P now st j).1.pending := by
  unfold LaneCove.expirePendingStep
  split
  · exact h
  · split
    · exact h
    · exact h.set j rfl

/-- The slots when the loop over the peers reaches entry `i`. -/
theorem KeysMatch.connecting (st : PeerState Priv Key) (h : KeysMatch st.pending) (now : Time)
    (env : ℕ → ConnectEnv Priv) (is : List ℕ) :
    KeysMatch (Machine.run (LaneCove.connectStep C P now env) st is).1.pending :=
  Machine.run_state_invariant (P := fun st : PeerState Priv Key => KeysMatch st.pending) is
    (fun _ i _ h => h.connectStep C P now env i) h

theorem KeysMatch.tick {st : PeerState Priv Key} (h : KeysMatch st.pending) (now : Time)
    (connect : ℕ → ConnectEnv Priv) (keepalive : ℕ → SendEnv) :
    KeysMatch (LaneCove.tick C P st now connect keepalive).1.pending := by
  unfold LaneCove.tick
  split
  · exact h
  · rw [timers_pending]
    have hconnect := KeysMatch.connecting C P { st with lastRekeyCheck := now } h now connect
      (List.range st.configs.length)
    exact Machine.run_state_invariant (P := fun st : PeerState Priv Key => KeysMatch st.pending)
      (List.range maxPeers) (fun _ j _ h => h.expirePendingStep P now j) hconnect

variable [Inhabited Key]

/-- The response path stores what `handshake_client_recv` has left of the state. -/
theorem recvResponse_set {st : PeerState Priv Key} {j : ℕ} {p : PendingHs Priv}
    (hp : st.pending[j]? = some p) (src : SockAddr) (packet : Bytes) (env : RecvEnv Priv) :
    (recvResponse C P st j src packet env).1.pending = st.pending.set j { p with
      active := false
      hsState := (handshakeClientRecv C P.psk P.staticKey P.staticPub (st.config p.cfgIdx).pub
        p.hsState packet).2 } := by
  unfold recvResponse
  rw [hp]
  dsimp only
  split
  · rfl
  · rw [install_pending]

/-- **Step**: keys and active slots go on matching, except after a rejected response. -/
theorem step_keysMatch_iff {st : PeerState Priv Key} (h : KeysMatch st.pending) (inp : Input Priv) :
    KeysMatch (step C P st inp).1.pending ↔ rejectsResponse C P st inp = false := by
  cases inp with
  | tick now connect keepalive => exact iff_of_true (h.tick C P now connect keepalive) rfl
  | tunRead buffer env =>
    have hsame : (step C P st (.tunRead buffer env)).1.pending = st.pending :=
      tunRead_pending C st buffer env
    exact iff_of_true (hsame ▸ h) rfl
  | udpRecv src packet now env =>
    unfold rejectsResponse step udpRecv
    by_cases hhs : isHandshake P.psk packet = true
    · simp only [hhs, if_true, Bool.true_and]
      cases hfind : findPending st.pending src with
      | none =>
        dsimp only
        rw [recvInit_pending C P st hfind]
        exact iff_of_true h rfl
      | some j =>
        obtain ⟨p, hp, ha, -⟩ := findPending_eq_some hfind
        have hkey : p.hsState.ephKey.isSome = true := (h p (List.mem_of_getElem? hp)).trans ha
        obtain ⟨hj, -⟩ := List.getElem?_eq_some_iff.mp hp
        simp only [Option.bind_some, hp, Option.any_some]
        rw [recvResponse_set C P hp, h.set_iff hj]
        exact ephKey_handshakeClientRecv C P.psk P.staticKey P.staticPub _ hkey packet
    · refine iff_of_true ?_ (by simp [hhs])
      dsimp only
      rw [if_neg hhs]
      split
      · exact h
      · split
        · exact h
        · rw [recvData_pending]
          exact h

end Steps

-- ════════════════════════════════════════════════════════════════════════
-- Runs
-- ════════════════════════════════════════════════════════════════════════

/-- **Keys of pending handshakes.** In every run, the slots hold a key exactly while they
are active, in every state reached, if and only if no step rejects a response. Then also no
initiation of any pass over the timers takes a slot that still holds a key. -/
theorem pending_keys_iff [Inhabited Key] (C : Crypto Priv Key) (P : PeerParams Priv Key)
    (configs : List PeerConfig) (eph : Option Priv) (is : List (Input Priv)) :
    let reached := fun k => (Machine.run (step C P) (PeerState.initial configs eph) (is.take k)).1
    let ok := fun st inp => rejectsResponse C P st inp = false
    (Machine.Guarded (step C P) ok (PeerState.initial configs eph) is ↔
      ∀ k, KeysMatch (reached k).pending) ∧
    (Machine.Guarded (step C P) ok (PeerState.initial configs eph) is →
      ∀ k now connect i slot p,
        let st := (Machine.run (connectStep C P now connect)
          { reached k with lastRekeyCheck := now } (List.range i)).1
        st.pending.findIdx? (fun p => !p.active) = some slot → st.pending[slot]? = some p →
          p.hsState.ephKey = none) := by
  intro reached ok
  have hiff : Machine.Guarded (step C P) ok (PeerState.initial configs eph) is ↔
      ∀ k, KeysMatch (reached k).pending :=
    Machine.guarded_iff_invariant (P := fun st : PeerState Priv Key => KeysMatch st.pending) is
      (fun _ inp _ h => step_keysMatch_iff C P h inp) (keysMatch_zero maxPeers)
  refine ⟨hiff, fun hok k now connect i slot p hslot hp => ?_⟩
  have hreached : KeysMatch (reached k).pending := hiff.mp hok k
  exact (KeysMatch.connecting C P { reached k with lastRekeyCheck := now } hreached now connect
    (List.range i)).free hslot hp

namespace Sample

/-- Peer 2 connects to peer 1, and rekeys after 180 seconds. -/
def reconnecting : List (Input UInt8) := [tickAt 100 10, answered, tickAt 300 11]

end Sample

open Sample in
/-- Without a rejected response every key is released. -/
theorem pending_keys_connected :
    (clientRun reconnecting).1.pending.countP PendingHs.active = 1 ∧
      KeysMatch (clientRun reconnecting).1.pending := by
  have hkeys := pending_keys_iff crypto (params 2) [peerConfig 1 true] (some 5) reconnecting
  refine ⟨by decide +kernel, hkeys.1.mp ?_ 3⟩
  exact ⟨by decide +kernel, by decide +kernel, by decide +kernel, trivial⟩

open Sample in
/-- A forged response leaves the key 10 in an inactive slot, and the handshake of the next
pass over the timers puts the key 11 in its place. -/
theorem key_left_behind :
    ¬ KeysMatch (clientRun [tickAt 100 10, forgedFrom 1]).1.pending ∧
    (clientRun [tickAt 100 10, forgedFrom 1]).1.pending.head?.map
      (fun p => (p.active, p.hsState.ephKey)) = some (false, some 10) ∧
    (clientRun [tickAt 100 10, forgedFrom 1, tickAt 140 11]).1.pending.head?.map
      (fun p => (p.active, p.hsState.ephKey)) = some (true, some 11) := by
  have hslot : (clientRun [tickAt 100 10, forgedFrom 1]).1.pending.head?.map
      (fun p => (p.active, p.hsState.ephKey)) = some (false, some 10) := by decide +kernel
  refine ⟨fun h => ?_, hslot, by decide +kernel⟩
  obtain ⟨p, hp, hkey⟩ := Option.map_eq_some_iff.mp hslot
  obtain ⟨hactive, heph⟩ := Prod.mk.inj hkey
  have hmatch := h p (List.mem_of_head? hp)
  rw [hactive, heph] at hmatch
  exact absurd hmatch (by simp)

end LaneCove
