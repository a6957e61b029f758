import LaneCove.SessionTrace

/-!
# Invariants of the whole state

A reaction of the event loop changes the state in a few elementary ways: the two
timer loops that handle pending handshakes, the response path, an install, and
updates of a single session. A predicate that survives each of them survives
every reaction.

## Main definitions

- `Preserved` — a predicate that survives the elementary changes

## Main results

- `Preserved.step`, `Preserved.run` — it survives every reaction, and every run
-/

namespace LaneCove

variable {Priv Key : Type}

theorem forwardToPeer_rekeying (C : Crypto Priv Key) (s : PeerSession Key) (payload : Bytes)
    (env : SendEnv) : (forwardToPeer C s payload env).1.rekeying = s.rekeying := by
  unfold forwardToPeer
  split
  · rfl
  · split <;> rfl

theorem connectStep_configs_length (C : Crypto Priv Key) (P : PeerParams Priv Key) (now : Time)
    (env : ℕ → ConnectEnv Priv) (st : PeerState Priv Key) (i : ℕ) :
    (connectStep C P now env st i).1.configs.length = st.configs.length := by
  unfold connectStep
  dsimp only
  split
  · generalize hst₁ : ({ st with configs := _, sessions := _ } : PeerState Priv Key) = st₁
    have hlen : st₁.configs.length = st.configs.length := by
      rw [← hst₁]
      exact List.length_modify ..
    rcases initiateOutboundHandshake_cases C P st₁ i (env i) with hinit | ⟨_, _, _, -, -, hinit⟩ <;>
      rw [hinit] <;> exact (List.length_modify ..).trans hlen
  · rfl

variable [Inhabited Key]

/-- `I` survives each elementary change that a reaction makes to the state. -/
structure Preserved (C : Crypto Priv Key) (P : PeerParams Priv Key) (I : PeerState Priv Key → Prop) :
    Prop where
  connect : ∀ {st : PeerState Priv Key} (now : Time) (env : ℕ → ConnectEnv Priv) (i : ℕ),
    i < st.configs.length → I st → I (connectStep C P now env st i).1
  expirePending : ∀ {st : PeerState Priv Key} (now : Time) (j : ℕ), I st →
    I (expirePendingStep P now st j).1
  clock : ∀ {st : PeerState Priv Key} (now : Time), I st → I { st with lastRekeyCheck := now }
  /-- expiry, sending and receiving write one session and leave its flag alone -/
  session : ∀ {st : PeerState Priv Key} {j : ℕ} {s s' : PeerSession Key},
    st.sessions[j]? = some s → s.Follows s' → s'.rekeying = s.rekeying → I st →
    I { st with sessions := st.sessions.set j s' }
  response : ∀ {st : PeerState Priv Key} {j : ℕ} {src : SockAddr} (packet : Bytes)
    (env : RecvEnv Priv), findPending st.pending src = some j → I st →
    I (recvResponse C P st j src packet env).1
  refresh : ∀ {st : PeerState Priv Key} (fresh : Option Priv), I st → I (refreshPrecompEph st fresh)
  install : ∀ {st : PeerState Priv Key} (c : Commit Key), c.isOutbound = false → I st →
    I (install P st c).1

variable {C : Crypto Priv Key} {P : PeerParams Priv Key} {I : PeerState Priv Key → Prop}
  {st : PeerState Priv Key}

theorem Preserved.forwardOn (h : Preserved C P I) (j : ℕ) (payload : Bytes) (env : SendEnv)
    (hst : I st) : I (forwardOn C st j payload env).1 := by
  unfold LaneCove.forwardOn
  split
  · exact hst
  · next s hs =>
    exact h.session hs (forwardToPeer_follows C s payload env)
      (forwardToPeer_rekeying C s payload env) hst

theorem Preserved.expireSessionStep (h : Preserved C P I) (now : Time) (j : ℕ) (hst : I st) :
    I (expireSessionStep P now st j).1 := by
  unfold LaneCove.expireSessionStep
  split
  · exact hst
  · next s hs =>
    split
    · exact h.session hs ⟨fun ha => absurd ha (by simp), rfl, rfl, rfl, rfl, id, rfl, rfl, rfl⟩ rfl
        hst
    · exact hst

theorem Preserved.keepaliveStep (h : Preserved C P I) (now : Time) (env : ℕ → SendEnv) (j : ℕ)
    (hst : I st) : I (keepaliveStep C P now env st j).1 := by
  unfold LaneCove.keepaliveStep
  split
  · exact hst
  · split
    · exact hst
    · exact h.forwardOn j [] (env j) hst

/-- The four timer loops, each a run over the indices of its table. -/
theorem Preserved.timers (h : Preserved C P I) (now : Time) (connect : ℕ → ConnectEnv Priv)
    (keepalive : ℕ → SendEnv) (hst : I st) : I (timers C P now connect keepalive st).1 := by
  have h1 := Machine.run_state_invariant
    (P := fun st' : PeerState Priv Key => I st' ∧ st'.configs.length = st.configs.length)
    (List.range st.configs.length) (fun st' i hi hst' =>
      ⟨h.connect now connect i (hst'.2 ▸ List.mem_range.mp hi) hst'.1,
        (connectStep_configs_length C P now connect st' i).trans hst'.2⟩) ⟨hst, rfl⟩
  have h2 := Machine.run_state_invariant (List.range maxPeers)
    (fun _ j _ => h.expirePending now j) h1.1
  unfold LaneCove.timers
  dsimp only
  exact Machine.run_state_invariant _ (fun _ j _ => h.keepaliveStep now keepalive j)
    (Machine.run_state_invariant _ (fun _ j _ => h.expireSessionStep now j) h2)

theorem Preserved.recvData (h : Preserved C P I) {j : ℕ} {s : PeerSession Key}
    (hs : st.sessions[j]? = some s) (packet : Bytes) (now : Time) (env : RecvEnv Priv)
    (hst : I st) : I (recvData C st j s packet now env).1 := by
  have hf := afterDecrypt_follows C s packet now
  unfold LaneCove.recvData
  split
  · exact h.session hs hf rfl hst
  · next key usedPrevKey seq payload recv _ =>
    have hset : I { st with sessions := st.sessions.set j (afterAccept C s packet now recv) } :=
      h.session hs (hf.trans ⟨id, rfl, rfl, rfl, rfl, id, rfl, rfl, rfl⟩) rfl hst
    unfold relayTo
    dsimp only
    split
    · exact h.forwardOn _ payload env.relay hset
    · exact hset
    · exact hset

theorem Preserved.recvInit (h : Preserved C P I) (src : SockAddr) (packet : Bytes) (now : Time)
    (env : RecvEnv Priv) (hpend : findPending st.pending src = none) (hst : I st) :
    I (recvInit C P st src packet now env).1 := by
  unfold LaneCove.recvInit
  rw [tieBreak_of_findPending_none hpend]
  dsimp only
  split
  · exact hst
  · split
    · exact hst
    · have href := h.refresh env.freshEph hst
      unfold commitInbound
      split
      · exact href
      · split
        · exact href
        · exact h.install _ rfl href

/-- **Step**: what survives the elementary changes survives every reaction. -/
theorem Preserved.step (h : Preserved C P I) (hst : I st) (inp : Input Priv) :
    I (step C P st inp).1 := by
  cases inp with
  | tick now connect keepalive =>
    unfold LaneCove.step tick
    dsimp only
    split
    · exact hst
    · exact h.timers now connect keepalive (h.clock now hst)
  | tunRead buffer env =>
    unfold LaneCove.step tunRead
    dsimp only
    split
    · split
      · exact hst
      · exact h.forwardOn _ buffer env hst
    · exact hst
  | udpRecv src packet now env =>
    unfold LaneCove.step udpRecv
    dsimp only
    split
    · split
      · next hpend => exact h.response packet env hpend hst
      · next hpend => exact h.recvInit src packet now env hpend hst
    · split
      · exact hst
      · split
        · exact hst
        · next s hs => exact h.recvData hs packet now env hst

/-- **Run**: and every run. -/
theorem Preserved.run (h : Preserved C P I) (hst : I st) (is : List (Input Priv)) :
    I (Machine.run (LaneCove.step C P) st is).1 :=
  Machine.run_state_invariant (P := I) is (fun _ inp _ hst => h.step hst inp) hst

end LaneCove
