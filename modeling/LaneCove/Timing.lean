import Mathlib.Tactic.Linarith
import LaneCove.Cooldown

/-!
# The timers under a running clock

All intervals of the event loop are kept by comparing clock readings at the next pass over the
timers. Under a clock that does not run backwards, a pass leaves nothing overdue: no pending
handshake is past its timeout, no active session has been silent for longer than its expiry,
and no active session has gone without a datagram for longer than the keepalive interval. Until
the next pass, everything is at most as much overdue as that pass is late. And nothing ends
early: a session that expires has been silent.

## Main definitions

- `Input.Within` — the clock readings of a reaction
- `clockStep` — the event loop with a clock
- `TableRenews` — what a reaction does to the times of the sessions
- `Deadlines` — nothing is overdue at the last pass over the timers

## Main results

- `step_renews` — every reaction keeps the times of a session or renews them
- `timers_deadlines` — a pass over the timers leaves nothing overdue
- `deadlines_met` — how much anything is ever overdue
- `expired_silent` — a session that expires has been silent
-/

namespace LaneCove

variable {Priv Key : Type}

/-- The readings of `session_init` are in their order, between `t` and `t'`. -/
structure InitClock.Within (t t' : Time) (clk : InitClock) : Prop where
  grace : t ≤ clk.grace
  sent : clk.grace ≤ clk.sent
  handshake : clk.sent ≤ clk.handshake
  deadline : clk.handshake ≤ clk.deadline
  last : clk.deadline ≤ t'

theorem InitClock.Within.le_sent {t t' : Time} {clk : InitClock} (h : clk.Within t t') :
    t ≤ clk.sent := h.grace.trans h.sent

theorem InitClock.Within.le_handshake {t t' : Time} {clk : InitClock} (h : clk.Within t t') :
    t ≤ clk.handshake := h.le_sent.trans h.handshake

theorem InitClock.Within.handshake_le {t t' : Time} {clk : InitClock} (h : clk.Within t t') :
    clk.handshake ≤ t' := h.deadline.trans h.last

/-- The readings of the clock in a reaction that lasts from `t` to `t'`, in their order. -/
def Input.Within (t t' : Time) : Input Priv → Prop
  | .tick now connect keepalive => t ≤ now ∧ now ≤ t' ∧
      (∀ i, now ≤ (connect i).clk ∧ (connect i).clk ≤ (connect i).sentClk ∧
        (connect i).sentClk ≤ t') ∧
      ∀ j, now ≤ (keepalive j).clk ∧ (keepalive j).clk ≤ t'
  | .tunRead _ env => t ≤ env.clk ∧ env.clk ≤ t'
  | .udpRecv _ _ now env => t ≤ now ∧ env.clk.Within now t' ∧ now ≤ env.relay.clk ∧
      env.relay.clk ≤ t'

theorem Input.Within.le {t t' : Time} {inp : Input Priv} (h : inp.Within t t') : t ≤ t' := by
  cases inp with
  | tick => exact h.1.trans h.2.1
  | tunRead => exact h.1.trans h.2
  | udpRecv => exact h.1.trans (h.2.2.1.trans h.2.2.2)

-- ════════════════════════════════════════════════════════════════════════
-- The times of the sessions
-- ════════════════════════════════════════════════════════════════════════

/-- `s'` is a later state of `s`: each of the two times that the timers look at is kept, or is
`t` or later. -/
structure PeerSession.Renews (t : Time) (s s' : PeerSession Key) : Prop where
  active : s'.active = true → s.active = true
  heard : s'.expiryRef = s.expiryRef ∨ t ≤ s'.expiryRef
  sent : s'.lastSent = s.lastSent ∨ t ≤ s'.lastSent

namespace PeerSession.Renews

variable {t : Time} {s s' s'' : PeerSession Key}

theorem refl (t : Time) (s : PeerSession Key) : s.Renews t s := ⟨id, Or.inl rfl, Or.inl rfl⟩

theorem trans (h : s.Renews t s') (h' : s'.Renews t s'') : s.Renews t s'' where
  active ha := h.active (h'.active ha)
  heard := h'.heard.elim (fun he => h.heard.imp he.trans (he ▸ ·)) Or.inr
  sent := h'.sent.elim (fun he => h.sent.imp he.trans (he ▸ ·)) Or.inr

theorem forwardToPeer (C : Crypto Priv Key) (s : PeerSession Key) (payload : Bytes) {env : SendEnv}
    (hclk : t ≤ env.clk) : s.Renews t (forwardToPeer C s payload env).1 := by
  unfold LaneCove.forwardToPeer
  split
  · exact ⟨id, Or.inl rfl, Or.inl rfl⟩
  · split
    · exact ⟨id, Or.inl rfl, Or.inr hclk⟩
    · exact ⟨id, Or.inl rfl, Or.inl rfl⟩

/-- A datagram from the address of the session counts, whatever it is. -/
theorem afterAccept (C : Crypto Priv Key) (s : PeerSession Key) (packet : Bytes) {now : Time}
    (recv : ReplayState) (hpos : 0 < now) (hnow : t ≤ now) :
    s.Renews t (afterAccept C s packet now recv) := by
  refine ⟨id, Or.inr ?_, Or.inl rfl⟩
  simpa [PeerSession.expiryRef, LaneCove.afterAccept, LaneCove.afterDecrypt, hpos] using hnow

end PeerSession.Renews

/-- Every active session of the second table is a later state of the one in its slot, or new. -/
def TableRenews (t : Time) (ss ss' : List (PeerSession Key)) : Prop :=
  ∀ (i : ℕ) (s' : PeerSession Key), ss'[i]? = some s' → s'.active = true →
    (∃ s, ss[i]? = some s ∧ s.Renews t s') ∨ (t ≤ s'.expiryRef ∧ t ≤ s'.lastSent)

namespace TableRenews

variable {t t' : Time} {ss ss' ss'' : List (PeerSession Key)}

theorem refl (t : Time) (ss : List (PeerSession Key)) : TableRenews t ss ss :=
  fun _ s hs _ => Or.inl ⟨s, hs, .refl t s⟩

theorem trans (h : TableRenews t ss ss') (h' : TableRenews t ss' ss'') :
    TableRenews t ss ss'' := by
  intro i s'' hs'' ha
  rcases h' i s'' hs'' ha with ⟨s', hs', hr'⟩ | hnew
  · rcases h i s' hs' (hr'.active ha) with ⟨s, hs, hr⟩ | ⟨hheard, hsent⟩
    · exact Or.inl ⟨s, hs, hr.trans hr'⟩
    · exact Or.inr ⟨hr'.heard.elim (· ▸ hheard) id, hr'.sent.elim (· ▸ hsent) id⟩
  · exact Or.inr hnew

theorem update {i : ℕ} {s s' : PeerSession Key} (hs : ss[i]? = some s)
    (hupd : SlotTable.Updated ss i s' ss') (hr : s.Renews t s') : TableRenews t ss ss' := by
  intro k s'' hs'' _
  rcases hupd.cases hs'' with ⟨rfl, rfl⟩ | ⟨-, hs''⟩
  · exact Or.inl ⟨s, hs, hr⟩
  · exact Or.inl ⟨s'', hs'', .refl t s''⟩

theorem setRekeying (t : Time) (ss : List (PeerSession Key)) (pub : Bytes) (flag : Bool) :
    TableRenews t ss (setRekeying ss pub flag) := by
  unfold LaneCove.setRekeying
  split
  · exact .refl t ss
  · next j hfind =>
    obtain ⟨s, hs, -⟩ := findSessionByPub_eq_some hfind
    exact .update hs (SlotTable.updated_modify hs _) ⟨id, Or.inl rfl, Or.inl rfl⟩

/-- A loop whose turns keep or renew the times. -/
theorem run {f : PeerState Priv Key → ℕ → PeerState Priv Key × List (Event Key)}
    (hf : ∀ st i, TableRenews t st.sessions (f st i).1.sessions) (st : PeerState Priv Key)
    (is : List ℕ) : TableRenews t st.sessions (Machine.run f st is).1.sessions :=
  Machine.run_state_invariant (P := fun st' => TableRenews t st.sessions st'.sessions) is
    (fun st' i _ h => h.trans (hf st' i)) (.refl t _)

variable {C : Crypto Priv Key} {P : PeerParams Priv Key} {st : PeerState Priv Key}

theorem forwardOn (C : Crypto Priv Key) (st : PeerState Priv Key) (j : ℕ) (payload : Bytes)
    {env : SendEnv} (hclk : t ≤ env.clk) :
    TableRenews t st.sessions (forwardOn C st j payload env).1.sessions := by
  unfold LaneCove.forwardOn
  split
  · exact .refl t _
  · next s hs => exact .update hs (SlotTable.updated_set hs _) (.forwardToPeer C s payload hclk)

theorem connectStep (now : Time) (env : ℕ → ConnectEnv Priv) (st : PeerState Priv Key) (i : ℕ) :
    TableRenews t st.sessions (connectStep C P now env st i).1.sessions := by
  unfold LaneCove.connectStep
  dsimp only
  split
  · generalize hst₁ : ({ st with configs := _, sessions := _ } : PeerState Priv Key) = st₁
    have hss : st₁.sessions = LaneCove.setRekeying st.sessions (st.config i).pub true := by
      rw [← hst₁]
    have hset : TableRenews t st.sessions st₁.sessions := hss ▸ setRekeying t _ _ true
    rcases initiateOutboundHandshake_cases C P st₁ i (env i) with hinit | ⟨_, _, _, -, -, hinit⟩
    · rw [hinit]
      exact hset.trans (setRekeying t _ _ false)
    · rw [hinit]
      exact hset
  · exact .refl t _

theorem expirePendingStep (now : Time) (st : PeerState Priv Key) (j : ℕ) :
    TableRenews t st.sessions (expirePendingStep P now st j).1.sessions := by
  unfold LaneCove.expirePendingStep
  split
  · exact .refl t _
  · split
    · exact .refl t _
    · exact setRekeying t _ _ false

theorem expireSessionStep (now : Time) (st : PeerState Priv Key) (j : ℕ) :
    TableRenews t st.sessions (expireSessionStep P now st j).1.sessions := by
  unfold LaneCove.expireSessionStep
  split
  · exact .refl t _
  · next s hs =>
    split
    · exact .update hs (SlotTable.updated_set hs _)
        ⟨fun h => absurd h (by simp), Or.inl rfl, Or.inl rfl⟩
    · exact .refl t _

theorem keepaliveStep (now : Time) {env : ℕ → SendEnv} (hclk : ∀ j, t ≤ (env j).clk)
    (st : PeerState Priv Key) (j : ℕ) :
    TableRenews t st.sessions (keepaliveStep C P now env st j).1.sessions := by
  unfold LaneCove.keepaliveStep
  split
  · exact .refl t _
  · split
    · exact .refl t _
    · exact forwardOn C st j [] (hclk j)

theorem timers (now : Time) (connect : ℕ → ConnectEnv Priv) {keepalive : ℕ → SendEnv}
    (hclk : ∀ j, t ≤ (keepalive j).clk) (st : PeerState Priv Key) :
    TableRenews t st.sessions (timers C P now connect keepalive st).1.sessions := by
  unfold LaneCove.timers
  dsimp only
  exact (run (connectStep now connect) st _).trans ((run (expirePendingStep now) _ _).trans
    ((run (expireSessionStep now) _ _).trans (run (keepaliveStep now hclk) _ _)))

theorem recvData {j : ℕ} {s : PeerSession Key} (hs : st.sessions[j]? = some s) (packet : Bytes)
    {now : Time} {env : RecvEnv Priv} (hpos : 0 < now) (hnow : t ≤ now)
    (hclk : t ≤ env.relay.clk) :
    TableRenews t st.sessions (recvData C st j s packet now env).1.sessions := by
  unfold LaneCove.recvData
  split
  · exact .update hs (SlotTable.updated_set hs _) (.afterAccept C s packet s.recvSeq hpos hnow)
  · next recvSeq _ =>
    have hset : TableRenews t st.sessions (st.sessions.set j (afterAccept C s packet now recvSeq)) :=
      .update hs (SlotTable.updated_set hs _) (.afterAccept C s packet recvSeq hpos hnow)
    unfold relayTo
    dsimp only
    split
    · exact hset.trans (forwardOn C _ _ _ hclk)
    · exact hset
    · exact hset

variable [Inhabited Key]

/-- `session_init` sets both times. -/
theorem install (P : PeerParams Priv Key) (st : PeerState Priv Key) {c : Commit Key}
    (hclk : c.clk.Within t t') : TableRenews t st.sessions (install P st c).1.sessions := by
  rw [install_sessions]
  rcases installTable_cases P.settings c st.sessions with ⟨-, he⟩ | ⟨slot, s₀, -, -, hupd⟩
  · rw [he]
    exact .refl t _
  · intro i s' hs' _
    rcases hupd.cases hs' with ⟨rfl, rfl⟩ | ⟨-, hs'⟩
    · exact Or.inr ⟨hclk.le_handshake, hclk.le_sent⟩
    · exact Or.inl ⟨s', hs', .refl t s'⟩

theorem recvResponse (j : ℕ) (src : SockAddr) (packet : Bytes) {env : RecvEnv Priv}
    (hclk : env.clk.Within t t') :
    TableRenews t st.sessions (recvResponse C P st j src packet env).1.sessions := by
  unfold LaneCove.recvResponse
  split
  · exact .refl t _
  · dsimp only
    split
    · exact setRekeying t _ _ false
    · exact install P _ hclk

theorem recvInit {src : SockAddr} (hpend : findPending st.pending src = none) (packet : Bytes)
    (now : Time) {env : RecvEnv Priv} (hclk : env.clk.Within t t') :
    TableRenews t st.sessions (recvInit C P st src packet now env).1.sessions := by
  unfold LaneCove.recvInit
  rw [tieBreak_of_findPending_none hpend]
  dsimp only
  split
  · exact .refl t _
  · split
    · exact .refl t _
    · rw [← refreshPrecompEph_sessions st env.freshEph]
      unfold commitInbound
      split
      · exact .refl t _
      · split
        · exact .refl t _
        · exact install P _ hclk

end TableRenews

variable [Inhabited Key] {C : Crypto Priv Key} {P : PeerParams Priv Key}

/-- **Step**: a reaction that begins at `t` keeps the times of a session or renews them. -/
theorem step_renews {t t' : Time} (hpos : 0 < t) {inp : Input Priv} (hclock : inp.Within t t')
    (st : PeerState Priv Key) : TableRenews t st.sessions (step C P st inp).1.sessions := by
  cases inp with
  | tick now connect keepalive =>
    obtain ⟨hnow, -, -, hkeep⟩ := hclock
    unfold step tick
    dsimp only
    split
    · exact .refl t _
    · exact TableRenews.timers now connect (fun j => hnow.trans (hkeep j).1)
        { st with lastRekeyCheck := now }
  | tunRead buffer env =>
    unfold step tunRead
    dsimp only
    split
    · split
      · exact .refl t _
      · exact .forwardOn C st _ buffer hclock.1
    · exact .refl t _
  | udpRecv src packet now env =>
    obtain ⟨hnow, hclk, hrelay, -⟩ := hclock
    have hclk' : env.clk.Within t t' := { hclk with grace := hnow.trans hclk.grace }
    unfold step udpRecv
    dsimp only
    split
    · split
      · exact .recvResponse _ src packet hclk'
      · next hpend => exact .recvInit hpend packet now hclk'
    · split
      · exact .refl t _
      · split
        · exact .refl t _
        · next s hs =>
          exact .recvData hs packet (hpos.trans_le hnow) hnow (hnow.trans hrelay)

-- ════════════════════════════════════════════════════════════════════════
-- What no timer compares with
-- ════════════════════════════════════════════════════════════════════════

omit [Inhabited Key] in
/-- The entries of `peer_configs` and the time of the last pass are the same. -/
structure SameClock (st st' : PeerState Priv Key) : Prop where
  configs : st'.configs = st.configs
  lastRekeyCheck : st'.lastRekeyCheck = st.lastRekeyCheck

namespace SameClock

variable {st st' st'' : PeerState Priv Key}

omit [Inhabited Key] in
theorem refl (st : PeerState Priv Key) : SameClock st st := ⟨rfl, rfl⟩

omit [Inhabited Key] in
theorem trans (h : SameClock st st') (h' : SameClock st' st'') : SameClock st st'' :=
  ⟨h'.configs.trans h.configs, h'.lastRekeyCheck.trans h.lastRekeyCheck⟩

omit [Inhabited Key] in
theorem run {f : PeerState Priv Key → ℕ → PeerState Priv Key × List (Event Key)}
    (hf : ∀ st i, SameClock st (f st i).1) (st : PeerState Priv Key) (is : List ℕ) :
    SameClock st (Machine.run f st is).1 :=
  Machine.run_state_invariant (P := SameClock st) is (fun st' i _ h => h.trans (hf st' i)) (.refl st)

omit [Inhabited Key] in
theorem forwardOn (C : Crypto Priv Key) (st : PeerState Priv Key) (j : ℕ) (payload : Bytes)
    (env : SendEnv) : SameClock st (forwardOn C st j payload env).1 := by
  unfold LaneCove.forwardOn
  split <;> exact ⟨rfl, rfl⟩

omit [Inhabited Key] in
theorem expirePendingStep (now : Time) (st : PeerState Priv Key) (j : ℕ) :
    SameClock st (expirePendingStep P now st j).1 := by
  unfold LaneCove.expirePendingStep
  split
  · exact .refl st
  · split <;> exact ⟨rfl, rfl⟩

omit [Inhabited Key] in
theorem expireSessionStep (now : Time) (st : PeerState Priv Key) (j : ℕ) :
    SameClock st (expireSessionStep P now st j).1 := by
  unfold LaneCove.expireSessionStep
  split
  · exact .refl st
  · split <;> exact ⟨rfl, rfl⟩

omit [Inhabited Key] in
theorem keepaliveStep (now : Time) (env : ℕ → SendEnv) (st : PeerState Priv Key) (j : ℕ) :
    SameClock st (keepaliveStep C P now env st j).1 := by
  unfold LaneCove.keepaliveStep
  split
  · exact .refl st
  · split
    · exact .refl st
    · exact .forwardOn C st j [] (env j)

theorem install (P : PeerParams Priv Key) (st : PeerState Priv Key) (c : Commit Key) :
    SameClock st (install P st c).1 := by
  unfold LaneCove.install
  split <;> exact ⟨rfl, rfl⟩

theorem commitInbound (P : PeerParams Priv Key) (st : PeerState Priv Key) (src : SockAddr)
    (packet : Bytes) (now : Time) (clk : InitClock) (pub : Bytes) (key : Key) :
    SameClock st (commitInbound P st src packet now clk pub key).1 := by
  unfold LaneCove.commitInbound
  split
  · exact .refl st
  · split
    · exact .refl st
    · exact .install P st _

omit [Inhabited Key] in
theorem refreshPrecompEph (st : PeerState Priv Key) (fresh : Option Priv) :
    SameClock st (refreshPrecompEph st fresh) := by
  cases fresh <;> exact ⟨rfl, rfl⟩

/-- Only the timers change them. -/
theorem step {inp : Input Priv} (hinp : ∀ now connect keepalive, inp ≠ .tick now connect keepalive)
    (st : PeerState Priv Key) : SameClock st (step C P st inp).1 := by
  cases inp with
  | tick now connect keepalive => exact absurd rfl (hinp now connect keepalive)
  | tunRead buffer env =>
    unfold LaneCove.step tunRead
    dsimp only
    split
    · split
      · exact .refl st
      · exact .forwardOn C st _ buffer env
    · exact .refl st
  | udpRecv src packet now env =>
    by_cases hhs : isHandshake P.psk packet = true
    · cases hpend : findPending st.pending src with
      | some j =>
        simp only [LaneCove.step, udpRecv, hhs, if_true, hpend, recvResponse]
        split
        · exact .refl st
        · split
          · exact ⟨rfl, rfl⟩
          · refine trans ?_ (.install P _ _)
            exact ⟨rfl, rfl⟩
      | none =>
        rw [step_inbound C P hhs hpend]
        split
        · exact .refl st
        · split
          · exact .refl st
          · exact (SameClock.refreshPrecompEph st env.freshEph).trans (.commitInbound P _ ..)
    · unfold LaneCove.step udpRecv
      dsimp only
      rw [if_neg hhs]
      split
      · exact .refl st
      · split
        · exact .refl st
        · unfold recvData
          split
          · exact ⟨rfl, rfl⟩
          · unfold relayTo
            dsimp only
            split
            · refine trans ?_ (.forwardOn C _ _ _ _)
              exact ⟨rfl, rfl⟩
            · exact ⟨rfl, rfl⟩
            · exact ⟨rfl, rfl⟩

omit [Inhabited Key] in
/-- In a pass over the timers, only the first loop changes them. -/
theorem timers (C : Crypto Priv Key) (P : PeerParams Priv Key) (now : Time)
    (connect : ℕ → ConnectEnv Priv) (keepalive : ℕ → SendEnv) (st : PeerState Priv Key) :
    SameClock (Machine.run (connectStep C P now connect) st (List.range st.configs.length)).1
      (timers C P now connect keepalive st).1 := by
  unfold LaneCove.timers
  dsimp only
  exact (run (expirePendingStep now) _ _).trans ((run (expireSessionStep now) _ _).trans
    (run (keepaliveStep now keepalive) _ _))

end SameClock

omit [Inhabited Key] in
theorem timers_lastRekeyCheck (C : Crypto Priv Key) (P : PeerParams Priv Key) (now : Time)
    (connect : ℕ → ConnectEnv Priv) (keepalive : ℕ → SendEnv) (st : PeerState Priv Key) :
    (timers C P now connect keepalive st).1.lastRekeyCheck = st.lastRekeyCheck := by
  rw [(SameClock.timers C P now connect keepalive st).lastRekeyCheck]
  refine Machine.run_state_invariant
    (P := fun st' : PeerState Priv Key => st'.lastRekeyCheck = st.lastRekeyCheck) _
    (fun st' i _ h => ?_) rfl
  unfold connectStep
  dsimp only
  split
  · generalize hst₁ : ({ st' with configs := _, sessions := _ } : PeerState Priv Key) = st₁
    have hclock : st₁.lastRekeyCheck = st.lastRekeyCheck := by rw [← hst₁]; exact h
    rcases initiateOutboundHandshake_cases C P st₁ i (connect i) with
      hinit | ⟨_, _, _, -, -, hinit⟩ <;> rw [hinit] <;> exact hclock
  · exact h

-- ════════════════════════════════════════════════════════════════════════
-- Nothing is overdue
-- ════════════════════════════════════════════════════════════════════════

omit [Inhabited Key] in
/-- Nothing was overdue at the last pass over the timers. -/
structure Deadlines (settings : Settings) (st : PeerState Priv Key) : Prop where
  pending : ∀ (j : ℕ) (p : PendingHs Priv), st.pending[j]? = some p → p.active = true →
    st.lastRekeyCheck - p.sentAt < settings.handshakeTimeout
  heard : ∀ (i : ℕ) (s : PeerSession Key), st.sessions[i]? = some s → s.active = true →
    st.lastRekeyCheck - s.expiryRef ≤ settings.sessionExpiry
  sent : ∀ (i : ℕ) (s : PeerSession Key), st.sessions[i]? = some s → s.active = true →
    st.lastRekeyCheck - s.lastSent < settings.keepaliveInterval

omit [Inhabited Key] in
/-- The keepalives of a pass are encrypted and sent. -/
def KeepalivesLeave (C : Crypto Priv Key) : Input Priv → Prop
  | .tick _ _ keepalive => ∀ j (s : PeerSession Key),
      (forwardToPeer C s [] (keepalive j)).2.isSome = true
  | .tunRead .. | .udpRecv .. => True

section Tables

variable {t t₀ : Time} {ss ss' : List (PeerSession Key)}

omit [Inhabited Key] in
theorem TableRenews.heard (h : TableRenews t ss ss') (ht : t₀ ≤ t) {bound : ℤ} (hbound : 0 ≤ bound)
    (hss : ∀ (i : ℕ) (s : PeerSession Key), ss[i]? = some s → s.active = true →
      t₀ - s.expiryRef ≤ bound) {i : ℕ} {s' : PeerSession Key} (hs' : ss'[i]? = some s')
    (ha : s'.active = true) : t₀ - s'.expiryRef ≤ bound := by
  rcases h i s' hs' ha with ⟨s, hs, hr⟩ | ⟨hnew, -⟩
  · have hold := hss i s hs (hr.active ha)
    rcases hr.heard with he | hnew
    · exact he ▸ hold
    · exact (sub_nonpos.mpr (ht.trans hnew)).trans hbound
  · exact (sub_nonpos.mpr (ht.trans hnew)).trans hbound

omit [Inhabited Key] in
theorem TableRenews.sent (h : TableRenews t ss ss') (ht : t₀ ≤ t) {bound : ℤ} (hbound : 0 < bound)
    (hss : ∀ (i : ℕ) (s : PeerSession Key), ss[i]? = some s → s.active = true →
      t₀ - s.lastSent < bound) {i : ℕ} {s' : PeerSession Key} (hs' : ss'[i]? = some s')
    (ha : s'.active = true) : t₀ - s'.lastSent < bound := by
  rcases h i s' hs' ha with ⟨s, hs, hr⟩ | ⟨-, hnew⟩
  · have hold := hss i s hs (hr.active ha)
    rcases hr.sent with he | hnew
    · exact he ▸ hold
    · exact (sub_nonpos.mpr (ht.trans hnew)).trans_lt hbound
  · exact (sub_nonpos.mpr (ht.trans hnew)).trans_lt hbound

end Tables

omit [Inhabited Key] in
/-- The third loop leaves no session active that has been silent for too long. -/
theorem expireSession_run (P : PeerParams Priv Key) (now : Time) (st : PeerState Priv Key) (n : ℕ) :
    ∀ j < n, ∀ s, (Machine.run (expireSessionStep P now) st (List.range n)).1.sessions[j]? = some s →
      s.active = true → now - s.expiryRef ≤ P.settings.sessionExpiry := by
  refine Machine.run_range_forall (Q := fun j st => ∀ s, st.sessions[j]? = some s →
    s.active = true → now - s.expiryRef ≤ P.settings.sessionExpiry) (fun st j s hs ha => ?_)
    (fun st j k hkj hk s hs ha => ?_) st n
  · unfold expireSessionStep at hs
    split at hs
    · next hnone => exact absurd hs (by simp [hnone])
    · next s₀ hs₀ =>
      split at hs
      · obtain rfl := Option.some.inj ((SlotTable.updated_set hs₀ _).self.symm.trans hs)
        exact absurd ha (by simp)
      · next hexp =>
        obtain rfl := Option.some.inj (hs₀.symm.trans hs)
        simpa [PeerSession.expired, ha] using hexp
  · unfold expireSessionStep at hs
    split at hs
    · exact hk s hs ha
    · next s₀ hs₀ =>
      split at hs
      · exact hk s (((SlotTable.updated_set hs₀ _).of_ne hkj).symm.trans hs) ha
      · exact hk s hs ha

omit [Inhabited Key] in
theorem lastSent_of_forwardToPeer {s : PeerSession Key} {payload packet : Bytes} {env : SendEnv}
    (h : (forwardToPeer C s payload env).2 = some packet) :
    (forwardToPeer C s payload env).1.lastSent = env.clk := by
  unfold forwardToPeer at h ⊢
  split at h
  · exact absurd h (by simp)
  · split at h
    · next henc hok => simp [hok]
    · exact absurd h (by simp)

omit [Inhabited Key] in
/-- The fourth loop leaves no active session without a recent datagram, if its own leave. -/
theorem keepalive_run (P : PeerParams Priv Key) {now : Time} {env : ℕ → SendEnv}
    (hinterval : 0 < P.settings.keepaliveInterval) (hclk : ∀ j, now ≤ (env j).clk)
    (hleave : ∀ j (s : PeerSession Key), (forwardToPeer C s [] (env j)).2.isSome = true)
    (st : PeerState Priv Key) (n : ℕ) :
    ∀ j < n, ∀ s,
      (Machine.run (keepaliveStep C P now env) st (List.range n)).1.sessions[j]? = some s →
      s.active = true → now - s.lastSent < P.settings.keepaliveInterval := by
  refine Machine.run_range_forall (Q := fun j st => ∀ s, st.sessions[j]? = some s →
    s.active = true → now - s.lastSent < P.settings.keepaliveInterval) (fun st j s hs ha => ?_)
    (fun st j k hkj hk s hs ha => ?_) st n
  · unfold keepaliveStep at hs
    split at hs
    · next hnone => exact absurd hs (by simp [hnone])
    · next s₀ hs₀ =>
      split at hs
      · next hkeep =>
        obtain rfl := Option.some.inj (hs₀.symm.trans hs)
        simpa [ha] using hkeep
      · rw [forwardOn, hs₀] at hs
        obtain rfl := Option.some.inj ((SlotTable.updated_set hs₀ _).self.symm.trans hs)
        obtain ⟨packet, hsent⟩ := Option.isSome_iff_exists.mp (hleave j s₀)
        rw [lastSent_of_forwardToPeer hsent]
        exact (sub_nonpos.mpr (hclk j)).trans_lt hinterval
  · unfold keepaliveStep at hs
    split at hs
    · exact hk s hs ha
    · next s₀ hs₀ =>
      split at hs
      · exact hk s hs ha
      · rw [forwardOn, hs₀] at hs
        exact hk s (((SlotTable.updated_set hs₀ _).of_ne hkj).symm.trans hs) ha

omit [Inhabited Key] in
theorem run_sessions_length {f : PeerState Priv Key → ℕ → PeerState Priv Key × List (Event Key)}
    (hf : ∀ st i, (f st i).1.sessions.length = st.sessions.length) (st : PeerState Priv Key)
    (is : List ℕ) : (Machine.run f st is).1.sessions.length = st.sessions.length :=
  Machine.run_state_invariant
    (P := fun st' : PeerState Priv Key => st'.sessions.length = st.sessions.length) is
    (fun st' i _ h => (hf st' i).trans h) rfl

omit [Inhabited Key] in
theorem expireSessionStep_length (now : Time) (st : PeerState Priv Key) (j : ℕ) :
    (expireSessionStep P now st j).1.sessions.length = st.sessions.length := by
  unfold expireSessionStep
  split
  · rfl
  · split
    · exact List.length_set
    · rfl

omit [Inhabited Key] in
theorem keepaliveStep_length (now : Time) (env : ℕ → SendEnv) (st : PeerState Priv Key) (j : ℕ) :
    (keepaliveStep C P now env st j).1.sessions.length = st.sessions.length := by
  unfold keepaliveStep forwardOn
  split
  · rfl
  · split
    · rfl
    · split
      · rfl
      · exact List.length_set

omit [Inhabited Key] in
/-- The sessions after the third and the fourth loop. -/
theorem timers_sessions_deadlines {now : Time} {keepalive : ℕ → SendEnv}
    (hexpiry : 0 ≤ P.settings.sessionExpiry) (hinterval : 0 < P.settings.keepaliveInterval)
    (hclk : ∀ j, now ≤ (keepalive j).clk)
    (hleave : ∀ j (s : PeerSession Key), (forwardToPeer C s [] (keepalive j)).2.isSome = true)
    (connect : ℕ → ConnectEnv Priv) (st : PeerState Priv Key) {i : ℕ} {s : PeerSession Key}
    (hs : (timers C P now connect keepalive st).1.sessions[i]? = some s) (ha : s.active = true) :
    now - s.expiryRef ≤ P.settings.sessionExpiry ∧
      now - s.lastSent < P.settings.keepaliveInterval := by
  unfold timers at hs
  dsimp only at hs
  generalize (Machine.run (expirePendingStep P now) _ _).1 = st₂ at hs
  have hheard := expireSession_run P now st₂ st₂.sessions.length
  have hlen := run_sessions_length (expireSessionStep_length (P := P) now) st₂
    (List.range st₂.sessions.length)
  generalize (Machine.run (expireSessionStep P now) st₂ _).1 = st₃ at hs hheard hlen
  have hlen' := run_sessions_length (keepaliveStep_length (C := C) (P := P) now keepalive) st₃
    (List.range st₃.sessions.length)
  obtain ⟨hi, -⟩ := List.getElem?_eq_some_iff.mp hs
  refine ⟨?_, keepalive_run P hinterval hclk hleave st₃ _ i (hlen' ▸ hi) s hs ha⟩
  -- the keepalives do not change when a session was heard of
  have hrenews := TableRenews.run (TableRenews.keepaliveStep (C := C) (P := P) now hclk) st₃
    (List.range st₃.sessions.length)
  refine hrenews.heard le_rfl hexpiry (fun k s₃ hs₃ => hheard k ?_ s₃ hs₃) hs ha
  obtain ⟨hk, -⟩ := List.getElem?_eq_some_iff.mp hs₃
  exact hlen ▸ hk

/-- Between two passes, pending handshakes only go. -/
theorem pending_of_step {inp : Input Priv}
    (hinp : ∀ now connect keepalive, inp ≠ .tick now connect keepalive) {st : PeerState Priv Key}
    {j : ℕ} {p : PendingHs Priv} (hp : (step C P st inp).1.pending[j]? = some p)
    (ha : p.active = true) : st.pending[j]? = some p := by
  cases inp with
  | tick now connect keepalive => exact absurd rfl (hinp now connect keepalive)
  | tunRead buffer env => exact tunRead_pending C st buffer env ▸ hp
  | udpRecv src packet now env =>
    simp only [step, udpRecv] at hp
    split at hp
    · split at hp
      · next k hfind =>
        obtain ⟨q, hq, -⟩ := findPending_eq_some hfind
        obtain ⟨q', hq', hset⟩ := recvResponse_pending C P st hq src packet env
        rw [hset] at hp
        rcases (SlotTable.updated_set hq q').cases hp with ⟨-, rfl⟩ | ⟨-, hp⟩
        · exact absurd ha (by simp [hq'])
        · exact hp
      · next hfind => exact recvInit_pending C P st hfind packet now env ▸ hp
    · split at hp
      · exact hp
      · split at hp
        · exact hp
        · exact recvData_pending C st _ _ packet now env ▸ hp

/-- The event loop with a clock. -/
def clockStep (C : Crypto Priv Key) (P : PeerParams Priv Key) :
    PeerState Priv Key × Time → Input Priv × Time → (PeerState Priv Key × Time) × List (Event Key) :=
  Machine.clocked (step C P)

/-- The invariant of a timed run. -/
structure OnTime (configs : List PeerConfig) (settings : Settings)
    (c : PeerState Priv Key × Time) : Prop where
  flags : FlagsBacked configs c.1
  pos : 0 < c.2
  checked : c.1.lastRekeyCheck ≤ c.2
  deadlines : Deadlines settings c.1

/-- **Pass**: the timers leave nothing overdue. -/
theorem timers_deadlines (hexpiry : 0 ≤ P.settings.sessionExpiry)
    (hinterval : 0 < P.settings.keepaliveInterval) {now : Time} {connect : ℕ → ConnectEnv Priv}
    {keepalive : ℕ → SendEnv} (hclk : ∀ j, now ≤ (keepalive j).clk)
    (hleave : ∀ j (s : PeerSession Key), (forwardToPeer C s [] (keepalive j)).2.isSome = true)
    {st : PeerState Priv Key} (hnow : 10 ≤ now - st.lastRekeyCheck)
    (hlen : (step C P st (.tick now connect keepalive)).1.pending.length = maxPeers) :
    (step C P st (.tick now connect keepalive)).1.lastRekeyCheck = now ∧
      Deadlines P.settings (step C P st (.tick now connect keepalive)).1 := by
  have hstep : (step C P st (.tick now connect keepalive)).1 =
      (timers C P now connect keepalive { st with lastRekeyCheck := now }).1 := by
    show (tick C P st now connect keepalive).1 = _
    rw [tick, if_neg (not_lt.mpr hnow)]
  rw [hstep] at hlen ⊢
  have hcheck := timers_lastRekeyCheck C P now connect keepalive { st with lastRekeyCheck := now }
  refine ⟨hcheck, fun j p hp ha => ?_, fun i s hs ha => ?_, fun i s hs ha => ?_⟩
  · obtain ⟨hj, -⟩ := List.getElem?_eq_some_iff.mp hp
    rw [timers_pending] at hp
    rw [hcheck]
    exact expirePending_run P now _ maxPeers j (hlen ▸ hj) p hp ha
  · rw [hcheck]
    exact (timers_sessions_deadlines hexpiry hinterval hclk hleave connect _ hs ha).1
  · rw [hcheck]
    exact (timers_sessions_deadlines hexpiry hinterval hclk hleave connect _ hs ha).2

/-- Without a pass, the time of the last one and the pending handshakes stay. -/
theorem step_noPass {inp : Input Priv} {st : PeerState Priv Key}
    (hinp : ∀ now connect keepalive, inp = .tick now connect keepalive →
      now - st.lastRekeyCheck < 10) :
    (step C P st inp).1.lastRekeyCheck = st.lastRekeyCheck ∧
      ∀ (j : ℕ) (p : PendingHs Priv), (step C P st inp).1.pending[j]? = some p → p.active = true →
        st.pending[j]? = some p := by
  cases inp with
  | tick now connect keepalive =>
    have hskip : step C P st (.tick now connect keepalive) = (st, []) :=
      if_pos (hinp now connect keepalive rfl)
    rw [hskip]
    exact ⟨rfl, fun _ _ hp _ => hp⟩
  | tunRead buffer env =>
    exact ⟨(SameClock.step (by simp) st).lastRekeyCheck, fun j p => pending_of_step (by simp)⟩
  | udpRecv src packet now env =>
    exact ⟨(SameClock.step (by simp) st).lastRekeyCheck, fun j p => pending_of_step (by simp)⟩

theorem OnTime.step {configs : List PeerConfig} {c : PeerState Priv Key × Time}
    (h : OnTime configs P.settings c) (hexpiry : 0 ≤ P.settings.sessionExpiry)
    (hinterval : 0 < P.settings.keepaliveInterval) {x : Input Priv × Time}
    (hclock : x.1.Within c.2 x.2) (hleave : KeepalivesLeave C x.1) :
    OnTime configs P.settings (clockStep C P c x).1 := by
  obtain ⟨st, t⟩ := c
  obtain ⟨inp, t'⟩ := x
  have hflags : FlagsBacked configs (LaneCove.step C P st inp).1 :=
    (flagsBacked_preserved configs C P).step h.flags inp
  have hpos : 0 < t' := h.pos.trans_le hclock.le
  show OnTime configs P.settings ((LaneCove.step C P st inp).1, t')
  by_cases hpass : ∃ now connect keepalive, inp = .tick now connect keepalive ∧
      10 ≤ now - st.lastRekeyCheck
  · obtain ⟨now, connect, keepalive, rfl, hnow⟩ := hpass
    obtain ⟨-, hnow', -, hkeep⟩ := hclock
    obtain ⟨hcheck, hmet⟩ := timers_deadlines hexpiry hinterval (fun j => (hkeep j).1) hleave hnow
      hflags.length_eq
    exact ⟨hflags, hpos, hcheck.trans_le hnow', hmet⟩
  · have hrenews : TableRenews t st.sessions (LaneCove.step C P st inp).1.sessions :=
      step_renews h.pos hclock st
    have hskip : ∀ now connect keepalive, inp = .tick now connect keepalive →
        now - st.lastRekeyCheck < 10 := fun now connect keepalive hinp => lt_of_not_ge fun hnow =>
      hpass ⟨now, connect, keepalive, hinp, hnow⟩
    obtain ⟨hcheck, hpending⟩ := step_noPass (C := C) (P := P) hskip
    refine ⟨hflags, hpos, hcheck.trans_le (h.checked.trans hclock.le), fun j p hp ha => ?_,
      fun i s hs ha => ?_, fun i s hs ha => ?_⟩
    · rw [hcheck]
      exact h.deadlines.pending j p (hpending j p hp ha) ha
    · rw [hcheck]
      exact hrenews.heard h.checked hexpiry h.deadlines.heard hs ha
    · rw [hcheck]
      exact hrenews.sent h.checked hinterval h.deadlines.sent hs ha

omit [Inhabited Key] in
theorem OnTime.initial (configs : List PeerConfig) (settings : Settings) (eph : Option Priv)
    {t₀ : Time} (ht₀ : 0 < t₀) :
    OnTime configs settings ((PeerState.initial configs eph : PeerState Priv Key), t₀) := by
  refine ⟨.initial configs eph, ht₀, ht₀.le, ⟨fun j p hp ha => ?_, ?_, ?_⟩⟩
  · obtain rfl := List.eq_of_mem_replicate (List.mem_of_getElem? hp)
    exact absurd ha (by simp [PendingHs.zero])
  · intro i s hs
    exact absurd hs (by simp [PeerState.initial])
  · intro i s hs
    exact absurd hs (by simp [PeerState.initial])

/-- A timed run keeps the deadlines. -/
theorem deadlines_run (hexpiry : 0 ≤ P.settings.sessionExpiry)
    (hinterval : 0 < P.settings.keepaliveInterval) (configs : List PeerConfig) (eph : Option Priv)
    {t₀ : Time} (ht₀ : 0 < t₀) (xs : List (Input Priv × Time))
    (hclock : Machine.Guarded (clockStep C P)
      (fun c x => x.1.Within c.2 x.2 ∧ KeepalivesLeave C x.1)
      (PeerState.initial configs eph, t₀) xs) :
    Deadlines P.settings
      (Machine.run (step C P) (PeerState.initial configs eph) (xs.map Prod.fst)).1 := by
  have hrun : OnTime configs P.settings
      (Machine.run (clockStep C P) (PeerState.initial configs eph, t₀) xs).1 :=
    Machine.run_invariant_of_guarded (I := fun c _ => OnTime configs P.settings c)
      (fun c tr x h hx => h.step hexpiry hinterval hx.1 hx.2)
      (OnTime.initial configs P.settings eph ht₀) hclock
  exact (Machine.run_clocked (step C P) (PeerState.initial configs eph, t₀) xs).1 ▸
    hrun.deadlines

omit [Inhabited Key] in
/-- What the deadlines say at a time `late` seconds after the last pass. -/
theorem Deadlines.after {settings : Settings} {st : PeerState Priv Key} (h : Deadlines settings st)
    {t late : Time} (hlate : t - st.lastRekeyCheck ≤ late) :
    (∀ p ∈ st.pending, p.active = true → t - p.sentAt < settings.handshakeTimeout + late) ∧
      ∀ s ∈ st.sessions, s.active = true → t - s.expiryRef ≤ settings.sessionExpiry + late ∧
        t - s.lastSent < settings.keepaliveInterval + late := by
  refine ⟨fun p hp ha => ?_, fun s hs ha => ?_⟩
  · obtain ⟨j, hj⟩ := List.mem_iff_getElem?.mp hp
    have := h.pending j p hj ha
    linarith
  · obtain ⟨i, hi⟩ := List.mem_iff_getElem?.mp hs
    have hheard := h.heard i s hi ha
    have hsent := h.sent i s hi ha
    exact ⟨by linarith, by linarith⟩

/-- In every run under a clock that does not go back, in which the keepalives leave: at a time
`late` seconds after the last pass over the timers, no pending handshake is past its timeout by
more than `late`, and no active session has been silent, or without a datagram to its peer, for
more than `late` beyond `session_expiry` and `keepalive_interval`. -/
theorem deadlines_met (hexpiry : 0 ≤ P.settings.sessionExpiry)
    (hinterval : 0 < P.settings.keepaliveInterval) (configs : List PeerConfig) (eph : Option Priv)
    {t₀ : Time} (ht₀ : 0 < t₀) (xs : List (Input Priv × Time))
    (hclock : Machine.Guarded (clockStep C P)
      (fun c x => x.1.Within c.2 x.2 ∧ KeepalivesLeave C x.1)
      (PeerState.initial configs eph, t₀) xs) :
    let st := (Machine.run (step C P) (PeerState.initial configs eph) (xs.map Prod.fst)).1
    ∀ t late, t - st.lastRekeyCheck ≤ late →
      (∀ p ∈ st.pending, p.active = true → t - p.sentAt < P.settings.handshakeTimeout + late) ∧
      ∀ s ∈ st.sessions, s.active = true → t - s.expiryRef ≤ P.settings.sessionExpiry + late ∧
        t - s.lastSent < P.settings.keepaliveInterval + late :=
  fun _ _ hlate => (deadlines_run hexpiry hinterval configs eph ht₀ xs hclock).after hlate

namespace Sample

/-- Peer 2 connects to peer 1 at second 100, and there is a pass over the timers 30 seconds
later. -/
def connectedThenPass : List (Input UInt8 × Time) := [
  (.udpRecv (addr 2) (initiation 2 1 10) 100 (recvEnv 100 20), 100),
  (tickAt 130 11, 130)]

theorem keepalivesLeave_tickAt (now : Time) (eph : UInt8) :
    KeepalivesLeave crypto (tickAt now eph) := by
  intro j s
  simp [forwardToPeer, encryptPacket, sendEnv, crypto]

theorem tickAt_within {t now : Time} (h : t ≤ now) (eph : UInt8) :
    (tickAt now eph).Within t now := by
  show t ≤ now ∧ now ≤ now ∧ (∀ _ : ℕ, now ≤ now ∧ now ≤ now ∧ now ≤ now) ∧
    ∀ _ : ℕ, now ≤ now ∧ now ≤ now
  simp [h]

theorem connectedThenPass_clock : Machine.Guarded (clockStep crypto (params 1))
    (fun c x => x.1.Within c.2 x.2 ∧ KeepalivesLeave crypto x.1)
    (PeerState.initial [peerConfig 2 false] (some 4), 90) connectedThenPass := by
  refine ⟨⟨⟨?_, ⟨le_rfl, le_rfl, le_rfl, le_rfl, le_rfl⟩, le_rfl, le_rfl⟩, trivial⟩,
    ⟨tickAt_within (by decide) 11, keepalivesLeave_tickAt 130 11⟩, trivial⟩
  show (90 : ℤ) ≤ 100
  decide

end Sample

open Sample in
/-- Ten seconds after the pass, the session of peer 2 has sent a keepalive recently enough. -/
theorem deadlines_met_connected :
    let st := (Machine.run (step crypto (params 1)) (PeerState.initial [peerConfig 2 false] (some 4))
      (connectedThenPass.map Prod.fst)).1
    st.sessions.map PeerSession.active = [true] ∧
      ∀ s ∈ st.sessions, s.active = true → 140 - s.lastSent < 25 + 10 := by
  intro st
  refine ⟨by decide +kernel, fun s hs ha => ?_⟩
  exact ((deadlines_met (P := params 1) (by decide) (by decide) [peerConfig 2 false] (some 4)
    (by decide) connectedThenPass connectedThenPass_clock 140 10 (by decide +kernel)).2 s hs ha).2

-- ════════════════════════════════════════════════════════════════════════
-- Nothing expires early
-- ════════════════════════════════════════════════════════════════════════

omit [Inhabited Key] in
/-- The slot that handles a data packet, with the time. -/
def heardIn (P : PeerParams Priv Key) (st : PeerState Priv Key) : Input Priv → Option (ℕ × Time)
  | .udpRecv src packet now _ =>
    if isHandshake P.psk packet then none
    else (findSessionByAddr st.sessions src).map fun j => (j, now)
  | .tick .. | .tunRead .. => none

/-- The slot in which a completed handshake is installed, with the time. -/
def installedIn (C : Crypto Priv Key) (P : PeerParams Priv Key) (st : PeerState Priv Key)
    (inp : Input Priv) : Option (ℕ × Time) :=
  (commitOf C P st inp).bind fun c =>
    (allocSession st.sessions c.pub c.src).map fun r => (r.1, c.clk.handshake)

/-- The slots that hear of their peer in a reaction. -/
def contacts (C : Crypto Priv Key) (P : PeerParams Priv Key) (st : PeerState Priv Key)
    (inp : Input Priv) : List (ℕ × Time) :=
  (heardIn P st inp).toList ++ (installedIn C P st inp).toList

section Contacts

variable {st : PeerState Priv Key} {i : ℕ} {s' : PeerSession Key}

omit [Inhabited Key] in
theorem forwardOn_expiryRef {j : ℕ} {payload : Bytes} {env : SendEnv}
    (hs' : (forwardOn C st j payload env).1.sessions[i]? = some s') :
    ∃ s, st.sessions[i]? = some s ∧ s'.expiryRef = s.expiryRef := by
  unfold forwardOn at hs'
  split at hs'
  · exact ⟨s', hs', rfl⟩
  · next s hs =>
    rcases (SlotTable.updated_set hs _).cases hs' with ⟨rfl, rfl⟩ | ⟨-, hs'⟩
    · refine ⟨s, hs, ?_⟩
      unfold forwardToPeer
      split
      · rfl
      · split <;> rfl
    · exact ⟨s', hs', rfl⟩

omit [Inhabited Key] in
theorem recvData_expiryRef {s : PeerSession Key} (hs : st.sessions[i]? = some s) {packet : Bytes}
    {now : Time} (hpos : 0 < now) {env : RecvEnv Priv}
    (hs' : (recvData C st i s packet now env).1.sessions[i]? = some s') : s'.expiryRef = now := by
  have hset : ∀ recv (s'' : PeerSession Key),
      (st.sessions.set i (afterAccept C s packet now recv))[i]? = some s'' →
        s''.expiryRef = now := by
    intro recv s'' hs''
    obtain rfl := Option.some.inj ((SlotTable.updated_set hs _).self.symm.trans hs'')
    simp [PeerSession.expiryRef, afterAccept, afterDecrypt, hpos]
  unfold recvData at hs'
  split at hs'
  · exact hset s.recvSeq s' hs'
  · unfold relayTo at hs'
    dsimp only at hs'
    split at hs'
    · obtain ⟨s'', hs'', he⟩ := forwardOn_expiryRef hs'
      exact he.trans (hset _ s'' hs'')
    · exact hset _ s' hs'
    · exact hset _ s' hs'

theorem mem_contacts {inp : Input Priv} {τ : Time} (hmem : (i, τ) ∈ contacts C P st inp) :
    (∃ src packet env, inp = .udpRecv src packet τ env ∧ isHandshake P.psk packet = false ∧
      findSessionByAddr st.sessions src = some i) ∨
    ∃ c ss, commitOf C P st inp = some c ∧ allocSession st.sessions c.pub c.src = some (i, ss) ∧
      c.clk.handshake = τ := by
  rcases List.mem_append.mp hmem with hheard | hinst
  · cases inp with
    | tick => exact absurd hheard (by simp [heardIn])
    | tunRead => exact absurd hheard (by simp [heardIn])
    | udpRecv src packet now env =>
      simp only [heardIn, Option.mem_toList, Option.ite_none_left_eq_some, Option.map_eq_some_iff,
        Prod.mk.injEq, Bool.not_eq_true] at hheard
      obtain ⟨hhs, j, hfind, rfl, rfl⟩ := hheard
      exact Or.inl ⟨src, packet, env, rfl, hhs, hfind⟩
  · simp only [installedIn, Option.mem_toList, Option.bind_eq_some_iff, Option.map_eq_some_iff,
      Prod.mk.injEq] at hinst
    obtain ⟨c, hc, ⟨slot, ss⟩, halloc, rfl, rfl⟩ := hinst
    exact Or.inr ⟨c, ss, hc, halloc, rfl⟩

theorem contact_le {inp : Input Priv} {t t' τ : Time} (hclock : inp.Within t t')
    (hmem : (i, τ) ∈ contacts C P st inp) : τ ≤ t' := by
  rcases mem_contacts hmem with ⟨src, packet, env, rfl, -⟩ | ⟨c, ss, hc, -, rfl⟩
  · exact hclock.2.2.1.trans hclock.2.2.2
  · have hinp := clk_of_commitOf hc
    cases inp with
    | udpRecv src packet now env => exact Option.some.inj hinp ▸ hclock.2.1.handshake_le
    | tick => exact absurd hinp (by simp [Input.clk])
    | tunRead => exact absurd hinp (by simp [Input.clk])

/-- The time of a contact is written to the session. -/
theorem contact_expiryRef {inp : Input Priv} {t t' τ : Time} (hpos : 0 < t)
    (hclock : inp.Within t t') (hmem : (i, τ) ∈ contacts C P st inp)
    (hs' : (step C P st inp).1.sessions[i]? = some s') : s'.expiryRef = τ := by
  rcases mem_contacts hmem with ⟨src, packet, env, rfl, hhs, hfind⟩ | ⟨c, ss, hc, halloc, rfl⟩
  · obtain ⟨s, hs, -⟩ := findSessionByAddr_eq_some hfind
    simp only [step, udpRecv, hhs, Bool.false_eq_true, if_false, hfind, hs] at hs'
    exact recvData_expiryRef hs (hpos.trans_le hclock.1) hs'
  · rcases step_cases C P st inp with ⟨hnone, -⟩ | ⟨c', pre, hc', -, hss, -⟩
    · exact absurd hc (by simp [hnone])
    · obtain rfl := Option.some.inj (hc.symm.trans hc')
      rcases installTable_cases P.settings c st.sessions with ⟨hfull, -⟩ | ⟨slot, s₀, hslot, -, hupd⟩
      · exact absurd halloc (by simp [hfull])
      · rw [halloc, Option.map_some] at hslot
        obtain rfl := Option.some.inj hslot
        rw [hss] at hs'
        obtain rfl := Option.some.inj (hupd.self.symm.trans hs')
        rfl

end Contacts

/-- In every run under a clock that does not go back: if a pass over the timers at `now` ends the
session in slot `i`, then the last data packet from its address, and its last handshake, were
more than `session_expiry` before `now`. -/
theorem expired_silent (configs : List PeerConfig) (eph : Option Priv) {t₀ : Time} (ht₀ : 0 < t₀)
    (xs : List (Input Priv × Time))
    (hclock : Machine.Guarded (clockStep C P) (fun c x => x.1.Within c.2 x.2)
      (PeerState.initial configs eph, t₀) xs) :
    let r := Machine.run (Machine.observe (clockStep C P) fun c x => contacts C P c.1 x.1)
      (PeerState.initial configs eph, t₀) xs
    ∀ now connect keepalive i s s', r.1.1.sessions[i]? = some s → s.active = true →
      (step C P r.1.1 (.tick now connect keepalive)).1.sessions[i]? = some s' →
      s'.active = false → ∀ τ, (i, τ) ∈ r.2 → τ + P.settings.sessionExpiry < now := by
  intro r now connect keepalive i s s' hs ha hs' ha' τ hτ
  have hrun := Machine.observe_invariant_of_guarded (clockStep C P)
    (fun c x => contacts C P c.1 x.1)
    (I := fun c _ log => 0 < c.2 ∧ ∀ r ∈ log, r.2 ≤ c.2 ∧ ∀ s, c.1.sessions[r.1]? = some s →
      s.active = true → r.2 ≤ s.expiryRef)
    (s := (PeerState.initial configs eph, t₀)) ?_ ⟨ht₀, by simp⟩ hclock
  · rw [← Machine.run_observe_fst _ (fun c x => contacts C P c.1 x.1)] at hrun
    have hle := (hrun.2 (i, τ) hτ).2 s hs ha
    -- only an expired session is ended
    have hexp : s.expired P.settings now = true := by
      by_contra hexp
      have hlive : ∀ now' connect' keepalive', Input.tick now connect keepalive =
          .tick now' connect' keepalive' → s.expired P.settings now' = false := by
        rintro now' _ _ hinp
        obtain ⟨rfl, -⟩ := Input.tick.inj hinp
        exact Bool.not_eq_true _ ▸ hexp
      obtain ⟨s'', hs'', -, ha''⟩ := step_stays (C := C) (P := P) rfl hs ha hlive
      obtain rfl := Option.some.inj (hs'.symm.trans hs'')
      exact absurd ha'' (by simp [ha'])
    simp only [PeerSession.expired, ha, Bool.true_and, Bool.not_eq_true', decide_eq_false_iff_not,
      not_le] at hexp
    linarith
  · -- what a session heard before stays, and what it hears now is written
    rintro ⟨st, t⟩ tr log ⟨inp, t'⟩ ⟨hpos, hlog⟩ hin
    refine ⟨hpos.trans_le hin.le, fun r hr => ?_⟩
    obtain ⟨j, τ'⟩ := r
    rcases List.mem_append.mp hr with hr | hr
    · obtain ⟨hpast, hold⟩ := hlog _ hr
      refine ⟨hpast.trans hin.le, fun s' hs' ha' => ?_⟩
      rcases step_renews hpos hin st j s' hs' ha' with ⟨s, hs, hrenew⟩ | ⟨hnew, -⟩
      · rcases hrenew.heard with he | hnew
        · exact he ▸ hold s hs (hrenew.active ha')
        · exact hpast.trans hnew
      · exact hpast.trans hnew
    · exact ⟨contact_le hin hr, fun s' hs' _ => (contact_expiryRef hpos hin hr hs').ge⟩

/-- The run with the contacts of its slots. -/
def Sample.contactRun : (PeerState UInt8 Sample.SKey × Time) × List (ℕ × Time) :=
  Machine.run (Machine.observe (clockStep Sample.crypto (Sample.params 1))
    fun c x => contacts Sample.crypto (Sample.params 1) c.1 x.1)
    (PeerState.initial [Sample.peerConfig 2 false] (some 4), 90) Sample.connectedThenPass

open Sample in
/-- The session expires at second 700, six hundred seconds after its handshake. -/
theorem expired_silent_connected :
    contactRun.2 = [(0, 100)] ∧ ∀ τ, (0, τ) ∈ contactRun.2 → τ + 540 < 700 := by
  let connect : ℕ → ConnectEnv UInt8 := fun _ => ⟨none, none, true, 700, 700⟩
  have hbefore : contactRun.1.1.sessions[0]?.map PeerSession.active = some true := by
    decide +kernel
  have hafter : (step crypto (params 1) contactRun.1.1
      (.tick 700 connect fun _ => sendEnv 700)).1.sessions[0]?.map PeerSession.active =
        some false := by
    decide +kernel
  obtain ⟨s, hs, ha⟩ := Option.map_eq_some_iff.mp hbefore
  obtain ⟨s', hs', ha'⟩ := Option.map_eq_some_iff.mp hafter
  obtain ⟨⟨hconnect, -⟩, ⟨hpass, -⟩, -⟩ := connectedThenPass_clock
  unfold contactRun at hs hs'
  exact ⟨by decide +kernel, expired_silent (C := crypto) (P := params 1) [peerConfig 2 false]
    (some 4) (by decide) connectedThenPass ⟨hconnect, hpass, trivial⟩ 700 connect _ 0 s s' hs ha
    hs' ha'⟩

end LaneCove
