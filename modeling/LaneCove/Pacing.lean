import LaneCove.Timing
import LaneCove.Outbound

/-!
# How often handshakes are started

For each outbound peer the first timer loop resolves the endpoint, which blocks, and sends an
initiation. It does so only if the last attempt is `reconnect_interval` ago, and every attempt is
recorded, also one for which there was no slot or whose datagram could not be sent.

## Main definitions

- `Attempt`, `attemptsIn` — the handshakes a pass over the timers starts

## Main results

- `connectStep_lastAttempt` — an attempt is recorded in its own entry
- `attempts_apart` — attempts for one peer are `reconnect_interval` apart
-/

namespace LaneCove

variable {Priv Key : Type} {C : Crypto Priv Key} {P : PeerParams Priv Key}

/-- A turn of the first timer loop that tries to start a handshake: the entry, the time of the
pass and the time that is recorded. -/
structure Attempt where
  entry : ℕ
  now : Time
  clk : Time
deriving DecidableEq

/-- The attempt in a turn of the loop. -/
def attemptOf (P : PeerParams Priv Key) (now : Time) (env : ℕ → ConnectEnv Priv)
    (st : PeerState Priv Key) (i : ℕ) : List Attempt :=
  if due P st now i then [⟨i, now, (env i).clk⟩] else []

/-- The attempts of a reaction. -/
def attemptsIn (C : Crypto Priv Key) (P : PeerParams Priv Key) (st : PeerState Priv Key) :
    Input Priv → List Attempt
  | .tick now connect _ =>
    if now - st.lastRekeyCheck < 10 then []
    else (Machine.run (Machine.observe (connectStep C P now connect) (attemptOf P now connect))
      { st with lastRekeyCheck := now } (List.range st.configs.length)).2
  | .tunRead .. | .udpRecv .. => []

/-- No two attempts for one entry are closer than `interval`. -/
def Apart (interval : ℤ) (log : List Attempt) : Prop :=
  log.Pairwise fun a b => a.entry = b.entry → a.clk + interval ≤ b.now

-- ════════════════════════════════════════════════════════════════════════
-- One turn of the loop
-- ════════════════════════════════════════════════════════════════════════

theorem connectStep_of_not_due {now : Time} {env : ℕ → ConnectEnv Priv} {st : PeerState Priv Key}
    {i : ℕ} (hdue : due P st now i = false) : connectStep C P now env st i = (st, []) := by
  unfold connectStep
  dsimp only
  exact if_neg (by rw [Bool.not_eq_true]; exact hdue)

theorem lt_of_due {now : Time} {st : PeerState Priv Key} {i : ℕ} (hdue : due P st now i = true) :
    i < st.configs.length := by
  by_contra hlt
  have hzero : st.config i = PeerConfig.zero :=
    List.getD_eq_default _ _ (Nat.le_of_not_lt hlt)
  exact absurd hdue (by simp [due, hzero, PeerConfig.zero])

/-- An attempt is recorded in its own entry, and sends at most one initiation. -/
theorem connectStep_lastAttempt {now : Time} (env : ℕ → ConnectEnv Priv) {st : PeerState Priv Key}
    {i : ℕ} (hdue : due P st now i = true) :
    (∀ k, ((connectStep C P now env st i).1.config k).lastAttempt =
      if k = i then (env i).clk else (st.config k).lastAttempt) ∧
    (initiations (connectStep C P now env st i).2).length ≤ 1 := by
  have hi := lt_of_due hdue
  have hrecorded : ∀ (st₁ : PeerState Priv Key) (f : PeerConfig → PeerConfig),
      st₁.configs = (st.configs.modify i f).modify i (fun cfg =>
        { cfg with lastAttempt := (env i).clk }) →
      ∀ k, (st₁.config k).lastAttempt =
        if k = i then (env i).clk else (st.config k).lastAttempt := by
    intro st₁ f hcfg k
    rw [PeerState.config, hcfg, List.modify_modify_eq, PeerState.config,
      List.getD_eq_getElem?_getD, List.getElem?_modify, List.getD_eq_getElem?_getD]
    by_cases hk : i = k
    · subst hk
      simp [List.getElem?_eq_getElem hi]
    · simp [hk, Ne.symm hk]
  have hcond : ((st.config i).hasEndpoint && needsHandshake P st (st.config i) now &&
    decide (P.settings.reconnectInterval ≤ now - (st.config i).lastAttempt)) = true := hdue
  unfold connectStep
  dsimp only
  rw [if_pos hcond]
  generalize hst₁ : ({ st with configs := _, sessions := _ } : PeerState Priv Key) = st₁
  have hcfg : ∃ f, st₁.configs = st.configs.modify i f := by rw [← hst₁]; exact ⟨_, rfl⟩
  obtain ⟨f, hcfg⟩ := hcfg
  rcases initiateOutboundHandshake_cases C P st₁ i (env i) with hinit | ⟨_, _, _, -, -, hinit⟩ <;>
    rw [hinit] <;> refine ⟨hrecorded _ f (by dsimp only; rw [hcfg]), ?_⟩ <;>
    simp [initiations, Event.initiation]

-- ════════════════════════════════════════════════════════════════════════
-- Passes and runs
-- ════════════════════════════════════════════════════════════════════════

/-- The attempts so far are apart and recorded, and each initiation belongs to one. -/
structure Paced (interval : ℤ) (st : PeerState Priv Key) (tr : List (Event Key))
    (log : List Attempt) : Prop where
  apart : Apart interval log
  recorded : ∀ a ∈ log, a.clk ≤ (st.config a.entry).lastAttempt
  sent : (initiations tr).length ≤ log.length

theorem Paced.congr {interval : ℤ} {st st' : PeerState Priv Key} {tr : List (Event Key)}
    {log : List Attempt} (h : Paced interval st tr log) (hcfg : st'.configs = st.configs)
    {es : List (Event Key)} (hes : initiations es = []) :
    Paced interval st' (tr ++ es) log := by
  refine ⟨h.apart, fun a ha => ?_, ?_⟩
  · rw [PeerState.config, hcfg]
    exact h.recorded a ha
  · rw [initiations_append, hes, List.append_nil]
    exact h.sent

/-- A turn of the first timer loop. -/
theorem Paced.connectStep {st : PeerState Priv Key} {tr : List (Event Key)} {log : List Attempt}
    (h : Paced P.settings.reconnectInterval st tr log) {now : Time} {env : ℕ → ConnectEnv Priv}
    (hpast : ∀ a ∈ log, a.clk ≤ (env a.entry).clk) (i : ℕ) :
    Paced P.settings.reconnectInterval (connectStep C P now env st i).1
      (tr ++ (connectStep C P now env st i).2) (log ++ attemptOf P now env st i) := by
  cases hdue : due P st now i with
  | false =>
    rw [connectStep_of_not_due hdue, attemptOf, hdue]
    simpa using h
  | true =>
    obtain ⟨hlast, hinit⟩ := connectStep_lastAttempt (C := C) env hdue
    have hready : P.settings.reconnectInterval ≤ now - (st.config i).lastAttempt := by
      simp only [due, Bool.and_eq_true, decide_eq_true_eq] at hdue
      exact hdue.2
    rw [attemptOf, hdue, if_pos rfl]
    refine ⟨List.pairwise_append.mpr ⟨h.apart, List.pairwise_singleton _ _, ?_⟩, ?_, ?_⟩
    · rintro a ha b hb hentry
      obtain rfl := List.mem_singleton.mp hb
      have hrec := h.recorded a ha
      rw [hentry] at hrec
      dsimp only at hrec ⊢
      linarith
    · intro a ha
      rw [hlast]
      split
      · next hentry =>
        rcases List.mem_append.mp ha with ha | ha
        · exact hentry ▸ hpast a ha
        · obtain rfl := List.mem_singleton.mp ha
          exact le_rfl
      · next hentry =>
        rcases List.mem_append.mp ha with ha | ha
        · exact h.recorded a ha
        · obtain rfl := List.mem_singleton.mp ha
          exact absurd rfl hentry
    · rw [initiations_append, List.length_append, List.length_append, List.length_singleton]
      exact Nat.add_le_add h.sent hinit

theorem mem_attempts {now : Time} {env : ℕ → ConnectEnv Priv} {st : PeerState Priv Key}
    {is : List ℕ} {a : Attempt} (ha : a ∈ (Machine.run (Machine.observe
      (LaneCove.connectStep C P now env) (attemptOf P now env)) st is).2) :
    a.clk = (env a.entry).clk := by
  refine Machine.forall_mem_run (p := fun a => a.clk = (env a.entry).clk)
    (fun st i a ha => ?_) st is a ha
  unfold Machine.observe attemptOf at ha
  dsimp only at ha
  split at ha
  · obtain rfl := List.mem_singleton.mp ha
    rfl
  · exact absurd ha (by simp)

/-- The loops after the first one send no initiations. -/
theorem initiations_timers (C : Crypto Priv Key) (P : PeerParams Priv Key) (now : Time)
    (connect : ℕ → ConnectEnv Priv) (keepalive : ℕ → SendEnv) (st : PeerState Priv Key) :
    ∃ es, (timers C P now connect keepalive st).2 = (Machine.run (connectStep C P now connect) st
      (List.range st.configs.length)).2 ++ es ∧ initiations es = [] := by
  obtain ⟨st', hes⟩ := timers_events C P now connect keepalive st
  refine ⟨_, hes, initiations_eq_nil (Machine.forall_mem_run (fun st j e he => ?_) _ _)⟩
  obtain ⟨s, packet, rfl, -⟩ := mem_forwardOn (mem_keepaliveStep he)
  rfl

variable [Inhabited Key]

/-- **Step**: the attempts of a reaction come no sooner than they may. -/
theorem Paced.step {st : PeerState Priv Key} {tr : List (Event Key)} {log : List Attempt}
    (h : Paced P.settings.reconnectInterval st tr log) {inp : Input Priv} {t t' : Time}
    (hclock : inp.Within t t') (hpast : ∀ a ∈ log, a.clk ≤ t) :
    Paced P.settings.reconnectInterval (step C P st inp).1 (tr ++ (step C P st inp).2)
      (log ++ attemptsIn C P st inp) ∧ ∀ a ∈ attemptsIn C P st inp, a.clk ≤ t' := by
  have hquiet : (∀ now connect keepalive, inp ≠ .tick now connect keepalive) →
      initiations (LaneCove.step C P st inp).2 = [] := by
    intro hinp
    refine initiations_eq_nil fun e he => ?_
    cases e with
    | sentInit dst packet =>
      obtain ⟨now, connect, keepalive, heq⟩ := sentInit_cause he
      exact absurd heq (hinp now connect keepalive)
    | _ => rfl
  cases inp with
  | tunRead buffer env =>
    rw [attemptsIn, List.append_nil]
    exact ⟨h.congr (SameClock.step (by simp) st).configs (hquiet (by simp)), by simp⟩
  | udpRecv src packet now env =>
    rw [attemptsIn, List.append_nil]
    exact ⟨h.congr (SameClock.step (by simp) st).configs (hquiet (by simp)), by simp⟩
  | tick now connect keepalive =>
    obtain ⟨hnow, -, hconnect, -⟩ := hclock
    rw [attemptsIn]
    split
    · next hskip =>
      have hstep : LaneCove.step C P st (.tick now connect keepalive) = (st, []) := if_pos hskip
      rw [hstep]
      simpa using h
    · next hpass =>
      have hstep : LaneCove.step C P st (.tick now connect keepalive) =
        timers C P now connect keepalive { st with lastRekeyCheck := now } := if_neg hpass
      rw [hstep]
      have hclk : ∀ a ∈ log, a.clk ≤ (connect a.entry).clk := fun a ha =>
        (hpast a ha).trans (hnow.trans (hconnect a.entry).1)
      -- the first loop, turn by turn
      obtain ⟨hloop, -⟩ := Machine.observe_invariant_append (LaneCove.connectStep C P now connect)
        (attemptOf P now connect)
        (I := fun st tr log => Paced P.settings.reconnectInterval st tr log ∧
          ∀ a ∈ log, a.clk ≤ (connect a.entry).clk)
        (s := { st with lastRekeyCheck := now })
        (fun st tr log i h _ => ⟨h.1.connectStep h.2 i, fun a ha => by
          rcases List.mem_append.mp ha with ha | ha
          · exact h.2 a ha
          · unfold attemptOf at ha
            split at ha
            · obtain rfl := List.mem_singleton.mp ha
              exact le_rfl
            · exact absurd ha (by simp)⟩)
        ⟨⟨h.apart, h.recorded, h.sent⟩, hclk⟩
        (Machine.guarded_true _ (List.range st.configs.length))
      obtain ⟨es, hes, hnone⟩ := initiations_timers C P now connect keepalive
        { st with lastRekeyCheck := now }
      refine ⟨?_, fun a ha => ?_⟩
      · rw [hes, ← List.append_assoc]
        exact hloop.congr (SameClock.timers C P now connect keepalive _).configs hnone
      · rw [mem_attempts ha]
        exact (hconnect a.entry).2.1.trans (hconnect a.entry).2.2

/-- In every run under a clock that does not go back: two attempts to start a handshake for the
same entry of the configuration are at least `reconnect_interval` apart, from what the first one
recorded to the pass of the second; and there are no more initiations than attempts. -/
theorem attempts_apart (configs : List PeerConfig) (eph : Option Priv) (t₀ : Time)
    (xs : List (Input Priv × Time))
    (hclock : Machine.Guarded (clockStep C P) (fun c x => x.1.Within c.2 x.2)
      (PeerState.initial configs eph, t₀) xs) :
    let log := (Machine.run (Machine.observe (clockStep C P) fun c x => attemptsIn C P c.1 x.1)
      (PeerState.initial configs eph, t₀) xs).2
    (log.Pairwise fun a b => a.entry = b.entry → a.clk + P.settings.reconnectInterval ≤ b.now) ∧
      (initiations (Machine.run (step C P) (PeerState.initial configs eph)
        (xs.map Prod.fst)).2).length ≤ log.length := by
  intro log
  have hrun := Machine.observe_invariant_of_guarded (clockStep C P)
    (fun c x => attemptsIn C P c.1 x.1)
    (I := fun c tr log => Paced P.settings.reconnectInterval c.1 tr log ∧ ∀ a ∈ log, a.clk ≤ c.2)
    (s := (PeerState.initial configs eph, t₀))
    (fun c tr log x h hin => by
      obtain ⟨hpaced, hnew⟩ := h.1.step (C := C) hin h.2
      refine ⟨hpaced, fun a ha => ?_⟩
      rcases List.mem_append.mp ha with ha | ha
      · exact (h.2 a ha).trans hin.le
      · exact hnew a ha)
    ⟨⟨List.Pairwise.nil, by simp, le_rfl⟩, by simp⟩ hclock
  have htrace : (Machine.run (clockStep C P) (PeerState.initial configs eph, t₀) xs).2 =
      (Machine.run (step C P) (PeerState.initial configs eph) (xs.map Prod.fst)).2 :=
    (Machine.run_clocked (step C P) _ xs).2
  exact ⟨hrun.1.apart, htrace ▸ hrun.1.sent⟩

namespace Sample

/-- Three passes over the timers of peer 2, which gets no answer from peer 1. -/
def unanswered : List (Input UInt8 × Time) :=
  [(tickAt 100 10, 100), (tickAt 115 11, 115), (tickAt 140 12, 140)]

theorem unanswered_clock : Machine.Guarded (clockStep crypto (params 2))
    (fun c x => x.1.Within c.2 x.2) (PeerState.initial [peerConfig 1 true] (some 5), 90)
    unanswered := by
  exact ⟨tickAt_within (by decide) 10, tickAt_within (by decide) 11, tickAt_within (by decide) 12,
    trivial⟩

end Sample

open Sample in
/-- The second pass comes too early for another attempt. -/
theorem attempts_apart_unanswered :
    let log := (Machine.run (Machine.observe (clockStep crypto (params 2))
      fun c x => attemptsIn crypto (params 2) c.1 x.1)
      (PeerState.initial [peerConfig 1 true] (some 5), 90) unanswered).2
    log.map Attempt.now = [100, 140] ∧
      log.Pairwise fun a b => a.entry = b.entry → a.clk + 30 ≤ b.now :=
  ⟨by decide +kernel, (attempts_apart (C := crypto) (P := params 2) [peerConfig 1 true] (some 5) 90
    unanswered unanswered_clock).1⟩

-- ════════════════════════════════════════════════════════════════════════
-- No peer is forgotten
-- ════════════════════════════════════════════════════════════════════════

end LaneCove
