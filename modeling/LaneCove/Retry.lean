import Mathlib.Data.List.Count
import LaneCove.Outstanding

/-!
# Starting handshakes again

A pass over the timers first starts a handshake for every outbound peer that needs
one and whose last attempt is `reconnect_interval` ago, and then gives up those
that are pending for `handshake_timeout`. Only a session marks that a handshake is
already under way; for a peer without one the two intervals alone keep a second
handshake from being started beside the first, and nothing relates them.

## Main definitions

- `due` — the first timer loop starts a handshake for the entry
- `OnePerPeer` — no two pending handshakes with one peer
- `FindsSlots` — `initiate_outbound_handshake` finds a free slot at every turn
- `RetryOk` — peers that are due have only handshakes that are timed out, and there
  are slots for all of them

## Main results

- `ConnectScan.step` — what a turn of the first timer loop does
- `one_pending_per_peer` — under `RetryOk` there is one handshake for each peer
-/

namespace LaneCove

variable {Priv Key : Type}

/-- The condition of the first timer loop for entry `i`. -/
def due (P : PeerParams Priv Key) (st : PeerState Priv Key) (now : Time) (i : ℕ) : Bool :=
  (st.config i).hasEndpoint && needsHandshake P st (st.config i) now &&
    decide (P.settings.reconnectInterval ≤ now - (st.config i).lastAttempt)

/-- At most one active entry of `pending_hs` for each entry of `peer_configs`. -/
def OnePerPeer (st : PeerState Priv Key) : Prop :=
  SlotTable.Unique PendingHs.active PendingHs.cfgIdx st.pending

/-- In a pass over the timers, `initiate_outbound_handshake` finds a free slot whenever
it is called. -/
def FindsSlots (C : Crypto Priv Key) (P : PeerParams Priv Key) (st : PeerState Priv Key) :
    Input Priv → Prop
  | .tick now connect _ => 10 ≤ now - st.lastRekeyCheck → ∀ i < st.configs.length,
      let st' := (Machine.run (connectStep C P now connect) { st with lastRekeyCheck := now }
        (List.range i)).1
      due P st' now i = true → (st'.pending.findIdx? fun p => !p.active).isSome = true
  | .tunRead .. | .udpRecv .. => True

/-- At a pass over the timers, the pending handshakes of the peers that are due have
timed out, and the table has a slot for each of these peers. -/
def RetryOk (P : PeerParams Priv Key) (st : PeerState Priv Key) : Input Priv → Prop
  | .tick now _ _ => 10 ≤ now - st.lastRekeyCheck →
      (∀ p ∈ st.pending, p.active = true → due P st now p.cfgIdx = true →
        P.settings.handshakeTimeout ≤ now - p.sentAt) ∧
      st.pending.countP PendingHs.active + (List.range st.configs.length).countP (due P st now) ≤
        maxPeers
  | .tunRead .. | .udpRecv .. => True

-- ════════════════════════════════════════════════════════════════════════
-- The first timer loop
-- ════════════════════════════════════════════════════════════════════════

theorem findSessionByPub_modify {ss : List (PeerSession Key)} (slot : ℕ)
    {f : PeerSession Key → PeerSession Key} (hactive : ∀ s, (f s).active = s.active)
    (hpub : ∀ s, (f s).staticPub = s.staticPub) (pub : Bytes) :
    findSessionByPub (ss.modify slot f) pub = findSessionByPub ss pub := by
  let test (s : PeerSession Key) : Bool := s.active && s.staticPub = pub
  have hmap : (ss.modify slot f).map test = ss.map test := by
    apply List.ext_getElem?
    intro k
    rw [List.getElem?_map, List.getElem?_map, List.getElem?_modify]
    cases ss[k]? with
    | none => rfl
    | some s =>
      by_cases hk : slot = k
      · simp [hk, test, hactive, hpub]
      · simp [hk]
  have hfind := congrArg (List.findIdx? id) hmap
  rwa [List.findIdx?_map, List.findIdx?_map] at hfind

/-- The flag of one peer's session is not looked at for another peer. -/
theorem setRekeying_lookup (ss : List (PeerSession Key)) {pub pub' : Bytes} (hne : pub' ≠ pub)
    (flag : Bool) :
    ((findSessionByPub (setRekeying ss pub flag) pub').bind fun i =>
      (setRekeying ss pub flag)[i]?) = (findSessionByPub ss pub').bind fun i => ss[i]? := by
  unfold setRekeying
  split
  · rfl
  · next slot hslot =>
    rw [findSessionByPub_modify (f := fun s => { s with rekeying := flag }) slot (fun _ => rfl)
      fun _ => rfl]
    cases hfind : findSessionByPub ss pub' with
    | none => rfl
    | some i =>
      obtain ⟨s, hs, -, hpub⟩ := findSessionByPub_eq_some hslot
      obtain ⟨s', hs', -, hpub'⟩ := findSessionByPub_eq_some hfind
      have hi : slot ≠ i := by
        rintro rfl
        obtain rfl := Option.some.inj (hs.symm.trans hs')
        exact hne (hpub'.symm.trans hpub)
      simp [List.getElem?_modify, hi]

/-- What a turn of the loop does to entry `i` that is due: the flag of its session is
set, and possibly cleared again; its own entry is rewritten; and a free slot may be
taken for it. -/
theorem connectStep_cases (C : Crypto Priv Key) (P : PeerParams Priv Key) (now : Time)
    (env : ℕ → ConnectEnv Priv) (st : PeerState Priv Key) (i : ℕ) :
    let st' := (connectStep C P now env st i).1
    due P st now i = false ∧ st' = st ∨
    due P st now i = true ∧ (∃ f, st'.configs = st.configs.modify i f) ∧
      (st'.sessions = setRekeying st.sessions (st.config i).pub true ∨
        st'.sessions =
          setRekeying (setRekeying st.sessions (st.config i).pub true) (st.config i).pub false) ∧
      (st'.pending = st.pending ∨
        ∃ (slot : ℕ) (p : PendingHs Priv), st.pending.findIdx? (fun p => !p.active) = some slot ∧
          p.active = true ∧ p.cfgIdx = i ∧ st'.pending = st.pending.set slot p) := by
  intro st'
  cases hdue : due P st now i with
  | false =>
    have hcond : ¬ ((st.config i).hasEndpoint && needsHandshake P st (st.config i) now &&
        decide (P.settings.reconnectInterval ≤ now - (st.config i).lastAttempt)) = true := by
      rw [Bool.not_eq_true]
      exact hdue
    refine Or.inl ⟨rfl, ?_⟩
    simp only [st', connectStep]
    rw [if_neg hcond]
  | true =>
    have hcond : ((st.config i).hasEndpoint && needsHandshake P st (st.config i) now &&
      decide (P.settings.reconnectInterval ≤ now - (st.config i).lastAttempt)) = true := hdue
    refine Or.inr ⟨rfl, ?_⟩
    simp only [st', connectStep]
    rw [if_pos hcond]
    generalize hst₁ : ({ st with configs := _, sessions := _ } : PeerState Priv Key) = st₁
    have hcfg : ∃ f, st₁.configs = st.configs.modify i f := by rw [← hst₁]; exact ⟨_, rfl⟩
    have hsessions : st₁.sessions = setRekeying st.sessions (st.config i).pub true := by rw [← hst₁]
    have hpending : st₁.pending = st.pending := by rw [← hst₁]
    obtain ⟨f, hcfg⟩ := hcfg
    let attempt (cfg : PeerConfig) : PeerConfig := { cfg with lastAttempt := (env i).clk }
    have hcfg' : st₁.configs.modify i attempt = st.configs.modify i (attempt ∘ f) := by
      rw [hcfg, List.modify_modify_eq]
    rcases initiateOutboundHandshake_cases C P st₁ i (env i) with
      hinit | ⟨slot, packet, hsState, hslot, -, hinit⟩ <;> rw [hinit]
    · refine ⟨⟨_, hcfg'⟩, Or.inr ?_, Or.inl hpending⟩
      dsimp only
      rw [hsessions]
    · let p : PendingHs Priv := {
        active := true, cfgIdx := i, sentAt := (env i).sentClk, hsState,
        serverAddr := (st₁.config i).endpoint }
      refine ⟨⟨_, hcfg'⟩, Or.inl hsessions, Or.inr ⟨slot, p, hpending ▸ hslot, rfl, rfl, ?_⟩⟩
      dsimp only
      rw [hpending]

/-- A turn leaves the other entries of `peer_configs` alone. -/
theorem connectStep_config_of_ne (C : Crypto Priv Key) (P : PeerParams Priv Key) (now : Time)
    (env : ℕ → ConnectEnv Priv) (st : PeerState Priv Key) {i k : ℕ} (hk : k ≠ i) :
    (connectStep C P now env st i).1.config k = st.config k := by
  rcases connectStep_cases C P now env st i with ⟨-, hst⟩ | ⟨-, ⟨f, hcfg⟩, -⟩
  · rw [hst]
  · rw [PeerState.config, hcfg, List.getD_eq_getElem?_getD, List.getElem?_modify]
    simp [hk.symm, PeerState.config]

/-- A turn for another peer does not change whether entry `k` is due. -/
theorem due_connectStep (C : Crypto Priv Key) (P : PeerParams Priv Key) (now : Time)
    (env : ℕ → ConnectEnv Priv) (st : PeerState Priv Key) {i k : ℕ} (hk : k ≠ i)
    (hpub : (st.config k).pub ≠ (st.config i).pub) :
    due P (connectStep C P now env st i).1 now k = due P st now k := by
  have hconfig := connectStep_config_of_ne C P now env st hk
  rcases connectStep_cases C P now env st i with ⟨-, hst⟩ | ⟨-, -, hss, -⟩
  · rw [hst]
  · generalize (connectStep C P now env st i).1 = st' at *
    have hlookup : ((findSessionByPub st'.sessions (st.config k).pub).bind fun i =>
        st'.sessions[i]?) =
        (findSessionByPub st.sessions (st.config k).pub).bind fun i => st.sessions[i]? := by
      rcases hss with hss | hss <;> rw [hss]
      · exact setRekeying_lookup st.sessions hpub true
      · rw [setRekeying_lookup _ hpub false]
        exact setRekeying_lookup st.sessions hpub true
    simp only [due, needsHandshake, hconfig, hlookup]

variable {configs : List PeerConfig}

theorem configPub_inj (hpubs : (configs.map PeerConfig.pub).Nodup) {i k : ℕ}
    (hi : i < configs.length)
    (hk : k < configs.length) (h : configPub configs i = configPub configs k) : i = k := by
  refine (List.getElem?_inj (by simpa using hi) hpubs).mp ?_
  simpa [configPub, List.getD_eq_getElem?_getD, hi, hk] using h

/-- The state of the first timer loop before turn `i`, when it has started from `st₀`:
the handshakes added are for entries before `i` that were due, one for each. -/
structure ConnectScan (P : PeerParams Priv Key) (configs : List PeerConfig) (now : Time)
    (st₀ : PeerState Priv Key) (i : ℕ) (st : PeerState Priv Key) : Prop where
  setup : SetupOk configs st
  due_eq : ∀ k, i ≤ k → k < configs.length → due P st now k = due P st₀ now k
  added : ∀ (j : ℕ) (p : PendingHs Priv), st.pending[j]? = some p → p.active = true →
    st₀.pending[j]? = some p ∨ (p.cfgIdx < i ∧ due P st₀ now p.cfgIdx = true)
  once : ∀ (j k : ℕ) (p q : PendingHs Priv), st.pending[j]? = some p → st.pending[k]? = some q →
    p.active = true → q.active = true → p.cfgIdx = q.cfgIdx → j ≠ k →
    st₀.pending[j]? = some p ∨ st₀.pending[k]? = some q
  length_eq : st.pending.length = st₀.pending.length
  count_le : st.pending.countP PendingHs.active ≤
    st₀.pending.countP PendingHs.active + (List.range i).countP (due P st₀ now)

theorem ConnectScan.initial (P : PeerParams Priv Key) (now : Time) {st₀ : PeerState Priv Key}
    (h : SetupOk configs st₀) : ConnectScan P configs now st₀ 0 st₀ where
  setup := h
  due_eq _ _ _ := rfl
  added _ _ hp _ := Or.inl hp
  once _ _ _ _ hp _ _ _ _ _ := Or.inl hp
  length_eq := rfl
  count_le := Nat.le_add_right _ _

theorem countP_range_succ (f : ℕ → Bool) (i : ℕ) :
    (List.range (i + 1)).countP f = (List.range i).countP f + if f i then 1 else 0 := by
  rw [List.range_succ, List.countP_append, List.countP_singleton]

/-- **Step**: one turn of the loop. -/
theorem ConnectScan.step {P : PeerParams Priv Key} {now : Time} {st₀ st : PeerState Priv Key} {i : ℕ}
    (h : ConnectScan P configs now st₀ i st) (hpubs : (configs.map PeerConfig.pub).Nodup)
    (hi : i < configs.length) (C : Crypto Priv Key) (env : ℕ → ConnectEnv Priv) :
    ConnectScan P configs now st₀ (i + 1) (connectStep C P now env st i).1 := by
  have hsetup := h.setup.connectStep C P now env hi
  have hdue_eq : ∀ k, i + 1 ≤ k → k < configs.length →
      due P (connectStep C P now env st i).1 now k = due P st₀ now k := by
    intro k hik hk
    have hpub : (st.config k).pub ≠ (st.config i).pub := by
      rw [h.setup.config_pub, h.setup.config_pub]
      exact fun heq => absurd (configPub_inj hpubs hk hi heq) (by omega)
    rw [due_connectStep C P now env st (by omega) hpub]
    exact h.due_eq k (by omega) hk
  have hcount := h.count_le
  have hgrow := countP_range_succ (due P st₀ now) i
  have hadded : ∀ (j : ℕ) (p : PendingHs Priv), st.pending[j]? = some p → p.active = true →
      st₀.pending[j]? = some p ∨ (p.cfgIdx < i + 1 ∧ due P st₀ now p.cfgIdx = true) := by
    intro j p hp ha
    rcases h.added j p hp ha with hold | ⟨hlt, hdue⟩
    · exact Or.inl hold
    · exact Or.inr ⟨by omega, hdue⟩
  rcases connectStep_cases C P now env st i with
    ⟨-, hst⟩ | ⟨hdue, -, -, hpend | ⟨slot, p, hslot, ha, hcfg, hpend⟩⟩
  · rw [hst] at hsetup hdue_eq ⊢
    exact ⟨hsetup, hdue_eq, hadded, h.once, h.length_eq, by omega⟩
  · exact ⟨hsetup, hdue_eq, hpend ▸ hadded, hpend ▸ h.once, hpend ▸ h.length_eq,
      by rw [hpend]; omega⟩
  · -- a slot is taken for entry `i`, and none of those added so far is for it
    have hdue₀ : due P st₀ now i = true := (h.due_eq i le_rfl hi).symm.trans hdue
    obtain ⟨hlt, hfree, -⟩ := List.findIdx?_eq_some_iff_getElem.mp hslot
    have hupd := SlotTable.updated_set (List.getElem?_eq_getElem hlt) p
    have hold : ∀ (k : ℕ) (q : PendingHs Priv), st.pending[k]? = some q → q.active = true →
        q.cfgIdx = i → st₀.pending[k]? = some q := by
      intro k q hq hqa hqi
      rcases h.added k q hq hqa with hq₀ | ⟨hlt, -⟩
      · exact hq₀
      · exact absurd hlt (by omega)
    rw [hdue₀, if_pos rfl] at hgrow
    refine ⟨hsetup, hdue_eq, fun j q hq hqa => ?_, fun j k q r hq hr hqa hra hcfg' hjk => ?_, ?_, ?_⟩
    · rw [hpend] at hq
      rcases hupd.cases hq with ⟨rfl, rfl⟩ | ⟨-, hq⟩
      · exact Or.inr ⟨by omega, hcfg ▸ hdue₀⟩
      · exact hadded j q hq hqa
    · rw [hpend] at hq hr
      rcases hupd.cases hq with ⟨rfl, rfl⟩ | ⟨-, hq'⟩
      · rcases hupd.cases hr with ⟨rfl, rfl⟩ | ⟨-, hr'⟩
        · exact absurd rfl hjk
        · exact Or.inr (hold k r hr' hra (hcfg'.symm.trans hcfg))
      · rcases hupd.cases hr with ⟨rfl, rfl⟩ | ⟨-, hr'⟩
        · exact Or.inl (hold j q hq' hqa (hcfg'.trans hcfg))
        · exact h.once j k q r hq' hr' hqa hra hcfg' hjk
    · rw [hpend, List.length_set]
      exact h.length_eq
    · rw [hpend, List.countP_set hlt, if_pos ha]
      omega

/-- **Run**: the first `n` turns. -/
theorem ConnectScan.run {P : PeerParams Priv Key} {st₀ : PeerState Priv Key}
    (h : SetupOk configs st₀) (hpubs : (configs.map PeerConfig.pub).Nodup) (C : Crypto Priv Key)
    (now : Time) (env : ℕ → ConnectEnv Priv) {n : ℕ} (hn : n ≤ configs.length) :
    ConnectScan P configs now st₀ n
      (Machine.run (connectStep C P now env) st₀ (List.range n)).1 := by
  induction n with
  | zero => exact ConnectScan.initial P now h
  | succ n ih =>
    rw [List.range_succ, Machine.run_append]
    exact (ih (by omega)).step hpubs (by omega) C env

/-- While the table has room for the entries that are due, each turn finds a slot. -/
theorem ConnectScan.finds_slot {P : PeerParams Priv Key} {now : Time}
    {st₀ st : PeerState Priv Key} {i : ℕ} (h : ConnectScan P configs now st₀ i st)
    (hi : i < configs.length)
    (hroom : st₀.pending.countP PendingHs.active +
      (List.range configs.length).countP (due P st₀ now) ≤ st₀.pending.length)
    (hdue : due P st now i = true) : (st.pending.findIdx? fun p => !p.active).isSome = true := by
  have hcount := h.count_le
  have hgrow := countP_range_succ (due P st₀ now) i
  rw [← h.due_eq i le_rfl hi, if_pos hdue] at hgrow
  have hmono : (List.range (i + 1)).countP (due P st₀ now) ≤
      (List.range configs.length).countP (due P st₀ now) :=
    (List.range_sublist.mpr hi).countP_le
  have hlt : st.pending.countP PendingHs.active < st.pending.length := by
    rw [h.length_eq]
    omega
  obtain ⟨p, hp, hfree⟩ := List.countP_lt_length_iff.mp hlt
  rw [List.findIdx?_isSome, List.any_eq_true]
  exact ⟨p, hp, by simp [hfree]⟩

-- ════════════════════════════════════════════════════════════════════════
-- One handshake for each peer
-- ════════════════════════════════════════════════════════════════════════

/-- The active entries of `ps'` stand in `ps`. -/
def PendingWithin (ps ps' : List (PendingHs Priv)) : Prop :=
  ∀ (j : ℕ) (p : PendingHs Priv), ps'[j]? = some p → p.active = true → ps[j]? = some p

theorem OnePerPeer.of_within {st st' : PeerState Priv Key} (h : OnePerPeer st)
    (hin : PendingWithin st.pending st'.pending) : OnePerPeer st' := by
  intro j k p q hp hq ha hb
  exact h j k p q (hin j p hp ha) (hin k q hq hb) ha hb

theorem pendingWithin_set {ps : List (PendingHs Priv)} {j : ℕ} {p p' : PendingHs Priv}
    (hp : ps[j]? = some p) (hend : p'.active = false) : PendingWithin ps (ps.set j p') := by
  intro k q hq ha
  rcases (SlotTable.updated_set hp p').cases hq with ⟨-, rfl⟩ | ⟨-, hq⟩
  · exact absurd ha (by simp [hend])
  · exact hq

theorem expirePendingStep_within (P : PeerParams Priv Key) (now : Time) (st : PeerState Priv Key)
    (k : ℕ) : PendingWithin st.pending (expirePendingStep P now st k).1.pending := by
  unfold expirePendingStep
  split
  · exact fun j p hp _ => hp
  · next p hp =>
    split
    · exact fun j p hp _ => hp
    · exact pendingWithin_set hp rfl

/-- The second timer loop adds nothing. -/
theorem expirePending_within (P : PeerParams Priv Key) (now : Time) (st : PeerState Priv Key)
    (ks : List ℕ) :
    PendingWithin st.pending (Machine.run (expirePendingStep P now) st ks).1.pending :=
  Machine.run_state_invariant
    (P := fun st' : PeerState Priv Key => PendingWithin st.pending st'.pending) ks
    (fun st' k _ h j p hp ha => h j p (expirePendingStep_within P now st' k j p hp ha) ha)
    fun _ _ hp _ => hp

/-- A pass over the timers leaves one handshake for each peer: where a second one was
started, the first is given up. -/
theorem OnePerPeer.timers {st : PeerState Priv Key} (h : OnePerPeer st) (hsetup : SetupOk configs st)
    (hlen : st.pending.length = maxPeers) (hpubs : (configs.map PeerConfig.pub).Nodup)
    (C : Crypto Priv Key) {P : PeerParams Priv Key} {now : Time}
    (hok : ∀ p ∈ st.pending, p.active = true → due P st now p.cfgIdx = true →
      P.settings.handshakeTimeout ≤ now - p.sentAt)
    (connect : ℕ → ConnectEnv Priv) (keepalive : ℕ → SendEnv) :
    OnePerPeer (timers C P now connect keepalive st).1 := by
  have hscan := ConnectScan.run (P := P) hsetup hpubs C now connect (le_refl configs.length)
  rw [← hsetup.length_eq] at hscan
  unfold OnePerPeer
  rw [timers_pending]
  generalize (Machine.run (connectStep C P now connect) st (List.range st.configs.length)).1 = st₁
    at hscan ⊢
  have hin := expirePending_within P now st₁ (List.range maxPeers)
  have hyoung := expirePending_run P now st₁ maxPeers
  generalize (Machine.run (expirePendingStep P now) st₁ (List.range maxPeers)).1.pending = ps
    at hin hyoung ⊢
  -- an entry that is left, was there before and is for a peer that was due has timed out
  have hleft : ∀ (j : ℕ) (p : PendingHs Priv), ps[j]? = some p → p.active = true →
      st.pending[j]? = some p → due P st now p.cfgIdx = false := by
    intro j p hp ha hold
    obtain ⟨hj, -⟩ := List.getElem?_eq_some_iff.mp hold
    have hlt := hyoung j (by omega) p hp ha
    by_contra hdue
    have hle := hok p (List.mem_of_getElem? hold) ha (by simpa using hdue)
    exact absurd hlt (not_lt.mpr hle)
  intro j k p q hp hq ha hb hcfg
  by_contra hjk
  have hp₁ := hin j p hp ha
  have hq₁ := hin k q hq hb
  have hboth : st.pending[j]? = some p ∧ st.pending[k]? = some q := by
    rcases hscan.once j k p q hp₁ hq₁ ha hb hcfg hjk with hold | hold
    · have hdue := hleft j p hp ha hold
      rcases hscan.added k q hq₁ hb with hold' | ⟨-, hdue'⟩
      · exact ⟨hold, hold'⟩
      · rw [← hcfg, hdue] at hdue'
        exact absurd hdue' (by simp)
    · have hdue := hleft k q hq hb hold
      rcases hscan.added j p hp₁ ha with hold' | ⟨-, hdue'⟩
      · exact ⟨hold', hold⟩
      · rw [hcfg, hdue] at hdue'
        exact absurd hdue' (by simp)
  exact hjk (h j k p q hboth.1 hboth.2 ha hb hcfg)

variable [Inhabited Key]

/-- Received packets start no handshake. -/
theorem step_within (C : Crypto Priv Key) (P : PeerParams Priv Key) (st : PeerState Priv Key)
    (inp : Input Priv) (hinp : ∀ now connect keepalive, inp ≠ .tick now connect keepalive) :
    PendingWithin st.pending (step C P st inp).1.pending := by
  have hsame : ∀ {ps : List (PendingHs Priv)}, ps = st.pending → PendingWithin st.pending ps :=
    fun h j p hp _ => h ▸ hp
  cases inp with
  | tick now connect keepalive => exact absurd rfl (hinp now connect keepalive)
  | tunRead buffer env => exact hsame (tunRead_pending C st buffer env)
  | udpRecv src packet now env =>
    unfold step udpRecv
    dsimp only
    split
    · split
      · next i hfind =>
        obtain ⟨q, hq, -⟩ := findPending_eq_some hfind
        obtain ⟨q', hend, hset⟩ := recvResponse_pending C P st hq src packet env
        rw [hset]
        exact pendingWithin_set hq hend
      · next hfind => exact hsame (recvInit_pending C P st hfind packet now env)
    · split
      · exact hsame rfl
      · split
        · exact hsame rfl
        · exact hsame (recvData_pending C st _ _ packet now env)

/-- **One outstanding handshake per peer**: in every run in which peers that are due have
no handshake pending that has not timed out, and there are slots for all of them, each
reaction leaves at most one pending handshake for each peer, and
`initiate_outbound_handshake` always finds a slot. -/
theorem one_pending_per_peer (C : Crypto Priv Key) (P : PeerParams Priv Key)
    (hpubs : (configs.map PeerConfig.pub).Nodup) (eph : Option Priv) (is : List (Input Priv))
    (hok : Machine.Guarded (step C P) (RetryOk P) (PeerState.initial configs eph) is) :
    Machine.Guarded (step C P) (fun st inp => OnePerPeer (step C P st inp).1 ∧ FindsSlots C P st inp)
      (PeerState.initial configs eph) is := by
  have hkept := flagsBacked_preserved configs C P
  refine Machine.Guarded.of_invariant
    (P := fun st : PeerState Priv Key => FlagsBacked configs st ∧ OnePerPeer st) ?_
    ⟨.initial configs eph, ?_⟩ hok
  · rintro st inp ⟨hst, hone⟩ hinp
    have hnext := hkept.step hst inp
    cases inp with
    | tick now connect keepalive =>
      by_cases hnow : 10 ≤ now - st.lastRekeyCheck
      · obtain ⟨hold, hroom⟩ := hinp hnow
        have hsetup : SetupOk configs { st with lastRekeyCheck := now } := hst.setup.congr rfl rfl
        have htick : step C P st (.tick now connect keepalive) =
            timers C P now connect keepalive { st with lastRekeyCheck := now } := by
          show tick C P st now connect keepalive = _
          rw [tick, if_neg (not_lt.mpr hnow)]
        have hone' : OnePerPeer (step C P st (.tick now connect keepalive)).1 := by
          rw [htick]
          have hone₁ : OnePerPeer { st with lastRekeyCheck := now } := hone
          exact hone₁.timers hsetup hst.length_eq hpubs C hold connect keepalive
        refine ⟨⟨hnext, hone'⟩, hone', fun _ i hi hdue => ?_⟩
        rw [hst.setup.length_eq] at hi
        have hscan := ConnectScan.run (P := P) hsetup hpubs C now connect hi.le
        refine hscan.finds_slot hi ?_ hdue
        rw [hst.setup.length_eq] at hroom
        exact hst.length_eq ▸ hroom
      · have htick : step C P st (.tick now connect keepalive) = (st, []) := by
          show tick C P st now connect keepalive = _
          rw [tick, if_pos (not_le.mp hnow)]
        rw [htick] at hnext ⊢
        exact ⟨⟨hnext, hone⟩, hone, fun h => absurd h hnow⟩
    | tunRead buffer env =>
      have hone' := hone.of_within (step_within C P st (.tunRead buffer env) (by simp))
      exact ⟨⟨hnext, hone'⟩, hone', trivial⟩
    | udpRecv src packet now env =>
      have hone' := hone.of_within (step_within C P st (.udpRecv src packet now env) (by simp))
      exact ⟨⟨hnext, hone'⟩, hone', trivial⟩
  · intro j k p q hp _ ha
    have := List.eq_of_mem_replicate (List.mem_of_getElem? hp)
    subst this
    exact absurd ha (by simp [PendingHs.zero])

instance (P : PeerParams Priv Key) (st : PeerState Priv Key) : ∀ inp, Decidable (RetryOk P st inp)
  | .tick .. => inferInstanceAs (Decidable (_ → (∀ p ∈ st.pending, _ → _ → _) ∧ _))
  | .tunRead .. | .udpRecv .. => inferInstanceAs (Decidable True)

namespace Sample

/-- One outbound peer, with the public key of peer 1. An attempt is given up after 30
seconds but repeated after 5. -/
def slowTimeout : List (YamlEvent × LoadEnv) :=
  ([.streamStart, .documentStart, .mappingStart,
    .scalar (CString.ascii "interface"), .scalar (CString.ascii "tun0"),
    .scalar (CString.ascii "reconnect_interval"), .scalar (CString.ascii "5"),
    .scalar (CString.ascii "handshake_timeout"), .scalar (CString.ascii "30"),
    .scalar (CString.ascii "peers"), .sequenceStart, .mappingStart,
    .scalar (CString.ascii "public_key"),
    .scalar (List.replicate 32 (CString.ascii "01")).flatten,
    .scalar (CString.ascii "endpoint"), .scalar (CString.ascii "peer1:655"),
    .mappingEnd, .sequenceEnd, .mappingEnd, .documentEnd, .streamEnd] : List YamlEvent).map
  fun ev => (ev, ⟨[], some (addr 1)⟩)

/-- What `load_config` makes of it. -/
def slowTimeoutLoader : Loader where
  key := CString.ascii "peers"
  peerKey := CString.ascii "endpoint"
  root := { tunnel := CString.ascii "tun0"
            settings := { reconnectInterval := 5, handshakeTimeout := 30 } }
  peers := [⟨⟨crypto.publicKey 1, [], true, addr 1, 0⟩, CString.ascii "peer1", 655⟩]

/-- Peer 2 with these settings. -/
def slowParams : PeerParams UInt8 SKey :=
  { params 2 with settings := slowTimeoutLoader.root.settings }

end Sample

open Sample in
theorem one_pending_per_peer_client :
    Machine.Guarded (step crypto (params 2)) (RetryOk (params 2))
      (PeerState.initial [peerConfig 1 true] (some 5)) [tickAt 100 10, tickAt 110 11] ∧
    Machine.Guarded (step crypto (params 2))
      (fun st inp => OnePerPeer (step crypto (params 2) st inp).1 ∧
        FindsSlots crypto (params 2) st inp)
      (PeerState.initial [peerConfig 1 true] (some 5)) [tickAt 100 10, tickAt 110 11] :=
  ⟨by decide +kernel, one_pending_per_peer crypto (params 2) (by decide +kernel) (some 5) _
    (by decide +kernel)⟩

open Sample in
/-- With settings that are accepted, a peer that does not answer has two handshakes
pending after ten seconds. -/
theorem pending_twice :
    loadConfig inetPton slowTimeout = .ok slowTimeoutLoader ∧
    validate slowTimeoutLoader = .ok () ∧
    (slowTimeoutLoader.configs.map PeerConfig.pub).Nodup ∧
    ¬ OnePerPeer (Machine.run (step crypto slowParams)
      (PeerState.initial slowTimeoutLoader.configs (some 5)) [tickAt 100 10, tickAt 110 11]).1 := by
  refine ⟨by decide +kernel, by decide +kernel, by decide +kernel, fun h => ?_⟩
  have htwo : ∀ j < 2, (Machine.run (step crypto slowParams)
      (PeerState.initial slowTimeoutLoader.configs (some 5))
      [tickAt 100 10, tickAt 110 11]).1.pending[j]?.map (fun p => (p.active, p.cfgIdx)) =
      some (true, 0) := by decide +kernel
  obtain ⟨p, hp, hp'⟩ := Option.map_eq_some_iff.mp (htwo 0 (by decide))
  obtain ⟨q, hq, hq'⟩ := Option.map_eq_some_iff.mp (htwo 1 (by decide))
  obtain ⟨hpa, hpi⟩ := Prod.mk.inj hp'
  obtain ⟨hqa, hqi⟩ := Prod.mk.inj hq'
  exact absurd (h 0 1 p q hp hq hpa hqa (hpi.trans hqi.symm)) (by decide)

end LaneCove
