import Mathlib.Data.List.GetD
import LaneCove.KeyOwnership

/-!
# The rekeying flag

`event_loop` sets the `rekeying` flag of a session when it starts a handshake for
it, and starts no other handshake for the session while the flag is set. The flag
is cleared wherever a pending handshake ends. Flag and pending entry are linked
only by the public key of the peer, through two lookups.

## Main definitions

- `Flagged`, `PendingFor` — the keys of flagged sessions and of pending handshakes
- `FlagsBacked` — every flagged session has its pending handshake

## Main results

- `flagsBacked_preserved` — every reaction keeps flags backed
- `rekeying_backed` — no flag outlives its handshake, and after a pass over the
  timers the handshake is younger than its timeout
-/

namespace LaneCove

variable {Priv Key : Type}

/-- An active session of the peer `pub` is marked as rekeying. -/
def Flagged (ss : List (PeerSession Key)) (pub : Bytes) : Prop :=
  ∃ (i : ℕ) (s : PeerSession Key), ss[i]? = some s ∧ s.active = true ∧ s.rekeying = true ∧
    s.staticPub = pub

/-- The configured public key of an entry. -/
def configPub (configs : List PeerConfig) (i : ℕ) : Bytes := (configs.getD i PeerConfig.zero).pub

/-- A handshake with the peer `pub` is pending. -/
def PendingFor (configs : List PeerConfig) (pending : List (PendingHs Priv)) (pub : Bytes) : Prop :=
  ∃ (j : ℕ) (p : PendingHs Priv), pending[j]? = some p ∧ p.active = true ∧
    configPub configs p.cfgIdx = pub

/-- What holds of flags and pending handshakes between two reactions. -/
structure FlagsBacked (configs : List PeerConfig) (st : PeerState Priv Key) : Prop where
  setup : SetupOk configs st
  distinct : DistinctPubs st.sessions
  length_eq : st.pending.length = maxPeers
  backed : ∀ pub, Flagged st.sessions pub → PendingFor configs st.pending pub

variable {configs : List PeerConfig} {st : PeerState Priv Key} {ss : List (PeerSession Key)}
  {pub pub' : Bytes}

theorem SetupOk.config_pub (h : SetupOk configs st) (i : ℕ) :
    (st.config i).pub = configPub configs i := by
  have hid := congrArg (fun l => l.getD i PeerConfig.zero.identity) h.configs_eq
  simp only [List.getD_map] at hid
  exact congrArg Prod.fst hid

theorem DistinctPubs.setRekeying (h : DistinctPubs ss) (C : Crypto Priv Key) (pub : Bytes)
    (flag : Bool) : DistinctPubs (setRekeying ss pub flag) := by
  have ht : Touches C none ss [] (LaneCove.setRekeying ss pub flag) :=
    touches_setRekeying C ss pub flag
  exact ht.unique PeerSession.Follows.staticPub h

/-- A flag after an update of one slot is the one written there, or an old one. -/
theorem Flagged.of_updated {ss' : List (PeerSession Key)} {slot : ℕ} {a : PeerSession Key}
    (hupd : SlotTable.Updated ss slot a ss') (h : Flagged ss' pub) :
    (a.active = true ∧ a.rekeying = true ∧ a.staticPub = pub) ∨
    ∃ (i : ℕ) (s : PeerSession Key), i ≠ slot ∧ ss[i]? = some s ∧ s.active = true ∧
      s.rekeying = true ∧ s.staticPub = pub := by
  obtain ⟨i, s, hs, ha, hr, hpub⟩ := h
  rcases hupd.cases hs with ⟨rfl, rfl⟩ | ⟨hi, hs⟩
  · exact Or.inl ⟨ha, hr, hpub⟩
  · exact Or.inr ⟨i, s, hi, hs, ha, hr, hpub⟩

/-- Writing a session back that is flagged only if it was sets no flag. -/
theorem Flagged.of_set {j : ℕ} {s s' : PeerSession Key} (hs : ss[j]? = some s) (hf : s.Follows s')
    (hr : s'.rekeying = s.rekeying) (h : Flagged (ss.set j s') pub) : Flagged ss pub := by
  rcases h.of_updated (SlotTable.updated_set hs s') with ⟨ha, hr', hpub⟩ | ⟨i, s₀, -, h⟩
  · exact ⟨j, s, hs, hf.active ha, hr ▸ hr', hf.staticPub ▸ hpub⟩
  · exact ⟨i, s₀, h⟩

theorem Flagged.of_setRekeying_true (h : Flagged (setRekeying ss pub true) pub') :
    Flagged ss pub' ∨ pub' = pub := by
  unfold setRekeying at h
  split at h
  · exact Or.inl h
  · next slot hfind =>
    obtain ⟨s, hs, -, hpub⟩ := findSessionByPub_eq_some hfind
    rcases h.of_updated (SlotTable.updated_modify hs _) with ⟨-, -, hpub'⟩ | ⟨i, s₀, -, h⟩
    · exact Or.inr (hpub'.symm.trans hpub)
    · exact Or.inl ⟨i, s₀, h⟩

/-- Clearing the flag of a key leaves no session of that key flagged. -/
theorem Flagged.of_setRekeying_false (hd : DistinctPubs ss)
    (h : Flagged (setRekeying ss pub false) pub') : Flagged ss pub' ∧ pub' ≠ pub := by
  unfold setRekeying at h
  split at h
  · next hnone =>
    refine ⟨h, ?_⟩
    rintro rfl
    obtain ⟨i, s, hs, ha, -, hpub⟩ := h
    exact findSessionByPub_eq_none.mp hnone i s hs ha hpub
  · next slot hfind =>
    obtain ⟨s, hs, ha, hpub⟩ := findSessionByPub_eq_some hfind
    rcases h.of_updated (SlotTable.updated_modify hs _) with
      ⟨-, hr, -⟩ | ⟨i, s₀, hi, hs₀, ha₀, hr, h⟩
    · exact absurd hr (by simp)
    · refine ⟨⟨i, s₀, hs₀, ha₀, hr, h⟩, ?_⟩
      rintro rfl
      exact hi (hd i slot s₀ s hs₀ hs ha₀ ha (h.trans hpub.symm))

/-- A completed handshake leaves no session of its peer flagged: `session_init`
clears the flag, and without a slot there is no session of that key. -/
theorem Flagged.of_installTable [Inhabited Key] (hd : DistinctPubs ss) {settings : Settings}
    {c : Commit Key} (h : Flagged (installTable settings c ss) pub) :
    Flagged ss pub ∧ pub ≠ c.pub := by
  rcases installTable_cases settings c ss with ⟨hnone, he⟩ | ⟨slot, s, -, halloc, hupd⟩
  · rw [he] at h
    refine ⟨h, ?_⟩
    rintro rfl
    obtain ⟨i, s, hs, ha, -, hpub⟩ := h
    obtain ⟨j, hj⟩ := SlotTable.lookup_key PeerSession.staticPub hs ha
    rw [hpub] at hj
    rw [allocSession, show findSessionByPub ss c.pub = some j from hj] at hnone
    exact absurd hnone (by simp)
  · rcases h.of_updated hupd with ⟨-, hr, -⟩ | ⟨i, s₀, hi, hs₀, ha₀, hr, h⟩
    · exact absurd hr (by simp [Commit.session, sessionInit])
    · exact ⟨⟨i, s₀, hs₀, ha₀, hr, h⟩, h ▸ halloc.pub_free hd hi hs₀ ha₀⟩

variable {pending : List (PendingHs Priv)} {j : ℕ} {p p' : PendingHs Priv}

/-- Ending a handshake with another peer does not matter. -/
theorem PendingFor.set_of_ne (h : PendingFor configs pending pub) (hp : pending[j]? = some p)
    (hne : pub ≠ configPub configs p.cfgIdx) (p' : PendingHs Priv) :
    PendingFor configs (pending.set j p') pub := by
  obtain ⟨k, q, hq, ha, hpub⟩ := h
  refine ⟨k, q, ?_, ha, hpub⟩
  rw [List.getElem?_set_ne, hq]
  rintro rfl
  rw [hp] at hq
  obtain rfl := Option.some.inj hq
  exact hne hpub.symm

/-- A new handshake takes a slot in which none was pending. -/
theorem PendingFor.set_of_free (h : PendingFor configs pending pub)
    (hslot : pending.findIdx? (fun p => !p.active) = some j) (p' : PendingHs Priv) :
    PendingFor configs (pending.set j p') pub := by
  obtain ⟨k, q, hq, ha, hpub⟩ := h
  refine ⟨k, q, ?_, ha, hpub⟩
  rw [List.getElem?_set_ne, hq]
  rintro rfl
  obtain ⟨hj, hfree, -⟩ := List.findIdx?_eq_some_iff_getElem.mp hslot
  rw [List.getElem?_eq_getElem hj] at hq
  obtain rfl := Option.some.inj hq
  exact absurd hfree (by simp [ha])

theorem pendingFor_set_self (hslot : pending.findIdx? (fun p => !p.active) = some j)
    (ha : p.active = true) : PendingFor configs (pending.set j p) (configPub configs p.cfgIdx) := by
  obtain ⟨hj, -⟩ := List.findIdx?_eq_some_iff_getElem.mp hslot
  exact ⟨j, p, by simp [hj], ha, rfl⟩

theorem FlagsBacked.initial (configs : List PeerConfig) (eph : Option Priv) :
    FlagsBacked configs (PeerState.initial configs eph : PeerState Priv Key) where
  setup := .initial configs eph
  distinct i j a b ha := absurd ha (by simp [PeerState.initial])
  length_eq := List.length_replicate
  backed pub := by
    rintro ⟨i, s, hs, -⟩
    exact absurd hs (by simp [PeerState.initial])

/-- The first timer loop sets a flag only together with a pending entry. -/
theorem FlagsBacked.connectStep (h : FlagsBacked configs st) (C : Crypto Priv Key)
    (P : PeerParams Priv Key) (now : Time) (env : ℕ → ConnectEnv Priv) {i : ℕ}
    (hi : i < configs.length) : FlagsBacked configs (connectStep C P now env st i).1 := by
  have hsetup := h.setup.connectStep C P now env hi
  have ht : Touches C none _ _ _ := connectStep_touches C P now env st i
  have hdistinct : DistinctPubs (LaneCove.connectStep C P now env st i).1.sessions :=
    ht.unique PeerSession.Follows.staticPub h.distinct
  revert hsetup hdistinct
  unfold LaneCove.connectStep
  dsimp only
  split
  · intro hsetup hdistinct
    generalize hst₁ : ({ st with configs := _, sessions := _ } : PeerState Priv Key) = st₁ at *
    have hpending : st₁.pending = st.pending := by rw [← hst₁]
    have hsessions : st₁.sessions = setRekeying st.sessions (st.config i).pub true := by rw [← hst₁]
    have hdistinct₁ : DistinctPubs st₁.sessions := by
      rw [hsessions]
      exact h.distinct.setRekeying C (st.config i).pub true
    have hpub := h.setup.config_pub i
    rcases initiateOutboundHandshake_cases C P st₁ i (env i) with
      hinit | ⟨slot, packet, hsState, hslot, -, hinit⟩
    · rw [hinit] at hsetup hdistinct ⊢
      refine ⟨hsetup, hdistinct, hpending ▸ h.length_eq, fun pub hf => ?_⟩
      obtain ⟨hf, hne⟩ := Flagged.of_setRekeying_false hdistinct₁ hf
      rw [hsessions] at hf
      rcases hf.of_setRekeying_true with hf | rfl
      · exact hpending ▸ h.backed pub hf
      · exact absurd rfl hne
    · rw [hinit] at hsetup hdistinct ⊢
      refine ⟨hsetup, hdistinct, ?_, fun pub hf => ?_⟩
      · rw [List.length_set, hpending]
        exact h.length_eq
      · rw [hpending] at hslot
        dsimp only at hf ⊢
        rw [hsessions] at hf
        rw [hpending]
        rcases hf.of_setRekeying_true with hf | rfl
        · exact (h.backed pub hf).set_of_free hslot _
        · rw [hpub]
          exact pendingFor_set_self hslot rfl
  · exact fun _ _ => h

/-- The second timer loop clears the flag of the handshake it gives up. -/
theorem FlagsBacked.expirePendingStep (h : FlagsBacked configs st) (C : Crypto Priv Key)
    (P : PeerParams Priv Key) (now : Time) (j : ℕ) :
    FlagsBacked configs (expirePendingStep P now st j).1 := by
  have hsetup := h.setup.expirePendingStep P now j
  revert hsetup
  unfold LaneCove.expirePendingStep
  split
  · exact fun _ => h
  · next p hp =>
    split
    · exact fun _ => h
    · intro hsetup
      refine ⟨hsetup, h.distinct.setRekeying C _ false, by simpa using h.length_eq,
        fun pub hf => ?_⟩
      obtain ⟨hf, hne⟩ := Flagged.of_setRekeying_false h.distinct hf
      rw [h.setup.config_pub] at hne
      exact (h.backed pub hf).set_of_ne hp hne _

/-- Updates of a session that keep the flag need no pending entry. -/
theorem FlagsBacked.set_session (h : FlagsBacked configs st) {j : ℕ} {s s' : PeerSession Key}
    (hs : st.sessions[j]? = some s) (hf : s.Follows s') (hr : s'.rekeying = s.rekeying) :
    FlagsBacked configs { st with sessions := st.sessions.set j s' } where
  setup := h.setup.congr rfl rfl
  distinct := SlotTable.Unique.update h.distinct (SlotTable.updated_set hs s')
    fun ha k b hk hb hb' hpub => hk (h.distinct k j b s hb hs hb' (hf.active ha)
      (hpub.trans hf.staticPub))
  length_eq := h.length_eq
  backed pub hf' := h.backed pub (hf'.of_set hs hf hr)

theorem FlagsBacked.refreshPrecompEph (h : FlagsBacked configs st) (fresh : Option Priv) :
    FlagsBacked configs (refreshPrecompEph st fresh) := by
  cases fresh with
  | none => exact h
  | some key => exact ⟨h.setup.congr rfl rfl, h.distinct, h.length_eq, h.backed⟩

variable [Inhabited Key]

theorem install_pending (P : PeerParams Priv Key) (st : PeerState Priv Key) (c : Commit Key) :
    (install P st c).1.pending = st.pending := by
  unfold install
  split <;> rfl

/-- An install sets no flag. -/
theorem FlagsBacked.install (h : FlagsBacked configs st) (P : PeerParams Priv Key) (c : Commit Key) :
    FlagsBacked configs (install P st c).1 := by
  have hsessions := install_sessions P st c
  have hpending := install_pending P st c
  refine ⟨h.setup.install P c, ?_, hpending ▸ h.length_eq, fun pub hf => ?_⟩
  · rw [hsessions]
    exact h.distinct.install P.settings c
  · rw [hsessions] at hf
    rw [hpending]
    exact h.backed pub (hf.of_installTable h.distinct).1

/-- The response path ends a pending handshake: the flag of its peer is cleared by
`session_init`, or else after the failure. -/
theorem FlagsBacked.recvResponse (h : FlagsBacked configs st) (C : Crypto Priv Key)
    (P : PeerParams Priv Key) (j : ℕ) (src : SockAddr) (packet : Bytes) (env : RecvEnv Priv) :
    FlagsBacked configs (recvResponse C P st j src packet env).1 := by
  have hsetup := h.setup.recvResponse C P j src packet env
  revert hsetup
  unfold LaneCove.recvResponse
  split
  · exact fun _ => h
  · next p hp =>
    have hpub := h.setup.config_pub p.cfgIdx
    dsimp only
    split
    · intro hsetup
      refine ⟨hsetup, h.distinct.setRekeying C _ false, by simpa using h.length_eq,
        fun pub hf => ?_⟩
      obtain ⟨hf, hne⟩ := Flagged.of_setRekeying_false h.distinct hf
      exact (h.backed pub hf).set_of_ne hp (hpub ▸ hne) _
    · next key _ =>
      intro hsetup
      generalize hst₁ : ({ st with pending := _ } : PeerState Priv Key) = st₁ at *
      generalize hc : (Commit.mk src _ key _ true packet env.clk : Commit Key) = c at *
      have hsessions := install_sessions P st₁ c
      have hpending := install_pending P st₁ c
      subst hst₁
      refine ⟨hsetup, ?_, ?_, fun pub hf => ?_⟩
      · rw [hsessions]
        exact h.distinct.install P.settings c
      · rw [hpending]
        simpa using h.length_eq
      · rw [hsessions] at hf
        rw [hpending]
        obtain ⟨hf, hne⟩ := hf.of_installTable h.distinct
        rw [← hc] at hne
        exact (h.backed pub hf).set_of_ne hp (hpub ▸ hne) _

theorem flagsBacked_preserved (configs : List PeerConfig) (C : Crypto Priv Key)
    (P : PeerParams Priv Key) : Preserved C P (FlagsBacked configs) where
  connect now env _ hi h := h.connectStep C P now env (h.setup.length_eq ▸ hi)
  expirePending now j h := h.expirePendingStep C P now j
  clock _ h := ⟨h.setup.congr rfl rfl, h.distinct, h.length_eq, h.backed⟩
  session hs hf hr h := h.set_session hs hf hr
  response packet env _ h := h.recvResponse C P _ _ packet env
  refresh fresh h := h.refreshPrecompEph fresh
  install c _ h := h.install P c

omit [Inhabited Key] in
theorem expirePendingStep_of_ne (P : PeerParams Priv Key) (now : Time) (st : PeerState Priv Key)
    {j k : ℕ} (hk : k ≠ j) : (expirePendingStep P now st j).1.pending[k]? = st.pending[k]? := by
  unfold expirePendingStep
  split
  · rfl
  · split
    · rfl
    · exact List.getElem?_set_ne hk.symm

omit [Inhabited Key] in
theorem expirePendingStep_self {P : PeerParams Priv Key} {now : Time} {st : PeerState Priv Key}
    {j : ℕ} {p : PendingHs Priv} (hp : (expirePendingStep P now st j).1.pending[j]? = some p)
    (ha : p.active = true) : now - p.sentAt < P.settings.handshakeTimeout := by
  unfold expirePendingStep at hp
  split at hp
  · next hnone =>
    rw [hnone] at hp
    exact absurd hp (by simp)
  · next q hq =>
    split at hp
    · next hkeep =>
      obtain rfl := Option.some.inj (hq.symm.trans hp)
      simpa [ha] using hkeep
    · obtain ⟨hj, -⟩ := List.getElem?_eq_some_iff.mp hq
      rw [List.getElem?_set_self hj] at hp
      obtain rfl := Option.some.inj hp
      exact absurd ha (by simp [PendingHs.cancel])

omit [Inhabited Key] in
/-- The second timer loop leaves no handshake pending that is past its timeout. -/
theorem expirePending_run (P : PeerParams Priv Key) (now : Time) (st : PeerState Priv Key) (n : ℕ) :
    ∀ j < n, ∀ p : PendingHs Priv,
      (Machine.run (expirePendingStep P now) st (List.range n)).1.pending[j]? = some p →
      p.active = true → now - p.sentAt < P.settings.handshakeTimeout := by
  induction n with
  | zero => exact fun j hj => absurd hj (Nat.not_lt_zero j)
  | succ n ih =>
    intro j hj p hp ha
    rw [List.range_succ, Machine.run_append] at hp
    -- the last turn of the loop handles slot `n` and leaves the others alone
    by_cases hjn : j = n
    · subst hjn
      exact expirePendingStep_self hp ha
    · refine ih j (by omega) p ?_ ha
      rwa [← expirePendingStep_of_ne P now _ hjn]

omit [Inhabited Key] in
theorem timers_pending (C : Crypto Priv Key) (P : PeerParams Priv Key) (now : Time)
    (connect : ℕ → ConnectEnv Priv) (keepalive : ℕ → SendEnv) (st : PeerState Priv Key) :
    (timers C P now connect keepalive st).1.pending =
      (Machine.run (expirePendingStep P now)
        (Machine.run (connectStep C P now connect) st (List.range st.configs.length)).1
        (List.range maxPeers)).1.pending := by
  unfold timers
  dsimp only
  generalize (Machine.run (expirePendingStep P now) _ _).1 = st₂
  have hexpire : ∀ (st : PeerState Priv Key) (j : ℕ), st.pending = st₂.pending →
      (expireSessionStep P now st j).1.pending = st₂.pending := by
    intro st j h
    unfold expireSessionStep
    split
    · exact h
    · split <;> exact h
  have hkeepalive : ∀ (st : PeerState Priv Key) (j : ℕ), st.pending = st₂.pending →
      (keepaliveStep C P now keepalive st j).1.pending = st₂.pending := by
    intro st j h
    unfold keepaliveStep forwardOn
    split
    · exact h
    · split
      · exact h
      · split <;> exact h
  exact Machine.run_state_invariant (P := fun st : PeerState Priv Key => st.pending = st₂.pending) _
    (fun st j _ h => hkeepalive st j h)
    (Machine.run_state_invariant (P := fun st : PeerState Priv Key => st.pending = st₂.pending) _
      (fun st j _ h => hexpire st j h) rfl)

/-- In every state of every run, an active session marked as rekeying has an
active pending handshake with its peer. After the next pass over the timers it
has one that is younger than `handshake_timeout`: a flag does not outlive its
handshake, nor the handshake its timeout. -/
theorem rekeying_backed (C : Crypto Priv Key) (P : PeerParams Priv Key)
    (configs : List PeerConfig) (eph : Option Priv) (is : List (Input Priv)) :
    let st := (Machine.run (LaneCove.step C P) (PeerState.initial configs eph) is).1
    (∀ (i : ℕ) (s : PeerSession Key), st.sessions[i]? = some s → s.active = true →
      s.rekeying = true → ∃ (j : ℕ) (p : PendingHs Priv), st.pending[j]? = some p ∧
        p.active = true ∧ (st.config p.cfgIdx).pub = s.staticPub) ∧
    ∀ now connect keepalive, 10 ≤ now - st.lastRekeyCheck →
      let st' := (LaneCove.step C P st (.tick now connect keepalive)).1
      ∀ (i : ℕ) (s : PeerSession Key), st'.sessions[i]? = some s → s.active = true →
        s.rekeying = true → ∃ (j : ℕ) (p : PendingHs Priv), st'.pending[j]? = some p ∧
          p.active = true ∧ (st'.config p.cfgIdx).pub = s.staticPub ∧
          now - p.sentAt < P.settings.handshakeTimeout := by
  intro st
  have hkept := flagsBacked_preserved configs C P
  have hrun : FlagsBacked configs st := hkept.run (.initial configs eph) is
  refine ⟨fun i s hs ha hr => ?_, fun now connect keepalive hnow => ?_⟩
  · obtain ⟨j, p, hp, hact, hpub⟩ := hrun.backed s.staticPub ⟨i, s, hs, ha, hr, rfl⟩
    exact ⟨j, p, hp, hact, (hrun.setup.config_pub p.cfgIdx).trans hpub⟩
  · intro st' i s hs ha hr
    have hrun' : FlagsBacked configs st' := hkept.step hrun (.tick now connect keepalive)
    obtain ⟨j, p, hp, hact, hpub⟩ := hrun'.backed s.staticPub ⟨i, s, hs, ha, hr, rfl⟩
    refine ⟨j, p, hp, hact, (hrun'.setup.config_pub p.cfgIdx).trans hpub, ?_⟩
    obtain ⟨hj, -⟩ := List.getElem?_eq_some_iff.mp hp
    rw [hrun'.length_eq] at hj
    have htick : st' = (LaneCove.timers C P now connect keepalive
        { st with lastRekeyCheck := now }).1 := by
      show (tick C P st now connect keepalive).1 = _
      rw [tick, if_neg (not_lt.mpr hnow)]
    rw [htick, timers_pending] at hp
    exact expirePending_run P now _ maxPeers j hj p hp hact

end LaneCove
