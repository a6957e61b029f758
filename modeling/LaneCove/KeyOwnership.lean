import LaneCove.Genuine
import LaneCove.Reactions
import LaneCove.Sample

/-!
# Which peer a session key belongs to

The trace records with which peer each key was negotiated. A session should hold
only keys of its own peer and the routes configured for it. `alloc_session` may
hand an active slot of one peer to another peer at the same address, and
`session_init` then keeps the old peer's key as the previous key.

## Main definitions

- `KeyOwned` — the keys and routes of a session are those of its peer
- `SlotNotTaken` — a peer without a session does not come from a used address

## Main results

- `SetupOk.step` — routes and keys of the configuration never change
- `keyOwned_run` — sessions hold keys of their own peer in every run whose steps
  all satisfy `SlotNotTaken`
-/

namespace LaneCove

variable {Priv Key : Type}

/-- The part of a configured peer that no reaction changes. -/
def PeerConfig.identity (cfg : PeerConfig) : Bytes × List IpPrefix := (cfg.pub, cfg.routes)

/-- The state has the configured peers, and pending handshakes are for them. -/
structure SetupOk (configs : List PeerConfig) (st : PeerState Priv Key) : Prop where
  configs_eq : st.configs.map PeerConfig.identity = configs.map PeerConfig.identity
  pending_lt : ∀ (j : ℕ) (p : PendingHs Priv), st.pending[j]? = some p → p.active = true →
    p.cfgIdx < configs.length

variable {configs : List PeerConfig} {st st' : PeerState Priv Key}

theorem SetupOk.length_eq (h : SetupOk configs st) : st.configs.length = configs.length := by
  simpa using congrArg List.length h.configs_eq

theorem SetupOk.initial (configs : List PeerConfig) (eph : Option Priv) :
    SetupOk configs (PeerState.initial configs eph : PeerState Priv Key) where
  configs_eq := rfl
  pending_lt j p hp ha := by
    have := List.eq_of_mem_replicate (List.mem_of_getElem? hp)
    subst this
    exact absurd ha (by simp [PendingHs.zero])

/-- Changes elsewhere in the state do not matter. -/
theorem SetupOk.congr (h : SetupOk configs st) (hc : st'.configs = st.configs)
    (hp : st'.pending = st.pending) : SetupOk configs st' :=
  ⟨hc ▸ h.configs_eq, hp ▸ h.pending_lt⟩

/-- Endpoint and time of the last attempt do not matter. -/
theorem SetupOk.modify (h : SetupOk configs st) {i : ℕ} {f : PeerConfig → PeerConfig}
    (hc : st'.configs = st.configs.modify i f) (hp : st'.pending = st.pending)
    (hf : ∀ cfg, (f cfg).identity = cfg.identity) : SetupOk configs st' := by
  refine ⟨?_, hp ▸ h.pending_lt⟩
  rw [hc, ← h.configs_eq]
  refine List.ext_getElem? fun k => ?_
  simp only [List.getElem?_map, List.getElem?_modify]
  cases st.configs[k]? with
  | none => rfl
  | some cfg => by_cases hk : i = k <;> simp [hk, hf]

/-- A pending entry may be rewritten if it stays inactive or is for a configured peer. -/
theorem SetupOk.set_pending (h : SetupOk configs st) {j : ℕ} {p : PendingHs Priv}
    (hlt : p.active = true → p.cfgIdx < configs.length) (hc : st'.configs = st.configs)
    (hp : st'.pending = st.pending.set j p) : SetupOk configs st' := by
  refine ⟨hc ▸ h.configs_eq, fun k q hq ha => ?_⟩
  rw [hp, List.getElem?_set] at hq
  split at hq
  · split at hq
    · obtain rfl := Option.some.inj hq
      exact hlt ha
    · exact absurd hq (by simp)
  · exact h.pending_lt k q hq ha

/-- A configured entry has the identity of an original one. -/
theorem SetupOk.config (h : SetupOk configs st) {i : ℕ} (hi : i < configs.length) :
    ∃ cfg ∈ configs, cfg.pub = (st.config i).pub ∧ cfg.routes = (st.config i).routes := by
  have hi' : i < st.configs.length := h.length_eq ▸ hi
  have hid := congrArg (·[i]?) h.configs_eq
  simp only [List.getElem?_map, List.getElem?_eq_getElem hi, List.getElem?_eq_getElem hi',
    Option.map_some, Option.some.injEq, PeerConfig.identity, Prod.mk.injEq] at hid
  refine ⟨configs[i], List.getElem_mem hi, ?_⟩
  simp only [PeerState.config, List.getD_eq_getElem?_getD, List.getElem?_eq_getElem hi',
    Option.getD_some, hid, and_self]

theorem SetupOk.findPeerConfig (h : SetupOk configs st) {pub : Bytes} {cfg : PeerConfig}
    (hfind : findPeerConfig st.configs pub = some cfg) :
    cfg.pub = pub ∧ ∃ cfg₀ ∈ configs, cfg₀.pub = cfg.pub ∧ cfg₀.routes = cfg.routes := by
  have hpub := List.find?_some hfind
  have hmem := List.mem_map_of_mem (f := PeerConfig.identity) (List.mem_of_find?_eq_some hfind)
  rw [h.configs_eq] at hmem
  obtain ⟨cfg₀, hcfg₀, hid⟩ := List.mem_map.mp hmem
  simp only [PeerConfig.identity, Prod.mk.injEq] at hid
  exact ⟨by simpa using hpub, cfg₀, hcfg₀, hid⟩

theorem SetupOk.initiate (h : SetupOk configs st) (C : Crypto Priv Key) (P : PeerParams Priv Key)
    {i : ℕ} (hi : i < configs.length) (env : ConnectEnv Priv) :
    SetupOk configs (initiateOutboundHandshake C P st i env).1 := by
  have hattempt : SetupOk configs { st with
      configs := st.configs.modify i fun cfg => { cfg with lastAttempt := env.clk } } :=
    h.modify rfl rfl fun _ => rfl
  rcases initiateOutboundHandshake_cases C P st i env with hinit | ⟨_, _, _, -, -, hinit⟩
  · rw [hinit]
    exact hattempt
  · rw [hinit]
    exact hattempt.set_pending (fun _ => hi) rfl rfl

theorem SetupOk.connectStep (h : SetupOk configs st) (C : Crypto Priv Key)
    (P : PeerParams Priv Key) (now : Time) (env : ℕ → ConnectEnv Priv) {i : ℕ}
    (hi : i < configs.length) : SetupOk configs (connectStep C P now env st i).1 := by
  unfold LaneCove.connectStep
  dsimp only
  split
  · have hprep : SetupOk configs { st with
        configs := st.configs.modify i fun cfg =>
          { cfg with endpoint := (env i).resolved.getD (st.config i).endpoint }
        sessions := setRekeying st.sessions (st.config i).pub true } :=
      h.modify rfl rfl fun _ => rfl
    have hsent := hprep.initiate C P hi (env i)
    split
    · next heq =>
      rw [heq] at hsent
      exact hsent.congr rfl rfl
    · next heq =>
      rw [heq] at hsent
      exact hsent
  · exact h

theorem SetupOk.expirePendingStep (h : SetupOk configs st) (P : PeerParams Priv Key) (now : Time)
    (j : ℕ) : SetupOk configs (expirePendingStep P now st j).1 := by
  unfold LaneCove.expirePendingStep
  split
  · exact h
  · split
    · exact h
    · exact h.set_pending (fun ha => absurd ha (by simp [PendingHs.cancel])) rfl rfl

theorem SetupOk.refreshPrecompEph (h : SetupOk configs st) (fresh : Option Priv) :
    SetupOk configs (refreshPrecompEph st fresh) := by
  cases fresh with
  | none => exact h
  | some key => exact h.congr rfl rfl

variable [Inhabited Key]

theorem SetupOk.install (h : SetupOk configs st) (P : PeerParams Priv Key) (c : Commit Key) :
    SetupOk configs (install P st c).1 := by
  unfold LaneCove.install
  split
  · exact h
  · exact h.congr rfl rfl

theorem SetupOk.recvResponse (h : SetupOk configs st) (C : Crypto Priv Key)
    (P : PeerParams Priv Key) (j : ℕ) (src : SockAddr) (packet : Bytes) (env : RecvEnv Priv) :
    SetupOk configs (recvResponse C P st j src packet env).1 := by
  unfold LaneCove.recvResponse
  split
  · exact h
  · next p hp =>
    have hset : ∀ hsState, SetupOk configs
        { st with pending := st.pending.set j { p with active := false, hsState } } :=
      fun _ => h.set_pending (fun ha => absurd ha (by simp)) rfl rfl
    dsimp only
    split
    · exact (hset _).congr rfl rfl
    · exact (hset _).install P _

theorem setupOk_preserved (configs : List PeerConfig) (C : Crypto Priv Key)
    (P : PeerParams Priv Key) : Preserved C P (SetupOk configs) where
  connect now env _ hi h := h.connectStep C P now env (h.length_eq ▸ hi)
  expirePending now j h := h.expirePendingStep P now j
  clock _ h := h.congr rfl rfl
  session _ _ _ h := h.congr rfl rfl
  response packet env _ h := h.recvResponse C P _ _ packet env
  refresh fresh h := h.refreshPrecompEph fresh
  install c _ h := h.install P c

/-- **The setup is fixed**: every reaction keeps it. -/
theorem SetupOk.step (h : SetupOk configs st) (C : Crypto Priv Key) (P : PeerParams Priv Key)
    (inp : Input Priv) : SetupOk configs (step C P st inp).1 :=
  (setupOk_preserved configs C P).step h inp

omit [Inhabited Key] in
/-- A completed handshake is one with a configured peer. -/
theorem SetupOk.commit (h : SetupOk configs st) {C : Crypto Priv Key} {P : PeerParams Priv Key}
    {inp : Input Priv} {c : Commit Key} (hc : commitOf C P st inp = some c) :
    c.cfg.pub = c.pub ∧ ∃ cfg ∈ configs, cfg.pub = c.cfg.pub ∧ cfg.routes = c.cfg.routes := by
  cases completes_of_commitOf hc with
  | @response _ _ _ _ j p key _ hfind hp _ =>
    obtain ⟨hlt, hact, -⟩ := List.findIdx?_eq_some_iff_getElem.mp hfind
    rw [List.getElem?_eq_getElem hlt] at hp
    obtain rfl := Option.some.inj hp
    simp only [Bool.and_eq_true] at hact
    exact ⟨rfl, h.config (h.pending_lt j _ (List.getElem?_eq_getElem hlt) hact.1)⟩
  | init _ _ _ _ hcfg _ => exact h.findPeerConfig hcfg

/-- Both keys of the session were negotiated with its peer, as far as the trace
tells, and its routes are configured for that peer. -/
structure KeyOwned (configs : List PeerConfig) (tr : List (Event Key)) (s : PeerSession Key) :
    Prop where
  sessionKey : .negotiated s.staticPub s.sessionKey ∈ tr
  prevSessionKey : s.prevKeyActive = true → .negotiated s.staticPub s.prevSessionKey ∈ tr
  routes : ∃ cfg ∈ configs, cfg.pub = s.staticPub ∧ cfg.routes = s.routes

/-- If the reaction completes a handshake of a peer without a session, its source
address is not that of a session. -/
def SlotNotTaken (C : Crypto Priv Key) (P : PeerParams Priv Key) (st : PeerState Priv Key)
    (inp : Input Priv) : Prop :=
  ∀ c ∈ commitOf C P st inp, findSessionByPub st.sessions c.pub = none →
    findSessionByAddr st.sessions c.src = none

instance (C : Crypto Priv Key) (P : PeerParams Priv Key) (st : PeerState Priv Key)
    (inp : Input Priv) : Decidable (SlotNotTaken C P st inp) :=
  inferInstanceAs (Decidable (∀ c ∈ commitOf C P st inp, _ → _))

omit [Inhabited Key] in
theorem KeyOwned.append {tr : List (Event Key)} {s : PeerSession Key} (h : KeyOwned configs tr s)
    (es : List (Event Key)) : KeyOwned configs (tr ++ es) s :=
  ⟨List.mem_append_left es h.sessionKey, fun hp => List.mem_append_left es (h.prevSessionKey hp),
    h.routes⟩

omit [Inhabited Key] in
theorem KeyOwned.follows {tr : List (Event Key)} {s s' : PeerSession Key}
    (h : KeyOwned configs tr s) (hf : s.Follows s') : KeyOwned configs tr s' where
  sessionKey := by
    rw [hf.staticPub, hf.sessionKey]
    exact h.sessionKey
  prevSessionKey hp := by
    rw [hf.staticPub, hf.prevSessionKey]
    exact h.prevSessionKey (hf.prevKeyActive hp)
  routes := by
    rw [hf.staticPub, hf.routes]
    exact h.routes

/-- The invariant of a run: fixed setup, and active sessions own their keys. -/
def KeysOwned (configs : List PeerConfig) (st : PeerState Priv Key) (tr : List (Event Key)) :
    Prop :=
  SetupOk configs st ∧ ∀ (i : ℕ) (s : PeerSession Key), st.sessions[i]? = some s →
    s.active = true → KeyOwned configs tr s

/-- The session an install writes owns its keys if the slot belonged to its peer
or was inactive. -/
theorem Commit.session_keyOwned {ss : List (PeerSession Key)} {tr : List (Event Key)}
    (c : Commit Key) (settings : Settings) {slot : ℕ} {s : PeerSession Key}
    (hown : ∀ (i : ℕ) (s : PeerSession Key), ss[i]? = some s → s.active = true →
      KeyOwned configs tr s)
    (halloc : Alloc ss c.pub c.src slot s) (hneg : .negotiated c.pub c.key ∈ tr)
    (hcfg : ∃ cfg ∈ configs, cfg.pub = c.pub ∧ cfg.routes = c.cfg.routes)
    (hfree : findSessionByPub ss c.pub = none → findSessionByAddr ss c.src = none) :
    KeyOwned configs tr (c.session settings s) := by
  refine ⟨hneg, fun hp => ?_, hcfg⟩
  have ha : s.active = true := hp
  simp only [Commit.session, sessionInit, ha, if_true]
  cases halloc with
  | byPub hs _ hpub _ =>
    rw [← hpub]
    exact (hown _ s hs ha).sessionKey
  | byAddr hnone _ _ _ hfind =>
    rw [hfree hnone] at hfind
    exact absurd hfind (by simp)
  | free _ _ _ hinact => exact absurd ha (by simp [hinact])
  | fresh _ _ _ => exact absurd ha (by simp [PeerSession.zero])

theorem KeysOwned.step {tr : List (Event Key)} (h : KeysOwned configs st tr) (C : Crypto Priv Key)
    (P : PeerParams Priv Key) {inp : Input Priv} (hok : SlotNotTaken C P st inp) :
    KeysOwned configs (step C P st inp).1 (tr ++ (step C P st inp).2) := by
  obtain ⟨hsetup, hown⟩ := h
  have hown' : ∀ (i : ℕ) (s : PeerSession Key), st.sessions[i]? = some s → s.active = true →
      KeyOwned configs (tr ++ (LaneCove.step C P st inp).2) s :=
    fun i s hs ha => (hown i s hs ha).append _
  refine ⟨hsetup.step C P inp, fun i s hs ha => ?_⟩
  rcases step_cases C P st inp with ⟨-, ht⟩ | ⟨c, pre, hc, -, hss, hes⟩
  · obtain ⟨s₀, hs₀, hf⟩ := ht.follows hs
    exact (hown' i s₀ hs₀ (hf.active ha)).follows hf
  · rw [hss] at hs
    rcases installTable_cases P.settings c st.sessions with ⟨-, he⟩ | ⟨slot, s₀, -, halloc, hupd⟩
    · rw [he] at hs
      exact hown' i s hs ha
    · rcases hupd.cases hs with ⟨rfl, rfl⟩ | ⟨-, hs⟩
      · obtain ⟨hpub, hcfg⟩ := hsetup.commit hc
        refine c.session_keyOwned P.settings hown' halloc (by simp [hes]) ?_ (hok c hc)
        rw [hpub] at hcfg
        exact hcfg
      · exact hown' i s hs ha

/-- An accepted packet decrypts under a key that was negotiated with the peer of
the session it is accepted on. -/
theorem KeysOwned.accepted {tr : List (Event Key)} (h : KeysOwned configs st tr)
    {C : Crypto Priv Key} {P : PeerParams Priv Key} {inp : Input Priv} {slot : ℕ} {key : Key}
    {usedPrevKey : Bool} {packet payload : Bytes} {seq : BitVec 64}
    (hacc : .accepted slot key usedPrevKey packet seq payload ∈ (LaneCove.step C P st inp).2) :
    ∃ s, st.sessions[slot]? = some s ∧ KeyOwned configs tr s ∧
      .negotiated s.staticPub key ∈ tr ∧ (decryptPacket C key packet).isSome := by
  have ht := touches_of_mem hacc rfl (by simp)
  obtain ⟨s, hs, ha, ⟨plain, hd, -⟩, now, -, hkey⟩ := ht.accepted hacc
  have hown := h.2 slot s hs ha
  refine ⟨s, hs, hown, ?_, by simp [hd]⟩
  rcases hkey with ⟨-, rfl⟩ | ⟨-, rfl, hp, -⟩
  · exact hown.sessionKey
  · exact hown.prevSessionKey hp

omit [Inhabited Key] in
theorem KeysOwned.initial (configs : List PeerConfig) (eph : Option Priv) :
    KeysOwned configs (PeerState.initial configs eph : PeerState Priv Key) [] :=
  ⟨.initial configs eph, fun i s hs => absurd hs (by simp [PeerState.initial])⟩

theorem keysOwned_of_guarded {C : Crypto Priv Key} {P : PeerParams Priv Key} {eph : Option Priv}
    {is : List (Input Priv)} (hok : Machine.Guarded (LaneCove.step C P) (SlotNotTaken C P)
      (PeerState.initial configs eph) is) :
    KeysOwned configs (Machine.run (LaneCove.step C P) (PeerState.initial configs eph) is).1
      (Machine.run (LaneCove.step C P) (PeerState.initial configs eph) is).2 :=
  Machine.run_invariant_of_guarded (fun _ _ _ h hok => h.step C P hok) (.initial configs eph) hok

/-- In every run in which no peer without a session completes a handshake from
the address of another session: both keys of every active session were
negotiated with its peer; an accepted packet decrypts under a key negotiated with
the peer of its session; and a payload is delivered only if that session admits
it, whose routes are the configured ones. -/
theorem keyOwned_run (C : Crypto Priv Key) (P : PeerParams Priv Key) (configs : List PeerConfig)
    (eph : Option Priv) (is : List (Input Priv))
    (hok : Machine.Guarded (LaneCove.step C P) (SlotNotTaken C P)
      (PeerState.initial configs eph) is) :
    let r := Machine.run (LaneCove.step C P) (PeerState.initial configs eph) is
    (∀ (i : ℕ) (s : PeerSession Key), r.1.sessions[i]? = some s → s.active = true →
      KeyOwned configs r.2 s) ∧
    ∀ inp, (∀ slot key usedPrevKey packet seq payload,
        .accepted slot key usedPrevKey packet seq payload ∈ (LaneCove.step C P r.1 inp).2 →
        ∃ s, r.1.sessions[slot]? = some s ∧ KeyOwned configs r.2 s ∧
          .negotiated s.staticPub key ∈ r.2 ∧ (decryptPacket C key packet).isSome) ∧
      ∀ usedPrevKey packet payload relay,
        .delivered packet usedPrevKey payload relay ∈ (LaneCove.step C P r.1 inp).2 →
        ∃ slot key seq s, .accepted slot key usedPrevKey packet seq payload ∈
            (LaneCove.step C P r.1 inp).2 ∧
          r.1.sessions[slot]? = some s ∧ .negotiated s.staticPub key ∈ r.2 ∧
          s.admits payload = true ∧
          ∃ cfg ∈ configs, cfg.pub = s.staticPub ∧ cfg.routes = s.routes := by
  intro r
  have hrun : KeysOwned configs r.1 r.2 := keysOwned_of_guarded hok
  refine ⟨hrun.2, fun inp => ⟨fun slot key usedPrevKey packet seq payload hacc => ?_,
    fun usedPrevKey packet payload relay hdel => ?_⟩⟩
  · exact hrun.accepted hacc
  · have ht := touches_of_mem hdel rfl (by simp)
    obtain ⟨slot, s, key, seq, hs, hadm, hacc⟩ := ht.delivered hdel
    obtain ⟨s', hs', hown, hneg, -⟩ := hrun.accepted hacc
    obtain rfl : s = s' := Option.some.inj (hs.symm.trans hs')
    exact ⟨slot, key, seq, s, hacc, hs, hneg, hadm, hown.routes⟩

/-- Peers 2 and 3 connect from their addresses, and peer 2 rekeys. -/
def Sample.rekeying : List (Input UInt8) := [
  .udpRecv (addr 2) (initiation 2 1 10) 100 (recvEnv 100 20),
  .udpRecv (addr 3) (initiation 3 1 11) 110 (recvEnv 110 21),
  .udpRecv (addr 2) (initiation 2 1 12) 200 (recvEnv 200 22)]

open Sample in
theorem keyOwned_run_rekeying :
    let r := Machine.run (LaneCove.step crypto (params 1))
      (PeerState.initial [peerConfig 2 false, peerConfig 3 false] (some 4)) rekeying
    r.1.sessions.map (fun s => (s.active, s.staticPub, s.prevKeyActive)) =
        [(true, crypto.publicKey 2, true), (true, crypto.publicKey 3, false)] ∧
      ∀ (i : ℕ) (s : PeerSession SKey), r.1.sessions[i]? = some s → s.active = true →
        KeyOwned [peerConfig 2 false, peerConfig 3 false] r.2 s :=
  ⟨by decide +kernel, (keyOwned_run crypto (params 1) [peerConfig 2 false, peerConfig 3 false]
    (some 4) rekeying (by decide +kernel)).1⟩

/-- Peer 2 connects from address 2, and after the cooldown peer 3 connects from
the same address. -/
def Sample.takeover : List (Input UInt8) := [
  .udpRecv (addr 2) (initiation 2 1 10) 100 (recvEnv 100 20),
  .udpRecv (addr 2) (initiation 3 1 11) 110 (recvEnv 110 21)]

open Sample in
/-- The session of peer 3 then has an active previous key that was negotiated with
peer 2 only. -/
theorem takeover_mixes_keys :
    let r := Machine.run (LaneCove.step crypto (params 1))
      (PeerState.initial [peerConfig 2 false, peerConfig 3 false] (some 4)) takeover
    ¬ ∀ (i : ℕ) (s : PeerSession SKey), r.1.sessions[i]? = some s → s.active = true →
      KeyOwned [peerConfig 2 false, peerConfig 3 false] r.2 s := by
  intro r hown
  have hslot : (r.1.sessions[0]?.map fun s => s.active && s.prevKeyActive &&
      !(negotiations r.2).contains (s.staticPub, s.prevSessionKey)) = some true := by
    decide +kernel
  obtain ⟨s, hs, hbad⟩ := Option.map_eq_some_iff.mp hslot
  simp only [Bool.and_eq_true, Bool.not_eq_true', List.contains_eq_mem,
    decide_eq_false_iff_not] at hbad
  obtain ⟨⟨hactive, hprev⟩, hnot⟩ := hbad
  exact hnot (mem_negotiations ((hown 0 s hs hactive).prevSessionKey hprev))

end LaneCove
