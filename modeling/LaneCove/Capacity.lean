import LaneCove.Config
import LaneCove.KeyOwnership

/-!
# Room in the session table

Sessions are keyed by configured public keys, one active session for each. The
table has as many slots as there can be configured peers, so `alloc_session`
finds a slot for a configured peer in every state of every run.

## Main definitions

- `Configured` — a session of a configured peer, with the routes configured for it
- `TableOk` — the invariant of the session table

## Main results

- `TableOk.step` — every reaction keeps the invariant
- `TableOk.allocSession_isSome` — a configured peer gets a slot
- `sessionTable_run` — the table never overflows
-/

namespace LaneCove

variable {Priv Key : Type}

/-- The session is one of a configured peer and has its routes. -/
def Configured (configs : List PeerConfig) (s : PeerSession Key) : Prop :=
  ∃ cfg ∈ configs, cfg.pub = s.staticPub ∧ cfg.routes = s.routes

/-- What holds of the session table between two reactions. -/
structure TableOk (configs : List PeerConfig) (st : PeerState Priv Key) : Prop where
  setup : SetupOk configs st
  distinct : DistinctPubs st.sessions
  configured : ∀ (i : ℕ) (s : PeerSession Key), st.sessions[i]? = some s → s.active = true →
    Configured configs s
  length_le : st.sessions.length ≤ maxPeers

variable {configs : List PeerConfig} {st : PeerState Priv Key}

theorem Configured.follows {s s' : PeerSession Key} (h : Configured configs s)
    (hf : s.Follows s') : Configured configs s' := by
  unfold Configured
  rw [hf.staticPub, hf.routes]
  exact h

theorem TableOk.initial (configs : List PeerConfig) (eph : Option Priv) :
    TableOk configs (PeerState.initial configs eph : PeerState Priv Key) where
  setup := .initial configs eph
  distinct i j a b ha := absurd ha (by simp [PeerState.initial])
  configured i s hs := absurd hs (by simp [PeerState.initial])
  length_le := Nat.zero_le _

theorem Touches.length_eq {C : Crypto Priv Key} {rx : Option (Bytes × Time)}
    {ss ss' : List (PeerSession Key)} {es : List (Event Key)} (h : Touches C rx ss es ss') :
    ss'.length = ss.length := by
  induction h with
  | refl => rfl
  | head hstep _ ih =>
    rw [ih]
    cases hstep with
    | quiet => rfl
    | slot _ _ => exact List.length_set

variable [Inhabited Key]

theorem Alloc.slot_lt {ss : List (PeerSession Key)} {pub : Bytes} {addr : SockAddr} {slot : ℕ}
    {s : PeerSession Key} (h : Alloc ss pub addr slot s) (hlen : ss.length ≤ maxPeers) :
    slot < maxPeers := by
  have hlt : ∀ {i : ℕ} {s : PeerSession Key}, ss[i]? = some s → i < maxPeers := fun hs => by
    obtain ⟨hi, -⟩ := List.getElem?_eq_some_iff.mp hs
    omega
  cases h with
  | byPub hs _ _ _ => exact hlt hs
  | byAddr _ hs _ _ _ => exact hlt hs
  | free _ _ hs _ => exact hlt hs
  | fresh _ _ hlen => exact hlen

theorem length_installTable_le (settings : Settings) (c : Commit Key) {ss : List (PeerSession Key)}
    (hlen : ss.length ≤ maxPeers) : (installTable settings c ss).length ≤ maxPeers := by
  rcases installTable_cases settings c ss with ⟨-, he⟩ | ⟨slot, s, -, halloc, hupd⟩
  · rw [he]
    exact hlen
  · have hslot := halloc.slot_lt hlen
    have hle := hupd.length_le
    omega

/-- **Step**: every reaction keeps the table in order. -/
theorem TableOk.step (h : TableOk configs st) (C : Crypto Priv Key) (P : PeerParams Priv Key)
    (inp : Input Priv) : TableOk configs (step C P st inp).1 := by
  have hsetup := h.setup.step C P inp
  have hdistinct := distinctPubs_step C P h.distinct inp
  rcases step_cases C P st inp with ⟨-, ht⟩ | ⟨c, pre, hc, -, hss, -⟩
  · refine ⟨hsetup, hdistinct, fun i s hs ha => ?_, ?_⟩
    · obtain ⟨s₀, hs₀, hf⟩ := ht.follows hs
      exact (h.configured i s₀ hs₀ (hf.active ha)).follows hf
    · rw [ht.length_eq]
      exact h.length_le
  · refine ⟨hsetup, hdistinct, fun i s hs ha => ?_, ?_⟩
    · rw [hss] at hs
      rcases installTable_cases P.settings c st.sessions with ⟨-, he⟩ | ⟨slot, s₀, -, -, hupd⟩
      · exact h.configured i s (he ▸ hs) ha
      · rcases hupd.cases hs with ⟨rfl, rfl⟩ | ⟨-, hs⟩
        · obtain ⟨hpub, cfg, hcfg, hpub', hroutes⟩ := h.setup.commit hc
          exact ⟨cfg, hcfg, hpub'.trans hpub, hroutes⟩
        · exact h.configured i s hs ha
    · rw [hss]
      exact length_installTable_le P.settings c h.length_le

theorem tableOk_run (C : Crypto Priv Key) (P : PeerParams Priv Key) (configs : List PeerConfig)
    (eph : Option Priv) (is : List (Input Priv)) :
    TableOk configs (Machine.run (LaneCove.step C P) (PeerState.initial configs eph) is).1 :=
  Machine.run_state_invariant is (fun _ inp _ h => h.step C P inp) (.initial configs eph)

/-- `alloc_session` returns `NULL` only if no session has the key and all
`MAX_PEERS` slots are active. -/
theorem allocSession_eq_none {ss : List (PeerSession Key)} {pub : Bytes} {addr : SockAddr}
    (h : allocSession ss pub addr = none) :
    findSessionByPub ss pub = none ∧ (∀ s ∈ ss, s.active = true) ∧ maxPeers ≤ ss.length := by
  unfold allocSession at h
  split at h
  · exact absurd h (by simp)
  · next hpub =>
    split at h
    · exact absurd h (by simp)
    · split at h
      · exact absurd h (by simp)
      · next hfree =>
        rw [List.findIdx?_eq_none_iff] at hfree
        split at h
        · next hlen => exact ⟨hpub, by simpa using hfree, hlen⟩
        · exact absurd h (by simp)

/-- A configured peer always gets a slot: if all slots were active, their keys and
the one asked for would be more than there are configured. -/
theorem TableOk.allocSession_isSome (h : TableOk configs st) (hlen : configs.length ≤ maxPeers)
    {cfg : PeerConfig} (hcfg : cfg ∈ configs) (addr : SockAddr) :
    (allocSession st.sessions cfg.pub addr).isSome = true := by
  rw [← Option.ne_none_iff_isSome]
  intro hnone
  obtain ⟨hpub, hactive, hfull⟩ := allocSession_eq_none hnone
  have hkeys : ∀ (i : ℕ) (s : PeerSession Key), st.sessions[i]? = some s → s.active = true →
      s.staticPub ∈ configs.map PeerConfig.pub := by
    intro i s hs ha
    obtain ⟨cfg', hcfg', hpub', -⟩ := h.configured i s hs ha
    exact List.mem_map.mpr ⟨cfg', hcfg', hpub'⟩
  obtain ⟨s, hs, hdead⟩ := SlotTable.Unique.exists_dead h.distinct hkeys
    (List.mem_map_of_mem hcfg) hpub (by rw [List.length_map]; omega)
  rw [hactive s hs] at hdead
  exact absurd hdead (by simp)

/-- So every handshake that is completed gets its session. -/
theorem TableOk.installed (h : TableOk configs st) (hlen : configs.length ≤ maxPeers)
    {C : Crypto Priv Key} {P : PeerParams Priv Key} {inp : Input Priv} {c : Commit Key}
    (hc : commitOf C P st inp = some c) :
    ∃ slot, .installed slot c.src c.pub c.key c.isOutbound c.cause ∈
      (LaneCove.step C P st inp).2 := by
  obtain ⟨hpub, cfg, hcfg, hpub', -⟩ := h.setup.commit hc
  have halloc := h.allocSession_isSome hlen hcfg c.src
  rw [hpub', hpub] at halloc
  obtain ⟨⟨slot, ss'⟩, halloc⟩ := Option.isSome_iff_exists.mp halloc
  rcases step_cases C P st inp with ⟨hnone, -⟩ | ⟨c', pre, hc', -, -, hes⟩
  · rw [hnone] at hc
    exact absurd hc (by simp)
  · obtain rfl : c' = c := Option.some.inj (hc'.symm.trans hc)
    refine ⟨slot, ?_⟩
    rw [hes, installEvents, halloc]
    simp

/-- For every configuration that `load_config` accepts, in every state of every run:
the table has at most `MAX_PEERS` slots; the active sessions have distinct keys, all
of configured peers; `alloc_session` returns a slot for every configured key and
any address; and so every handshake that is completed gets its session. -/
theorem sessionTable_run {inetPton : Bytes → Option (BitVec 32)}
    {events : List (YamlEvent × LoadEnv)} {l : Loader} (hload : loadConfig inetPton events = .ok l)
    (C : Crypto Priv Key) (P : PeerParams Priv Key) (eph : Option Priv) (is : List (Input Priv)) :
    let st := (Machine.run (LaneCove.step C P) (PeerState.initial l.configs eph) is).1
    st.sessions.length ≤ maxPeers ∧ DistinctPubs st.sessions ∧
      (∀ (i : ℕ) (s : PeerSession Key), st.sessions[i]? = some s → s.active = true →
        ∃ cfg ∈ l.configs, cfg.pub = s.staticPub) ∧
      (∀ cfg ∈ l.configs, ∀ addr, (allocSession st.sessions cfg.pub addr).isSome = true) ∧
      ∀ inp c, commitOf C P st inp = some c → ∃ slot,
        .installed slot c.src c.pub c.key c.isOutbound c.cause ∈ (LaneCove.step C P st inp).2 := by
  intro st
  have hlen := loadConfig_length_le hload
  have h : TableOk l.configs st := tableOk_run C P l.configs eph is
  refine ⟨h.length_le, h.distinct, fun i s hs ha => ?_, fun cfg hcfg addr => ?_, fun inp c hc => ?_⟩
  · obtain ⟨cfg, hcfg, hpub, -⟩ := h.configured i s hs ha
    exact ⟨cfg, hcfg, hpub⟩
  · exact h.allocSession_isSome hlen hcfg addr
  · exact h.installed hlen hc

namespace Sample

/-- The only address that is needed. -/
def inetPton (text : Bytes) : Option (BitVec 32) :=
  if text = CString.ascii "10.0.0.0" then some 0x0a000000 else none

/-- One peer, with the public key of peer 2 and one route. -/
def document : List (YamlEvent × LoadEnv) :=
  [.streamStart, .documentStart, .mappingStart,
    .scalar (CString.ascii "peers"), .sequenceStart, .mappingStart,
    .scalar (CString.ascii "public_key"),
    .scalar (List.replicate 32 (CString.ascii "02")).flatten,
    .scalar (CString.ascii "allowed_ips"), .sequenceStart, .scalar (CString.ascii "10.0.0.0/8"),
    .sequenceEnd, .mappingEnd, .sequenceEnd, .mappingEnd, .documentEnd, .streamEnd].map
  fun ev => (ev, ⟨[], none⟩)

/-- What `load_config` makes of it. -/
def loaded : Loader where
  key := CString.ascii "peers"
  peerKey := CString.ascii "allowed_ips"
  peers := [⟨⟨crypto.publicKey 2, [⟨0x0a000000, 0xff000000, 8⟩], false, ⟨0, 0⟩, 0⟩, [], 0⟩]

theorem loadConfig_document : loadConfig inetPton document = .ok loaded := by decide +kernel

/-- Peer 2 connects at time 100. -/
def connect : Input UInt8 := .udpRecv (addr 2) (initiation 2 1 10) 100 (recvEnv 100 20)

end Sample

open Sample in
theorem sessionTable_run_loaded :
    let r := Machine.run (LaneCove.step crypto (params 1))
      (PeerState.initial loaded.configs (some 4))
      [connect]
    r.1.sessions.map PeerSession.staticPub = [crypto.publicKey 2] ∧
      ∀ cfg ∈ loaded.configs, ∀ addr, (allocSession r.1.sessions cfg.pub addr).isSome = true :=
  ⟨by decide +kernel, (sessionTable_run loadConfig_document crypto (params 1) (some 4) _).2.2.2.1⟩

end LaneCove
