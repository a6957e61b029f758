import LaneCove.Addresses
import LaneCove.Answers
import LaneCove.Retry

/-!
# The handshake cooldown

The responder means to answer at most one handshake per cooldown for each address
and each public key. It keeps no record of its answers: the two checks read the
`last_handshake` of whatever session is found under the address or the key, and the
check of the key comes after the response has left. So the cooldown holds only
while every answer sets up a session and that session stays where it is.

## Main definitions

- `Input.readings` — the clock readings a reaction makes
- `AnswerRecorded`, `FromOwnAddr` — answered initiations set up sessions, and peers stay at
  their address
- `CooldownOk` — what it takes for the checks to see the last answer
- `Young` — an active session of a peer had its handshake since a given time

## Main results

- `step_stays` — a session that does not expire stays, unless it is replaced
- `Young.step` — within the cooldown, a young session stays or is renewed
- `responses_apart` — under `CooldownOk` answers are a cooldown apart
-/

namespace LaneCove

variable {Priv Key : Type}

-- ════════════════════════════════════════════════════════════════════════
-- Sessions that stay
-- ════════════════════════════════════════════════════════════════════════

/-- Slot `i` holds a later state of the active session `s`, still active. -/
def Stays (i : ℕ) (s : PeerSession Key) (ss : List (PeerSession Key)) : Prop :=
  ∃ s', ss[i]? = some s' ∧ s.Follows s' ∧ s'.active = true

theorem Stays.of_getElem? {i : ℕ} {s : PeerSession Key} {ss : List (PeerSession Key)}
    (hs : ss[i]? = some s) (ha : s.active = true) : Stays i s ss := ⟨s, hs, .refl s, ha⟩

theorem Stays.update {i j : ℕ} {s s₁ s₂ : PeerSession Key} {ss ss' : List (PeerSession Key)}
    (h : Stays i s ss) (hj : ss[j]? = some s₁) (hupd : SlotTable.Updated ss j s₂ ss')
    (hf : s₁.Follows s₂) (ha : s₂.active = s₁.active) : Stays i s ss' := by
  obtain ⟨s', hs', hf', ha'⟩ := h
  by_cases hij : i = j
  · subst hij
    obtain rfl := Option.some.inj (hj.symm.trans hs')
    exact ⟨s₂, hupd.self, hf'.trans hf, ha.trans ha'⟩
  · exact ⟨s', (hupd.of_ne hij).trans hs', hf', ha'⟩

theorem Stays.forwardOn {i : ℕ} {s : PeerSession Key} {st : PeerState Priv Key}
    (h : Stays i s st.sessions) (C : Crypto Priv Key) (j : ℕ) (payload : Bytes) (env : SendEnv) :
    Stays i s (forwardOn C st j payload env).1.sessions := by
  unfold LaneCove.forwardOn
  split
  · exact h
  · next s₁ hs₁ =>
    refine h.update hs₁ (SlotTable.updated_set hs₁ _) (forwardToPeer_follows C s₁ payload env) ?_
    unfold forwardToPeer
    split
    · rfl
    · split <;> rfl

/-- Slot `i` holds `s`, up to its flag. -/
def HoldsButFlag (i : ℕ) (s : PeerSession Key) (ss : List (PeerSession Key)) : Prop :=
  ∃ flag, ss[i]? = some { s with rekeying := flag }

theorem HoldsButFlag.stays {i : ℕ} {s : PeerSession Key} {ss : List (PeerSession Key)}
    (h : HoldsButFlag i s ss) (ha : s.active = true) : Stays i s ss := by
  obtain ⟨flag, hs⟩ := h
  exact ⟨_, hs, ⟨id, rfl, rfl, rfl, rfl, id, rfl, rfl, rfl⟩, ha⟩

theorem HoldsButFlag.setRekeying {i : ℕ} {s : PeerSession Key} {ss : List (PeerSession Key)}
    (h : HoldsButFlag i s ss) (pub : Bytes) (flag : Bool) :
    HoldsButFlag i s (setRekeying ss pub flag) := by
  unfold LaneCove.setRekeying
  split
  · exact h
  · next j hfind =>
    obtain ⟨s₁, hs₁, -⟩ := findSessionByPub_eq_some hfind
    have hupd := SlotTable.updated_modify hs₁ fun s => { s with rekeying := flag }
    obtain ⟨flag', hs⟩ := h
    by_cases hij : i = j
    · subst hij
      obtain rfl := Option.some.inj (hs.symm.trans hs₁)
      exact ⟨flag, hupd.self⟩
    · exact ⟨flag', (hupd.of_ne hij).trans hs⟩

theorem HoldsButFlag.connectStep {i : ℕ} {s : PeerSession Key} {st : PeerState Priv Key}
    (h : HoldsButFlag i s st.sessions) (C : Crypto Priv Key) (P : PeerParams Priv Key) (now : Time)
    (env : ℕ → ConnectEnv Priv) (k : ℕ) :
    HoldsButFlag i s (connectStep C P now env st k).1.sessions := by
  rcases connectStep_cases C P now env st k with ⟨-, hst⟩ | ⟨-, -, hss | hss, -⟩
  · rw [hst]
    exact h
  · rw [hss]
    exact h.setRekeying _ true
  · rw [hss]
    exact (h.setRekeying _ true).setRekeying _ false

theorem HoldsButFlag.expirePendingStep {i : ℕ} {s : PeerSession Key} {st : PeerState Priv Key}
    (h : HoldsButFlag i s st.sessions) (P : PeerParams Priv Key) (now : Time) (k : ℕ) :
    HoldsButFlag i s (expirePendingStep P now st k).1.sessions := by
  unfold LaneCove.expirePendingStep
  split
  · exact h
  · split
    · exact h
    · exact h.setRekeying _ false

/-- The third timer loop leaves a session alone that has not expired. -/
theorem HoldsButFlag.expireSessionStep {i : ℕ} {s : PeerSession Key} {st : PeerState Priv Key}
    (h : HoldsButFlag i s st.sessions) {P : PeerParams Priv Key} {now : Time}
    (hexp : s.expired P.settings now = false) (k : ℕ) :
    HoldsButFlag i s (expireSessionStep P now st k).1.sessions := by
  unfold LaneCove.expireSessionStep
  split
  · exact h
  · next s₁ hs₁ =>
    split
    · next hexp₁ =>
      obtain ⟨flag, hs⟩ := h
      by_cases hik : i = k
      · subst hik
        obtain rfl := Option.some.inj (hs.symm.trans hs₁)
        have hexp' : s.expired P.settings now = true := hexp₁
        exact absurd hexp' (by simp [hexp])
      · exact ⟨flag, ((SlotTable.updated_set hs₁ _).of_ne hik).trans hs⟩
    · exact h

theorem Stays.timers {i : ℕ} {s : PeerSession Key} {st : PeerState Priv Key}
    (hs : st.sessions[i]? = some s) (ha : s.active = true) (C : Crypto Priv Key)
    {P : PeerParams Priv Key} {now : Time} (hexp : s.expired P.settings now = false)
    (connect : ℕ → ConnectEnv Priv) (keepalive : ℕ → SendEnv) :
    Stays i s (timers C P now connect keepalive st).1.sessions := by
  have h1 := Machine.run_state_invariant
    (P := fun st : PeerState Priv Key => HoldsButFlag i s st.sessions)
    (List.range st.configs.length) (fun _ k _ h => h.connectStep C P now connect k)
    ⟨s.rekeying, hs⟩
  have h2 := Machine.run_state_invariant
    (P := fun st : PeerState Priv Key => HoldsButFlag i s st.sessions)
    (List.range maxPeers) (fun _ k _ h => h.expirePendingStep P now k) h1
  unfold LaneCove.timers
  dsimp only
  generalize (Machine.run (LaneCove.expirePendingStep P now) _ _).1 = st₂ at h2 ⊢
  have h3 := Machine.run_state_invariant
    (P := fun st : PeerState Priv Key => HoldsButFlag i s st.sessions)
    (List.range st₂.sessions.length) (fun _ k _ h => h.expireSessionStep hexp k) h2
  refine Machine.run_state_invariant (P := fun st : PeerState Priv Key => Stays i s st.sessions) _
    (fun st' j _ h => ?_) (h3.stays ha)
  unfold keepaliveStep
  split
  · exact h
  · split
    · exact h
    · exact h.forwardOn C j [] (keepalive j)

theorem Stays.recvData {i j : ℕ} {s s₁ : PeerSession Key} {st : PeerState Priv Key}
    (h : Stays i s st.sessions) (hs₁ : st.sessions[j]? = some s₁) (C : Crypto Priv Key)
    (packet : Bytes) (now : Time) (env : RecvEnv Priv) :
    Stays i s (recvData C st j s₁ packet now env).1.sessions := by
  have hf := afterDecrypt_follows C s₁ packet now
  unfold LaneCove.recvData
  split
  · exact h.update hs₁ (SlotTable.updated_set hs₁ _) hf rfl
  · next recvSeq _ =>
    have hset : Stays i s (st.sessions.set j (afterAccept C s₁ packet now recvSeq)) :=
      h.update hs₁ (SlotTable.updated_set hs₁ _)
        (hf.trans ⟨id, rfl, rfl, rfl, rfl, id, rfl, rfl, rfl⟩) rfl
    unfold relayTo
    dsimp only
    split
    · exact Stays.forwardOn hset C _ _ _
    · exact hset
    · exact hset

variable [Inhabited Key]

/-- A handshake packet that completes nothing at most clears a flag. -/
theorem HoldsButFlag.handshake {C : Crypto Priv Key} {P : PeerParams Priv Key}
    {st : PeerState Priv Key} {i : ℕ} {s : PeerSession Key} (h : HoldsButFlag i s st.sessions)
    {src : SockAddr} {packet : Bytes} {now : Time} {env : RecvEnv Priv}
    (hhs : isHandshake P.psk packet = true)
    (hc : commitOf C P st (.udpRecv src packet now env) = none) :
    HoldsButFlag i s (LaneCove.step C P st (.udpRecv src packet now env)).1.sessions := by
  simp only [commitOf, hhs, if_true] at hc
  cases hfind : findPending st.pending src with
  | some j =>
    obtain ⟨p, hp, -⟩ := findPending_eq_some hfind
    simp only [hfind, hp, Option.bind_some, commitResponse] at hc
    have hrecv := Option.map_eq_none_iff.mp hc
    simp only [LaneCove.step, udpRecv, hhs, if_true, hfind, recvResponse, hp, hrecv]
    exact h.setRekeying _ false
  | none =>
    rw [hfind] at hc
    simp only [commitInit] at hc
    rw [step_inbound C P hhs hfind]
    split
    · exact h
    · next hcool =>
      rw [if_neg hcool] at hc
      generalize respond C P st packet env.respondOk = r at hc ⊢
      obtain ⟨reply, derived⟩ := r
      cases derived with
      | none => exact h
      | some d =>
        simp only [commitKnown] at hc
        simp only [commitInbound, refreshPrecompEph_configs, refreshPrecompEph_sessions]
        cases hcfg : findPeerConfig st.configs d.1 with
        | none => exact (refreshPrecompEph_sessions st env.freshEph).symm ▸ h
        | some cfg =>
          rw [hcfg] at hc
          cases hpub : inCooldown P.settings st.sessions (findSessionByPub st.sessions d.1) now with
          | true => exact (refreshPrecompEph_sessions st env.freshEph).symm ▸ h
          | false => exact absurd hc (by simp [hpub])

/-- **Step**: if a reaction completes no handshake, a session stays unless it expires. -/
theorem step_stays {C : Crypto Priv Key} {P : PeerParams Priv Key} {st : PeerState Priv Key}
    {inp : Input Priv} (hc : commitOf C P st inp = none) {i : ℕ} {s : PeerSession Key}
    (hs : st.sessions[i]? = some s) (ha : s.active = true)
    (hexp : ∀ now connect keepalive, inp = .tick now connect keepalive →
      s.expired P.settings now = false) : Stays i s (step C P st inp).1.sessions := by
  have hself := Stays.of_getElem? hs ha
  cases inp with
  | tick now connect keepalive =>
    unfold step tick
    dsimp only
    split
    · exact hself
    · have hs' : ({ st with lastRekeyCheck := now } : PeerState Priv Key).sessions[i]? =
          some s := hs
      exact Stays.timers hs' ha C (hexp now connect keepalive rfl) connect keepalive
  | tunRead buffer env =>
    unfold step tunRead
    dsimp only
    split
    · split
      · exact hself
      · exact hself.forwardOn C _ buffer env
    · exact hself
  | udpRecv src packet now env =>
    by_cases hhs : isHandshake P.psk packet = true
    · have hkept : HoldsButFlag i s st.sessions := ⟨s.rekeying, hs⟩
      exact (hkept.handshake hhs hc).stays ha
    · unfold step udpRecv
      dsimp only
      rw [if_neg hhs]
      split
      · exact hself
      · split
        · exact hself
        · next s₁ hs₁ => exact hself.recvData hs₁ C packet now env

-- ════════════════════════════════════════════════════════════════════════
-- Young sessions
-- ════════════════════════════════════════════════════════════════════════

omit [Inhabited Key] in
/-- The clock readings of a reaction on which the cooldown depends, in order. -/
def Input.readings : Input Priv → List Time
  | .tick now _ _ => [now]
  | .tunRead .. => []
  | .udpRecv _ _ now env => [now, env.clk.handshake]

/-- If the initiation is answered, nothing keeps it from setting up a session but the cooldown of
its initiator. -/
def AnswerRecorded (C : Crypto Priv Key) (P : PeerParams Priv Key) (st : PeerState Priv Key)
    (src : SockAddr) (packet : Bytes) (now : Time) (sendOk : Bool) : Prop :=
  inCooldown P.settings st.sessions (findSessionByAddr st.sessions src) now = true ∨
  canRespond C P st packet sendOk = false ∨
  ∀ pub ∈ initiatorOf C P packet, (findPeerConfig st.configs pub).isSome = true ∧
    (allocSession st.sessions pub src).isSome = true ∧
    (C.suite.secret st.precompEphKey pub).isSome = true

omit [Inhabited Key] in
/-- If the initiator has a session in its cooldown, the initiation comes from its address. -/
def FromOwnAddr (C : Crypto Priv Key) (P : PeerParams Priv Key) (st : PeerState Priv Key)
    (src : SockAddr) (packet : Bytes) (now : Time) : Prop :=
  ∀ pub ∈ initiatorOf C P packet, ∀ s ∈ st.sessions, s.active = true → s.staticPub = pub →
    now < s.lastHandshake + P.settings.handshakeCooldown → s.addr = src

/-- The cooldown checks see the last answer: every initiation that is answered sets up a session
unless its initiator is in its cooldown, and then it comes from the address of its session; no
session of a peer moves to the address of another one; a response that completes an outbound
handshake moves or replaces no session in its cooldown; and no session expires in its
cooldown. -/
def CooldownOk (C : Crypto Priv Key) (P : PeerParams Priv Key) (st : PeerState Priv Key) :
    Input Priv → Prop
  | .tick now _ _ => ∀ s ∈ st.sessions, s.expired P.settings now = true →
      s.lastHandshake + P.settings.handshakeCooldown ≤ now
  | .tunRead .. => True
  | .udpRecv src packet now env =>
      (isHandshake P.psk packet = true → findPending st.pending src = none →
        AnswerRecorded C P st src packet now env.respondOk ∧
          FromOwnAddr C P st src packet now) ∧
      AddrNotTaken C P st (.udpRecv src packet now env) ∧
      ∀ c ∈ commitOf C P st (.udpRecv src packet now env), c.isOutbound = true →
        ∀ s ∈ st.sessions, s.active = true →
          now < s.lastHandshake + P.settings.handshakeCooldown →
          (s.staticPub = c.pub ↔ s.addr = c.src)

omit [Inhabited Key] in
/-- An active session of the peer `pub` at the address `src` has had its handshake at
`t` or later. -/
def Young (src : SockAddr) (pub : Bytes) (t : Time) (ss : List (PeerSession Key)) : Prop :=
  ∃ (i : ℕ) (s : PeerSession Key), ss[i]? = some s ∧ s.active = true ∧ s.addr = src ∧
    s.staticPub = pub ∧ t ≤ s.lastHandshake

/-- The slot of an active session is allocated for its key or its address. -/
theorem Alloc.of_active {ss : List (PeerSession Key)} {pub : Bytes} {src : SockAddr} {i : ℕ}
    {s s₀ : PeerSession Key} (halloc : Alloc ss pub src i s₀) (hs : ss[i]? = some s)
    (ha : s.active = true) :
    s.staticPub = pub ∧ findSessionByPub ss pub = some i ∨
      s.addr = src ∧ findSessionByAddr ss src = some i := by
  cases halloc with
  | byPub hs₀ _ hpub hfind =>
    obtain rfl := Option.some.inj (hs₀.symm.trans hs)
    exact Or.inl ⟨hpub, hfind⟩
  | byAddr _ hs₀ _ haddr hfind =>
    obtain rfl := Option.some.inj (hs₀.symm.trans hs)
    exact Or.inr ⟨haddr, hfind⟩
  | free _ _ hs₀ hfree =>
    obtain rfl := Option.some.inj (hs₀.symm.trans hs)
    exact absurd ha (by simp [hfree])
  | fresh => exact absurd hs (by simp)

section Young

variable {src : SockAddr} {pub : Bytes} {t : Time} {C : Crypto Priv Key} {P : PeerParams Priv Key}
  {st : PeerState Priv Key} {inp : Input Priv}

/-- What replaces a young session within the cooldown: never an inbound handshake, and
an outbound one only for both its key and its address. -/
theorem replaced_young (hok : CooldownOk C P st inp)
    (hread : ∀ r ∈ inp.readings, r < t + P.settings.handshakeCooldown) {c : Commit Key}
    (hc : commitOf C P st inp = some c) {i : ℕ} {s s₀ : PeerSession Key}
    (hs : st.sessions[i]? = some s) (ha : s.active = true) (ht : t ≤ s.lastHandshake)
    (halloc : Alloc st.sessions c.pub c.src i s₀) : c.src = s.addr ∧ c.pub = s.staticPub := by
  have hyoung : ∀ now ∈ inp.readings, now < s.lastHandshake + P.settings.handshakeCooldown :=
    fun now hnow => lt_of_lt_of_le (hread now hnow) (add_le_add_left ht _)
  have hfound := halloc.of_active hs ha
  have hcases := completes_of_commitOf hc
  cases hcases with
  | response hhs hfind hp hrecv =>
    have hnow := hyoung _ (List.mem_cons_self ..)
    have hiff := hok.2.2 _ hc rfl s (List.mem_of_getElem? hs) ha hnow
    rcases hfound with ⟨hpub, -⟩ | ⟨haddr, -⟩
    · exact ⟨(hiff.mp hpub).symm, hpub.symm⟩
    · exact ⟨haddr.symm, (hiff.mpr haddr).symm⟩
  | init hhs hpend haddr hresp hcfg hpub =>
    have hnow := hyoung _ (List.mem_cons_self ..)
    rcases hfound with ⟨-, hfind⟩ | ⟨-, hfind⟩
    · rw [hfind] at hpub
      exact absurd hnow (not_lt.mpr ((inCooldown_eq_false hs).mp hpub))
    · rw [hfind] at haddr
      exact absurd hnow (not_lt.mpr ((inCooldown_eq_false hs).mp haddr))

/-- **Step**: within the cooldown after `t`, a young session stays, or one of the same
peer at the same address takes its place. -/
theorem Young.step (h : Young src pub t st.sessions) (hok : CooldownOk C P st inp)
    (hread : ∀ r ∈ inp.readings, t ≤ r ∧ r < t + P.settings.handshakeCooldown) :
    Young src pub t (step C P st inp).1.sessions := by
  obtain ⟨i, s, hs, ha, haddr, hpub, ht⟩ := h
  rcases step_cases C P st inp with ⟨hc, -⟩ | ⟨c, pre, hc, -, hss, -⟩
  · have hexp : ∀ now connect keepalive, inp = .tick now connect keepalive →
        s.expired P.settings now = false := by
      rintro now connect keepalive rfl
      have hlt := (hread now (List.mem_singleton_self now)).2
      by_contra hexp
      have hle := hok s (List.mem_of_getElem? hs) (by simpa using hexp)
      exact absurd hlt (not_lt.mpr ((add_le_add_left ht _).trans hle))
    obtain ⟨s', hs', hf, ha'⟩ := step_stays hc hs ha hexp
    exact ⟨i, s', hs', ha', hf.addr.trans haddr, hf.staticPub.trans hpub, hf.lastHandshake ▸ ht⟩
  · rw [hss]
    rcases installTable_cases P.settings c st.sessions with ⟨-, he⟩ | ⟨slot, s₀, -, halloc, hupd⟩
    · rw [he]
      exact ⟨i, s, hs, ha, haddr, hpub, ht⟩
    · by_cases hi : i = slot
      · subst hi
        obtain ⟨hsrc', hpub'⟩ :=
          replaced_young hok (fun r hr => (hread r hr).2) hc hs ha ht halloc
        have hclk : c.clk.handshake ∈ inp.readings := by
          have hinp := clk_of_commitOf hc
          cases inp with
          | udpRecv src packet now env => simp [Input.readings, ← Option.some.inj hinp]
          | tick => exact absurd hinp (by simp [Input.clk])
          | tunRead => exact absurd hinp (by simp [Input.clk])
        exact ⟨i, _, hupd.self, rfl, hsrc'.trans haddr, hpub'.trans hpub, (hread _ hclk).1⟩
      · exact ⟨i, s, (hupd.of_ne hi).trans hs, ha, haddr, hpub, ht⟩

omit [Inhabited Key] in
/-- The cooldown of an initiator that stays at its address is over when that of the address is:
both checks read the same session. -/
theorem FromOwnAddr.cooldown_over (haddrs : DistinctAddrs st.sessions) {packet : Bytes}
    {now : Time} (hfrom : FromOwnAddr C P st src packet now)
    (hcool : inCooldown P.settings st.sessions (findSessionByAddr st.sessions src) now = false)
    (hinit : initiatorOf C P packet = some pub) :
    inCooldown P.settings st.sessions (findSessionByPub st.sessions pub) now = false := by
  cases hfind : findSessionByPub st.sessions pub with
  | none => rfl
  | some i =>
    obtain ⟨s, hs, ha, hpub⟩ := findSessionByPub_eq_some hfind
    rw [inCooldown_eq_false hs]
    by_contra hlt
    have haddr := hfrom pub hinit s (List.mem_of_getElem? hs) ha hpub (not_le.mp hlt)
    rw [← haddr, distinctAddrs_iff.mp haddrs i s hs ha, inCooldown_eq_false hs] at hcool
    exact hlt hcool

/-- An answer leaves a young session, and the cooldowns of its address and its
initiator were over. -/
theorem young_of_answered (haddrs : DistinctAddrs st.sessions) {packet resp : Bytes} {now : Time}
    {env : RecvEnv Priv} (hok : CooldownOk C P st (.udpRecv src packet now env))
    (hsent : .sentResponse src packet resp ∈
      (LaneCove.step C P st (.udpRecv src packet now env)).2) :
    inCooldown P.settings st.sessions (findSessionByAddr st.sessions src) now = false ∧
    ∃ pub, initiatorOf C P packet = some pub ∧
      inCooldown P.settings st.sessions (findSessionByPub st.sessions pub) now = false ∧
      Young src pub env.clk.handshake
        (LaneCove.step C P st (.udpRecv src packet now env)).1.sessions := by
  have hresp := sentResponse_mem_iff.mp hsent
  simp only [respondCall] at hresp
  split at hresp
  · next hcall =>
    simp only [Bool.and_eq_true, Option.isNone_iff_eq_none, Bool.not_eq_true'] at hcall
    obtain ⟨⟨hhs, hpend⟩, hcool⟩ := hcall
    refine ⟨hcool, ?_⟩
    have hspec := respond_spec C P st hhs env.respondOk
    split at hspec
    · next pub hinit hcan =>
      obtain ⟨hrecorded, hfrom⟩ := hok.1 hhs hpend
      have hpub := hfrom.cooldown_over haddrs hcool hinit
      rcases hrecorded with hcool' | hcan' | hall
      · exact absurd hcool' (by simp [hcool])
      · exact absurd hcan' (by simp [hcan])
      · obtain ⟨hcfg, halloc, hsecret⟩ := hall pub hinit
        obtain ⟨resp', key, hrespond, hkey⟩ := hspec
        rw [hsecret] at hkey
        obtain ⟨key, rfl⟩ := Option.isSome_iff_exists.mp hkey
        obtain ⟨cfg, hcfg⟩ := Option.isSome_iff_exists.mp hcfg
        let c : Commit Key := ⟨src, pub, key, cfg, false, packet, env.clk⟩
        have hc : commitOf C P st (.udpRecv src packet now env) = some c := by
          simp [commitOf, hhs, hpend, commitInit, hcool, hrespond, commitKnown, hcfg, hpub, c]
        refine ⟨pub, hinit, hpub, ?_⟩
        rcases step_cases C P st (.udpRecv src packet now env) with
          ⟨hnone, -⟩ | ⟨c', pre, hc', -, hss, -⟩
        · rw [hnone] at hc
          exact absurd hc (by simp)
        · obtain rfl : c' = c := Option.some.inj (hc'.symm.trans hc)
          rw [hss]
          rcases installTable_cases P.settings c st.sessions with
            ⟨hfull, -⟩ | ⟨slot, s₀, -, -, hupd⟩
          · exact absurd halloc (by simp [show allocSession st.sessions pub src = none from hfull])
          · exact ⟨slot, _, hupd.self, rfl, rfl, rfl, le_rfl⟩
    · rw [hspec] at hresp
      exact absurd hresp (by simp)
  · exact absurd hresp (by simp)

/-- **Run**: and so in a sequence of reactions within the cooldown. -/
theorem Young.run (h : Young src pub t st.sessions) {is : List (Input Priv)}
    (hok : Machine.Guarded (LaneCove.step C P) (CooldownOk C P) st is)
    (hread : ∀ inp ∈ is, ∀ r ∈ inp.readings, t ≤ r ∧ r < t + P.settings.handshakeCooldown) :
    Young src pub t (Machine.run (LaneCove.step C P) st is).1.sessions := by
  induction is generalizing st with
  | nil => exact h
  | cons inp is ih =>
    have hnext := h.step hok.1 (hread inp (by simp))
    exact ih hnext hok.2 fun inp' hinp' => hread inp' (by simp [hinp'])

theorem CooldownOk.addrNotTaken (hok : CooldownOk C P st inp) : AddrNotTaken C P st inp := by
  cases inp with
  | udpRecv src packet now env => exact hok.2.1
  | tick => exact fun c hc => absurd hc (by simp [commitOf])
  | tunRead => exact fun c hc => absurd hc (by simp [commitOf])

theorem distinctAddrs_of_cooldownOk {configs : List PeerConfig} {eph : Option Priv}
    {is : List (Input Priv)} (hok : Machine.Guarded (LaneCove.step C P) (CooldownOk C P)
      (PeerState.initial configs eph) is) :
    DistinctAddrs (Machine.run (LaneCove.step C P) (PeerState.initial configs eph) is).1.sessions :=
  Machine.run_invariant_of_guarded (I := fun st _ => DistinctAddrs st.sessions)
    (fun _ _ inp hd hok => (distinctAddrs_step_iff C P hd inp).mpr hok.addrNotTaken)
    (fun i j a b ha => absurd ha (by simp [PeerState.initial])) hok

end Young

/-- **Responses are a cooldown apart**: in every run with a non-decreasing clock in
which the cooldown checks see the last answer, if two responses go to the same
address, or to initiations that name the same public key, the second one is received
at least `handshake_cooldown` after the first one was sent. -/
theorem responses_apart (C : Crypto Priv Key) (P : PeerParams Priv Key) (configs : List PeerConfig)
    (eph : Option Priv) (is₁ is₂ : List (Input Priv)) {src₁ src₂ : SockAddr}
    {packet₁ packet₂ resp₁ resp₂ : Bytes} {now₁ now₂ : Time} {env₁ env₂ : RecvEnv Priv}
    (hclock : ((is₁ ++ Input.udpRecv src₁ packet₁ now₁ env₁ ::
      (is₂ ++ [Input.udpRecv src₂ packet₂ now₂ env₂])).flatMap Input.readings).Pairwise (· ≤ ·))
    (hok : Machine.Guarded (step C P) (CooldownOk C P) (PeerState.initial configs eph)
      (is₁ ++ Input.udpRecv src₁ packet₁ now₁ env₁ ::
        (is₂ ++ [Input.udpRecv src₂ packet₂ now₂ env₂])))
    (h₁ : .sentResponse src₁ packet₁ resp₁ ∈ (step C P
      (Machine.run (step C P) (PeerState.initial configs eph) is₁).1
      (.udpRecv src₁ packet₁ now₁ env₁)).2)
    (h₂ : .sentResponse src₂ packet₂ resp₂ ∈ (step C P
      (Machine.run (step C P) (PeerState.initial configs eph)
        (is₁ ++ Input.udpRecv src₁ packet₁ now₁ env₁ :: is₂)).1
      (.udpRecv src₂ packet₂ now₂ env₂)).2)
    (hsame : src₂ = src₁ ∨ initiatorOf C P packet₂ = initiatorOf C P packet₁) :
    env₁.clk.handshake + P.settings.handshakeCooldown ≤ now₂ := by
  have hpubs := distinctPubs_run C P configs eph
    (is₁ ++ Input.udpRecv src₁ packet₁ now₁ env₁ :: is₂)
  obtain ⟨hok₁, hfirst, hrest⟩ := (Machine.guarded_append ..).mp hok
  obtain ⟨hok₂, hsecond, -⟩ := (Machine.guarded_append ..).mp hrest
  have haddrs := distinctAddrs_of_cooldownOk ((Machine.guarded_append (CooldownOk C P)
    (PeerState.initial configs eph) is₁ (.udpRecv src₁ packet₁ now₁ env₁ :: is₂)).mpr
      ⟨hok₁, hfirst, hok₂⟩)
  simp only [Machine.run_append, Machine.run_cons] at hpubs haddrs h₂
  obtain ⟨-, pub, hinit₁, -, hyoung⟩ :=
    young_of_answered (distinctAddrs_of_cooldownOk hok₁) hfirst h₁
  generalize (step C P (Machine.run (step C P) (PeerState.initial configs eph) is₁).1
    (.udpRecv src₁ packet₁ now₁ env₁)).1 = st at *
  obtain ⟨haddr, pub₂, hinit₂, hpub, -⟩ := young_of_answered haddrs hsecond h₂
  by_contra hlt
  -- all the reactions in between read the clock within the cooldown
  have hread : ∀ inp ∈ is₂, ∀ r ∈ inp.readings,
      env₁.clk.handshake ≤ r ∧ r < env₁.clk.handshake + P.settings.handshakeCooldown := by
    intro inp hinp r hr
    simp only [List.flatMap_append, List.flatMap_cons, List.flatMap_nil, Input.readings] at hclock
    have hmem : r ∈ is₂.flatMap Input.readings := List.mem_flatMap.mpr ⟨inp, hinp, hr⟩
    have htail := (List.pairwise_append.mp (List.pairwise_append.mp hclock).2.1)
    refine ⟨htail.2.2 _ (by simp) _ (by simp [hmem]), ?_⟩
    have hle := (List.pairwise_append.mp htail.2.1).2.2 r hmem now₂ (by simp)
    exact lt_of_le_of_lt hle (not_le.mp hlt)
  obtain ⟨i, s, hs, ha, hsrc, hspub, ht⟩ := hyoung.run hok₂ hread
  have hover : s.lastHandshake + P.settings.handshakeCooldown ≤ now₂ := by
    rcases hsame with rfl | hsame
    · rw [← hsrc, distinctAddrs_iff.mp haddrs i s hs ha] at haddr
      exact (inCooldown_eq_false hs).mp haddr
    · obtain rfl : pub₂ = pub := Option.some.inj (hinit₂.symm.trans (hsame.trans hinit₁))
      rw [← hspub, hpubs.findSessionByPub hs ha] at hpub
      exact (inCooldown_eq_false hs).mp hpub
  exact hlt ((add_le_add_left ht _).trans hover)

instance (C : Crypto Priv Key) (P : PeerParams Priv Key) (st : PeerState Priv Key)
    (inp : Input Priv) : Decidable (AddrNotTaken C P st inp) :=
  decidable_of_iff (∀ c ∈ commitOf C P st inp,
      ∀ i ∈ findSessionByPub st.sessions c.pub, ∀ j ∈ findSessionByAddr st.sessions c.src, i = j)
    ⟨fun h c hc i j hi hj => h c hc i hi j hj, fun h c hc i hi j hj => h c hc i j hi hj⟩

instance (C : Crypto Priv Key) (P : PeerParams Priv Key) (st : PeerState Priv Key)
    (src : SockAddr) (packet : Bytes) (now : Time) (sendOk : Bool) :
    Decidable (AnswerRecorded C P st src packet now sendOk) :=
  inferInstanceAs (Decidable (_ ∨ _ ∨ ∀ pub ∈ initiatorOf C P packet, _))

omit [Inhabited Key] in
instance (C : Crypto Priv Key) (P : PeerParams Priv Key) (st : PeerState Priv Key)
    (src : SockAddr) (packet : Bytes) (now : Time) :
    Decidable (FromOwnAddr C P st src packet now) :=
  inferInstanceAs (Decidable (∀ pub ∈ initiatorOf C P packet, ∀ s ∈ st.sessions, _ → _))

instance (C : Crypto Priv Key) (P : PeerParams Priv Key) (st : PeerState Priv Key) :
    ∀ inp, Decidable (CooldownOk C P st inp)
  | .tick .. => inferInstanceAs (Decidable (∀ s ∈ st.sessions, _ → _))
  | .tunRead .. => inferInstanceAs (Decidable True)
  | .udpRecv .. => inferInstanceAs (Decidable
      ((_ → findPending _ _ = none → _) ∧ AddrNotTaken C P st _ ∧ ∀ c ∈ commitOf C P st _, _))

namespace Sample

/-- Initiations of a peer, one from its address `n` at each of the times. -/
def initiationAt (peer : UInt8) (n : ℕ) (eph : UInt8) (now : Time) : Input UInt8 :=
  .udpRecv (addr n) (initiation peer 1 eph) now (recvEnv now (eph + 10))

end Sample

open Sample in
theorem responses_apart_twice :
    (responses (serverRun [initiationAt 2 2 10 100, initiationAt 2 2 11 105]).2).length = 2 ∧
    (100 : Time) + (params 1).settings.handshakeCooldown ≤ 105 := by
  refine ⟨by decide +kernel, ?_⟩
  obtain ⟨resp₁, h₁⟩ := Option.isSome_iff_exists.mp (show (respondCall crypto (params 1)
    (serverRun []).1 (initiationAt 2 2 10 100)).1.isSome = true by decide +kernel)
  obtain ⟨resp₂, h₂⟩ := Option.isSome_iff_exists.mp (show (respondCall crypto (params 1)
    (serverRun [initiationAt 2 2 10 100]).1 (initiationAt 2 2 11 105)).1.isSome = true
    by decide +kernel)
  exact responses_apart crypto (params 1) [peerConfig 2 false, peerConfig 3 false] (some 4) [] []
    (by decide +kernel) (by decide +kernel) (sentResponse_mem_iff.mpr h₁)
    (sentResponse_mem_iff.mpr h₂) (Or.inl rfl)

open Sample in
/-- Two initiations from one address, one second apart, that name the same unknown peer
are both answered. -/
theorem unknown_answered_twice :
    ([initiationAt 9 9 10 100, initiationAt 9 9 11 101].flatMap Input.readings).Pairwise (· ≤ ·) ∧
    (∃ resp, .sentResponse (addr 9) (initiation 9 1 10) resp ∈
      (step crypto (params 1) (serverRun []).1 (initiationAt 9 9 10 100)).2) ∧
    (∃ resp, .sentResponse (addr 9) (initiation 9 1 11) resp ∈
      (step crypto (params 1) (serverRun [initiationAt 9 9 10 100]).1
        (initiationAt 9 9 11 101)).2) ∧
    initiatorOf crypto (params 1) (initiation 9 1 10) = some (crypto.publicKey 9) ∧
    initiatorOf crypto (params 1) (initiation 9 1 11) = some (crypto.publicKey 9) ∧
    (101 : Time) < 100 + (params 1).settings.handshakeCooldown := by
  obtain ⟨resp₁, h₁⟩ := Option.isSome_iff_exists.mp (show (respondCall crypto (params 1)
    (serverRun []).1 (initiationAt 9 9 10 100)).1.isSome = true by decide +kernel)
  obtain ⟨resp₂, h₂⟩ := Option.isSome_iff_exists.mp (show (respondCall crypto (params 1)
    (serverRun [initiationAt 9 9 10 100]).1 (initiationAt 9 9 11 101)).1.isSome = true
    by decide +kernel)
  exact ⟨by decide +kernel, ⟨resp₁, sentResponse_mem_iff.mpr h₁⟩,
    ⟨resp₂, sentResponse_mem_iff.mpr h₂⟩, by decide +kernel, by decide +kernel, by decide⟩

end LaneCove
