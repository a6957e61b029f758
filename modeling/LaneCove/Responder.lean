import LaneCove.SessionTrace
import LaneCove.Sample

/-!
# Answering an initiation

`handshake_server_respond` sends the response before it derives the session key,
and the event loop makes its own checks only after that: is the initiator
configured, is its cooldown over, is there a slot. So an initiation can be
answered without a session being installed. No nonce tells a repeated initiation
from a new one; only the cooldowns keep it from replacing a session.

## Main definitions

- `initiatorOf`, `canRespond` — whom a packet names, and whether it can be answered
- `CommitsAnswer` — the checks after the response will pass
- `AnswersExactly` — a response is sent if and only if a session is installed

## Main results

- `answersExactly_iff` — this is the case exactly under `CommitsAnswer`
- `inbound_cooldown` — what an inbound install requires of the sessions before it
- `repeated_initiation` — two installs by one initiation are a cooldown apart
-/

namespace LaneCove

variable {Priv Key : Type}

/-- The initiator a packet names, if HMAC and identity are valid. -/
def initiatorOf (C : Crypto Priv Key) (P : PeerParams Priv Key) (packet : Bytes) : Option Bytes :=
  C.suite.initiator P.psk P.staticKey (decodeHs P.psk packet)

/-- Can a response to the packet be made and sent? -/
def canRespond (C : Crypto Priv Key) (P : PeerParams Priv Key) (st : PeerState Priv Key)
    (packet : Bytes) (sendOk : Bool) : Bool :=
  sendOk && (C.suite.response P.psk P.staticPub st.precompEphKey (st.precompEphPub C)
    (decodeHs P.psk packet)).isSome

/-- The source is in its cooldown, or no response can be made, or the packet names
no initiator, or else all that follows the response will succeed: the initiator is
configured and not in its cooldown, there is a slot, and the last shared secret
exists. -/
def CommitsAnswer [Inhabited Key] (C : Crypto Priv Key) (P : PeerParams Priv Key)
    (st : PeerState Priv Key) (src : SockAddr) (packet : Bytes) (now : Time) (sendOk : Bool) :
    Prop :=
  inCooldown P.settings st.sessions (findSessionByAddr st.sessions src) now = true ∨
  canRespond C P st packet sendOk = false ∨
  ∀ pub ∈ initiatorOf C P packet, (findPeerConfig st.configs pub).isSome = true ∧
    inCooldown P.settings st.sessions (findSessionByPub st.sessions pub) now = false ∧
    (allocSession st.sessions pub src).isSome = true ∧
    (C.suite.secret st.precompEphKey pub).isSome = true

/-- A response is sent if and only if a session is installed for the initiator, with
the key that the responder derives for it. -/
def AnswersExactly (C : Crypto Priv Key) (P : PeerParams Priv Key) (st : PeerState Priv Key)
    (src : SockAddr) (packet : Bytes) (sendOk : Bool)
    (r : PeerState Priv Key × List (Event Key)) : Prop :=
  (∃ dst init resp, .sentResponse dst init resp ∈ r.2) ↔
    ∃ pub key slot s, (respond C P st packet sendOk).2 = some (pub, key) ∧
      .installed slot src pub key false packet ∈ r.2 ∧
      r.1.sessions[slot]? = some s ∧ s.active = true ∧ s.staticPub = pub ∧ s.sessionKey = key

/-- `handshake_server_respond` answers exactly the packets that name an initiator
and can be answered. -/
theorem respond_spec (C : Crypto Priv Key) (P : PeerParams Priv Key) (st : PeerState Priv Key)
    {packet : Bytes} (hhs : isHandshake P.psk packet = true) (sendOk : Bool) :
    match initiatorOf C P packet, canRespond C P st packet sendOk with
    | some pub, true => ∃ (resp : Bytes) (key : Option Key),
        respond C P st packet sendOk = (some resp, key.map fun key => (pub, key)) ∧
        key.isSome = (C.suite.secret st.precompEphKey pub).isSome
    | _, _ => respond C P st packet sendOk = (none, none) := by
  have hspec := C.suite.serverRespond_spec P.psk P.staticKey P.staticPub st.precompEphKey
    (st.precompEphPub C) (decodeHs P.psk packet)
  unfold respond handshakeServerRespond initiatorOf canRespond
  rw [hhs]
  cases hi : C.suite.initiator P.psk P.staticKey (decodeHs P.psk packet) with
  | none =>
    rw [hi] at hspec
    simp only at hspec
    simp [hspec]
  | some pub =>
    cases hr : C.suite.response P.psk P.staticPub st.precompEphKey (st.precompEphPub C)
        (decodeHs P.psk packet) with
    | none =>
      rw [hi, hr] at hspec
      simp only at hspec
      simp [hspec]
    | some resp =>
      rw [hi, hr] at hspec
      obtain ⟨key, hresp, hkey⟩ := hspec
      cases sendOk with
      | false => simp [hresp]
      | true => exact ⟨encodeHs resp, key, by simp [hresp], hkey⟩

variable [Inhabited Key]

/-- The checks after the response let the install through exactly for a configured
peer out of its cooldown, with a slot to be had. -/
theorem commitInbound_installs_iff (P : PeerParams Priv Key) (st : PeerState Priv Key)
    (src : SockAddr) (packet : Bytes) (now : Time) (clk : InitClock) (pub : Bytes) (key : Key) :
    (∃ slot s, .installed slot src pub key false packet ∈
        (commitInbound P st src packet now clk pub key).2 ∧
      (commitInbound P st src packet now clk pub key).1.sessions[slot]? = some s ∧
      s.active = true ∧ s.staticPub = pub ∧ s.sessionKey = key) ↔
    (findPeerConfig st.configs pub).isSome = true ∧
      inCooldown P.settings st.sessions (findSessionByPub st.sessions pub) now = false ∧
      (allocSession st.sessions pub src).isSome = true := by
  simp only [commitInbound]
  cases hcfg : findPeerConfig st.configs pub with
  | none => simp
  | some cfg =>
    cases hcool : inCooldown P.settings st.sessions (findSessionByPub st.sessions pub) now with
    | true => simp
    | false =>
      cases halloc : allocSession st.sessions pub src with
      | none => simp [install, halloc]
      | some r =>
        obtain ⟨slot, ss'⟩ := r
        obtain ⟨s, -, hupd⟩ := allocSession_eq_some halloc
        let c : Commit Key := { src, pub, key, cfg, isOutbound := false, cause := packet, clk }
        have hself := (hupd (c.session P.settings)).self
        refine ⟨fun _ => by simp, fun _ => ⟨slot, c.session P.settings s, ?_, ?_, rfl, rfl, rfl⟩⟩
        · simp [install, halloc]
        · simpa [install, halloc] using hself

/-- On the inbound path a step is `recvInit`. -/
theorem step_inbound (C : Crypto Priv Key) (P : PeerParams Priv Key) {st : PeerState Priv Key}
    {src : SockAddr} {packet : Bytes} (hhs : isHandshake P.psk packet = true)
    (hpend : findPending st.pending src = none) (now : Time) (env : RecvEnv Priv) :
    step C P st (.udpRecv src packet now env) =
      if inCooldown P.settings st.sessions (findSessionByAddr st.sessions src) now then (st, [])
      else
        match respond C P st packet env.respondOk with
        | (reply, none) => (st, responseEvents src packet reply)
        | (reply, some (pub, key)) =>
          let r := commitInbound P (refreshPrecompEph st env.freshEph) src packet now env.clk pub
            key
          (r.1, responseEvents src packet reply ++ .negotiated pub key :: r.2) := by
  simp only [step, udpRecv, hhs, if_true, hpend, recvInit, tieBreak_of_findPending_none hpend]
  split
  · rfl
  · obtain ⟨reply, derived⟩ := respond C P st packet env.respondOk
    cases derived <;> rfl

section Answer

variable {C : Crypto Priv Key} {P : PeerParams Priv Key} {st : PeerState Priv Key}
  {src : SockAddr} {packet resp pub : Bytes} {key : Key} {sendOk : Bool}
  {r : PeerState Priv Key × List (Event Key)}

omit [Inhabited Key] in
theorem answersExactly_of_silent (h : r.2 = []) : AnswersExactly C P st src packet sendOk r := by
  simp [AnswersExactly, h]

omit [Inhabited Key] in
/-- If the key derivation fails after the response was sent, the answer is not exact. -/
theorem not_answersExactly_of_respond (h : respond C P st packet sendOk = (some resp, none))
    (hsent : .sentResponse src packet resp ∈ r.2) :
    ¬ AnswersExactly C P st src packet sendOk r := by
  intro hex
  obtain ⟨_, _, _, _, heq, _⟩ := hex.mp ⟨src, packet, resp, hsent⟩
  rw [h] at heq
  simp at heq

omit [Inhabited Key] in
/-- If a response with this key was sent, the answer is exact if the key is installed. -/
theorem answersExactly_iff_of_respond
    (h : respond C P st packet sendOk = (some resp, some (pub, key)))
    (hsent : .sentResponse src packet resp ∈ r.2) :
    AnswersExactly C P st src packet sendOk r ↔
      ∃ slot s, .installed slot src pub key false packet ∈ r.2 ∧ r.1.sessions[slot]? = some s ∧
        s.active = true ∧ s.staticPub = pub ∧ s.sessionKey = key := by
  constructor
  · intro hex
    obtain ⟨pub', key', slot, s, heq, hmem, hs⟩ := hex.mp ⟨src, packet, resp, hsent⟩
    rw [h] at heq
    obtain ⟨rfl, rfl⟩ : pub = pub' ∧ key = key' := by simpa using heq
    exact ⟨slot, s, hmem, hs⟩
  · rintro ⟨slot, s, hmem, hs⟩
    exact iff_of_true ⟨src, packet, resp, hsent⟩ ⟨pub, key, slot, s, by rw [h], hmem, hs⟩

end Answer

/-- **When the answer is exact**: on the inbound path a response goes out if and only
if a session is installed for its key, exactly when everything after the response
succeeds. -/
theorem answersExactly_iff (C : Crypto Priv Key) (P : PeerParams Priv Key)
    (st : PeerState Priv Key) (src : SockAddr) (packet : Bytes) (now : Time) (env : RecvEnv Priv)
    (hhs : isHandshake P.psk packet = true) (hpend : findPending st.pending src = none) :
    AnswersExactly C P st src packet env.respondOk
        (step C P st (.udpRecv src packet now env)) ↔
      CommitsAnswer C P st src packet now env.respondOk := by
  have hspec := respond_spec C P st hhs env.respondOk
  rw [step_inbound C P hhs hpend]
  simp only [CommitsAnswer]
  cases hcool : inCooldown P.settings st.sessions (findSessionByAddr st.sessions src) now with
  | true => simpa using answersExactly_of_silent rfl
  | false =>
    cases hinit : initiatorOf C P packet with
    | none =>
      simp only [hinit] at hspec
      simpa [hspec, responseEvents] using answersExactly_of_silent rfl
    | some pub =>
      cases hcan : canRespond C P st packet env.respondOk with
      | false =>
        simp only [hinit, hcan] at hspec
        simpa [hspec, responseEvents] using answersExactly_of_silent rfl
      | true =>
        rw [hinit, hcan] at hspec
        obtain ⟨resp, key, hresp, hkey⟩ := hspec
        cases key with
        | none =>
          have hnot : ¬ AnswersExactly C P st src packet env.respondOk
              (st, responseEvents src packet (some resp)) :=
            not_answersExactly_of_respond hresp (by simp [responseEvents])
          simpa [hresp, ← hkey] using hnot
        | some key =>
          -- the response is out, so all depends on the checks of `commitInbound`
          have hiff := commitInbound_installs_iff P (refreshPrecompEph st env.freshEph) src packet
            now env.clk pub key
          simp only [refreshPrecompEph_configs, refreshPrecompEph_sessions] at hiff
          simp only [hresp, Option.map_some]
          rw [answersExactly_iff_of_respond hresp (by simp [responseEvents])]
          simpa [responseEvents, ← hkey] using hiff

instance (C : Crypto Priv Key) (P : PeerParams Priv Key) (st : PeerState Priv Key)
    (src : SockAddr) (packet : Bytes) (now : Time) (sendOk : Bool) :
    Decidable (CommitsAnswer C P st src packet now sendOk) :=
  inferInstanceAs (Decidable (_ ∨ _ ∨ ∀ pub ∈ initiatorOf C P packet, _))

open Sample in
/-- The first initiation of a configured peer meets the condition. -/
theorem answersExactly_first :
    isHandshake (params 1).psk (initiation 2 1 10) = true ∧
    AnswersExactly crypto (params 1) (serverRun []).1 (addr 2) (initiation 2 1 10) true
      (step crypto (params 1) (serverRun []).1
        (.udpRecv (addr 2) (initiation 2 1 10) 100 (recvEnv 100 20))) :=
  ⟨by decide +kernel, (answersExactly_iff crypto (params 1) (serverRun []).1 (addr 2)
    (initiation 2 1 10) 100 (recvEnv 100 20) (by decide +kernel) rfl).mpr (by decide +kernel)⟩

/-- The responses among the events. -/
def responses (es : List (Event Key)) : List Bytes :=
  es.filterMap fun
    | .sentResponse _ _ resp => some resp
    | _ => none

/-- The initiations that led to an inbound install, in order. -/
def inboundCauses (es : List (Event Key)) : List Bytes :=
  es.filterMap fun
    | .installed _ _ _ _ false cause => some cause
    | _ => none

omit [Inhabited Key] in
theorem mem_inboundCauses {es : List (Event Key)} {cause : Bytes} :
    cause ∈ inboundCauses es ↔
      ∃ slot addr pub key, .installed slot addr pub key false cause ∈ es := by
  constructor
  · intro h
    obtain ⟨e, he, heq⟩ := List.mem_filterMap.mp h
    cases e with
    | installed slot addr pub key isOutbound cause' =>
      cases isOutbound with
      | true => exact absurd heq (by simp)
      | false =>
        obtain rfl : cause' = cause := Option.some.inj heq
        exact ⟨slot, addr, pub, key, he⟩
    | _ => exact absurd heq (by simp)
  · rintro ⟨slot, addr, pub, key, he⟩
    exact List.mem_filterMap.mpr ⟨_, he, rfl⟩

namespace Sample

/-- Peer 1 has a session with peer 2 since time 100. -/
def connected : PeerState UInt8 SKey :=
  (serverRun [.udpRecv (addr 2) (initiation 2 1 10) 100 (recvEnv 100 20)]).1

/-- Peer 2 has moved to address 7 and initiates again within the cooldown. -/
def moved : PeerState UInt8 SKey × List (Event SKey) :=
  step crypto (params 1) connected (.udpRecv (addr 7) (initiation 2 1 11) 103 (recvEnv 103 21))

/-- The key peer 2 derives from the answer. -/
def movedKey : Option SKey :=
  (handshakeClientSend crypto none (crypto.publicKey 2) (crypto.publicKey 1) (some 11)
    true).bind fun r => (handshakeClientRecv crypto none 2 (crypto.publicKey 2) (crypto.publicKey 1)
      r.2 ((responses moved.2).headD [])).1

end Sample

omit [Inhabited Key] in
theorem not_answersExactly_of_events {C : Crypto Priv Key} {P : PeerParams Priv Key}
    {st : PeerState Priv Key} {src : SockAddr} {packet : Bytes} {sendOk : Bool}
    {r : PeerState Priv Key × List (Event Key)} (hresp : responses r.2 ≠ [])
    (hinst : inboundCauses r.2 = []) : ¬ AnswersExactly C P st src packet sendOk r := by
  intro hex
  have hsent : ∃ dst init resp, .sentResponse dst init resp ∈ r.2 := by
    obtain ⟨resp, hmem⟩ := List.exists_mem_of_ne_nil _ hresp
    obtain ⟨e, he, heq⟩ := List.mem_filterMap.mp hmem
    cases e <;> simp at heq
    exact ⟨_, _, _, he⟩
  obtain ⟨pub, key, slot, _, _, hmem, _⟩ := hex.mp hsent
  have hcause : packet ∈ inboundCauses r.2 := mem_inboundCauses.mpr ⟨_, _, _, _, hmem⟩
  rw [hinst] at hcause
  exact absurd hcause List.not_mem_nil

open Sample in
/-- A configured peer that comes from a new address within the cooldown is answered
and derives a key, but peer 1 keeps the old session. -/
theorem answered_without_session :
    isHandshake (params 1).psk (initiation 2 1 11) = true ∧
    findPending connected.pending (addr 7) = none ∧
    ¬ AnswersExactly crypto (params 1) connected (addr 7) (initiation 2 1 11) true moved ∧
    movedKey.isSome = true ∧ (∀ s ∈ moved.1.sessions, some s.sessionKey ≠ movedKey) := by
  refine ⟨by decide +kernel, by decide +kernel, ?_, by decide +kernel, by decide +kernel⟩
  exact not_answersExactly_of_events (by decide +kernel) (by decide +kernel)

/-- The clock `session_init` reads, if the input can lead to one. -/
def Input.clk : Input Priv → Option Time
  | .udpRecv _ _ _ env => some env.clk.handshake
  | .tick .. | .tunRead .. => none

omit [Inhabited Key] in
theorem inCooldown_eq_false {settings : Settings} {ss : List (PeerSession Key)} {i : ℕ}
    {s : PeerSession Key} {now : Time} (hs : ss[i]? = some s) :
    inCooldown settings ss (some i) now = false ↔
      s.lastHandshake + settings.handshakeCooldown ≤ now := by
  simp only [inCooldown, Option.bind_some, hs, decide_eq_false_iff_not, not_lt]
  rw [le_sub_iff_add_le, add_comm]

omit [Inhabited Key] in
/-- The initiator is read off the packet alone. -/
theorem initiatorOf_of_respond {C : Crypto Priv Key} {P : PeerParams Priv Key}
    {st : PeerState Priv Key} {packet pub : Bytes} {key : Key} {sendOk : Bool}
    (hhs : isHandshake P.psk packet = true)
    (h : (respond C P st packet sendOk).2 = some (pub, key)) :
    initiatorOf C P packet = some pub := by
  have hspec := respond_spec C P st hhs sendOk
  split at hspec
  · next pub' hinit _ =>
    obtain ⟨_, derived, hresp, -⟩ := hspec
    rw [hresp] at h
    cases derived with
    | none => exact absurd h (by simp)
    | some _ =>
      obtain ⟨rfl, -⟩ : pub' = pub ∧ _ := by simpa using h
      exact hinit
  · rw [hspec] at h
    exact absurd h (by simp)

/-- What an install on the inbound path requires: its packet names the peer, and
neither the session in its slot nor one of the same peer is younger than the
cooldown. -/
theorem inbound_cooldown {C : Crypto Priv Key} {P : PeerParams Priv Key} {st : PeerState Priv Key}
    (hpubs : DistinctPubs st.sessions) {inp : Input Priv} {slot : ℕ} {addr : SockAddr}
    {pub cause : Bytes} {key : Key}
    (he : .installed slot addr pub key false cause ∈ (step C P st inp).2) :
    ∃ now env, inp = .udpRecv addr cause now env ∧ initiatorOf C P cause = some pub ∧
      ∀ (i : ℕ) (s : PeerSession Key), st.sessions[i]? = some s → s.active = true →
        (i = slot ∨ s.staticPub = pub) →
        s.lastHandshake + P.settings.handshakeCooldown ≤ now := by
  obtain ⟨c, hc, hslot, -, rfl, rfl, rfl, hin, rfl⟩ := installed_of_mem he
  obtain ⟨⟨slot, ss'⟩, halloc, rfl⟩ := Option.map_eq_some_iff.mp hslot
  cases completes_of_commitOf hc with
  | response => exact absurd hin (by simp)
  | @init src packet now env pub key cfg hhs _ haddr hresp _ hpub =>
    refine ⟨now, env, rfl, initiatorOf_of_respond hhs hresp, fun i s hs ha hor => ?_⟩
    have hown : s.staticPub = pub →
        s.lastHandshake + P.settings.handshakeCooldown ≤ now := by
      rintro rfl
      rw [hpubs.findSessionByPub hs ha] at hpub
      exact (inCooldown_eq_false hs).mp hpub
    rcases hor with rfl | hor
    · obtain ⟨s₀, hslot, -⟩ := allocSession_eq_some halloc
      cases hslot with
      | byPub hs₀ _ heq _ =>
        obtain rfl := Option.some.inj (hs.symm.trans hs₀)
        exact hown heq
      | byAddr _ _ _ _ hfind =>
        rw [hfind] at haddr
        exact (inCooldown_eq_false hs).mp haddr
      | free _ _ hs₀ hfree =>
        obtain rfl := Option.some.inj (hs.symm.trans hs₀)
        exact absurd ha (by simp [hfree])
      | fresh => exact absurd hs (by simp)
    · exact hown hor

/-- Every session of `pub` was set up by one of the inputs. -/
def SetUpBy (pub : Bytes) (inputs : List (Input Priv)) (ss : List (PeerSession Key)) : Prop :=
  ∀ (i : ℕ) (s : PeerSession Key), ss[i]? = some s → s.active = true → s.staticPub = pub →
    ∃ inp ∈ inputs, inp.clk = some s.lastHandshake

omit [Inhabited Key] in
theorem clk_of_commitOf {C : Crypto Priv Key} {P : PeerParams Priv Key} {st : PeerState Priv Key}
    {inp : Input Priv} {c : Commit Key} (h : commitOf C P st inp = some c) :
    inp.clk = some c.clk.handshake := by
  cases completes_of_commitOf h <;> rfl

/-- The install of a session for `pub` leaves no older one. -/
theorem setUpBy_of_installed {C : Crypto Priv Key} {P : PeerParams Priv Key}
    {st : PeerState Priv Key} (hpubs : DistinctPubs st.sessions) {inp : Input Priv} {slot : ℕ}
    {addr : SockAddr} {pub cause : Bytes} {key : Key} {isOutbound : Bool}
    (he : .installed slot addr pub key isOutbound cause ∈ (step C P st inp).2) :
    SetUpBy pub [inp] (step C P st inp).1.sessions := by
  have hpubs' := distinctPubs_step C P hpubs inp
  obtain ⟨c, hc, hslot, hss, -, rfl, -⟩ := installed_of_mem he
  intro i s hs ha hpub
  rw [hss] at hs hpubs'
  rcases installTable_cases P.settings c st.sessions with ⟨hfull, -⟩ | ⟨slot, s₀, -, -, hupd⟩
  · exact absurd hslot (by simp [hfull])
  · obtain rfl := hpubs' i slot s _ hs hupd.self ha rfl hpub
    obtain rfl := Option.some.inj (hs.symm.trans hupd.self)
    exact ⟨inp, List.mem_singleton_self inp, clk_of_commitOf hc⟩

/-- **Step**: later reactions keep the sessions of `pub` or set up new ones. -/
theorem SetUpBy.step {C : Crypto Priv Key} {P : PeerParams Priv Key} {st : PeerState Priv Key}
    {pub : Bytes} {inputs : List (Input Priv)} (h : SetUpBy pub inputs st.sessions)
    {inp : Input Priv} (hinp : inp ∈ inputs) : SetUpBy pub inputs (step C P st inp).1.sessions := by
  intro i s hs ha hpub
  rcases step_cases C P st inp with ⟨-, ht⟩ | ⟨c, pre, hc, -, hss, -⟩
  · obtain ⟨s₀, hs₀, hf⟩ := ht.follows hs
    rw [hf.lastHandshake]
    exact h i s₀ hs₀ (hf.active ha) (hf.staticPub ▸ hpub)
  · rw [hss] at hs
    rcases installTable_cases P.settings c st.sessions with ⟨-, he⟩ | ⟨slot, s₀, -, -, hupd⟩
    · exact h i s (he ▸ hs) ha hpub
    · rcases hupd.cases hs with ⟨rfl, rfl⟩ | ⟨-, hs⟩
      · exact ⟨inp, hinp, clk_of_commitOf hc⟩
      · exact h i s hs ha hpub

/-- In every run, an initiation that was accepted before and is accepted again is for
the same peer, and all of that peer's sessions, as well as the one in the slot it takes,
are older than the cooldown then, where the peer's own were set up at the first
acceptance or after it. -/
theorem repeated_initiation (C : Crypto Priv Key) (P : PeerParams Priv Key)
    (configs : List PeerConfig) (eph : Option Priv) (is₁ is₂ : List (Input Priv))
    (inp₁ inp₂ : Input Priv) {slot₁ slot₂ : ℕ} {addr₁ addr₂ : SockAddr} {pub₁ pub₂ packet : Bytes}
    {key₁ key₂ : Key}
    (h₁ : .installed slot₁ addr₁ pub₁ key₁ false packet ∈
      (step C P (Machine.run (step C P) (PeerState.initial configs eph) is₁).1 inp₁).2)
    (h₂ : .installed slot₂ addr₂ pub₂ key₂ false packet ∈
      (step C P
        (Machine.run (step C P) (PeerState.initial configs eph) (is₁ ++ inp₁ :: is₂)).1 inp₂).2) :
    pub₂ = pub₁ ∧ ∃ now env, inp₂ = .udpRecv addr₂ packet now env ∧
      ∀ (i : ℕ) (s : PeerSession Key),
        (Machine.run (step C P) (PeerState.initial configs eph)
          (is₁ ++ inp₁ :: is₂)).1.sessions[i]? = some s → s.active = true →
        ((i = slot₂ ∨ s.staticPub = pub₁) →
          s.lastHandshake + P.settings.handshakeCooldown ≤ now) ∧
        (s.staticPub = pub₁ → ∃ inp ∈ inp₁ :: is₂, inp.clk = some s.lastHandshake) := by
  have hpubs₁ := distinctPubs_run C P configs eph is₁
  have hpubs₂ := distinctPubs_run C P configs eph (is₁ ++ inp₁ :: is₂)
  obtain ⟨_, _, -, hinit₁, -⟩ := inbound_cooldown hpubs₁ h₁
  obtain ⟨now, env, hinp, hinit₂, hcool⟩ := inbound_cooldown hpubs₂ h₂
  obtain rfl : pub₁ = pub₂ := Option.some.inj (hinit₁.symm.trans hinit₂)
  refine ⟨rfl, now, env, hinp, fun i s hs ha => ⟨hcool i s hs ha, ?_⟩⟩
  -- from the first acceptance on, each session of the peer stems from an input since then
  have hfirst : SetUpBy pub₁ (inp₁ :: is₂) _ := fun i s hs ha hpub => by
    obtain ⟨inp, hmem, hclk⟩ := setUpBy_of_installed hpubs₁ h₁ i s hs ha hpub
    exact ⟨inp, List.mem_cons.mpr (Or.inl (List.mem_singleton.mp hmem)), hclk⟩
  have hlater := Machine.run_state_invariant is₂
    (P := fun st : PeerState Priv Key => SetUpBy pub₁ (inp₁ :: is₂) st.sessions)
    (fun st inp hmem h => h.step (C := C) (P := P) (List.mem_cons_of_mem _ hmem)) hfirst
  rw [Machine.run_append, Machine.run_cons] at hs
  exact hlater i s hs ha

/-- An initiation of peer 2, and the same datagram again from another address. -/
def Sample.reinitiated : List (Input UInt8) := [
  .udpRecv (addr 2) (initiation 2 1 10) 100 (recvEnv 100 20),
  .udpRecv (addr 9) (initiation 2 1 10) 200 (recvEnv 200 21)]

open Sample in
/-- At the second acceptance slot 0 holds the session of the first one. -/
theorem repeated_initiation_reinitiated :
    ∃ s, (serverRun (reinitiated.take 1)).1.sessions[0]? = some s ∧ s.active = true ∧
      s.staticPub = crypto.publicKey 2 ∧ s.lastHandshake + 5 ≤ 200 ∧
      ∃ inp ∈ reinitiated.take 1, inp.clk = some s.lastHandshake := by
  obtain ⟨slot₁, addr₁, pub₁, key₁, h₁⟩ := mem_inboundCauses.mp (show initiation 2 1 10 ∈
    inboundCauses (step crypto (params 1) (serverRun []).1
      (.udpRecv (addr 2) (initiation 2 1 10) 100 (recvEnv 100 20))).2 by decide +kernel)
  obtain ⟨slot₂, addr₂, pub₂, key₂, h₂⟩ := mem_inboundCauses.mp (show initiation 2 1 10 ∈
    inboundCauses (step crypto (params 1) (serverRun (reinitiated.take 1)).1
      (.udpRecv (addr 9) (initiation 2 1 10) 200 (recvEnv 200 21))).2 by decide +kernel)
  obtain ⟨s, hs, hslot⟩ := Option.map_eq_some_iff.mp
    (show (serverRun (reinitiated.take 1)).1.sessions[0]?.map (fun s => (s.active, s.staticPub)) =
      some (true, crypto.publicKey 2) by decide +kernel)
  obtain ⟨hactive, hpub⟩ := Prod.mk.inj hslot
  have hpub₁ : s.staticPub = pub₁ := by
    obtain ⟨_, _, -, hinit, -⟩ := inbound_cooldown (distinctPubs_run crypto (params 1) _ _ []) h₁
    exact hpub.trans (Option.some.inj ((show initiatorOf crypto (params 1) (initiation 2 1 10) =
      some (crypto.publicKey 2) by decide +kernel).symm.trans hinit))
  obtain ⟨-, now, env, hinp, hcool⟩ := repeated_initiation crypto (params 1)
    [peerConfig 2 false, peerConfig 3 false] (some 4) [] [] _ _ h₁ h₂
  obtain ⟨-, -, rfl, -⟩ := Input.udpRecv.inj hinp
  obtain ⟨hold, hsetUp⟩ := hcool 0 s hs hactive
  exact ⟨s, hs, hactive, hpub, hold (Or.inr hpub₁), hsetUp hpub₁⟩

open Sample in
/-- Both are accepted, and the second takes the key and the address of the session. -/
theorem reinitiated_accepted :
    inboundCauses (serverRun reinitiated).2 = [initiation 2 1 10, initiation 2 1 10] ∧
    (serverRun (reinitiated.take 1)).1.sessions.map (fun s => (s.active, s.addr)) =
      [(true, addr 2)] ∧
    (serverRun reinitiated).1.sessions.map (fun s => (s.active, s.addr)) = [(true, addr 9)] ∧
    (serverRun reinitiated).1.sessions.map PeerSession.sessionKey ≠
      (serverRun (reinitiated.take 1)).1.sessions.map PeerSession.sessionKey := by
  decide +kernel

end LaneCove
