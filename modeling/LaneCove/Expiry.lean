import LaneCove.AllowedIps

/-!
# Dropped data and session expiry

A session expires when nothing was heard of it for `session_expiry` seconds. The
receive path writes `last_seen` before it decrypts, and a packet under the current
key ends the grace period of the previous key before the replay check. So a data
packet that is dropped, which anyone can send, may keep a session alive.

## Main definitions

- `Dropped` — a datagram that the data path of a session drops
- `Unnoticed` — a dropped datagram that finds nothing to write
- `expiryStep` — the event loop as a machine that reports which sessions expire

## Main results

- `dropped_unchanged_iff` — a dropped datagram leaves the session table alone exactly
  if it is unnoticed, and unnoticed datagrams make no difference to expiry
-/

namespace LaneCove

variable {Priv Key : Type} [Inhabited Key] {C : Crypto Priv Key} {P : PeerParams Priv Key}
  {st : PeerState Priv Key} {inp : Input Priv}

omit [Inhabited Key] in
/-- The datagram is handled by the data path of a session and dropped: it decrypts
under neither key, has a bad header, or is rejected by the replay check. -/
def Dropped (C : Crypto Priv Key) (P : PeerParams Priv Key) (st : PeerState Priv Key) :
    Input Priv → Prop
  | .udpRecv src packet now _ => isHandshake P.psk packet = false ∧
      ∃ j s, findSessionByAddr st.sessions src = some j ∧ st.sessions[j]? = some s ∧
        openData C s packet now = none
  | .tick .. | .tunRead .. => False

omit [Inhabited Key] in
/-- The session has been heard of in this second already, and has no previous key
that a packet under the current key would end. -/
def Unnoticed (C : Crypto Priv Key) (st : PeerState Priv Key) : Input Priv → Prop
  | .udpRecv src packet now _ => ∀ j s, findSessionByAddr st.sessions src = some j →
      st.sessions[j]? = some s → s.lastSeen = now ∧
        (s.prevKeyActive = true → decryptPacket C s.sessionKey packet = none)
  | .tick .. | .tunRead .. => True

/-- The peers whose sessions are active in the first table and not in the second. -/
def expired (before after : List (PeerSession Key)) : List Bytes :=
  (before.zip after).filterMap fun r =>
    if r.1.active && !r.2.active then some r.1.staticPub else none

/-- The event loop, reporting for each tick the sessions that expire. -/
def expiryStep (C : Crypto Priv Key) (P : PeerParams Priv Key) (st : PeerState Priv Key)
    (inp : Input Priv) : PeerState Priv Key × List (Time × Bytes) :=
  ((step C P st inp).1,
    match inp with
    | .tick now _ _ => (expired st.sessions (step C P st inp).1.sessions).map fun pub => (now, pub)
    | .tunRead .. | .udpRecv .. => [])

omit [Inhabited Key] in
theorem afterDecrypt_eq_self_iff {s : PeerSession Key} {packet : Bytes} {now : Time} :
    afterDecrypt C s packet now = s ↔ s.lastSeen = now ∧
      (s.prevKeyActive = true → decryptPacket C s.sessionKey packet = none) := by
  constructor
  · intro h
    refine ⟨(congrArg PeerSession.lastSeen h).symm, fun hprev => ?_⟩
    have hactive := congrArg PeerSession.prevKeyActive h
    simpa [afterDecrypt, hprev] using hactive
  · rintro ⟨rfl, hprev⟩
    have hactive : (s.prevKeyActive && (decryptPacket C s.sessionKey packet).isNone) =
        s.prevKeyActive := by
      cases hp : s.prevKeyActive with
      | false => rfl
      | true => simp [hprev hp]
    rw [afterDecrypt, hactive]

/-- The effect of a dropped datagram. -/
theorem Dropped.step_eq (h : Dropped C P st inp) : ∃ src packet now env j s,
    inp = .udpRecv src packet now env ∧ findSessionByAddr st.sessions src = some j ∧
    st.sessions[j]? = some s ∧ step C P st inp =
      ({ st with sessions := st.sessions.set j (afterDecrypt C s packet now) }, []) := by
  cases inp with
  | tick => exact h.elim
  | tunRead => exact h.elim
  | udpRecv src packet now env =>
    obtain ⟨hhs, j, s, hfind, hs, hopen⟩ := h
    refine ⟨src, packet, now, env, j, s, rfl, hfind, hs, ?_⟩
    rw [step_recvData hhs hfind hs, recvData_rejected hopen]

/-- A dropped datagram leaves the table alone exactly if there is nothing to write. -/
theorem Dropped.sessions_eq_iff (h : Dropped C P st inp) :
    (step C P st inp).1.sessions = st.sessions ↔ Unnoticed C st inp := by
  obtain ⟨src, packet, now, env, j, s, rfl, hfind, hs, hstep⟩ := h.step_eq
  obtain ⟨hj, hslot⟩ := List.getElem?_eq_some_iff.mp hs
  rw [hstep]
  constructor
  · intro heq j' s' hfind' hs'
    obtain rfl : j = j' := Option.some.inj (hfind.symm.trans hfind')
    obtain rfl : s = s' := Option.some.inj (hs.symm.trans hs')
    have hget := congrArg (·[j]?) heq
    dsimp only at hget
    rw [List.getElem?_set_self hj, hs] at hget
    exact afterDecrypt_eq_self_iff.mp (Option.some.inj hget)
  · intro hquiet
    dsimp only
    rw [afterDecrypt_eq_self_iff.mpr (hquiet j s hfind hs), ← hslot]
    exact List.set_getElem_self hj

theorem expiryStep_of_unnoticed (h : Dropped C P st inp) (hquiet : Unnoticed C st inp) :
    expiryStep C P st inp = (st, []) := by
  have hsessions := h.sessions_eq_iff.mpr hquiet
  obtain ⟨src, packet, now, env, j, s, rfl, -, -, hstep⟩ := h.step_eq
  rw [hstep] at hsessions
  rw [expiryStep, hstep]
  dsimp only at hsessions ⊢
  rw [hsessions]

/-- For every state and every datagram that the data path drops: the session table
is unchanged if and only if the datagram is unnoticed. From every state, two runs
that differ only in dropped datagrams that are unnoticed end in the same state, and
the same sessions expire at the same ticks. -/
theorem dropped_unchanged_iff (C : Crypto Priv Key) (P : PeerParams Priv Key) :
    (∀ st inp, Dropped C P st inp →
      ((step C P st inp).1.sessions = st.sessions ↔ Unnoticed C st inp)) ∧
    ∀ st is js,
      Machine.SameBut (expiryStep C P) (fun st inp => Dropped C P st inp ∧ Unnoticed C st inp)
        st st is js →
      Machine.run (expiryStep C P) st is = Machine.run (expiryStep C P) st js := by
  refine ⟨fun st inp h => h.sessions_eq_iff, fun st is js h => ?_⟩
  exact h.run_eq (fun st inp hskip => expiryStep_of_unnoticed hskip.1 hskip.2) rfl

namespace Sample

/-- A datagram with the address of peer 2 that nobody encrypted. -/
def garbage (now : Time) : Input UInt8 :=
  .udpRecv (addr 2) (List.replicate 60 1) now (recvEnv now 21)

/-- The state of peer 1 before. -/
def start : PeerState UInt8 SKey := PeerState.initial loaded.configs (some 4)

theorem dropped_garbage {st : PeerState UInt8 SKey} {now : Time}
    (hfind : findSessionByAddr st.sessions (addr 2) = some 0)
    (hopen : (st.sessions[0]?.map fun s =>
      (openData crypto s (List.replicate 60 1) now).isNone) = some true) :
    Dropped crypto (params 1) st (garbage now) := by
  obtain ⟨s, hs, hnone⟩ := Option.map_eq_some_iff.mp hopen
  exact ⟨by decide, 0, s, hfind, hs, Option.isNone_iff_eq_none.mp hnone⟩

end Sample

open Sample in
/-- A second such datagram in the same second changes nothing. -/
theorem dropped_unchanged_twice :
    let st := (Machine.run (step crypto (params 1)) start [connect, garbage 600]).1
    (step crypto (params 1) st (garbage 600)).1.sessions = st.sessions := by
  intro st
  have hdropped : Dropped crypto (params 1) st (garbage 600) :=
    dropped_garbage (by decide +kernel) (by decide +kernel)
  refine ((dropped_unchanged_iff crypto (params 1)).1 st (garbage 600) hdropped).mpr ?_
  intro j s hfind hs
  have hslot : (findSessionByAddr st.sessions (addr 2)).bind (fun j => st.sessions[j]?.map fun s =>
      decide (s.lastSeen = 600) && !s.prevKeyActive) = some true := by
    decide +kernel
  rw [hfind, Option.bind_some, hs, Option.map_some] at hslot
  have hs' := Option.some.inj hslot
  simp only [Bool.and_eq_true, decide_eq_true_eq, Bool.not_eq_true'] at hs'
  exact ⟨hs'.1, fun hprev => absurd hprev (by simp [hs'.2])⟩

open Sample in
/-- Without the datagram at time 600, the session of time 100 expires at the tick of
time 700; with it, it does not. -/
theorem garbage_keeps_alive :
    Machine.SameBut (expiryStep crypto (params 1)) (Dropped crypto (params 1)) start start
        [connect, garbage 600, tickAt 700 9] [connect, tickAt 700 9] ∧
      (Machine.run (expiryStep crypto (params 1)) start [connect, garbage 600, tickAt 700 9]).2 ≠
        (Machine.run (expiryStep crypto (params 1)) start [connect, tickAt 700 9]).2 := by
  refine ⟨.both (.left ?_ (.both (.nil _ _))), by decide +kernel⟩
  exact dropped_garbage (by decide +kernel) (by decide +kernel)

end LaneCove
