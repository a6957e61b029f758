import LaneCove.DataPath
import LaneCove.Timing

/-!
# The loop around the reactions

The `while` loop of `event_loop` of `peer.c`, once the cipher contexts and the epoll
descriptor are there: the stop flag, the pass over the timers at the head of every round,
`epoll_wait`, and the descriptors that are ready, each of which is read into a buffer of
fixed size. A round can leave the loop, at its head or while it serves a descriptor. What
a round reads does not depend on the state of the peer, so the loop is a run of the
reactions on what it reads, and what it has received never ends it.

## Main definitions

- `Ready`, `Poll`, `Pass` — what the system calls of a round return
- `serve`, `pass`, `eventLoop` — the loop over the descriptors, one round, and the loop
- `Exit` — why the loop ends
- `Pass.reads` — the inputs of a round

## Main results

- `eventLoop_runs_iff` — the runs of the loop are those of the reactions on what fits the buffers
- `loop_deadlines` — the delay of the timers, measured from the head of a round
-/

namespace LaneCove

variable {Priv Key : Type}

-- ════════════════════════════════════════════════════════════════════════
-- The loop
-- ════════════════════════════════════════════════════════════════════════

/-- One entry of `events`, with what reading from the descriptor returns. -/
inductive Ready (Priv : Type)
  /-- `EPOLLERR` or `EPOLLHUP` on one of the descriptors -/
  | hangup
  /-- a packet read from the TUN device, or an error -/
  | tun (packet : Option Bytes) (env : SendEnv)
  /-- a datagram received on the socket, or an error -/
  | sock (datagram : Option (SockAddr × Bytes)) (now : Time) (env : RecvEnv Priv)

/-- The result of `epoll_wait`. -/
inductive Poll (Priv : Type)
  /-- `EINTR` -/
  | interrupted
  /-- any other error -/
  | failed
  /-- the descriptors that are ready; none after five seconds -/
  | ready (events : List (Ready Priv))

/-- What one round of the loop finds: the stop flag and the time at its head, the environment
of the timers, and the result of `epoll_wait`. -/
structure Pass (Priv : Type) where
  stop : Bool
  now : Time
  connect : ℕ → ConnectEnv Priv
  keepalive : ℕ → SendEnv
  poll : Poll Priv

/-- Why the loop ends. -/
inductive Exit
  | stopFlag
  | epollWait
  | hangup
  | tunRead
  | recvfrom
deriving DecidableEq

/-- `BUFFER_SIZE` -/
def bufferSize : ℕ := 2048

variable [Inhabited Key]

/-- The body of the loop over `events`. A `read` of nothing is an error on the TUN device,
but an empty datagram is one like any other. -/
def serve (C : Crypto Priv Key) (P : PeerParams Priv Key) (st : PeerState Priv Key) :
    Ready Priv → (PeerState Priv Key × List (Event Key)) × Option Exit
  | .hangup => ((st, []), some .hangup)
  | .tun none _ | .tun (some []) _ => ((st, []), some .tunRead)
  | .tun (some packet) env => (tunRead C st (packet.take bufferSize) env, none)
  | .sock none _ _ => ((st, []), some .recvfrom)
  | .sock (some (src, datagram)) now env => (udpRecv C P st src (recvfrom datagram) now env, none)

/-- One round of the loop. -/
def pass (C : Crypto Priv Key) (P : PeerParams Priv Key) (st : PeerState Priv Key)
    (p : Pass Priv) : (PeerState Priv Key × List (Event Key)) × Option Exit :=
  if p.stop then ((st, []), some .stopFlag)
  else
    let r := tick C P st p.now p.connect p.keepalive
    match p.poll with
    | .interrupted => (r, none)
    | .failed => (r, some .epollWait)
    | .ready events =>
      let served := Machine.runUntil (serve C P) r.1 events
      ((served.1.1, r.2 ++ served.1.2), served.2)

/-- The `while` loop of `event_loop` over a number of rounds: the state and the trace, and why
the loop ended. -/
def eventLoop (C : Crypto Priv Key) (P : PeerParams Priv Key) (st : PeerState Priv Key)
    (passes : List (Pass Priv)) : (PeerState Priv Key × List (Event Key)) × Option Exit :=
  Machine.runUntil (pass C P) st passes

-- ════════════════════════════════════════════════════════════════════════
-- What the loop reads
-- ════════════════════════════════════════════════════════════════════════

/-- The input that a descriptor delivers. -/
def Ready.reads : Ready Priv → List (Input Priv) × Option Exit
  | .hangup => ([], some .hangup)
  | .tun none _ | .tun (some []) _ => ([], some .tunRead)
  | .tun (some packet) env => ([.tunRead (packet.take bufferSize) env], none)
  | .sock none _ _ => ([], some .recvfrom)
  | .sock (some (src, datagram)) now env => ([.udpRecv src (recvfrom datagram) now env], none)

/-- The inputs of a round: the timers, and then the descriptors. -/
def Pass.reads (p : Pass Priv) : List (Input Priv) × Option Exit :=
  if p.stop then ([], some .stopFlag)
  else
    let timers := Input.tick p.now p.connect p.keepalive
    match p.poll with
    | .interrupted => ([timers], none)
    | .failed => ([timers], some .epollWait)
    | .ready events =>
      (timers :: (Machine.readUntil Ready.reads events).1, (Machine.readUntil Ready.reads events).2)

variable {C : Crypto Priv Key} {P : PeerParams Priv Key}

theorem serve_eq_run (st : PeerState Priv Key) (e : Ready Priv) :
    serve C P st e = (Machine.run (step C P) st e.reads.1, e.reads.2) := by
  unfold serve Ready.reads
  split <;> simp [step]

theorem pass_eq_run (st : PeerState Priv Key) (p : Pass Priv) :
    pass C P st p = (Machine.run (step C P) st p.reads.1, p.reads.2) := by
  unfold pass Pass.reads
  split
  · rfl
  · cases p.poll with
    | interrupted | failed => simp [step]
    | ready events =>
      simp only [Machine.runUntil_eq_run serve_eq_run, Machine.run_cons, step]

/-- **Refinement**: the loop runs the reactions on what it reads. -/
theorem eventLoop_eq_run (st : PeerState Priv Key) (passes : List (Pass Priv)) :
    eventLoop C P st passes =
      (Machine.run (step C P) st (Machine.readUntil Pass.reads passes).1,
        (Machine.readUntil Pass.reads passes).2) :=
  Machine.runUntil_eq_run pass_eq_run st passes

-- ════════════════════════════════════════════════════════════════════════
-- What ends the loop
-- ════════════════════════════════════════════════════════════════════════

/-- The descriptor has an error, or reading from it fails. -/
def Ready.Fails : Ready Priv → Prop
  | .hangup => True
  | .tun packet _ => packet.getD [] = []
  | .sock datagram _ _ => datagram = none

/-- A signal has set the stop flag, or a system call of the round fails. -/
def Pass.Fails (p : Pass Priv) : Prop :=
  p.stop = true ∨
    match p.poll with
    | .interrupted => False
    | .failed => True
    | .ready events => ∃ e ∈ events, e.Fails

theorem Ready.reads_eq_none_iff (e : Ready Priv) : e.reads.2 = none ↔ ¬ e.Fails := by
  unfold Ready.reads
  split <;> simp_all [Ready.Fails]

theorem Pass.reads_eq_none_iff (p : Pass Priv) : p.reads.2 = none ↔ ¬ p.Fails := by
  unfold Pass.reads Pass.Fails
  split
  · next hstop => simp [hstop]
  · next hstop =>
    cases p.poll with
    | interrupted | failed => simp [hstop]
    | ready events =>
      simp only [Machine.readUntil_eq_none_iff, Ready.reads_eq_none_iff, hstop]
      simp

/-- What a datagram or a packet contains never ends the loop. -/
theorem eventLoop_eq_none_iff {st : PeerState Priv Key} {passes : List (Pass Priv)} :
    (eventLoop C P st passes).2 = none ↔ ∀ p ∈ passes, ¬ p.Fails := by
  rw [eventLoop_eq_run, Machine.readUntil_eq_none_iff]
  simp only [Pass.reads_eq_none_iff]

-- ════════════════════════════════════════════════════════════════════════
-- The loop can read every input that fits its buffers
-- ════════════════════════════════════════════════════════════════════════

/-- The input fits the buffer it is read into. -/
def Input.Fits : Input Priv → Prop
  | .tick .. => True
  | .tunRead buffer _ => 0 < buffer.length ∧ buffer.length ≤ bufferSize
  | .udpRecv _ packet _ _ => packet.length ≤ wireBufSize

/-- `events` has room for two descriptors. -/
def Pass.Polled (p : Pass Priv) : Prop := ∀ events, p.poll = .ready events → events.length ≤ 2

theorem Ready.fits (e : Ready Priv) : ∀ inp ∈ e.reads.1, inp.Fits := by
  unfold Ready.reads
  split
  · simp
  · simp
  · simp
  · next packet env hpacket =>
    have hpos : 0 < packet.length := List.length_pos_iff.mpr fun hnil => hpacket (hnil ▸ rfl)
    intro inp hinp
    obtain rfl := List.mem_singleton.mp hinp
    refine ⟨?_, List.length_take_le ..⟩
    rw [List.length_take, bufferSize]
    omega
  · simp
  · intro inp hinp
    obtain rfl := List.mem_singleton.mp hinp
    exact List.length_take_le ..

theorem Pass.fits (p : Pass Priv) : ∀ inp ∈ p.reads.1, inp.Fits := by
  unfold Pass.reads
  split
  · simp
  · cases p.poll with
    | interrupted | failed => simp [Input.Fits]
    | ready events =>
      rw [List.forall_mem_cons]
      exact ⟨trivial, Machine.forall_mem_readUntil Ready.fits events⟩

/-- A round in which nothing happens before `epoll_wait`. -/
def quietPass (st : PeerState Priv Key) (e : Ready Priv) : Pass Priv where
  stop := false
  now := st.lastRekeyCheck
  connect := fun _ => ⟨none, none, false, 0, 0⟩
  keepalive := fun _ => ⟨none, false, 0⟩
  poll := .ready [e]

theorem pass_quietPass {st : PeerState Priv Key} {e : Ready Priv} {inp : Input Priv}
    (he : e.reads = ([inp], none)) : pass C P st (quietPass st e) = (step C P st inp, none) := by
  have hreads : (quietPass st e).reads =
      ([.tick st.lastRekeyCheck (quietPass st e).connect (quietPass st e).keepalive, inp],
        none) := by
    simp only [Pass.reads, quietPass, he, Machine.readUntil]
    rfl
  have hquiet : step C P st (.tick st.lastRekeyCheck (quietPass st e).connect
      (quietPass st e).keepalive) = (st, []) := if_pos (by simp)
  rw [pass_eq_run, hreads, Machine.run_cons, hquiet]
  simp

/-- Every input that fits is read by some round from every state. -/
theorem exists_pass {inp : Input Priv} (hfits : inp.Fits) (st : PeerState Priv Key) :
    ∃ p : Pass Priv, p.Polled ∧ pass C P st p = (step C P st inp, none) := by
  have hpolled : ∀ e : Ready Priv, (quietPass st e).Polled := by
    rintro e _ ⟨⟩
    simp
  cases inp with
  | tick now connect keepalive =>
    refine ⟨⟨false, now, connect, keepalive, .interrupted⟩, by simp [Pass.Polled], ?_⟩
    rw [pass_eq_run]
    simp [Pass.reads]
  | tunRead buffer env =>
    refine ⟨quietPass st (.tun (some buffer) env), hpolled _, pass_quietPass ?_⟩
    obtain ⟨hpos, hle⟩ := hfits
    cases buffer with
    | nil => exact absurd hpos (by simp)
    | cons b bs => rw [Ready.reads, List.take_of_length_le hle]; simp
  | udpRecv src packet now env =>
    refine ⟨quietPass st (.sock (some (src, packet)) now env), hpolled _, pass_quietPass ?_⟩
    rw [Ready.reads, recvfrom, List.take_of_length_le hfits]

/-- The states and traces that the loop can have after some rounds are those of the reactions
on some sequence of inputs that fit the buffers. -/
theorem eventLoop_runs_iff (st : PeerState Priv Key) (r : PeerState Priv Key × List (Event Key)) :
    (∃ passes : List (Pass Priv), (∀ p ∈ passes, p.Polled) ∧ (eventLoop C P st passes).1 = r) ↔
      ∃ inputs : List (Input Priv), (∀ inp ∈ inputs, inp.Fits) ∧
        Machine.run (step C P) st inputs = r := by
  constructor
  · rintro ⟨passes, -, rfl⟩
    exact ⟨_, Machine.forall_mem_readUntil Pass.fits passes,
      (congrArg Prod.fst (eventLoop_eq_run st passes)).symm⟩
  · rintro ⟨inputs, hfits, rfl⟩
    induction inputs generalizing st with
    | nil => exact ⟨[], by simp, rfl⟩
    | cons inp inputs ih =>
      obtain ⟨p, hpolled, hp⟩ := exists_pass (C := C) (P := P) (hfits inp List.mem_cons_self) st
      obtain ⟨passes, hrest, hrun⟩ :=
        ih (step C P st inp).1 fun i hi => hfits i (List.mem_cons_of_mem _ hi)
      refine ⟨p :: passes, List.forall_mem_cons.mpr ⟨hpolled, hrest⟩, ?_⟩
      rw [eventLoop, Machine.runUntil, hp, Machine.run_cons, ← hrun]
      rfl

-- ════════════════════════════════════════════════════════════════════════
-- The timers
-- ════════════════════════════════════════════════════════════════════════

/-- Only the head of a round looks at the timers. -/
theorem Ready.ne_tick (e : Ready Priv) :
    ∀ inp ∈ e.reads.1, ∀ now connect keepalive, inp ≠ .tick now connect keepalive := by
  unfold Ready.reads
  split <;> simp

/-- At the head of a round the last pass over the timers is less than ten seconds ago, or now. -/
theorem tick_lastRekeyCheck (st : PeerState Priv Key) (now : Time)
    (connect : ℕ → ConnectEnv Priv) (keepalive : ℕ → SendEnv) :
    now - (step C P st (.tick now connect keepalive)).1.lastRekeyCheck < 10 := by
  by_cases hnow : now - st.lastRekeyCheck < 10
  · rw [step, tick, if_pos hnow]
    exact hnow
  · rw [step, tick, if_neg hnow, timers_lastRekeyCheck]
    simp

/-- What is read after the head leaves the time of the last pass. -/
theorem run_lastRekeyCheck {inputs : List (Input Priv)}
    (hinputs : ∀ inp ∈ inputs, ∀ now connect keepalive, inp ≠ .tick now connect keepalive)
    (st : PeerState Priv Key) :
    (Machine.run (step C P) st inputs).1.lastRekeyCheck = st.lastRekeyCheck := by
  induction inputs generalizing st with
  | nil => rfl
  | cons inp inputs ih =>
    obtain ⟨hinp, hrest⟩ := List.forall_mem_cons.mp hinputs
    rw [Machine.run_cons, ih hrest]
    exact (step_noPass fun now connect keepalive heq => absurd heq (hinp now connect keepalive)).1

/-- Throughout a round, the last pass over the timers is less than ten seconds before its head. -/
theorem pass_lastRekeyCheck (st : PeerState Priv Key) {p : Pass Priv} (hstop : p.stop = false) :
    p.now - (pass C P st p).1.1.lastRekeyCheck < 10 := by
  have hhead := tick_lastRekeyCheck (C := C) (P := P) st p.now p.connect p.keepalive
  obtain ⟨rest, hreads, hrest⟩ : ∃ rest, p.reads.1 = .tick p.now p.connect p.keepalive :: rest ∧
      ∀ inp ∈ rest, ∀ now connect keepalive, inp ≠ Input.tick now connect keepalive := by
    unfold Pass.reads
    rw [hstop]
    cases p.poll with
    | interrupted | failed => exact ⟨[], rfl, by simp⟩
    | ready events => exact ⟨_, rfl, Machine.forall_mem_readUntil Ready.ne_tick events⟩
  rw [pass_eq_run, hreads, Machine.run_cons, run_lastRekeyCheck hrest]
  exact hhead

/-- In every run of the loop under a clock that does not go back, in which the keepalives leave:
at a time `gap` seconds after the head of the current round, no pending handshake is past its
timeout, and no active session is past `session_expiry` or `keepalive_interval`, by `10 + gap`
seconds or more. -/
theorem loop_deadlines (hexpiry : 0 ≤ P.settings.sessionExpiry)
    (hinterval : 0 < P.settings.keepaliveInterval) (configs : List PeerConfig) (eph : Option Priv)
    {t₀ : Time} (ht₀ : 0 < t₀) (passes : List (Pass Priv)) (p : Pass Priv)
    (hgoes : ∀ q ∈ passes, ¬ q.Fails) (hstop : p.stop = false) (xs : List (Input Priv × Time))
    (hxs : xs.map Prod.fst = (Machine.readUntil Pass.reads (passes ++ [p])).1)
    (hclock : Machine.Guarded (clockStep C P)
      (fun c x => x.1.Within c.2 x.2 ∧ KeepalivesLeave C x.1)
      (PeerState.initial configs eph, t₀) xs) :
    let st := (eventLoop C P (PeerState.initial configs eph) (passes ++ [p])).1.1
    ∀ t gap, t - p.now ≤ gap →
      (∀ q ∈ st.pending, q.active = true →
        t - q.sentAt < P.settings.handshakeTimeout + (10 + gap)) ∧
      ∀ s ∈ st.sessions, s.active = true →
        t - s.expiryRef < P.settings.sessionExpiry + (10 + gap) ∧
        t - s.lastSent < P.settings.keepaliveInterval + (10 + gap) := by
  intro st t gap hgap
  have hst : st = (Machine.run (step C P) (PeerState.initial configs eph) (xs.map Prod.fst)).1 := by
    rw [hxs]
    exact congrArg (·.1.1) (eventLoop_eq_run (C := C) (P := P) _ _)
  have hlast : p.now - st.lastRekeyCheck < 10 := by
    rw [show st.lastRekeyCheck = _ from congrArg PeerState.lastRekeyCheck
      (Machine.runUntil_concat (eventLoop_eq_none_iff.mpr hgoes) p)]
    exact pass_lastRekeyCheck _ hstop
  have hmet : Deadlines P.settings st :=
    hst ▸ deadlines_run hexpiry hinterval configs eph ht₀ xs hclock
  obtain ⟨hpending, hsessions⟩ := hmet.after (t := t) (le_refl _)
  refine ⟨fun q hq ha => ?_, fun s hs ha => ?_⟩
  · have := hpending q hq ha
    linarith
  · obtain ⟨hheard, hsent⟩ := hsessions s hs ha
    exact ⟨by linarith, by linarith⟩

end LaneCove
