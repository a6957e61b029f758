import LaneCove.Answers
import LaneCove.Duo

/-!
# Simultaneous initiation

When two peers initiate to each other at the same time, the event loop means the
peer with the higher public key to ignore the crossing initiation and the other
one to give up its own handshake and answer. The tie-break loop stands after the
loop over pending handshakes, which takes every handshake packet from the address
of a pending entry as a response to it. So the tie-break is never reached: the
crossing initiation uses up the pending entry and is not answered.

## Main definitions

- `Crossing` — both peers have initiated to each other
- `TieBroken` — the outcome the tie-break is there for

## Main results

- `sentResponse_of_pending` — no answer goes to an address with a pending entry
- `not_tieBroken` — the outcome is reached in no crossing, in neither order
-/

namespace LaneCove

variable {Priv Key : Type}

/-- Both peers hold a pending handshake with the other one, whose initiation is
`init`; side `a` has the higher public key and nobody is in a cooldown. -/
structure Crossing (C : Crypto Priv Key) (P : Side → PeerParams Priv Key) (addr : Side → SockAddr)
    (net : Mesh Side Priv Key) (init : Side → Bytes) (slot : Side → ℕ) (now : Side → Time) :
    Prop where
  higher : (P .b).staticPub < (P .a).staticPub
  pending : ∀ side, ∃ p, (net.peer side).pending[slot side]? = some p ∧ p.active = true ∧
    p.serverAddr = addr side.other ∧
    ((net.peer side).config p.cfgIdx).hasEndpoint = true ∧
    ((net.peer side).config p.cfgIdx).endpoint = addr side.other ∧
    ((net.peer side).config p.cfgIdx).pub = (P side.other).staticPub ∧
    ∃ eph, handshakeClientSend C (P side).psk (P side).staticPub (P side.other).staticPub (some eph)
      true = some (init side, p.hsState)
  cooldown : ∀ side, inCooldown (P side).settings (net.peer side).sessions
      (findSessionByAddr (net.peer side).sessions (addr side.other)) (now side) = false ∧
    inCooldown (P side).settings (net.peer side).sessions
      (findSessionByPub (net.peer side).sessions (P side.other).staticPub) (now side) = false

/-- The initiation of `side` arrives at the other peer. -/
def crossingInput (addr : Side → SockAddr) (init : Side → Bytes) (now : Side → Time)
    (env : Side → RecvEnv Priv) (side : Side) : Side × Input Priv :=
  (side.other, .udpRecv (addr side) (init side) (now side.other) (env side.other))

variable [Inhabited Key]

/-- Side `a` keeps its pending handshake and ignores the initiation; side `b` gives
up its own and answers, and the answer completes the handshake on both sides. -/
structure TieBroken (C : Crypto Priv Key) (P : Side → PeerParams Priv Key) (addr : Side → SockAddr)
    (init : Side → Bytes) (slot : Side → ℕ) (r : Mesh Side Priv Key × List (Side × Event Key)) :
    Prop where
  keeps : ∃ p, (r.1.peer .a).pending[slot .a]? = some p ∧ p.active = true
  ignores : ∀ e, (.a, e) ∉ r.2
  yields : ∃ p, (r.1.peer .b).pending[slot .b]? = some p ∧ p.active = false
  answers : ∃ resp, (.b, .sentResponse (addr .a) (init .a) resp) ∈ r.2 ∧ ∀ now env,
    let net := (meshStep C P r.1 (.a, .udpRecv (addr .b) resp now env)).1
    ∃ sa ∈ (net.peer .a).sessions, ∃ sb ∈ (net.peer .b).sessions,
      sa.active = true ∧ sa.staticPub = (P .b).staticPub ∧
      sb.active = true ∧ sb.staticPub = (P .a).staticPub ∧ sa.sessionKey = sb.sessionKey

/-- While there is a pending handshake with an address, nothing from that address
is answered: a handshake packet is taken for the response. -/
theorem sentResponse_of_pending {C : Crypto Priv Key} {P : PeerParams Priv Key}
    {st : PeerState Priv Key} {src : SockAddr} {j : ℕ} {p : PendingHs Priv}
    (hp : st.pending[j]? = some p) (ha : p.active = true) (hsrc : p.serverAddr = src)
    (packet : Bytes) (now : Time) (env : RecvEnv Priv) (dst : SockAddr) (init resp : Bytes) :
    .sentResponse dst init resp ∉ (step C P st (.udpRecv src packet now env)).2 := by
  intro he
  have hresp := mem_responses he
  have hpend : findPending st.pending src ≠ none := fun hnone => by
    have hmem := List.findIdx?_eq_none_iff.mp hnone p (List.mem_of_getElem? hp)
    simp [ha, hsrc] at hmem
  rw [(step_answers C P st _).1, respondCall, Option.isNone_eq_false_iff.mpr
    (Option.isSome_iff_ne_none.mpr hpend), Bool.and_false, Bool.false_and] at hresp
  exact absurd hresp (by simp)

/-- **The tie-break never takes effect**: for every two peers whose initiations
cross, and in whichever order these arrive, the outcome is not the intended one,
since side `b` never answers. -/
theorem not_tieBroken {C : Crypto Priv Key} {P : Side → PeerParams Priv Key}
    {addr : Side → SockAddr} {net : Mesh Side Priv Key} {init : Side → Bytes} {slot : Side → ℕ}
    {now : Side → Time} (hx : Crossing C P addr net init slot now) (env : Side → RecvEnv Priv)
    (first : Side) :
    ¬ TieBroken C P addr init slot (Machine.run (meshStep C P) net
      [crossingInput addr init now env first, crossingInput addr init now env first.other]) := by
  intro h
  obtain ⟨resp, hmem, -⟩ := h.answers
  obtain ⟨p, hp, ha, hsrc, -⟩ := hx.pending .b
  have hnone := sentResponse_of_pending (C := C) (P := P .b) hp ha hsrc (init .a) (now .b)
    (env .b) (addr .a) (init .a) resp
  simp only [Machine.run_cons, Machine.run_nil, List.append_nil, List.mem_append, meshStep,
    List.mem_map, Prod.mk.injEq] at hmem
  cases first with
  | a =>
    rcases hmem with ⟨e, he, -, rfl⟩ | ⟨e, -, hside, -⟩
    · exact hnone he
    · exact absurd hside (by simp [crossingInput, Side.other])
  | b =>
    rcases hmem with ⟨e, -, hside, -⟩ | ⟨e, he, -, rfl⟩
    · exact absurd hside (by simp [crossingInput, Side.other])
    · -- the step of side `a` before has not changed side `b`
      exact hnone he

namespace Sample

/-- Peers 2 and 1 connect to each other. -/
def crossConfigs : Side → List PeerConfig
  | .a => [peerConfig 1 true]
  | .b => [peerConfig 2 true]

def crossAddr : Side → SockAddr
  | .a => addr 2
  | .b => addr 1

def crossInit : Side → Bytes
  | .a => initiation 2 1 10
  | .b => initiation 1 2 11

/-- Both peers after the pass over the timers in which they initiate. -/
def crossNet : Mesh Side UInt8 SKey :=
  (Machine.run (meshStep crypto pairParams) (Mesh.initial crossConfigs pairEph)
    [(.a, tickAt 100 10), (.b, tickAt 100 11)]).1

def crossEph : Side → UInt8
  | .a => 10
  | .b => 11

/-- What the first pending entry of each peer holds. -/
theorem crossNet_pending (side : Side) :
    ((crossNet.peer side).pending[0]?.map fun p => (p.active, p.serverAddr, p.cfgIdx)) =
      some (true, crossAddr side.other, 0) := by
  cases side <;> decide +kernel

theorem crossNet_hsState (side : Side) :
    ((crossNet.peer side).pending[0]?.map fun p => (crossInit side, p.hsState)) =
      handshakeClientSend crypto (pairParams side).psk (pairParams side).staticPub
        (pairParams side.other).staticPub (some (crossEph side)) true := by
  cases side <;> decide +kernel

theorem crossNet_config (side : Side) :
    ((crossNet.peer side).config 0).hasEndpoint = true ∧
    ((crossNet.peer side).config 0).endpoint = crossAddr side.other ∧
    ((crossNet.peer side).config 0).pub = (pairParams side.other).staticPub := by
  cases side <;> decide +kernel

theorem crossing :
    Crossing crypto pairParams crossAddr crossNet crossInit (fun _ => 0) (fun _ => 101) where
  higher := by decide
  pending side := by
    obtain ⟨p, hp, heq⟩ := Option.map_eq_some_iff.mp (crossNet_pending side)
    simp only [Prod.mk.injEq] at heq
    obtain ⟨hact, haddr, hidx⟩ := heq
    obtain ⟨hhas, hend, hpub⟩ := crossNet_config side
    have hsend := crossNet_hsState side
    rw [hp, Option.map_some] at hsend
    rw [← hidx] at hhas hend hpub
    exact ⟨p, hp, hact, haddr, hhas, hend, hpub, crossEph side, hsend.symm⟩
  cooldown side := by cases side <;> decide +kernel

end Sample

open Sample in
theorem not_tieBroken_sample :
    ¬ TieBroken crypto pairParams crossAddr crossInit (fun _ => 0)
      (Machine.run (meshStep crypto pairParams) crossNet
        [crossingInput crossAddr crossInit (fun _ => 101) (fun _ => recvEnv 101 12) .a,
          crossingInput crossAddr crossInit (fun _ => 101) (fun _ => recvEnv 101 12) .b]) :=
  not_tieBroken crossing (fun _ => recvEnv 101 12) .a

open Sample in
/-- Two initiations that cross: nothing is answered, and both peers are left with
neither a pending handshake nor a session. -/
theorem crossing_unanswered :
    Crossing crypto pairParams crossAddr crossNet crossInit (fun _ => 0) (fun _ => 101) ∧
    let r := Machine.run (meshStep crypto pairParams) crossNet
      [crossingInput crossAddr crossInit (fun _ => 101) (fun _ => recvEnv 101 12) .a,
        crossingInput crossAddr crossInit (fun _ => 101) (fun _ => recvEnv 101 12) .b]
    ¬ TieBroken crypto pairParams crossAddr crossInit (fun _ => 0) r ∧ r.2.length = 0 ∧
      (∀ p ∈ (r.1.peer .a).pending, p.active = false) ∧
      (∀ p ∈ (r.1.peer .b).pending, p.active = false) ∧
      (r.1.peer .a).sessions.length = 0 ∧ (r.1.peer .b).sessions.length = 0 := by
  refine ⟨crossing, ?_⟩
  intro r
  have hquiet : r.2.length = 0 := by decide +kernel
  refine ⟨fun h => ?_, hquiet, by decide +kernel⟩
  obtain ⟨resp, hmem, -⟩ := h.answers
  rw [List.length_eq_zero_iff.mp hquiet] at hmem
  exact absurd hmem (by simp)

end LaneCove
