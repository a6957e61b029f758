import LaneCove.Duo
import LaneCove.Provenance

/-!
# Two peers on an untrusted network

A mesh of two peers. The network delivers the datagrams of both to either of them,
any number of times, in any order and with any source address.

Both directions of a session use the same key, and a data packet does not say who
sent it. What a peer accepts on its session with the other one was sent on the
session of the two, but it may be the peer's own packet.

## Main definitions

- `PassesOn` — the network delivers only what was sent

## Main results

- `accepted_was_sent` — every accepted packet was sent by one of the two peers, on its session
  with the other
-/

namespace LaneCove

variable {Priv Key : Type}

/-- The network hands over a datagram that was sent. -/
def PassesOn (net : Mesh Side Priv Key) (x : Side × Input Priv) : Prop :=
  match x.2 with
  | .udpRecv _ packet _ _ => packet ∈ net.sent
  | .tick .. | .tunRead .. => True

instance (net : Mesh Side Priv Key) : ∀ x, Decidable (PassesOn net x)
  | (_, .udpRecv ..) => inferInstanceAs (Decidable (_ ∈ _))
  | (_, .tick ..) | (_, .tunRead ..) => inferInstanceAs (Decidable True)

variable [Inhabited Key] {C : Crypto Priv Key} {P : Side → PeerParams Priv Key}
  {psk : Option Key} {configs : Side → List PeerConfig} {eph : Side → Option Priv}
  {is : List (Side × Input Priv)}

/-- A packet is accepted under a key that was negotiated with the peer of the session. Under the
previous key this needs that no other peer has taken the slot over. -/
theorem negotiated_of_accepted {side : Side} {inp : Input Priv}
    {slot : ℕ} {key : Key} {usedPrevKey : Bool} {packet payload : Bytes} {seq : BitVec 64}
    (hknown : KeysKnown ((Machine.run (meshStep C P) (Mesh.initial configs eph) is).1.peer side)
      (ofPeer side (Machine.run (meshStep C P) (Mesh.initial configs eph) is).2))
    (hslot : usedPrevKey = true → Machine.Guarded (step C (P side)) (SlotNotTaken C (P side))
      (PeerState.initial (configs side) (eph side)) (inputsOf side is))
    (hacc : .accepted slot key usedPrevKey packet seq payload ∈ (step C (P side)
      ((Machine.run (meshStep C P) (Mesh.initial configs eph) is).1.peer side) inp).2) :
    ∃ s, ((Machine.run (meshStep C P) (Mesh.initial configs eph) is).1.peer side).sessions[slot]? =
        some s ∧ (side, .negotiated s.staticPub key) ∈
          (Machine.run (meshStep C P) (Mesh.initial configs eph) is).2 := by
  obtain ⟨s, hs, -, -, now, -, hkey⟩ := (touches_of_mem hacc rfl (by simp)).accepted hacc
  rcases hkey with ⟨-, rfl⟩ | ⟨hprev, -⟩
  · exact ⟨s, hs, mem_ofPeer.mp (hknown slot s hs).sessionKey⟩
  · have howned := keysOwned_of_guarded (hslot hprev)
    obtain ⟨hpeer, htr⟩ := meshRun_peer C P (Mesh.initial configs eph) is side
    rw [hpeer] at hacc
    obtain ⟨s', hs', -, hneg, -⟩ := howned.accepted hacc
    refine ⟨s', ?_, mem_ofPeer.mp ?_⟩
    · rw [hpeer]
      exact hs'
    · rw [htr]
      exact hneg

/-- In every run of two peers, if the network has not made the datagram itself: what a peer
accepts was sent before, with this sequence number and payload, under the key it is accepted
with. The sender is the other peer, the session it is accepted on is the one with the sender and
it was sent on the session with the receiver; or it is the peer itself, on a session with the
same peer as the one it is accepted on. -/
theorem accepted_was_sent (hC : C.GcmCorrect) (hS : C.Sized) (hO : C.OutputSized)
    (hpsk : ∀ side, (P side).psk = psk) (hsetup : MeshSetup C P configs)
    (hcoll : MeshNoCollision C P configs eph is)
    (hK : C.GcmKeyed ((Machine.run (meshStep C P) (Mesh.initial configs eph) is).2.map Prod.snd))
    (side : Side) (inp : Input Priv)
    (hin : MeshUnforged C P (Machine.run (meshStep C P) (Mesh.initial configs eph) is).1
      (side, inp))
    {slot : ℕ} {key : Key} {usedPrevKey : Bool} {packet payload : Bytes} {seq : BitVec 64}
    (hslot : usedPrevKey = true → Machine.Guarded (step C (P side)) (SlotNotTaken C (P side))
      (PeerState.initial (configs side) (eph side)) (inputsOf side is))
    (hacc : .accepted slot key usedPrevKey packet seq payload ∈ (step C (P side)
      ((Machine.run (meshStep C P) (Mesh.initial configs eph) is).1.peer side) inp).2) :
    ∃ s₀ sender s,
      ((Machine.run (meshStep C P) (Mesh.initial configs eph) is).1.peer side).sessions[slot]? =
        some s₀ ∧
      (sender, .sentData s payload packet) ∈
        (Machine.run (meshStep C P) (Mesh.initial configs eph) is).2 ∧
      s.sessionKey = key ∧ s.sendSeq = seq ∧
      (sender = side ∧ s.staticPub = s₀.staticPub ∨
        sender = side.other ∧ s₀.staticPub = (P side.other).staticPub ∧
          s.staticPub = (P side).staticPub) := by
  have htraced := Machine.run_invariant (I := MeshTraced C psk)
    (fun _ _ x h => h.step hC hS hsetup.wellKeyed hpsk x) (.initial configs eph) is
  obtain ⟨s₀, hs₀, hneg⟩ := negotiated_of_accepted (htraced.known side) hslot hacc
  obtain ⟨sender, s, hsent, rfl, hseq⟩ := htraced.accepted hC hK hpsk hin hacc
  refine ⟨s₀, sender, s, hs₀, hsent, rfl, hseq, ?_⟩
  have hsender := htraced.sentUnder sender s payload packet hsent
  rcases negotiated_same_key hS hO hsetup hcoll hneg hsender with ⟨hself, hpub⟩ | ⟨hpub, hto⟩
  · exact Or.inl ⟨hself.symm, hpub.symm⟩
  · rcases side.eq_or_eq_other sender with rfl | rfl
    · exact Or.inl ⟨rfl, hto.trans hpub.symm⟩
    · exact Or.inr ⟨rfl, hpub, hto⟩

/-- The packets accepted in a trace: side, packet and payload. -/
def acceptances (tr : List (Side × Event Key)) : List (Side × Bytes × Bytes) :=
  tr.filterMap fun x => x.2.acceptance.map fun y => (x.1, y)

/-- The data packets sent in a trace: side, packet and payload. -/
def dataSent (tr : List (Side × Event Key)) : List (Side × Bytes × Bytes) :=
  tr.filterMap fun x => match x.2 with
    | .sentData _ payload packet => some (x.1, packet, payload)
    | _ => none

namespace Sample

def pairConfigs : Side → List PeerConfig
  | .a => [peerConfig 1 true]
  | .b => [peerConfig 2 false, peerConfig 3 false]

def pairRun : List (Side × Input UInt8) → Mesh Side UInt8 SKey × List (Side × Event SKey) :=
  Machine.run (meshStep crypto pairParams) (Mesh.initial pairConfigs pairEph)

/-- A handshake, and then a data packet of side `a` comes back to it from the
address of side `b`. -/
def reflection : List (Side × Input UInt8) := [
  (.a, tickAt 100 10),
  (.b, .udpRecv (addr 2) (initiation 2 1 10) 100 (recvEnv 100 20)),
  (.a, .udpRecv (addr 1) response 100 (recvEnv 100 6)),
  (.a, .tunRead ipPacket (sendEnv 101)),
  (.a, .udpRecv (addr 1) dataPacket 102 (recvEnv 102 7))]

theorem pair_setup : MeshSetup crypto pairParams pairConfigs where
  wellKeyed := pairParams_wellKeyed
  pub_length := by decide +kernel
  distinct := by
    intro side side' h
    cases side <;> cases side' <;> first | rfl | exact absurd h (by decide +kernel)

end Sample

open Sample in
/-- Side `a` accepts its own packet, and side `b` has sent no data at all. -/
theorem reflection_accepted :
    Machine.Guarded (meshStep crypto pairParams) PassesOn
      (Mesh.initial pairConfigs pairEph) reflection ∧
    dataSent (pairRun reflection).2 = [(.a, dataPacket, ipPacket)] ∧
    acceptances (pairRun reflection).2 = [(.a, dataPacket, ipPacket)] := by
  refine ⟨?_, ?_, ?_⟩
  all_goals decide +kernel

open Sample in
/-- The datagram that came back: side `a` sent it itself, on its session with side `b`. -/
theorem accepted_was_sent_reflection :
    ∃ (slot : ℕ) (s₀ : PeerSession SKey) (sender : Side) (s : PeerSession SKey),
      ((pairRun (reflection.take 4)).1.peer .a).sessions[slot]? = some s₀ ∧
      (sender, .sentData s ipPacket dataPacket) ∈ (pairRun (reflection.take 4)).2 ∧
      (sender = .a ∧ s.staticPub = s₀.staticPub ∨
        sender = .b ∧ s₀.staticPub = (pairParams .b).staticPub ∧
          s.staticPub = (pairParams .a).staticPub) := by
  have hmem : (dataPacket, ipPacket) ∈
      (step crypto (pairParams .a) ((pairRun (reflection.take 4)).1.peer .a)
        (.udpRecv (addr 1) dataPacket 102 (recvEnv 102 7))).2.filterMap Event.acceptance := by
    decide +kernel
  obtain ⟨e, he, hpay⟩ := List.mem_filterMap.mp hmem
  cases e with
  | accepted slot key usedPrevKey packet seq payload =>
    simp only [Event.acceptance, Option.some.injEq, Prod.mk.injEq] at hpay
    obtain ⟨rfl, rfl⟩ := hpay
    obtain ⟨s₀, sender, s, hs₀, hsent, -, -, hwho⟩ := accepted_was_sent crypto_gcmCorrect
      crypto_sized crypto_outputSized pairParams_psk pair_setup (by decide +kernel)
      (by decide +kernel) .a (.udpRecv (addr 1) dataPacket 102 (recvEnv 102 7))
      (by decide +kernel) (fun _ => by decide +kernel) he
    exact ⟨slot, s₀, sender, s, hs₀, hsent, hwho⟩
  | _ => exact absurd hpay (by simp [Event.acceptance])

end LaneCove
