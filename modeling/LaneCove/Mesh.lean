import LaneCove.AllowedIps
import LaneCove.Events
import LaneCove.Genuine

/-!
# Any number of peers

Event loops on a network that delivers what it likes: a datagram that some peer has
sent, any number of times, to anyone and with any source address; any handshake packet
at all; and any other bytes that do not decrypt under a key of the receiver.

## Main definitions

- `Mesh`, `meshStep` — the peers and the datagrams sent so far
- `MeshUnforged` — the network makes no data packets of its own
- `tunReads` — the packets the peers have read from their TUN devices

## Main results

- `MeshTraced.accepted` — an accepted packet was sent by one of the peers
- `payload_integrity` — what is written to a TUN device was read from one
-/

namespace LaneCove

variable {ι Priv Key : Type}

-- ════════════════════════════════════════════════════════════════════════
-- The mesh
-- ════════════════════════════════════════════════════════════════════════

/-- The peers, and every datagram that one of them has sent. -/
structure Mesh (ι Priv Key : Type) where
  peer : ι → PeerState Priv Key
  sent : List Bytes

/-- All peers start without sessions. -/
def Mesh.initial (configs : ι → List PeerConfig) (eph : ι → Option Priv) : Mesh ι Priv Key where
  peer i := PeerState.initial (configs i) (eph i)
  sent := []

/-- The network makes no data packet of its own: a datagram that is no handshake packet was
sent by a peer, or it decrypts under no key of the receiver. -/
def MeshUnforged (C : Crypto Priv Key) (P : ι → PeerParams Priv Key) (m : Mesh ι Priv Key)
    (x : ι × Input Priv) : Prop :=
  match x.2 with
  | .udpRecv _ packet _ _ => isHandshake (P x.1).psk packet = false → packet ∈ m.sent ∨
      ∀ s ∈ (m.peer x.1).sessions, decryptPacket C s.sessionKey packet = none ∧
        decryptPacket C s.prevSessionKey packet = none
  | .tick .. | .tunRead .. => True

instance (C : Crypto Priv Key) (P : ι → PeerParams Priv Key) (m : Mesh ι Priv Key) :
    ∀ x, Decidable (MeshUnforged C P m x)
  | (_, .udpRecv ..) => inferInstanceAs (Decidable (_ → _ ∨ _))
  | (_, .tick ..) | (_, .tunRead ..) => inferInstanceAs (Decidable True)

/-- The events of one peer. -/
def ofPeer [DecidableEq ι] (i : ι) (tr : List (ι × Event Key)) : List (Event Key) :=
  tr.filterMap fun x => if x.1 = i then some x.2 else none

/-- The inputs of one peer. -/
def inputsOf [DecidableEq ι] (i : ι) (is : List (ι × Input Priv)) : List (Input Priv) :=
  is.filterMap fun x => if x.1 = i then some x.2 else none

/-- What the peers have read from their TUN devices. -/
def tunReads (is : List (ι × Input Priv)) : List (ι × Bytes) :=
  is.filterMap fun x => match x.2 with
    | .tunRead buffer _ => some (x.1, buffer)
    | .tick .. | .udpRecv .. => none

/-- Packet and payload of an acceptance. -/
def Event.acceptance : Event Key → Option (Bytes × Bytes)
  | .accepted _ _ _ packet _ payload => some (packet, payload)
  | _ => none

section Peers

variable [DecidableEq ι] {tr es : List (ι × Event Key)} {i j : ι}

@[simp] theorem ofPeer_append (i : ι) (tr es : List (ι × Event Key)) :
    ofPeer i (tr ++ es) = ofPeer i tr ++ ofPeer i es := List.filterMap_append

theorem mem_ofPeer {e : Event Key} : e ∈ ofPeer i tr ↔ (i, e) ∈ tr := by
  constructor
  · intro h
    obtain ⟨⟨j, e'⟩, hmem, heq⟩ := List.mem_filterMap.mp h
    dsimp only at heq
    split at heq
    · next hj =>
      obtain rfl := Option.some.inj heq
      rwa [← hj]
    · exact absurd heq (by simp)
  · intro h
    exact List.mem_filterMap.mpr ⟨(i, e), h, by simp⟩

@[simp] theorem ofPeer_map_self (i : ι) (es : List (Event Key)) :
    ofPeer i (es.map fun e => (i, e)) = es := by
  simp [ofPeer, List.filterMap_map]

theorem ofPeer_map_of_ne (h : j ≠ i) (es : List (Event Key)) :
    ofPeer i (es.map fun e => (j, e)) = [] := by
  simp [ofPeer, List.filterMap_map, h]

omit [DecidableEq ι] in
@[simp] theorem tunReads_append (is js : List (ι × Input Priv)) :
    tunReads (is ++ js) = tunReads is ++ tunReads js := List.filterMap_append

end Peers

variable [DecidableEq ι] [Inhabited Key]

/-- One reaction of one of the peers. -/
def meshStep (C : Crypto Priv Key) (P : ι → PeerParams Priv Key) (m : Mesh ι Priv Key)
    (x : ι × Input Priv) : Mesh ι Priv Key × List (ι × Event Key) :=
  let r := step C (P x.1) (m.peer x.1) x.2
  ({ peer := Function.update m.peer x.1 r.1, sent := m.sent ++ datagrams r.2 },
    r.2.map fun e => (x.1, e))

variable {C : Crypto Priv Key} {P : ι → PeerParams Priv Key}

/-- A peer of the mesh runs on its own inputs. -/
theorem meshRun_peer (C : Crypto Priv Key) (P : ι → PeerParams Priv Key) (m : Mesh ι Priv Key)
    (is : List (ι × Input Priv)) (i : ι) :
    (Machine.run (meshStep C P) m is).1.peer i =
        (Machine.run (step C (P i)) (m.peer i) (inputsOf i is)).1 ∧
      ofPeer i (Machine.run (meshStep C P) m is).2 =
        (Machine.run (step C (P i)) (m.peer i) (inputsOf i is)).2 := by
  induction is generalizing m with
  | nil => exact ⟨rfl, rfl⟩
  | cons x is ih =>
    obtain ⟨j, inp⟩ := x
    obtain ⟨hpeer, htr⟩ := ih (meshStep C P m (j, inp)).1
    rw [Machine.run_cons, ofPeer_append, htr, hpeer]
    by_cases hj : j = i
    · subst hj
      simp [meshStep, inputsOf]
    · have hi : Function.update m.peer j (step C (P j) (m.peer j) inp).1 i = m.peer i :=
        Function.update_of_ne (Ne.symm hj) ..
      simp [meshStep, inputsOf, hj, hi, ofPeer_map_of_ne hj]

/-- **Step, peer by peer**: what the reaction of one peer keeps, every peer keeps. -/
theorem meshStep_peerwise {I : ι → PeerState Priv Key → List (Event Key) → Prop}
    {m : Mesh ι Priv Key} {tr : List (ι × Event Key)} (h : ∀ i, I i (m.peer i) (ofPeer i tr))
    (x : ι × Input Priv) (hstep : I x.1 (step C (P x.1) (m.peer x.1) x.2).1
      (ofPeer x.1 tr ++ (step C (P x.1) (m.peer x.1) x.2).2)) (i : ι) :
    I i ((meshStep C P m x).1.peer i) (ofPeer i (tr ++ (meshStep C P m x).2)) := by
  obtain ⟨j, inp⟩ := x
  by_cases hj : j = i
  · subst hj
    simpa [meshStep] using hstep
  · have hi : Function.update m.peer j (step C (P j) (m.peer j) inp).1 i = m.peer i :=
      Function.update_of_ne (Ne.symm hj) ..
    simpa [meshStep, hi, ofPeer_map_of_ne hj] using h i

/-- The datagrams are those of the trace, the trace is genuine, the keys of all sessions were
negotiated in it, and data is sent under keys that were negotiated with the peer of the session. -/
structure MeshTraced (C : Crypto Priv Key) (psk : Option Key) (m : Mesh ι Priv Key)
    (tr : List (ι × Event Key)) : Prop where
  sent : ∀ packet ∈ m.sent, ∃ x ∈ tr, x.2.datagram = some packet
  genuine : ∀ x ∈ tr, x.2.Genuine C psk
  known : ∀ i, KeysKnown (m.peer i) (ofPeer i tr)
  sentUnder : ∀ i s payload packet, (i, .sentData s payload packet) ∈ tr →
    (i, .negotiated s.staticPub s.sessionKey) ∈ tr

variable {m : Mesh ι Priv Key} {tr : List (ι × Event Key)} {psk : Option Key}

omit [Inhabited Key] in
theorem MeshTraced.initial (configs : ι → List PeerConfig) (eph : ι → Option Priv) :
    MeshTraced C psk (Mesh.initial configs eph) [] :=
  ⟨fun packet hp => absurd hp (by simp [Mesh.initial]), by simp,
    fun i => keysKnown_initial (configs i) (eph i), by simp⟩

theorem MeshTraced.step (h : MeshTraced C psk m tr) (hC : C.GcmCorrect) (hS : C.Sized)
    (hP : ∀ i, (P i).WellKeyed C) (hpsk : ∀ i, (P i).psk = psk) (x : ι × Input Priv) :
    MeshTraced C psk (meshStep C P m x).1 (tr ++ (meshStep C P m x).2) := by
  refine ⟨?_, ?_, meshStep_peerwise (I := fun _ => KeysKnown) h.known x
    ((h.known x.1).step C _ x.2), ?_⟩
  · intro packet hp
    rcases List.mem_append.mp hp with hp | hp
    · obtain ⟨y, hy, hd⟩ := h.sent packet hp
      exact ⟨y, List.mem_append_left _ hy, hd⟩
    · obtain ⟨e, he, hd⟩ := List.mem_filterMap.mp hp
      exact ⟨(x.1, e), List.mem_append_right _ (List.mem_map_of_mem he), hd⟩
  · intro y hy
    rcases List.mem_append.mp hy with hy | hy
    · exact h.genuine y hy
    · obtain ⟨e, he, rfl⟩ := List.mem_map.mp hy
      have hgen := step_genuine hC hS (hP x.1) _ _ e he
      rwa [hpsk] at hgen
  · intro i s payload packet hmem
    rcases List.mem_append.mp hmem with hmem | hmem
    · exact List.mem_append_left _ (h.sentUnder i s payload packet hmem)
    · obtain ⟨e, he, heq⟩ := List.mem_map.mp hmem
      obtain ⟨rfl, rfl⟩ := Prod.mk.inj heq
      exact List.mem_append_left _ (mem_ofPeer.mp ((h.known _).sentData he))

omit [DecidableEq ι] [Inhabited Key] in
/-- What one peer reports is an event of the trace. -/
theorem mem_events {i : ι} {e : Event Key} (h : (i, e) ∈ tr) : e ∈ tr.map Prod.snd :=
  List.mem_map.mpr ⟨_, h, rfl⟩

omit [Inhabited Key] in
/-- A sent datagram that decrypts under a key of the trace and is no handshake packet is a data
packet of one of the peers, sent under that key. -/
theorem MeshTraced.sentData (h : MeshTraced C psk m tr) (hC : C.GcmCorrect)
    (hK : C.GcmKeyed (tr.map Prod.snd)) {packet plain payload : Bytes} {seq : BitVec 64}
    {key : Key} (hkey : key ∈ negotiatedKeys (tr.map Prod.snd)) (hsent : packet ∈ m.sent)
    (hhs : isHandshake psk packet = false) (hd : decryptPacket C key packet = some plain)
    (hu : unframe plain = some (seq, payload)) :
    ∃ sender s, (sender, .sentData s payload packet) ∈ tr ∧ s.sessionKey = key ∧
      s.sendSeq = seq := by
  obtain ⟨⟨sender, e⟩, he, hpacket⟩ := h.sent packet hsent
  have hgen := h.genuine _ he
  cases e with
  | sentInit dst packet' =>
    obtain rfl := Option.some.inj hpacket
    exact absurd hgen (by simp [Event.Genuine, hhs])
  | sentResponse dst init packet' =>
    obtain rfl := Option.some.inj hpacket
    exact absurd hgen (by simp [Event.Genuine, hhs])
  | sentData s payload' packet' =>
    obtain rfl := Option.some.inj hpacket
    obtain ⟨iv, henc⟩ := hgen
    obtain ⟨rfl, rfl⟩ := (hK.opensOnly (mem_events he)).eq_of_decryptPacket hC henc hkey hd
    rw [unframe_frame] at hu
    obtain ⟨rfl, rfl⟩ := Prod.mk.injEq .. ▸ Option.some.inj hu
    exact ⟨sender, s, he, rfl, rfl⟩
  | negotiated => exact absurd hpacket (by simp [Event.datagram])
  | installed => exact absurd hpacket (by simp [Event.datagram])
  | accepted => exact absurd hpacket (by simp [Event.datagram])
  | delivered => exact absurd hpacket (by simp [Event.datagram])

/-- What a peer accepts was sent by one of the peers, under the key it is accepted with. -/
theorem MeshTraced.accepted (h : MeshTraced C psk m tr) (hC : C.GcmCorrect)
    (hK : C.GcmKeyed (tr.map Prod.snd)) (hpsk : ∀ i, (P i).psk = psk) {i : ι}
    {inp : Input Priv} (hin : MeshUnforged C P m (i, inp)) {slot : ℕ} {key : Key}
    {usedPrevKey : Bool} {packet payload : Bytes} {seq : BitVec 64}
    (hacc : .accepted slot key usedPrevKey packet seq payload ∈
      (LaneCove.step C (P i) (m.peer i) inp).2) :
    ∃ sender s, (sender, .sentData s payload packet) ∈ tr ∧ s.sessionKey = key ∧
      s.sendSeq = seq := by
  obtain ⟨s, hs, -, ⟨plain, hd, hu⟩, now, hrx, hkey⟩ :=
    (touches_of_mem hacc rfl (by simp)).accepted hacc
  obtain ⟨hhs, src, env, rfl⟩ := Input.dataPacket_eq_some hrx
  rcases hin hhs with hsent | hjunk
  · obtain ⟨pub, hneg⟩ := (h.known i).accepted hacc
    rw [hpsk] at hhs
    exact h.sentData hC hK (mem_negotiatedKeys (mem_events (mem_ofPeer.mp hneg))) hsent hhs hd hu
  · obtain ⟨hcur, hprev⟩ := hjunk s (List.mem_of_getElem? hs)
    rcases hkey with ⟨-, rfl⟩ | ⟨-, rfl, -⟩
    · exact absurd hd (by simp [hcur])
    · exact absurd hd (by simp [hprev])

-- ════════════════════════════════════════════════════════════════════════
-- Payloads
-- ════════════════════════════════════════════════════════════════════════

/-- Every payload in the trace was read from a TUN device before; keepalives carry none. -/
structure PayloadsRead (C : Crypto Priv Key) (psk : Option Key) (m : Mesh ι Priv Key)
    (tr : List (ι × Event Key)) (is : List (ι × Input Priv)) : Prop where
  traced : MeshTraced C psk m tr
  sentData : ∀ i s payload packet, (i, .sentData s payload packet) ∈ tr → payload ≠ [] →
    ∃ origin, (origin, payload) ∈ tunReads is
  delivered : ∀ i packet usedPrevKey payload relay,
    (i, .delivered packet usedPrevKey payload relay) ∈ tr →
    ∃ origin, (origin, payload) ∈ tunReads is

/-- A payload that is handed on was read from a TUN device. -/
theorem PayloadsRead.handed {is : List (ι × Input Priv)} (h : PayloadsRead C psk m tr is)
    (hC : C.GcmCorrect) (hK : C.GcmKeyed (tr.map Prod.snd)) (hpsk : ∀ i, (P i).psk = psk) {i : ι}
    {inp : Input Priv} (hin : MeshUnforged C P m (i, inp)) {packet payload : Bytes}
    {usedPrevKey : Bool} {relay : Option ℕ}
    (hdel : .delivered packet usedPrevKey payload relay ∈
      (LaneCove.step C (P i) (m.peer i) inp).2) :
    ∃ origin, (origin, payload) ∈ tunReads is := by
  obtain ⟨slot, s, key, seq, -, hadm, hacc⟩ := (touches_of_mem hdel rfl (by simp)).delivered hdel
  obtain ⟨sender, s', hsent, -⟩ := h.traced.accepted hC hK hpsk hin hacc
  have hne : payload ≠ [] := by
    rintro rfl
    exact absurd hadm (by simp [PeerSession.admits])
  exact h.sentData sender s' payload packet hsent hne

theorem PayloadsRead.step {is : List (ι × Input Priv)} (h : PayloadsRead C psk m tr is)
    (hC : C.GcmCorrect) (hK : C.GcmKeyed (tr.map Prod.snd)) (hS : C.Sized)
    (hP : ∀ i, (P i).WellKeyed C) (hpsk : ∀ i, (P i).psk = psk) {x : ι × Input Priv}
    (hin : MeshUnforged C P m x) :
    PayloadsRead C psk (meshStep C P m x).1 (tr ++ (meshStep C P m x).2) (is ++ [x]) := by
  obtain ⟨j, inp⟩ := x
  have hmono : ∀ {payload}, (∃ origin, (origin, payload) ∈ tunReads is) →
      ∃ origin, (origin, payload) ∈ tunReads (is ++ [(j, inp)]) := by
    rintro payload ⟨origin, hmem⟩
    exact ⟨origin, by rw [tunReads_append]; exact List.mem_append_left _ hmem⟩
  refine ⟨h.traced.step hC hS hP hpsk _, ?_, ?_⟩
  · intro i s payload packet hmem hne
    rcases List.mem_append.mp hmem with hmem | hmem
    · exact hmono (h.sentData i s payload packet hmem hne)
    · obtain ⟨e, he, heq⟩ := List.mem_map.mp hmem
      obtain ⟨rfl, rfl⟩ := Prod.mk.inj heq
      rcases sentData_cause he with rfl | ⟨env, hinp⟩ | ⟨packet', usedPrevKey, fwd, hdel⟩
      · exact absurd rfl hne
      · obtain rfl : inp = .tunRead payload env := hinp
        exact ⟨j, by simp [tunReads]⟩
      · exact hmono (h.handed hC hK hpsk hin hdel)
  · intro i packet usedPrevKey payload relay hmem
    rcases List.mem_append.mp hmem with hmem | hmem
    · exact hmono (h.delivered i packet usedPrevKey payload relay hmem)
    · obtain ⟨e, he, heq⟩ := List.mem_map.mp hmem
      obtain ⟨rfl, rfl⟩ := Prod.mk.inj heq
      exact hmono (h.handed hC hK hpsk hin he)

/-- In every run of any number of peers on a network that makes no data packets of its own:
what a peer writes to its TUN device, some peer has read from its TUN device, byte for byte. -/
theorem payload_integrity (hC : C.GcmCorrect) (hS : C.Sized) (hP : ∀ i, (P i).WellKeyed C)
    (hpsk : ∀ i, (P i).psk = psk) (configs : ι → List PeerConfig) (eph : ι → Option Priv)
    (is : List (ι × Input Priv))
    (hK : C.GcmKeyed ((Machine.run (meshStep C P) (Mesh.initial configs eph) is).2.map Prod.snd))
    (hnet : Machine.Guarded (meshStep C P) (MeshUnforged C P) (Mesh.initial configs eph) is)
    {i : ι} {payload : Bytes} (hwritten : payload ∈
      tunWrites (ofPeer i (Machine.run (meshStep C P) (Mesh.initial configs eph) is).2)) :
    ∃ origin, (origin, payload) ∈ tunReads is := by
  have hread := Machine.observe_invariant_of_guarded _ (fun _ x => [x])
    (I := fun m tr log => C.GcmKeyed (tr.map Prod.snd) → PayloadsRead C psk m tr log)
    (fun m tr log x h hin hK => by
      have hK' := hK.mono (List.map_subset _ (List.subset_append_left _ _))
      exact (h hK').step hC hK' hS hP hpsk hin)
    (fun _ => ⟨.initial configs eph, by simp, by simp⟩) hnet hK
  rw [Machine.run_observe_inputs] at hread
  obtain ⟨packet, usedPrevKey, he⟩ := delivered_of_mem_tunWrites hwritten
  exact hread.delivered i packet usedPrevKey payload none (mem_ofPeer.mp he)

namespace Sample

/-- Peers 1 and 2 are spokes, peer 3 is the hub. -/
def starParams (i : Fin 3) : PeerParams UInt8 SKey := params (UInt8.ofNat (i.val + 1))

def starConfigs : Fin 3 → List PeerConfig
  | 0 | 1 => [⟨crypto.publicKey 3, [net], true, addr 3, 0⟩]
  | 2 => [⟨crypto.publicKey 1, [⟨0x0a000001#32, 0xffffffff#32, 32⟩], false, addr 1, 0⟩,
      ⟨crypto.publicKey 2, [⟨0x0a000002#32, 0xffffffff#32, 32⟩], false, addr 2, 0⟩]

def starEph (i : Fin 3) : Option UInt8 := some (UInt8.ofNat (i.val + 4))

def starRun : List (Fin 3 × Input UInt8) → Mesh (Fin 3) UInt8 SKey × List (Fin 3 × Event SKey) :=
  Machine.run (meshStep crypto starParams) (Mesh.initial starConfigs starEph)

/-- The datagram sent last arrives at peer `i` from address `n`. -/
def starArrive (i : Fin 3) (n : ℕ) (now : Time) (fresh : UInt8) (is : List (Fin 3 × Input UInt8)) :
    List (Fin 3 × Input UInt8) :=
  is ++ [(i, .udpRecv (addr n) ((starRun is).1.sent.getLastD []) now (recvEnv now fresh))]

/-- Both spokes connect to the hub. -/
def starConnected : List (Fin 3 × Input UInt8) :=
  starArrive 1 3 101 23 <| starArrive 2 2 101 22 <| (· ++ [(1, tickAt 100 11)]) <|
    starArrive 0 3 101 21 <| starArrive 2 1 101 20 [(0, tickAt 100 10)]

/-- Then a packet travels from spoke 1 over the hub to spoke 2. -/
def starInputs : List (Fin 3 × Input UInt8) :=
  starArrive 1 3 102 25 <| starArrive 2 1 102 24 <|
    starConnected ++ [(0, .tunRead spokePacket (sendEnv 102))]

theorem starParams_wellKeyed (i : Fin 3) : (starParams i).WellKeyed crypto := rfl

theorem starParams_psk (i : Fin 3) : (starParams i).psk = none := rfl

theorem starInputs_gcmKeyed : crypto.GcmKeyed ((starRun starInputs).2.map Prod.snd) := by
  decide +kernel

theorem starInputs_written : tunWrites (ofPeer 1 (starRun starInputs).2) = [spokePacket] := by
  decide +kernel

end Sample

open Sample in
/-- The packet that spoke 2 writes to its TUN device. -/
theorem payload_integrity_star :
    tunWrites (ofPeer 1 (starRun starInputs).2) = [spokePacket] ∧
      ∃ origin, (origin, spokePacket) ∈ tunReads starInputs :=
  ⟨starInputs_written, payload_integrity crypto_gcmCorrect crypto_sized
    starParams_wellKeyed starParams_psk starConfigs starEph starInputs starInputs_gcmKeyed
    (by decide +kernel) (i := 1) (by
      change spokePacket ∈ tunWrites (ofPeer 1 (starRun starInputs).2)
      rw [starInputs_written]
      exact List.mem_singleton_self _)⟩

end LaneCove
