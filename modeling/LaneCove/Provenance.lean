import Mathlib.Data.Fintype.Basic
import LaneCove.Mesh
import LaneCove.KeyBinding

/-!
# Where packets come from

Peers on a network that delivers what it likes. Two peers of the network hold the same session
key only if they name each other, whatever handshake packets the network makes. So the sender of
an accepted data packet is the peer with which the receiver negotiated the key, or the receiver
itself, since both directions use one key.

A payload may travel over several peers. At each hop the receiver has checked the source address
against the AllowedIPs of the peer it came from.

## Main definitions

- `MeshSetup`, `MeshNoCollision` — the assumptions on keys and on the hash
- `Admits` — the configuration admits a source address from a peer

## Main results

- `sessions_share_key` — no unknown key share
- `accepted_sender` — who sent a data packet that is accepted
- `source_admitted_on_path` — AllowedIPs hold along the whole path of a payload
-/

namespace LaneCove

variable {ι Priv Key : Type} {C : Crypto Priv Key}

-- ════════════════════════════════════════════════════════════════════════
-- Who holds a key
-- ════════════════════════════════════════════════════════════════════════

/-- Public keys belong to private keys and are 32 bytes long, and no two peers have the same. -/
structure MeshSetup (C : Crypto Priv Key) (P : ι → PeerParams Priv Key)
    (configs : ι → List PeerConfig) : Prop where
  wellKeyed : ∀ i, (P i).WellKeyed C
  pub_length : ∀ i, ∀ cfg ∈ configs i, cfg.pub.length = 32
  distinct : Function.Injective fun i => (P i).staticPub

section Keys

variable [DecidableEq ι] [Inhabited Key] {P : ι → PeerParams Priv Key}
  {configs : ι → List PeerConfig} {eph : ι → Option Priv} {is : List (ι × Input Priv)}

/-- The calls of `derive_session_key` of peer `i`. -/
def meshDerivations (C : Crypto Priv Key) (P : ι → PeerParams Priv Key)
    (configs : ι → List PeerConfig) (eph : ι → Option Priv) (is : List (ι × Input Priv)) (i : ι) :
    List Derivation :=
  derivations C (P i) (PeerState.initial (configs i) (eph i)) (inputsOf i is)

/-- SHA-256 has no collision among the calls of `derive_session_key` of all peers. -/
def MeshNoCollision (C : Crypto Priv Key) (P : ι → PeerParams Priv Key)
    (configs : ι → List PeerConfig) (eph : ι → Option Priv) (is : List (ι × Input Priv)) : Prop :=
  ∀ i j, ∀ d ∈ meshDerivations C P configs eph is i, ∀ d' ∈ meshDerivations C P configs eph is j,
    d.key C = d'.key C → d.transcript.bytes = d'.transcript.bytes

instance [Fintype ι] [DecidableEq Key] : Decidable (MeshNoCollision C P configs eph is) :=
  inferInstanceAs (Decidable (∀ _ _, ∀ d ∈ _, ∀ d' ∈ _, _ → _))

/-- A key that a peer of the mesh negotiates is one it derives. -/
theorem meshDerivations_of_negotiated {i : ι} {pub : Bytes} {key : Key}
    (h : (i, .negotiated pub key) ∈
      (Machine.run (meshStep C P) (Mesh.initial configs eph) is).2) :
    ∃ d ∈ meshDerivations C P configs eph is i, d.peerStatic = pub ∧ d.key C = key := by
  have hpeer := (meshRun_peer C P (Mesh.initial configs eph) is i).2
  have hneg := mem_negotiations (mem_ofPeer.mpr h)
  rw [hpeer, negotiations_run] at hneg
  obtain ⟨d, hd, heq⟩ := List.mem_map.mp hneg
  obtain ⟨hpub, hkey⟩ := Prod.mk.inj heq
  exact ⟨d, hd, hpub, hkey⟩

/-- If two peers negotiate the same key, then each negotiates it with the other one, or they are
one peer that negotiates it twice with the same peer. -/
theorem negotiated_same_key (hS : C.Sized) (hO : C.OutputSized)
    (hsetup : MeshSetup C P configs) (hcoll : MeshNoCollision C P configs eph is) {i j : ι}
    {pub pub' : Bytes} {key : Key}
    (hi : (i, .negotiated pub key) ∈
      (Machine.run (meshStep C P) (Mesh.initial configs eph) is).2)
    (hj : (j, .negotiated pub' key) ∈
      (Machine.run (meshStep C P) (Mesh.initial configs eph) is).2) :
    (i = j ∧ pub = pub') ∨ (pub = (P j).staticPub ∧ pub' = (P i).staticPub) := by
  obtain ⟨d, hd, rfl, rfl⟩ := meshDerivations_of_negotiated hi
  obtain ⟨d', hd', rfl, hkey⟩ := meshDerivations_of_negotiated hj
  have hb := derivations_bound hS hO (hsetup.wellKeyed i) (hsetup.pub_length i) _ _ d hd
  have hb' := derivations_bound hS hO (hsetup.wellKeyed j) (hsetup.pub_length j) _ _ d' hd'
  have ht : d.transcript = d'.transcript :=
    Transcript.bytes_injective hb.wellSized hb'.wellSized (hcoll i j d hd d' hd' hkey.symm)
  rcases hb.same_transcript hb' ht with ⟨-, hown, hpeer⟩ | ⟨-, hpeer, hpeer'⟩
  · exact Or.inl ⟨hsetup.distinct hown, hpeer⟩
  · exact Or.inr ⟨hpeer, hpeer'⟩

end Keys

-- ════════════════════════════════════════════════════════════════════════
-- Who sent a packet
-- ════════════════════════════════════════════════════════════════════════

variable [DecidableEq ι] [Inhabited Key] {P : ι → PeerParams Priv Key}
  {configs : ι → List PeerConfig} {eph : ι → Option Priv} {psk : Option Key}
  {m : Mesh ι Priv Key} {tr : List (ι × Event Key)} {is : List (ι × Input Priv)}

/-- In every run of any number of peers, on any network: if two sessions have the same key, then
they are sessions of two peers with each other, or of one peer with the same peer. -/
theorem sessions_share_key (hS : C.Sized) (hO : C.OutputSized) (hsetup : MeshSetup C P configs)
    (hcoll : MeshNoCollision C P configs eph is) {i j : ι} {k l : ℕ} {s s' : PeerSession Key}
    (hs : ((Machine.run (meshStep C P) (Mesh.initial configs eph) is).1.peer i).sessions[k]? =
      some s)
    (hs' : ((Machine.run (meshStep C P) (Mesh.initial configs eph) is).1.peer j).sessions[l]? =
      some s') (hkey : s.sessionKey = s'.sessionKey) :
    (i = j ∧ s.staticPub = s'.staticPub) ∨
      (s.staticPub = (P j).staticPub ∧ s'.staticPub = (P i).staticPub) := by
  have hrun := @Machine.run_invariant _ _ _ (meshStep C P)
    (fun m tr => ∀ i, KeysKnown (m.peer i) (ofPeer i tr))
    (fun m tr x h => meshStep_peerwise (I := fun _ => KeysKnown) h x ((h x.1).step C _ x.2))
    (Mesh.initial configs eph) (fun i => keysKnown_initial (configs i) (eph i)) is
  have hneg := mem_ofPeer.mp (hrun i k s hs).sessionKey
  have hneg' := mem_ofPeer.mp (hrun j l s' hs').sessionKey
  exact negotiated_same_key hS hO hsetup hcoll hneg (hkey ▸ hneg')

/-- Data packets are accepted under keys that were negotiated, and what is accepted was sent. -/
structure Sourced (C : Crypto Priv Key) (psk : Option Key) (m : Mesh ι Priv Key)
    (tr : List (ι × Event Key)) : Prop where
  traced : MeshTraced C psk m tr
  accepted : ∀ i slot key usedPrevKey packet seq payload,
    (i, .accepted slot key usedPrevKey packet seq payload) ∈ tr →
    (∃ pub, (i, .negotiated pub key) ∈ tr) ∧ ∃ sender s,
      (sender, .sentData s payload packet) ∈ tr ∧ s.sessionKey = key ∧ s.sendSeq = seq

omit [Inhabited Key] in
theorem Sourced.initial (configs : ι → List PeerConfig) (eph : ι → Option Priv) :
    Sourced C psk (Mesh.initial configs eph) [] :=
  ⟨.initial configs eph, by simp⟩

theorem Sourced.step (h : Sourced C psk m tr) (hC : C.GcmCorrect)
    (hK : C.GcmKeyed (tr.map Prod.snd)) (hS : C.Sized) (hP : ∀ i, (P i).WellKeyed C)
    (hpsk : ∀ i, (P i).psk = psk) {x : ι × Input Priv} (hin : MeshUnforged C P m x) :
    Sourced C psk (meshStep C P m x).1 (tr ++ (meshStep C P m x).2) := by
  refine ⟨h.traced.step hC hS hP hpsk x, ?_⟩
  intro i slot key usedPrevKey packet seq payload hmem
  rcases List.mem_append.mp hmem with hmem | hmem
  · obtain ⟨⟨pub, hneg⟩, sender, s, hsent, hs⟩ := h.accepted i _ _ _ _ _ _ hmem
    exact ⟨⟨pub, List.mem_append_left _ hneg⟩, sender, s, List.mem_append_left _ hsent, hs⟩
  · obtain ⟨e, he, heq⟩ := List.mem_map.mp hmem
    obtain ⟨rfl, rfl⟩ := Prod.mk.inj heq
    obtain ⟨pub, hneg⟩ := (h.traced.known _).accepted he
    obtain ⟨sender, s, hsent, hs⟩ := h.traced.accepted hC hK hpsk hin he
    exact ⟨⟨pub, List.mem_append_left _ (mem_ofPeer.mp hneg)⟩, sender, s,
      List.mem_append_left _ hsent, hs⟩

/-- In every run of any number of peers on a network that makes no data packets of its own: a
data packet that peer `i` accepts was sent with this payload and sequence number by `i` itself,
or by the peer with which `i` negotiated the key, and this peer sent it on its session with
`i`. -/
theorem accepted_sender (hC : C.GcmCorrect) (hS : C.Sized) (hO : C.OutputSized)
    (hpsk : ∀ i, (P i).psk = psk) (hsetup : MeshSetup C P configs)
    (hcoll : MeshNoCollision C P configs eph is)
    (hK : C.GcmKeyed ((Machine.run (meshStep C P) (Mesh.initial configs eph) is).2.map Prod.snd))
    (hnet : Machine.Guarded (meshStep C P) (MeshUnforged C P) (Mesh.initial configs eph) is)
    {i : ι} {slot : ℕ} {key : Key} {usedPrevKey : Bool} {packet payload : Bytes} {seq : BitVec 64}
    (hacc : (i, .accepted slot key usedPrevKey packet seq payload) ∈
      (Machine.run (meshStep C P) (Mesh.initial configs eph) is).2) :
    ∃ sender s, (sender, .sentData s payload packet) ∈
        (Machine.run (meshStep C P) (Mesh.initial configs eph) is).2 ∧ s.sessionKey = key ∧
      s.sendSeq = seq ∧ (sender = i ∨ s.staticPub = (P i).staticPub ∧
        (i, .negotiated (P sender).staticPub key) ∈
          (Machine.run (meshStep C P) (Mesh.initial configs eph) is).2) := by
  have hrun := Machine.run_invariant_of_guarded
    (I := fun m tr => C.GcmKeyed (tr.map Prod.snd) → Sourced C psk m tr)
    (fun m tr x h hin hK => by
      have hK' := hK.mono (List.map_subset _ (List.subset_append_left _ _))
      exact (h hK').step hC hK' hS hsetup.wellKeyed hpsk hin)
    (fun _ => .initial configs eph) hnet hK
  obtain ⟨⟨pub, hneg⟩, sender, s, hsent, rfl, hseq⟩ := hrun.accepted i _ _ _ _ _ _ hacc
  refine ⟨sender, s, hsent, rfl, hseq, ?_⟩
  have hsender := hrun.traced.sentUnder sender s payload packet hsent
  rcases negotiated_same_key hS hO hsetup hcoll hneg hsender with ⟨hself, -⟩ | ⟨rfl, hto⟩
  · exact Or.inl hself.symm
  · exact Or.inr ⟨hto, hneg⟩

-- ════════════════════════════════════════════════════════════════════════
-- AllowedIPs along a path
-- ════════════════════════════════════════════════════════════════════════

/-- The configuration has the peer `pub`, without AllowedIPs or with one that covers `ip`. -/
def Admits (configs : List PeerConfig) (pub : Bytes) (ip : BitVec 32) : Prop :=
  ∃ cfg ∈ configs, cfg.pub = pub ∧ (cfg.routes = [] ∨ ∃ route ∈ cfg.routes, route.covers ip = true)

omit [Inhabited Key] in
/-- What a session admits, the configuration of its peer admits. -/
theorem KeyOwned.admits {configs : List PeerConfig} {tr : List (Event Key)} {s : PeerSession Key}
    (h : KeyOwned configs tr s) {payload : Bytes} (hadm : s.admits payload = true)
    (hip : isIpv4 payload = true) : Admits configs s.staticPub (ipAt payload 12) := by
  obtain ⟨cfg, hcfg, hpub, hroutes⟩ := h.routes
  refine ⟨cfg, hcfg, hpub, ?_⟩
  rw [hroutes]
  by_cases hnil : s.routes = []
  · exact Or.inl hnil
  · have hsrc := checkAllowedSrc_of_admits hadm hnil hip
    rw [checkAllowedSrc, Bool.or_eq_true, List.isEmpty_iff, List.any_eq_true] at hsrc
    exact Or.inr (hsrc.resolve_left hnil)

/-- Peers `i` and `j` have negotiated the same key, and `i` admits `ip` from the peer with which
it did. -/
def SharesKey (configs : ι → List PeerConfig) (tr : List (ι × Event Key)) (ip : BitVec 32)
    (i j : ι) : Prop :=
  ∃ pub pub' key, (i, .negotiated pub key) ∈ tr ∧ (j, .negotiated pub' key) ∈ tr ∧
    Admits (configs i) pub ip

/-- The payload is an IPv4 packet that was read at the end of a path of peers, each of which
admits its source address from the next one. -/
def CarriedFrom (configs : ι → List PeerConfig) (tr : List (ι × Event Key))
    (is : List (ι × Input Priv)) (i : ι) (payload : Bytes) : Prop :=
  isIpv4 payload = true ∧ ∃ origin,
    Relation.ReflTransGen (SharesKey configs tr (ipAt payload 12)) i origin ∧
      (origin, payload) ∈ tunReads is

omit [DecidableEq ι] [Inhabited Key] in
theorem CarriedFrom.append {i : ι} {payload : Bytes} (h : CarriedFrom configs tr is i payload)
    (es : List (ι × Event Key)) (x : ι × Input Priv) :
    CarriedFrom configs (tr ++ es) (is ++ [x]) i payload := by
  obtain ⟨hip, origin, hpath, hread⟩ := h
  refine ⟨hip, origin, hpath.lift id ?_,
    by rw [tunReads_append]; exact List.mem_append_left _ hread⟩
  rintro a b ⟨pub, pub', key, ha, hb, hadm⟩
  exact ⟨pub, pub', key, List.mem_append_left _ ha, List.mem_append_left _ hb, hadm⟩

/-- The invariant of a run: sessions own their keys, and all payloads are carried from where they
were read. -/
structure Carried (C : Crypto Priv Key) (psk : Option Key) (configs : ι → List PeerConfig)
    (m : Mesh ι Priv Key) (tr : List (ι × Event Key)) (is : List (ι × Input Priv)) : Prop where
  traced : MeshTraced C psk m tr
  owned : ∀ i, KeysOwned (configs i) (m.peer i) (ofPeer i tr)
  sentData : ∀ i s payload packet, (i, .sentData s payload packet) ∈ tr → payload ≠ [] →
    CarriedFrom configs tr is i payload
  delivered : ∀ i packet usedPrevKey payload relay,
    (i, .delivered packet usedPrevKey payload relay) ∈ tr → CarriedFrom configs tr is i payload

/-- One more hop: a payload that is handed on comes from the peer that sent it. -/
theorem Carried.handed (h : Carried C psk configs m tr is) (hC : C.GcmCorrect)
    (hK : C.GcmKeyed (tr.map Prod.snd)) (hpsk : ∀ i, (P i).psk = psk) {i : ι}
    {inp : Input Priv} (hin : MeshUnforged C P m (i, inp)) {packet payload : Bytes}
    {usedPrevKey : Bool} {relay : Option ℕ}
    (hdel : .delivered packet usedPrevKey payload relay ∈ (step C (P i) (m.peer i) inp).2) :
    CarriedFrom configs tr is i payload := by
  obtain ⟨slot, s, key, seq, hs, hadm, hacc⟩ :=
    (touches_of_mem hdel rfl (by simp)).delivered hdel
  obtain ⟨s', hs', hown, hneg, -⟩ := (h.owned i).accepted hacc
  obtain rfl : s = s' := Option.some.inj (hs.symm.trans hs')
  obtain ⟨sender, s₁, hsent, rfl, -⟩ := h.traced.accepted hC hK hpsk hin hacc
  have hne : payload ≠ [] := by
    rintro rfl
    exact absurd hadm (by simp [PeerSession.admits])
  obtain ⟨hip, origin, hpath, hread⟩ := h.sentData sender s₁ payload packet hsent hne
  have hhop : SharesKey configs tr (ipAt payload 12) i sender :=
    ⟨s.staticPub, s₁.staticPub, s₁.sessionKey, mem_ofPeer.mp hneg,
      h.traced.sentUnder sender s₁ payload packet hsent, hown.admits hadm hip⟩
  exact ⟨hip, origin, hpath.head hhop, hread⟩

/-- What is read from the TUN device is sent only if it is an IPv4 packet. -/
theorem isIpv4_of_sentData {P : PeerParams Priv Key} {st : PeerState Priv Key} {buffer : Bytes}
    {env : SendEnv} {e : Event Key} (he : e ∈ (step C P st (.tunRead buffer env)).2) :
    isIpv4 buffer = true := by
  simp only [step, tunRead] at he
  split at he
  · next hip => exact hip
  · exact absurd he (by simp)

theorem Carried.step (h : Carried C psk configs m tr is) (hC : C.GcmCorrect)
    (hK : C.GcmKeyed (tr.map Prod.snd)) (hS : C.Sized) (hP : ∀ i, (P i).WellKeyed C)
    (hpsk : ∀ i, (P i).psk = psk) {x : ι × Input Priv}
    (hin : MeshUnforged C P m x ∧ SlotNotTaken C (P x.1) (m.peer x.1) x.2) :
    Carried C psk configs (meshStep C P m x).1 (tr ++ (meshStep C P m x).2) (is ++ [x]) := by
  obtain ⟨j, inp⟩ := x
  refine ⟨h.traced.step hC hS hP hpsk _, ?_, ?_, ?_⟩
  · exact meshStep_peerwise (I := fun i => KeysOwned (configs i)) h.owned _
      ((h.owned j).step C _ hin.2)
  · intro i s payload packet hmem hne
    rcases List.mem_append.mp hmem with hmem | hmem
    · exact (h.sentData i s payload packet hmem hne).append _ _
    · obtain ⟨e, he, heq⟩ := List.mem_map.mp hmem
      obtain ⟨rfl, rfl⟩ := Prod.mk.inj heq
      rcases sentData_cause he with rfl | ⟨env, hinp⟩ | ⟨packet', usedPrevKey, fwd, hdel⟩
      · exact absurd rfl hne
      · obtain rfl : inp = .tunRead payload env := hinp
        exact ⟨isIpv4_of_sentData he, j, .refl, by simp [tunReads]⟩
      · exact (h.handed hC hK hpsk hin.1 hdel).append _ _
  · intro i packet usedPrevKey payload relay hmem
    rcases List.mem_append.mp hmem with hmem | hmem
    · exact (h.delivered i packet usedPrevKey payload relay hmem).append _ _
    · obtain ⟨e, he, heq⟩ := List.mem_map.mp hmem
      obtain ⟨rfl, rfl⟩ := Prod.mk.inj heq
      exact (h.handed hC hK hpsk hin.1 he).append _ _

omit [Inhabited Key] in
theorem Carried.initial (configs : ι → List PeerConfig) (eph : ι → Option Priv) :
    Carried C psk configs (Mesh.initial configs eph) [] [] where
  traced := .initial configs eph
  owned i := .initial (configs i) (eph i)
  sentData := by simp
  delivered := by simp

/-- In every run of any number of peers on a network that makes no data packets of its own, and
in which no peer takes the slot of another: what peer `i` writes to its TUN device is an IPv4
packet that some peer has read from its TUN device, and between the two there is a path of peers
each of which admits the source address from the next one by its configuration. -/
theorem source_admitted_on_path (hC : C.GcmCorrect) (hS : C.Sized) (hO : C.OutputSized)
    (hpsk : ∀ i, (P i).psk = psk) (hsetup : MeshSetup C P configs)
    (hcoll : MeshNoCollision C P configs eph is)
    (hK : C.GcmKeyed ((Machine.run (meshStep C P) (Mesh.initial configs eph) is).2.map Prod.snd))
    (hnet : Machine.Guarded (meshStep C P)
      (fun m x => MeshUnforged C P m x ∧ SlotNotTaken C (P x.1) (m.peer x.1) x.2)
      (Mesh.initial configs eph) is) {i : ι} {payload : Bytes} (hwritten : payload ∈
        tunWrites (ofPeer i (Machine.run (meshStep C P) (Mesh.initial configs eph) is).2)) :
    isIpv4 payload = true ∧ ∃ origin,
      Relation.ReflTransGen (fun j k => Admits (configs j) (P k).staticPub (ipAt payload 12))
        i origin ∧ (origin, payload) ∈ tunReads is := by
  have hrun := Machine.observe_invariant_of_guarded _ (fun _ x => [x])
    (I := fun m tr log => C.GcmKeyed (tr.map Prod.snd) → Carried C psk configs m tr log)
    (fun m tr log x h hin hK => by
      have hK' := hK.mono (List.map_subset _ (List.subset_append_left _ _))
      exact (h hK').step hC hK' hS hsetup.wellKeyed hpsk hin)
    (fun _ => .initial configs eph) hnet hK
  rw [Machine.run_observe_inputs] at hrun
  obtain ⟨packet, usedPrevKey, he⟩ := delivered_of_mem_tunWrites hwritten
  obtain ⟨hip, origin, hpath, hread⟩ := hrun.delivered i _ _ payload none (mem_ofPeer.mp he)
  refine ⟨hip, origin, hpath.lift' id fun j k hshare => ?_, hread⟩
  -- a key of two peers is one they negotiated with each other
  obtain ⟨pub, pub', key, hj, hk, hadm⟩ := hshare
  rcases negotiated_same_key hS hO hsetup hcoll hj hk with ⟨rfl, -⟩ | ⟨rfl, -⟩
  · exact .refl
  · exact .single hadm

namespace Sample

theorem star_setup : MeshSetup crypto starParams starConfigs where
  wellKeyed := starParams_wellKeyed
  pub_length := by decide +kernel
  distinct := by decide +kernel

theorem starInputs_noCollision :
    MeshNoCollision crypto starParams starConfigs starEph starInputs := by
  decide +kernel

/-- Spoke 1 and the hub have a session with the same key. -/
theorem star_sessions : ∃ s s', ((starRun starInputs).1.peer 0).sessions[0]? = some s ∧
    ((starRun starInputs).1.peer 2).sessions[0]? = some s' ∧ s.sessionKey = s'.sessionKey := by
  have hkeys : ((starRun starInputs).1.peer 0).sessions[0]?.isSome = true ∧
      ((starRun starInputs).1.peer 0).sessions[0]?.map PeerSession.sessionKey =
        ((starRun starInputs).1.peer 2).sessions[0]?.map PeerSession.sessionKey := by
    decide +kernel
  obtain ⟨s, hs⟩ := Option.isSome_iff_exists.mp hkeys.1
  have hmap := hkeys.2
  rw [hs, Option.map_some] at hmap
  obtain ⟨s', hs', heq⟩ := Option.map_eq_some_iff.mp hmap.symm
  exact ⟨s, s', hs, hs', heq.symm⟩

/-- Spoke 2 accepts the packet. -/
theorem star_accepted : ∃ slot key usedPrevKey packet seq,
    (1, .accepted slot key usedPrevKey packet seq spokePacket) ∈ (starRun starInputs).2 := by
  have hmem : spokePacket ∈
      ((ofPeer 1 (starRun starInputs).2).filterMap Event.acceptance).map Prod.snd := by
    decide +kernel
  obtain ⟨⟨packet, payload⟩, hmem, rfl⟩ := List.mem_map.mp hmem
  obtain ⟨e, he, hacc⟩ := List.mem_filterMap.mp hmem
  cases e with
  | accepted slot key usedPrevKey packet' seq payload' =>
    obtain ⟨rfl, rfl⟩ := Prod.mk.inj (Option.some.inj hacc)
    exact ⟨slot, key, usedPrevKey, packet', seq, mem_ofPeer.mp he⟩
  | _ => exact absurd hacc (by simp [Event.acceptance])

end Sample

open Sample in
theorem sessions_share_key_star : ∃ s s',
    ((starRun starInputs).1.peer 0).sessions[0]? = some s ∧
    ((starRun starInputs).1.peer 2).sessions[0]? = some s' ∧ s.sessionKey = s'.sessionKey ∧
    (((0 : Fin 3) = 2 ∧ s.staticPub = s'.staticPub) ∨
      (s.staticPub = (starParams 2).staticPub ∧ s'.staticPub = (starParams 0).staticPub)) := by
  obtain ⟨s, s', hs, hs', hkey⟩ := star_sessions
  exact ⟨s, s', hs, hs', hkey, sessions_share_key crypto_sized crypto_outputSized star_setup
    starInputs_noCollision hs hs' hkey⟩

open Sample in
theorem accepted_sender_star : ∃ sender s packet,
    (sender, .sentData s spokePacket packet) ∈ (starRun starInputs).2 ∧
      (sender = 1 ∨ s.staticPub = (starParams 1).staticPub) := by
  obtain ⟨slot, key, usedPrevKey, packet, seq, hacc⟩ := star_accepted
  obtain ⟨sender, s, hsent, -, -, hfrom⟩ := accepted_sender crypto_gcmCorrect crypto_sized
    crypto_outputSized starParams_psk star_setup starInputs_noCollision starInputs_gcmKeyed
    (by decide +kernel) hacc
  exact ⟨sender, s, packet, hsent, hfrom.imp id And.left⟩

open Sample in
/-- Spoke 2 writes the packet, and it was read by a peer that leads there. -/
theorem source_admitted_on_path_star :
    tunWrites (ofPeer 1 (starRun starInputs).2) = [spokePacket] ∧ ∃ origin,
      Relation.ReflTransGen (fun j k => Admits (starConfigs j) (starParams k).staticPub
        (ipAt spokePacket 12)) 1 origin ∧ (origin, spokePacket) ∈ tunReads starInputs :=
  ⟨starInputs_written, (source_admitted_on_path crypto_gcmCorrect crypto_sized
    crypto_outputSized starParams_psk star_setup starInputs_noCollision starInputs_gcmKeyed
    (by decide +kernel) (i := 1) (starInputs_written.symm ▸ List.mem_singleton_self _)).2⟩

end LaneCove
