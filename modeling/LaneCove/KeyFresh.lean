import LaneCove.KeyBinding

/-!
# No key twice, no sequence number twice

A session key depends on an ephemeral key of each side. As long as a peer never sends the same
ephemeral key in two handshake packets, it negotiates a new key in every handshake, and then
never encrypts two frames with the same key and sequence number.

## Main definitions

- `ephemerals` — the ephemeral keys of the handshake packets a trace has sent
- `pendingEphs` — those that wait for a response
- `FreshKeys` — a run without repeated ephemeral keys

## Main results

- `step_ephemerals` — every derivation uses up one ephemeral key that was sent
- `negotiated_keys_nodup` — with fresh ephemeral keys no key is negotiated twice
-/

namespace LaneCove

variable {Priv Key : Type}

/-- The handshake packets a trace has sent. -/
def handshakePackets (tr : List (Event Key)) : List Bytes :=
  tr.filterMap fun
    | .sentInit _ packet | .sentResponse _ _ packet => some packet
    | _ => none

/-- The ephemeral public keys a trace has sent. -/
def ephemerals (tr : List (Event Key)) : List Bytes := (handshakePackets tr).map ephOf

/-- The ephemeral public key of an entry that waits for a response. -/
def PendingHs.waitingEph (p : PendingHs Priv) : Option Bytes :=
  if p.active then some p.hsState.ephPub else none

theorem PendingHs.waitingEph_of_active {p : PendingHs Priv} (h : p.active = true) :
    p.waitingEph = some p.hsState.ephPub := if_pos h

theorem PendingHs.waitingEph_of_inactive {p : PendingHs Priv} (h : p.active = false) :
    p.waitingEph = none := if_neg (by simp [h])

/-- The ephemeral public keys of the handshakes that wait for a response. -/
def pendingEphs (pending : List (PendingHs Priv)) : List Bytes :=
  pending.filterMap PendingHs.waitingEph

@[simp] theorem ephemerals_append (tr es : List (Event Key)) :
    ephemerals (tr ++ es) = ephemerals tr ++ ephemerals es := by
  simp [ephemerals, handshakePackets]

/-- Handshake packets are initiations and responses. -/
theorem coe_ephemerals (es : List (Event Key)) : (↑(ephemerals es) : Multiset Bytes) =
    ↑((initiations es).map ephOf) + ↑((responses es).map ephOf) := by
  induction es with
  | nil => rfl
  | cons e es ih =>
    have hcons : ephemerals (e :: es) = ephemerals [e] ++ ephemerals es := ephemerals_append [e] es
    have hinit : initiations (e :: es) = initiations [e] ++ initiations es :=
      initiations_append [e] es
    have hresp : responses (e :: es) = responses [e] ++ responses es := responses_append [e] es
    have hone : (↑(ephemerals [e]) : Multiset Bytes) =
        ↑((initiations [e]).map ephOf) + ↑((responses [e]).map ephOf) := by
      cases e <;> rfl
    rw [hcons, hinit, hresp, List.map_append, List.map_append, ← Multiset.coe_add, hone, ih,
      ← Multiset.coe_add, ← Multiset.coe_add]
    abel

variable {C : Crypto Priv Key} {P : PeerParams Priv Key} {configs : List PeerConfig}
  {st : PeerState Priv Key}

theorem ephOf_handshakeClientSend (hS : C.Sized) {psk : Option Key}
    {staticPub serverStaticPub packet : Bytes} {ephKey : Option Priv} {sendOk : Bool}
    {state : HsClientState Priv Bytes Bytes}
    (h : handshakeClientSend C psk staticPub serverStaticPub ephKey sendOk = some (packet, state)) :
    ephOf packet = state.ephPub := by
  obtain ⟨eph, msg, hpub, hmsg, rfl, -⟩ := handshakeClientSend_state h
  have hlen := hS.publicKey_length eph
  rw [ephOf_encodeHs (by rw [hmsg]; exact hlen), hmsg, hpub]

/-- The ephemeral keys of the calls of `handshake_client_recv` in a list of changes. -/
def answeredEphs (log : List (PendingEvent Priv Key)) : List Bytes :=
  (log.filterMap PendingEvent.answer).map fun a => a.1.hsState.ephPub

/-- Two entries of an account: what is left and what was spent, against what there was and what
came in. -/
theorem account_trans {a b c x y u v : Multiset Bytes} (h : b + x ≤ a + u) (h' : c + y ≤ b + v) :
    c + (x + y) ≤ a + (u + v) :=
  calc c + (x + y) = x + (c + y) := by abel
    _ ≤ x + (b + v) := by gcongr
    _ = (b + x) + v := by abel
    _ ≤ (a + u) + v := by gcongr
    _ = a + (u + v) := by abel

/-- A change of the table: the ephemeral keys that wait, with those that were answered, are
among those that waited and those that were sent. -/
theorem PendingStep.ephs (hS : C.Sized) {pending pending' : List (PendingHs Priv)}
    {log : List (PendingEvent Priv Key)} (h : PendingStep C P configs pending log pending') :
    (↑(pendingEphs pending') + ↑(answeredEphs log) : Multiset Bytes) ≤
      ↑(pendingEphs pending) + ↑((log.filterMap PendingEvent.initiation).map ephOf) := by
  cases h with
  | @start slot old p packet hold hfree ha hsend =>
    have hset := SlotTable.coe_filterMap_set PendingHs.waitingEph hold p
    rw [PendingHs.waitingEph_of_inactive hfree, PendingHs.waitingEph_of_active ha,
      ← ephOf_handshakeClientSend hS hsend] at hset
    exact hset.le
  | @cancel j p hp ha =>
    have hset := SlotTable.coe_filterMap_set PendingHs.waitingEph hp p.cancel
    rw [PendingHs.waitingEph_of_active ha, PendingHs.waitingEph_of_inactive rfl] at hset
    exact le_trans (add_le_add le_rfl (Multiset.zero_le _)) hset.le
  | @answer j p packet key hsState hp ha hrecv =>
    have hset := SlotTable.coe_filterMap_set PendingHs.waitingEph hp
      { p with active := false, hsState }
    rw [PendingHs.waitingEph_of_active ha, PendingHs.waitingEph_of_inactive rfl] at hset
    exact hset.le

variable [Inhabited Key]

/-- The same for a reaction. -/
theorem step_pendingEphs (hS : C.Sized) (h : SetupOk configs st) (inp : Input Priv) :
    (↑(pendingEphs (step C P st inp).1.pending) +
        ↑((answerOf C P st inp).toList.map fun a => a.1.hsState.ephPub) : Multiset Bytes) ≤
      ↑(pendingEphs st.pending) + ↑((initiations (step C P st inp).2).map ephOf) := by
  obtain ⟨log, hsteps, hinits, hans⟩ := step_turns (C := C) (P := P) h inp
  have hrun := hsteps.invariant_nil
    (I := fun pending log => (↑(pendingEphs pending) + ↑(answeredEphs log) : Multiset Bytes) ≤
      ↑(pendingEphs st.pending) + ↑((log.filterMap PendingEvent.initiation).map ephOf))
    (fun log h hstep => by
      simp only [answeredEphs, List.filterMap_append, List.map_append, ← Multiset.coe_add] at h ⊢
      exact account_trans h (hstep.ephs hS)) le_rfl
  rw [answeredEphs, hinits, hans] at hrun
  exact hrun

/-- A derivation uses the ephemeral key of the entry that was answered, or of the response. -/
theorem derivationOf_ownEph (hS : C.Sized) (inp : Input Priv) :
    (↑((derivationOf C P st inp).toList.map Derivation.ownEph) : Multiset Bytes) ≤
      ↑((answerOf C P st inp).toList.map fun a => a.1.hsState.ephPub) +
        ↑((responses (step C P st inp).2).map ephOf) := by
  cases hd : derivationOf C P st inp with
  | none => exact Multiset.zero_le _
  | some d =>
    obtain ⟨src, packet, now, env, rfl, hhs, hresp | hinit⟩ := derivationOf_eq_some hd
    · obtain ⟨j, p, key, t, hfind, hp, -, ht, rfl⟩ := hresp
      obtain ⟨_, _, -, -, rfl⟩ := clientTranscript_eq_some.mp ht
      have hans : answerOf C P st (.udpRecv src packet now env) =
          some (p, packet, responseKey C P st p packet) := by
        simp [answerOf, hhs, hfind, hp]
      rw [hans]
      exact Multiset.le_add_right ..
    · obtain ⟨pub, key, t, hcall, hrespond, ht, rfl⟩ := hinit
      obtain ⟨_, _, _, heph, -, -, hfields⟩ := serverTranscript_eq_some.mp ht
      obtain ⟨eph, heph, -⟩ := secret_eq_some heph
      rw [hrespond] at hcall
      obtain ⟨-, -, resp, hsent⟩ := respond_transcript hcall
      have hown : Derivation.ownEph ⟨false, t⟩ = ephOf resp := by
        rw [ephOf_respond hS heph hsent, hfields]
        simp [Derivation.ownEph, PeerState.precompEphPub, heph]
      rw [(step_answers C P st _).1, hrespond, hsent]
      simp only [Option.toList_some, List.map_cons, List.map_nil, hown]
      exact Multiset.le_add_left ..

/-- **Step**: the ephemeral keys that wait, with the one of the derivation, are among those that
waited and those that were sent. -/
theorem step_ephemerals (hS : C.Sized) (h : SetupOk configs st) (inp : Input Priv) :
    (↑(pendingEphs (step C P st inp).1.pending) +
        ↑((derivationOf C P st inp).toList.map Derivation.ownEph) : Multiset Bytes) ≤
      ↑(pendingEphs st.pending) + ↑(ephemerals (step C P st inp).2) := by
  have hpend := step_pendingEphs (C := C) (P := P) hS h inp
  have hown : (↑((derivationOf C P st inp).toList.map Derivation.ownEph) : Multiset Bytes) ≤ _ :=
    derivationOf_ownEph hS inp
  rw [coe_ephemerals]
  calc _ ≤ _ + (_ + _) := add_le_add le_rfl hown
    _ = _ + _ + _ := (add_assoc ..).symm
    _ ≤ _ + _ + _ := add_le_add hpend le_rfl
    _ = _ + (_ + _) := add_assoc ..

omit [Inhabited Key] in
theorem pendingEphs_initial (configs : List PeerConfig) (eph : Option Priv) :
    pendingEphs (PeerState.initial configs eph : PeerState Priv Key).pending = [] := by
  refine List.filterMap_eq_nil_iff.mpr fun p hp => ?_
  obtain rfl := List.eq_of_mem_replicate hp
  rfl

/-- **Run**: every derivation has its own ephemeral key among those sent. -/
theorem derivations_ephemerals (hS : C.Sized) (eph : Option Priv) (is : List (Input Priv)) :
    (↑((derivations C P (PeerState.initial configs eph) is).map Derivation.ownEph) :
        Multiset Bytes) ≤
      ↑(ephemerals (Machine.run (step C P) (PeerState.initial configs eph) is).2) := by
  have hrun := Machine.observe_invariant (step C P)
    (fun st inp => (derivationOf C P st inp).toList) (s := PeerState.initial configs eph)
    (I := fun st tr log => SetupOk configs st ∧
      (↑(pendingEphs st.pending) + ↑(log.map Derivation.ownEph) : Multiset Bytes) ≤
        0 + ↑(ephemerals tr))
    (fun st tr log inp ⟨hst, hlog⟩ => by
      refine ⟨hst.step C P inp, ?_⟩
      rw [List.map_append, ephemerals_append, ← Multiset.coe_add, ← Multiset.coe_add]
      exact account_trans hlog (step_ephemerals hS hst inp))
    ⟨.initial configs eph, by
      rw [pendingEphs_initial]
      exact le_rfl⟩ is
  rw [zero_add] at hrun
  exact le_trans (Multiset.le_add_left ..) hrun.2

/-- A run in which the ephemeral keys of a peer are fresh: no two handshake packets that it sends
carry the same one. Its own key is not configured as a peer, and SHA-256 does not collide on what
it hashes. -/
structure FreshKeys (C : Crypto Priv Key) (P : PeerParams Priv Key) (configs : List PeerConfig)
    (eph : Option Priv) (is : List (Input Priv)) : Prop where
  wellKeyed : P.WellKeyed C
  pub_length : ∀ cfg ∈ configs, cfg.pub.length = 32
  not_self : ∀ cfg ∈ configs, cfg.pub ≠ P.staticPub
  noCollision : NoCollision C (derivations C P (PeerState.initial configs eph) is)
  ephemerals : (ephemerals (Machine.run (step C P) (PeerState.initial configs eph) is).2).Nodup

variable {eph : Option Priv} {is : List (Input Priv)}

/-- The keys derived in such a run are different. -/
theorem FreshKeys.key_nodup (h : FreshKeys C P configs eph is) (hS : C.Sized) (hO : C.OutputSized) :
    ((derivations C P (PeerState.initial configs eph) is).map (Derivation.key C)).Nodup := by
  have hbound := derivations_bound hS hO h.wellKeyed h.pub_length eph is
  have hephs : ((derivations C P (PeerState.initial configs eph) is).map Derivation.ownEph).Nodup :=
    Multiset.coe_nodup.mp (Multiset.nodup_of_le (derivations_ephemerals hS eph is)
      (Multiset.coe_nodup.mpr h.ephemerals))
  refine hephs.of_map.map_on fun d hd d' hd' hkey => ?_
  have ht := h.noCollision.transcript_eq hd hd' (hbound d hd) (hbound d' hd') hkey
  -- one transcript in two roles would have the peer configured with itself
  have hrole : d.isOutbound = d'.isOutbound := by
    by_contra hne
    rcases (hbound d hd).same_transcript (hbound d' hd') ht with ⟨hsame, -⟩ | ⟨-, hpeer, hpeer'⟩
    · exact hne hsame
    · cases hout : d.isOutbound with
      | true =>
        obtain ⟨cfg, hcfg, hpub⟩ := (hbound d hd).configured hout
        exact h.not_self cfg hcfg (hpub.trans hpeer)
      | false =>
        have hout' : d'.isOutbound = true := by simpa [hout] using hne
        obtain ⟨cfg, hcfg, hpub⟩ := (hbound d' hd').configured hout'
        exact h.not_self cfg hcfg (hpub.trans hpeer')
  cases d
  cases d'
  simp_all

/-- **No key is negotiated twice**: in a run with fresh ephemeral keys, the keys of all
handshakes that a peer completes, as initiator or as responder, are different. -/
theorem negotiated_keys_nodup (hS : C.Sized) (hO : C.OutputSized)
    (h : FreshKeys C P configs eph is) :
    ((negotiations (Machine.run (step C P) (PeerState.initial configs eph) is).2).map
      Prod.snd).Nodup := by
  have hkeys := h.key_nodup hS hO
  rw [negotiations_run, List.map_map]
  exact hkeys

namespace Sample

/-- Peer 1 connects to peer 3 and is connected to by peer 2. -/
def bothRoles : List (Input UInt8) := [
  tickAt 100 10,
  .udpRecv (addr 2) (initiation 2 1 11) 101 (recvEnv 101 20),
  .udpRecv (addr 3) ((datagrams (Machine.run (step crypto (params 3))
    (PeerState.initial [peerConfig 1 false] (some 12))
    [.udpRecv (addr 1) (initiation 1 3 10) 100 (recvEnv 100 13)]).2).headD []) 101 (recvEnv 101 21)]

theorem bothRoles_freshKeys :
    FreshKeys crypto (params 1) [peerConfig 2 false, peerConfig 3 true] (some 4) bothRoles where
  wellKeyed := rfl
  pub_length := by decide +kernel
  not_self := by decide +kernel
  noCollision := by decide +kernel
  ephemerals := by decide +kernel

end Sample

open Sample in
/-- Two handshakes are completed, one in each role. -/
theorem negotiated_keys_nodup_bothRoles :
    let tr := (Machine.run (step crypto (params 1))
      (PeerState.initial [peerConfig 2 false, peerConfig 3 true] (some 4)) bothRoles).2
    (negotiations tr).length = 2 ∧ ((negotiations tr).map Prod.snd).Nodup :=
  ⟨by decide +kernel, negotiated_keys_nodup crypto_sized crypto_outputSized bothRoles_freshKeys⟩

end LaneCove
