import LaneCove.SessionTrace
import LaneCove.Sample

/-!
# Which session owns an address

Incoming data is assigned to a session by its source address. The assignment is
right as long as no two active sessions have the same address. `alloc_session`
prefers the slot of the public key over the slot of the address, so a peer that
roams to the address of another session duplicates it.

## Main definitions

- `AddrNotTaken` — a peer with a session does not move to another one's address

## Main results

- `distinctAddrs_step_iff` — addresses stay distinct in one reaction exactly then
- `distinctAddrs_run_iff` — and in all states of a run exactly if every step is such
-/

namespace LaneCove

variable {Priv Key : Type}

/-- If the reaction completes a handshake of a peer that has a session, its source
address is not that of another session. -/
def AddrNotTaken (C : Crypto Priv Key) (P : PeerParams Priv Key) (st : PeerState Priv Key)
    (inp : Input Priv) : Prop :=
  ∀ c, commitOf C P st inp = some c → ∀ i j, findSessionByPub st.sessions c.pub = some i →
    findSessionByAddr st.sessions c.src = some j → i = j

variable [Inhabited Key]

theorem findSessionByPub_of_alloc_none {ss : List (PeerSession Key)} {pub : Bytes}
    {addr : SockAddr} (h : allocSession ss pub addr = none) : findSessionByPub ss pub = none := by
  unfold allocSession at h
  split at h
  · exact absurd h (by simp)
  · next hnone => exact hnone

/-- An install keeps addresses distinct exactly if the slot it takes over by
public key is the only one at the new address. -/
theorem distinctAddrs_install_iff {ss : List (PeerSession Key)} (h : DistinctAddrs ss)
    (settings : Settings) (c : Commit Key) :
    DistinctAddrs (installTable settings c ss) ↔
      ∀ i j, findSessionByPub ss c.pub = some i → findSessionByAddr ss c.src = some j → i = j := by
  rcases installTable_cases settings c ss with ⟨hfull, he⟩ | ⟨slot, s, -, halloc, hupd⟩
  · rw [he]
    refine iff_of_true h fun i j hi => ?_
    rw [findSessionByPub_of_alloc_none hfull] at hi
    exact absurd hi (by simp)
  · -- a slot other than the one installed is at the new address only if it is
    -- found there
    have hother : ∀ (j : ℕ) (b : PeerSession Key), ss[j]? = some b → b.active = true →
        b.addr = c.src → findSessionByAddr ss c.src = some j := by
      intro j b hb hact haddr
      rw [← haddr]
      exact distinctAddrs_iff.mp h j b hb hact
    cases halloc with
    | byPub hs ha hpub hfind =>
      constructor
      · intro hd i j hi hj
        rw [hfind] at hi
        obtain rfl := Option.some.inj hi
        obtain ⟨b, hb, hact, haddr⟩ := findSessionByAddr_eq_some hj
        by_contra hne
        have hb' := (hupd.of_ne (Ne.symm hne)).trans hb
        exact hne (hd slot j _ b hupd.self hb' rfl hact haddr.symm)
      · intro hown
        refine SlotTable.Unique.update h hupd fun _ j b hj hb hact haddr => ?_
        exact hj (hown slot j hfind (hother j b hb hact haddr)).symm
    | byAddr hnone hs ha haddr hfind =>
      refine iff_of_true ?_ fun i j hi => absurd hi (by simp [hnone])
      refine SlotTable.Unique.update h hupd fun _ j b hj hb hact hb' => ?_
      have := hother j b hb hact hb'
      rw [hfind] at this
      exact hj (Option.some.inj this).symm
    | free hnone haddr _ _ =>
      refine iff_of_true ?_ fun i j hi => absurd hi (by simp [hnone])
      exact SlotTable.Unique.update h hupd fun _ j b _ hb hact =>
        findSessionByAddr_eq_none.mp haddr j b hb hact
    | fresh hnone haddr _ =>
      refine iff_of_true ?_ fun i j hi => absurd hi (by simp [hnone])
      exact SlotTable.Unique.update h hupd fun _ j b _ hb hact =>
        findSessionByAddr_eq_none.mp haddr j b hb hact

theorem distinctAddrs_step_iff (C : Crypto Priv Key) (P : PeerParams Priv Key)
    {st : PeerState Priv Key} (h : DistinctAddrs st.sessions) (inp : Input Priv) :
    DistinctAddrs (step C P st inp).1.sessions ↔ AddrNotTaken C P st inp := by
  unfold AddrNotTaken
  rcases step_cases C P st inp with ⟨hc, ht⟩ | ⟨c, pre, hc, -, hss, -⟩
  · refine iff_of_true (ht.unique (fun hf => hf.addr) h) fun c hc' => ?_
    rw [hc] at hc'
    exact absurd hc' (by simp)
  · rw [hss, distinctAddrs_install_iff h, hc]
    simp only [Option.some.injEq, forall_eq']

/-- Active sessions own distinct addresses in every state of a run, so that each
is found under its own, exactly if no completed handshake moves a session to the
address of another one. -/
theorem distinctAddrs_run_iff (C : Crypto Priv Key) (P : PeerParams Priv Key)
    (configs : List PeerConfig) (eph : Option Priv) (is : List (Input Priv)) :
    Machine.Guarded (step C P) (AddrNotTaken C P) (PeerState.initial configs eph) is ↔
      ∀ k, let ss :=
          (Machine.run (step C P) (PeerState.initial configs eph) (is.take k)).1.sessions
        DistinctAddrs ss ∧ ∀ (i : ℕ) (s : PeerSession Key), ss[i]? = some s → s.active = true →
          findSessionByAddr ss s.addr = some i := by
  have hinit : DistinctAddrs (PeerState.initial configs eph : PeerState Priv Key).sessions := by
    intro i j a b ha
    simp [PeerState.initial] at ha
  have hiff := Machine.guarded_iff_invariant
    (P := fun st : PeerState Priv Key => DistinctAddrs st.sessions) is
    (fun _ inp _ hd => distinctAddrs_step_iff C P hd inp) hinit
  rw [hiff]
  refine forall_congr' fun k => ?_
  dsimp only
  rw [← distinctAddrs_iff, and_self]

/-- Peer 2 connects from address 2, peer 3 from address 3, and then peer 2 moves
to address 3. -/
def Sample.roaming : List (Input UInt8) := [
  .udpRecv (addr 2) (initiation 2 1 10) 100 (recvEnv 100 20),
  .udpRecv (addr 3) (initiation 3 1 11) 100 (recvEnv 100 21),
  .udpRecv (addr 3) (initiation 2 1 12) 200 (recvEnv 200 22)]

open Sample in
/-- Two active sessions at one address, and the second is not found there. -/
theorem roaming_shares_address :
    let ss := (Machine.run (step crypto (params 1))
      (PeerState.initial [peerConfig 2 false, peerConfig 3 false] (some 4)) roaming).1.sessions
    ¬ DistinctAddrs ss ∧ (ss.map fun s => (s.active, s.staticPub, s.addr)) =
      [(true, crypto.publicKey 2, addr 3), (true, crypto.publicKey 3, addr 3)] ∧
      findSessionByAddr ss (addr 3) = some 0 := by
  intro ss
  have hss : (ss.map fun s => (s.active, s.staticPub, s.addr)) =
      [(true, crypto.publicKey 2, addr 3), (true, crypto.publicKey 3, addr 3)] := by
    decide +kernel
  refine ⟨fun hd => ?_, hss, by decide +kernel⟩
  obtain ⟨a, as, ha, hfa, has⟩ := List.map_eq_cons_iff.mp hss
  obtain ⟨b, bs, hb, hfb, -⟩ := List.map_eq_cons_iff.mp has
  simp only [Prod.mk.injEq] at hfa hfb
  have h01 := hd 0 1 a b (by simp [ha]) (by simp [ha, hb]) hfa.1 hfb.1 (by rw [hfa.2.2, hfb.2.2])
  exact absurd h01 (by decide)

end LaneCove
