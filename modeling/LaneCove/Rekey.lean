import LaneCove.DuoRefines

/-!
# Rekeying two peers on ordered channels

What the simulation of `DuoRefines` gives for whole runs of an initiator and a
responder.

As long as every response in flight still has its pending entry, the keys of the two
peers and what is in flight fit together: on lossless channels every payload is accepted
once and in order, whatever rekeys happen in between, and a handshake that fails because
its initiation is lost leaves the tunnel as it was.

A response that is lost does not. The responder has moved to the new key when it
answers, the initiator stays with the old one, and nothing brings them together before
the next rekey.

## Main definitions

- `Duo.Orderly` — the conditions on the steps of a run
- `TraceOk` — the conditions on its trace

## Main results

- `Sim.run` — the peers of an orderly run behave like a link
- `accepted_in_order` — on lossless channels every payload is accepted once and in order
- `accepted_after_failure` — what is sent after a failed handshake is accepted
-/

namespace LaneCove

open KeySwitch

variable {Priv Key : Type}

/-- What a run keeps to: both peers live, and the step regular. -/
def Duo.Orderly (C : Crypto Priv Key) (P : Side → PeerParams Priv Key) (addr : Side → SockAddr)
    (d : Duo Priv Key) (x : Act Priv) : Prop :=
  d.Live C P ∧ x.Regular addr d

instance Duo.Orderly.decidable (C : Crypto Priv Key) (P : Side → PeerParams Priv Key)
    (addr : Side → SockAddr) (d : Duo Priv Key) (x : Act Priv) :
    Decidable (d.Orderly C P addr x) :=
  inferInstanceAs (Decidable (d.Live C P ∧ x.Regular addr d))

/-- What is assumed of a trace: AES-GCM tells its keys apart, nothing fresh repeats, and no
counter wraps around. -/
structure TraceOk (C : Crypto Priv Key) (tr : List (Side × Event Key)) : Prop where
  keyed : C.GcmKeyed (tr.map Prod.snd)
  fresh : Fresh tr
  rising : Rising tr

instance TraceOk.decidable [DecidableEq Key] (C : Crypto Priv Key) (tr : List (Side × Event Key)) :
    Decidable (TraceOk C tr) :=
  decidable_of_iff (C.GcmKeyed (tr.map Prod.snd) ∧ Fresh tr ∧ Rising tr)
    ⟨fun h => ⟨h.1, h.2.1, h.2.2⟩, fun h => ⟨h.keyed, h.fresh, h.rising⟩⟩

theorem Fresh.left {tr es : List (Side × Event Key)} (h : Fresh (tr ++ es)) : Fresh tr := by
  obtain ⟨hinits, hkeys⟩ := h
  rw [ofPeer_append, initiations_append] at hinits
  rw [ofPeer_append, installedKeys_append] at hkeys
  exact ⟨(List.nodup_append.mp hinits).1, (List.nodup_append.mp hkeys).1⟩

theorem Rising.left {tr es : List (Side × Event Key)} (h : Rising (tr ++ es)) : Rising tr := by
  intro side
  have hside := h side
  rw [ofPeer_append, numbersSent, List.filterMap_append, List.pairwise_append] at hside
  exact hside.1

theorem TraceOk.left {C : Crypto Priv Key} {tr es : List (Side × Event Key)}
    (h : TraceOk C (tr ++ es)) : TraceOk C tr :=
  ⟨h.keyed.mono (List.map_subset _ (List.subset_append_left _ _)), h.fresh.left, h.rising.left⟩

variable [Inhabited Key]

/-- Only data packets are accepted. -/
theorem acceptedPayloads_eq_nil {C : Crypto Priv Key} {P : PeerParams Priv Key}
    {st : PeerState Priv Key} {inp : Input Priv} (hinp : inp.dataPacket P.psk = none) :
    acceptedPayloads (step C P st inp).2 = [] := by
  refine List.eq_nil_iff_forall_not_mem.mpr fun payload hmem => ?_
  obtain ⟨e, he, hpayload⟩ := List.mem_filterMap.mp hmem
  cases e with
  | accepted slot key usedPrevKey packet seq payload' =>
    obtain ⟨-, -, -, -, now, hrx, -⟩ := (touches_of_mem he rfl (by simp)).accepted he
    exact absurd hrx (by simp [hinp])
  | _ => exact absurd hpayload (by simp)

section Runs

variable {C : Crypto Priv Key} {P : Side → PeerParams Priv Key} {addr : Side → SockAddr}
  {cfg : Side → PeerConfig} {d : Duo Priv Key} {tr : List (Side × Event Key)}

/-- **The peers of an orderly run behave like a link**, from any state on. -/
theorem Sim.run (hC : C.GcmCorrect) (hS : C.Sized) (hD : C.DhCorrect) (hj : Joined C P addr cfg)
    {s : DuoLink Key} (h : Sim C P addr d tr s) (ht : DuoTraced d tr) {is : List (Act Priv)}
    (hok : Machine.Guarded (duoStep C P addr) (Duo.Orderly C P addr) d is)
    (htrace : TraceOk C (tr ++ (Machine.run (duoStep C P addr) d is).2))
    (hlive : (Machine.run (duoStep C P addr) d is).1.Live C P) :
    DuoTraced (Machine.run (duoStep C P addr) d is).1
        (tr ++ (Machine.run (duoStep C P addr) d is).2) ∧
      ∃ s', Sim C P addr (Machine.run (duoStep C P addr) d is).1
          (tr ++ (Machine.run (duoStep C P addr) d is).2) s' ∧
        LinkFollows s s' (Machine.run (duoStep C P addr) d is).2 := by
  -- the link is only known to exist in live states, and every step starts from one
  have hrun := Machine.run_invariant_of_guarded
    (I := fun d' es => DuoTraced d' (tr ++ es) ∧ (TraceOk C (tr ++ es) → d'.Live C P →
      ∃ s', Sim C P addr d' (tr ++ es) s' ∧ LinkFollows s s' es)) ?_ ?_ hok
  · exact ⟨hrun.1, hrun.2 htrace hlive⟩
  · intro d' es x hinv hx
    obtain ⟨htraced, hsim⟩ := hinv
    rw [← List.append_assoc]
    refine ⟨htraced.step addr x, fun htrace' hlive' => ?_⟩
    obtain ⟨s', hs', hfollows⟩ := hsim htrace'.left hx.1
    obtain ⟨s'', hs'', hfollows'⟩ := hs'.step hC hS hD hj.wellKeyed hj.psk htraced hx.1 hx.2
      hlive' htrace'.left.keyed htrace'.fresh htrace'.rising
    exact ⟨s'', hs'', hfollows.trans hfollows'⟩
  · rw [List.append_nil]
    exact ⟨ht, fun _ _ => ⟨s, h, .refl s⟩⟩

omit [Inhabited Key] in
/-- Handshake packets that arrive are recognised. -/
theorem Sim.isHandshake (hC : C.GcmCorrect) (hS : C.Sized) (hj : Joined C P addr cfg)
    {s : DuoLink Key} (h : Sim C P addr d tr s) {side : Side} {e : Event Key}
    {rest : List (Event Key)} (hchan : d.chan side = e :: rest) (hdata : e.data = none) :
    isHandshake (P side).psk (e.datagram.getD []) = true := by
  have hcarries := h.chan side
  rw [hchan] at hcarries
  obtain ⟨msg, msgs, hhead, -, -⟩ := List.forall₂_cons_left_iff.mp hcarries
  rw [hj.psk side]
  cases hhead with
  | init dst hinit =>
    exact isHandshake_handshakeClientSend hC hS ((hj.wellKeyed .a).length hS) hinit
  | resp dst hhs hderive => exact hhs
  | data henc => exact absurd hdata (by simp [Event.data])

/-- **A step on lossless channels**: the data that arrives is accepted. -/
theorem Sim.logged (hC : C.GcmCorrect) (hS : C.Sized) (hj : Joined C P addr cfg)
    {s : DuoLink Key} (h : Sim C P addr d tr s) (ht : DuoTraced d tr)
    (hK : C.GcmKeyed (tr.map Prod.snd)) (hlog : Logged d tr) {x : Act Priv}
    (hreg : x.Regular addr d) (htime : x.InTime d) :
    Logged (duoStep C P addr d x).1 (tr ++ (duoStep C P addr d x).2) := by
  cases x with
  | react side inp =>
    have hacc : acceptedPayloads (LaneCove.step C (P side) (d.peer side) inp).2 = [] := by
      refine acceptedPayloads_eq_nil ?_
      cases inp with
      | tick => rfl
      | tunRead => rfl
      | udpRecv => exact hreg.elim
    have hreact := hlog.react (show d.chan side = [] ++ d.chan side from rfl) hacc
    rw [Function.update_eq_self] at hreact
    exact hreact
  | drop side => exact htime.elim
  | deliver side now env =>
    simp only [duoStep]
    cases hchan : d.chan side with
    | nil =>
      rw [List.append_nil]
      exact hlog
    | cons e rest =>
      refine hlog.react (show d.chan side = [e] ++ rest from hchan) ?_
      cases hdata : e.data with
      | none =>
        have hhs := h.isHandshake hC hS hj hchan hdata
        have hsent : sentPayloads [e] = [] := by
          cases e with
          | sentData => exact absurd hdata (by simp [Event.data])
          | _ => rfl
        rw [hsent]
        exact acceptedPayloads_eq_nil (by simp [Input.dataPacket, hhs])
      | some x =>
        cases e with
        | sentData sess payload packet =>
          have hiv := hreg _ (by rw [hchan]; rfl) _ rfl
          have hin := htime _ (by rw [hchan]; rfl) _ rfl
          obtain ⟨-, -, -, -, hacc⟩ := h.deliver_data hC ht hK hchan hiv now env
          obtain ⟨usedPrevKey, hop, heq⟩ := hacc (Or.inr hin)
          have hstep : acceptedPayloads (LaneCove.step C (P side) (d.peer side)
              (.udpRecv (addr side.other) packet now env)).2 = [payload] := by
            rw [heq]
            cases hop <;> rfl
          exact hstep
        | _ => exact absurd hdata (by simp [Event.data])

/-- On lossless, ordered channels, with any number of rekeys: what a side has sent is what
the other side has accepted, each payload once and in sending order, and then what is
still in flight. -/
theorem accepted_in_order (hC : C.GcmCorrect) (hS : C.Sized) (hD : C.DhCorrect)
    (hj : Joined C P addr cfg) (eph : Side → Option Priv) {is : List (Act Priv)}
    (hok : Machine.Guarded (duoStep C P addr) (fun d x => d.Orderly C P addr x ∧ x.InTime d)
      (Duo.initial cfg eph) is)
    (htrace : TraceOk C (Machine.run (duoStep C P addr) (Duo.initial cfg eph) is).2) (side : Side) :
    let r := Machine.run (duoStep C P addr) (Duo.initial cfg eph) is
    sentPayloads (ofPeer side r.2) =
      acceptedPayloads (ofPeer side.other r.2) ++ sentPayloads (r.1.chan side.other) := by
  have hrun := Machine.run_invariant_of_guarded
    (I := fun d tr => DuoTraced d tr ∧
      (TraceOk C tr → Logged d tr ∧ (d.Live C P → ∃ s, Sim C P addr d tr s)))
    (s := Duo.initial cfg eph) (fun d tr x hinv hx => ⟨hinv.1.step addr x, fun htrace' => ?_⟩)
    ⟨duoTraced_initial cfg eph, fun _ => ⟨logged_initial cfg eph, fun _ => ⟨_, Sim.initial hj eph⟩⟩⟩
    hok
  · exact (hrun.2 htrace).1 side
  · obtain ⟨⟨hlive, hreg⟩, htime⟩ := hx
    have htrace := htrace'.left
    obtain ⟨hlog, hsim⟩ := hinv.2 htrace
    obtain ⟨s, hs⟩ := hsim hlive
    refine ⟨hs.logged hC hS hj hinv.1 htrace.keyed hlog hreg htime, fun hlive' => ?_⟩
    obtain ⟨s', hs', -⟩ := hs.step hC hS hD hj.wellKeyed hj.psk hinv.1 hlive hreg hlive'
      htrace.keyed htrace'.fresh htrace'.rising
    exact ⟨s', hs'⟩

omit [Inhabited Key] in
/-- Without active pending entries no switch of the link is active. -/
theorem Sim.settle {s : DuoLink Key} (h : Sim C P addr d tr s)
    (hnone : ∀ p ∈ (d.peer .a).pending, p.active = false) :
    Sim C P addr d tr { s with active := ∅ } where
  inv := h.inv.step (.giveUp (Set.empty_subset _))
  peer side := by
    cases side with
    | a =>
      refine ⟨(h.peer .a).view, (h.peer .a).config, fun p hp ha => ?_⟩
      exact absurd ha (by simp [hnone p hp])
    | b => exact (h.peer .b).responder ∅
  chan side := by cases side <;> exact h.chan _
  opened := h.opened
  keys := h.keys
  numbered side := by cases side <;> exact h.numbered _

omit [Inhabited Key] in
/-- While nothing is active both peers have the same key. -/
theorem Sim.cur_eq {s : DuoLink Key} (h : Sim C P addr d tr s) (hlive : d.Live C P)
    (hactive : s.active = ∅) (side side' : Side) :
    (linkEnd s side).cur = (linkEnd s side').cur := by
  have hcur : s.r.cur = s.i.cur := by
    refine h.inv.cur_eq fun m k hmem => ?_
    obtain ⟨e, he, hans⟩ := h.exists_answered hmem
    obtain ⟨p, hp, ha, hinit⟩ := hlive.answered e he m hans
    have hm := h.mem_active hp ha hinit
    rw [hactive] at hm
    exact hm
  cases side <;> cases side' <;> simp [linkEnd, hcur]

/-- In every orderly run: once the initiator has no pending handshake any more, because
it has failed or for another reason, every data packet that is sent before the next
initiation is accepted when it arrives. -/
theorem accepted_after_failure (hC : C.GcmCorrect) (hS : C.Sized) (hD : C.DhCorrect)
    (hj : Joined C P addr cfg) (eph : Side → Option Priv) {is₁ is₂ : List (Act Priv)} {side : Side}
    {now : Time} {env : RecvEnv Priv}
    (hok : Machine.Guarded (duoStep C P addr) (Duo.Orderly C P addr) (Duo.initial cfg eph)
      (is₁ ++ (is₂ ++ [.deliver side now env])))
    (htrace : TraceOk C (Machine.run (duoStep C P addr) (Duo.initial cfg eph) (is₁ ++ is₂)).2) :
    let r₁ := Machine.run (duoStep C P addr) (Duo.initial cfg eph) is₁
    let r₂ := Machine.run (duoStep C P addr) r₁.1 is₂
    (∀ p ∈ (r₁.1.peer .a).pending, p.active = false) →
    initiations (ofPeer .a r₂.2) = [] →
    ∀ sess payload packet, (side.other, .sentData sess payload packet) ∈ r₂.2 →
      (r₂.1.chan side).head? = some (.sentData sess payload packet) →
      ∃ usedPrevKey, (side, .accepted 0 sess.sessionKey usedPrevKey packet sess.sendSeq payload) ∈
        (duoStep C P addr r₂.1 (.deliver side now env)).2 := by
  intro r₁ r₂ hnone hinits sess payload packet hsent hnext
  obtain ⟨hok₁, hok₂⟩ := (Machine.guarded_append _ _ _ _).mp hok
  obtain ⟨hok₂, ⟨hlive₂, hreg⟩, -⟩ := (Machine.guarded_append _ _ _ _).mp hok₂
  rw [Machine.run_append] at htrace
  have hlive₁ : r₁.1.Live C P := by
    cases is₂ with
    | nil => exact hlive₂
    | cons x is₂ => exact hok₂.1.1
  obtain ⟨ht₁, s₁, hs₁, -⟩ := Sim.run hC hS hD hj (Sim.initial hj eph) (duoTraced_initial cfg eph)
    hok₁ htrace.left hlive₁
  obtain ⟨ht₂, s₂, hs₂, hfollows⟩ := (hs₁.settle hnone).run hC hS hD hj ht₁ hok₂ htrace hlive₂
  have hactive : s₂.active = ∅ := hfollows.active_eq_empty rfl hinits
  -- the key the packet was sent under is still the one of both peers
  have hkey : (linkEnd s₂ side).cur = some sess.sessionKey := by
    rw [hs₂.cur_eq hlive₂ hactive side side.other, hfollows.cur rfl hinits]
    exact hfollows.sent_under rfl hinits _ _ _ _ hsent
  obtain ⟨rest, hchan⟩ := List.head?_eq_some_iff.mp hnext
  have hiv := hreg _ (by rw [hnext]; rfl) _ rfl
  obtain ⟨-, -, -, -, hacc⟩ := hs₂.deliver_data hC ht₂ htrace.keyed hchan hiv now env
  obtain ⟨usedPrevKey, hop, heq⟩ := hacc (Or.inl hkey)
  refine ⟨usedPrevKey, ?_⟩
  simp only [duoStep]
  rw [hchan]
  refine List.mem_map_of_mem ?_
  have hmem : .accepted 0 sess.sessionKey usedPrevKey packet sess.sendSeq payload ∈
      (LaneCove.step C (P side) (r₂.1.peer side) (.udpRecv (addr side.other) packet now env)).2 := by
    rw [heq]
    exact List.mem_cons_self
  exact hmem

end Runs

namespace Sample

def duoConfig : Side → PeerConfig
  | .a => peerConfig 1 true
  | .b => peerConfig 2 false

def duoAddr : Side → SockAddr
  | .a => addr 2
  | .b => addr 1

def duoRun : List (Act UInt8) → Duo UInt8 SKey × List (Side × Event SKey) :=
  Machine.run (duoStep crypto pairParams duoAddr) (Duo.initial duoConfig pairEph)

theorem duo_joined : Joined crypto pairParams duoAddr duoConfig where
  wellKeyed := pairParams_wellKeyed
  psk side := (pairParams_psk side).trans (pairParams_psk .a).symm
  pub side := by cases side <;> rfl
  endpoint := ⟨rfl, rfl⟩
  noEndpoint := rfl

/-- A side sends a packet. -/
def send (side : Side) (clk : Time) : Act UInt8 := .react side (.tunRead ipPacket (sendEnv clk))

/-- The next datagram arrives at a side. -/
def arrive (side : Side) (now : Time) : Act UInt8 := .deliver side now (recvEnv now 30)

/-- The first handshake. -/
def duoConnected : List (Act UInt8) := [
  .react .a (tickAt 100 10), .deliver .b 100 (recvEnv 100 20), arrive .a 100]

/-- A rekey, with a data packet before the initiation, one between it and the answer in
each direction, and one after the answer. -/
def rekeyed : List (Act UInt8) := duoConnected ++ [
  send .a 299, send .b 299, .react .a (tickAt 300 11), send .a 301, arrive .b 301, arrive .b 301,
  send .b 302, arrive .b 302, arrive .a 302, arrive .a 303, arrive .a 303]

end Sample

open Sample in
theorem accepted_in_order_rekeyed :
    (sentPayloads (ofPeer .b (duoRun rekeyed).2) = [ipPacket, ipPacket] ∧
      installedKeys (ofPeer .a (duoRun rekeyed).2) = installedKeys (ofPeer .b (duoRun rekeyed).2)) ∧
    sentPayloads (ofPeer .a (duoRun rekeyed).2) =
      acceptedPayloads (ofPeer .b (duoRun rekeyed).2) ++
        sentPayloads ((duoRun rekeyed).1.chan .b) := by
  have hok : Machine.Guarded (duoStep crypto pairParams duoAddr)
      (fun d x => d.Orderly crypto pairParams duoAddr x ∧ x.InTime d)
      (Duo.initial duoConfig pairEph) rekeyed := by decide +kernel
  have htrace : TraceOk crypto (duoRun rekeyed).2 := by decide +kernel
  have haccepted := accepted_in_order crypto_gcmCorrect crypto_sized crypto_dhCorrect duo_joined
    pairEph hok htrace
  refine ⟨by decide +kernel, ?_⟩
  rw [duoRun]
  generalize Machine.run _ _ rekeyed = r at haccepted ⊢
  exact haccepted .a

namespace Sample

/-- Side `a` sends a packet and side `b` receives it, `n` times. -/
def rounds : ℕ → List (Act UInt8)
  | 0 => []
  | n + 1 => send .a 101 :: arrive .b 101 :: rounds n

/-- Nothing is in flight, side `a` has sent `n` packets under `key`, and side `b` has
accepted as many as it has accepted numbers. -/
structure Steady (key : SKey) (n : ℕ) (d : Duo UInt8 SKey) (tr : List (Side × Event SKey)) :
    Prop where
  pending : (d.peer .a).pending.countP (fun p => p.active) ≤ 1
  sender : ∃ s, (d.peer .a).sessions = [s] ∧ s.active = true ∧ s.routes = [⟨0, 0, 0⟩] ∧
    s.sessionKey = key
  receiver : ∃ t acc, (d.peer .b).sessions = [t] ∧ t.active = true ∧ t.addr = addr 2 ∧
    t.sessionKey = key ∧ t.recvSeq.Represents acc ∧ acc.Nodup ∧
    (acceptedPayloads (ofPeer .b tr)).length = acc.length
  chan : ∀ side, d.chan side = []
  sent : (sentPayloads (ofPeer .a tr)).length = n
  fresh : Fresh tr

/-- The provisos of `accepted_in_order` on the steps of a run. -/
def Uncounted (d : Duo UInt8 SKey) (x : Act UInt8) : Prop :=
  d.Live crypto pairParams ∧ x.Regular duoAddr d ∧ x.InTime d

instance (d : Duo UInt8 SKey) (x : Act UInt8) : Decidable (Uncounted d x) :=
  inferInstanceAs (Decidable (d.Live crypto pairParams ∧ x.Regular duoAddr d ∧ x.InTime d))

theorem step_send {P : PeerParams UInt8 SKey} {st : PeerState UInt8 SKey} {s : PeerSession SKey}
    (hss : st.sessions = [s]) (ha : s.active = true) (hroutes : s.routes = [⟨0, 0, 0⟩])
    (clk : Time) :
    ∃ packet, encryptPacket crypto s.sessionKey (sendEnv clk).iv (frame s.sendSeq ipPacket) =
        some packet ∧ packet.take 8 ≠ pktHeader ∧
      step crypto P st (.tunRead ipPacket (sendEnv clk)) =
        ({ st with sessions := [{ s with sendSeq := s.sendSeq + 1, lastSent := clk }] },
          [.sentData s ipPacket packet]) := by
  obtain ⟨packet, henc⟩ : ∃ packet,
      encryptPacket crypto s.sessionKey (sendEnv clk).iv (frame s.sendSeq ipPacket) =
        some packet := ⟨_, rfl⟩
  refine ⟨packet, henc, ?_, ?_⟩
  · obtain rfl := Option.some.inj henc
    intro heq
    have hhead : some (9 : UInt8) = pktHeader.head? := congrArg List.head? heq
    exact absurd hhead (by decide)
  · have hroute : routeLookup [s] (ipAt ipPacket 16) = some 0 := by
      simp only [routeLookup, routeLoop, ha, hroutes]
      decide
    have hip : isIpv4 ipPacket = true := by decide
    have hforward : forwardToPeer crypto s ipPacket (sendEnv clk) =
        ({ s with sendSeq := s.sendSeq + 1, lastSent := clk }, some packet) := by
      simp only [forwardToPeer, henc]
      rfl
    simp [step, tunRead, hip, hss, hroute, forwardOn, hforward]

theorem step_arrive {st : PeerState UInt8 SKey} {t : PeerSession SKey} {acc : List (BitVec 64)}
    (hss : st.sessions = [t]) (ha : t.active = true) (haddr : t.addr = addr 2)
    (hrep : t.recvSeq.Represents acc) {seq : BitVec 64} {packet : Bytes} {iv : Option Iv}
    (henc : encryptPacket crypto t.sessionKey iv (frame seq ipPacket) = some packet)
    (hiv : packet.take 8 ≠ pktHeader) :
    ∃ t' acc', (step crypto (params 1) st (.udpRecv (addr 2) packet 101 (recvEnv 101 30))).1 =
        { st with sessions := [t'] } ∧
      t'.active = true ∧ t'.addr = addr 2 ∧ t'.sessionKey = t.sessionKey ∧
      t'.recvSeq.Represents acc' ∧ (acc.Nodup → acc'.Nodup) ∧
      (acceptedPayloads (step crypto (params 1) st
        (.udpRecv (addr 2) packet 101 (recvEnv 101 30))).2).length + acc.length = acc'.length ∧
      outgoing (step crypto (params 1) st
        (.udpRecv (addr 2) packet 101 (recvEnv 101 30))).2 = [] ∧
      installedKeys (step crypto (params 1) st
        (.udpRecv (addr 2) packet 101 (recvEnv 101 30))).2 = [] := by
  have hhs : isHandshake (params 1).psk packet = false := by simp [isHandshake, hiv]
  rw [step_data hhs hss ha haddr]
  have hopen := openData_current crypto_gcmCorrect henc 101
  rcases hrep.checkReplay seq with ⟨hret, hnew, -, hrep'⟩ | ⟨hret, -⟩
  · rw [hret] at hopen
    obtain ⟨hop, heq⟩ := recvData_accept hss hopen (recvEnv 101 30)
    refine ⟨afterAccept crypto t packet 101 (checkReplay seq t.recvSeq).2, seq :: acc, ?_, ha, haddr,
      rfl, hrep', fun hnodup => List.nodup_cons.mpr ⟨hnew, hnodup⟩, ?_, ?_, ?_⟩
    all_goals rw [heq]
    · cases hop <;> simp [acceptedPayloads, handOn, Nat.add_comm]
    · cases hop <;> rfl
    · cases hop <;> rfl
  · rw [hret] at hopen
    have hrecv : recvData crypto st 0 t packet 101 (recvEnv 101 30) =
        ({ st with sessions := [afterDecrypt crypto t packet 101] }, []) := by
      simp only [recvData, show openData crypto t packet 101 = none from hopen, hss,
        List.set_cons_zero]
    refine ⟨afterDecrypt crypto t packet 101, acc, ?_, ha, haddr, rfl, hrep, id, ?_, ?_, ?_⟩
    all_goals rw [hrecv]
    · simp [acceptedPayloads]
    · rfl
    · rfl

/-- **One round**: a packet more is sent. -/
theorem Steady.round {key : SKey} {n : ℕ} {d : Duo UInt8 SKey} {tr : List (Side × Event SKey)}
    (h : Steady key n d tr) :
    let d₁ := duoStep crypto pairParams duoAddr d (send .a 101)
    let d₂ := duoStep crypto pairParams duoAddr d₁.1 (arrive .b 101)
    Uncounted d (send .a 101) ∧ Uncounted d₁.1 (arrive .b 101) ∧
      Steady key (n + 1) d₂.1 (tr ++ d₁.2 ++ d₂.2) := by
  intro d₁ d₂
  obtain ⟨s, hs, hsa, hroutes, rfl⟩ := h.sender
  obtain ⟨t, acc, ht, hta, haddr, hkey, hrep, hnodup, hlen⟩ := h.receiver
  obtain ⟨packet, henc, hiv, hsend⟩ := step_send (P := params 2) hs hsa hroutes 101
  obtain ⟨t', acc', hst, hta', haddr', hkey', hrep', hnodup', hlen', hout, hinst⟩ :=
    step_arrive ht hta haddr hrep (hkey ▸ henc) hiv
  have hpeerA : d₁.1.peer .a = { d.peer .a with
      sessions := [{ s with sendSeq := s.sendSeq + 1, lastSent := 101 }] } := by
    simp [d₁, duoStep, Duo.react, LaneCove.Sample.send, pairParams, hsend]
  have hpeerB : d₁.1.peer .b = d.peer .b := by
    simp [d₁, duoStep, Duo.react, LaneCove.Sample.send]
  have hchanA : d₁.1.chan .a = [] := by
    simp [d₁, duoStep, Duo.react, LaneCove.Sample.send, Side.other, h.chan]
  have hchanB : d₁.1.chan .b = [.sentData s ipPacket packet] := by
    simp [d₁, duoStep, Duo.react, LaneCove.Sample.send, Side.other, h.chan, pairParams, hsend,
      outgoing, Event.datagram]
  have hd₂ : d₂ = Duo.react crypto pairParams
      { d₁.1 with chan := Function.update d₁.1.chan .b [] } .b
      (.udpRecv (addr 2) packet 101 (recvEnv 101 30)) := by
    simp only [d₂, arrive, duoStep, hchanB]
    rfl
  have hpeerB₂ : d₂.1.peer .b = { d.peer .b with sessions := [t'] } := by
    simp [hd₂, Duo.react, hpeerB, pairParams, hst]
  have htrA : ofPeer .a (tr ++ d₁.2 ++ d₂.2) =
      ofPeer .a tr ++ [Event.sentData s ipPacket packet] := by
    rw [hd₂, Duo.react, ofPeer_append, ofPeer_append, ofPeer_map_of_ne (by simp)]
    simp [d₁, duoStep, Duo.react, LaneCove.Sample.send, pairParams, hsend, ofPeer]
  have htrB : ofPeer .b (tr ++ d₁.2 ++ d₂.2) = ofPeer .b tr ++ (step crypto (params 1) (d.peer .b)
      (.udpRecv (addr 2) packet 101 (recvEnv 101 30))).2 := by
    rw [hd₂, Duo.react, ofPeer_append, ofPeer_append, ofPeer_map_self, hpeerB]
    simp [d₁, duoStep, Duo.react, LaneCove.Sample.send, pairParams, ofPeer_map_of_ne]
  refine ⟨⟨⟨h.pending, ?_, ?_⟩, trivial, trivial⟩, ⟨⟨?_, ?_, ?_⟩, ?_, ?_⟩, ?_, ?_, ?_, ?_, ?_, ?_, ?_⟩
  · simp [h.chan]
  · intro side
    cases side <;> simp [hs, ht, hsa, hta]
  · rw [hpeerA]
    exact h.pending
  · simp [hchanA]
  · intro side
    cases side <;> simp [hpeerA, hpeerB, ht, hsa, hta]
  · simpa [Act.Regular, arrive, hchanB, Event.data] using hiv
  · simp [Act.InTime, arrive, hchanB, Event.data, hpeerB, ht, hkey]
  · rw [show d₂.1.peer .a = d₁.1.peer .a by simp [hd₂, Duo.react], hpeerA]
    exact h.pending
  · refine ⟨{ s with sendSeq := s.sendSeq + 1, lastSent := 101 }, ?_, hsa, hroutes, rfl⟩
    rw [show d₂.1.peer .a = d₁.1.peer .a by simp [hd₂, Duo.react], hpeerA]
  · refine ⟨t', acc', by rw [hpeerB₂], hta', haddr', hkey'.trans hkey, hrep', hnodup' hnodup, ?_⟩
    rw [htrB, acceptedPayloads_append, List.length_append, hlen, Nat.add_comm, hlen']
  · intro side
    cases side with
    | a => simp [hd₂, Duo.react, hpeerB, Side.other, hchanA, pairParams, hout]
    | b => simp [hd₂, Duo.react, Side.other]
  · rw [htrA, sentPayloads_append, List.length_append, h.sent]
    rfl
  · rw [htrA, initiations_append, show initiations [.sentData s ipPacket packet] = [] from rfl,
      List.append_nil]
    exact h.fresh.initiations
  · rw [htrB, installedKeys_append, hinst, List.append_nil]
    exact h.fresh.keys

theorem Steady.rounds {key : SKey} {n : ℕ} {d : Duo UInt8 SKey} {tr : List (Side × Event SKey)}
    (h : Steady key n d tr) (m : ℕ) :
    Machine.Guarded (duoStep crypto pairParams duoAddr) Uncounted d (rounds m) ∧
      Steady key (n + m) (Machine.run (duoStep crypto pairParams duoAddr) d (rounds m)).1
        (tr ++ (Machine.run (duoStep crypto pairParams duoAddr) d (rounds m)).2) := by
  induction m generalizing n d tr with
  | zero =>
    refine ⟨trivial, ?_⟩
    simpa only [Sample.rounds, Machine.run_nil, List.append_nil, Nat.add_zero] using h
  | succ m ih =>
    obtain ⟨hok₁, hok₂, hround⟩ := h.round
    obtain ⟨hok, hrest⟩ := ih hround
    refine ⟨⟨hok₁, hok₂, hok⟩, ?_⟩
    rw [Nat.add_right_comm, List.append_assoc, List.append_assoc] at hrest
    exact hrest

/-- No more packets are accepted than there are numbers. -/
theorem Steady.not_all_accepted {key : SKey} {n : ℕ} {d : Duo UInt8 SKey}
    {tr : List (Side × Event SKey)} (h : Steady key n d tr) (hn : 2 ^ 64 < n) :
    sentPayloads (ofPeer .a tr) ≠
      acceptedPayloads (ofPeer .b tr) ++ sentPayloads (d.chan .b) := by
  intro heq
  obtain ⟨t, acc, -, -, -, -, -, hnodup, hlen⟩ := h.receiver
  have hle : acc.length ≤ 2 ^ 64 := by
    have hsub : acc.map BitVec.toNat ⊆ List.range (2 ^ 64) := by
      intro n hn
      obtain ⟨seq, -, rfl⟩ := List.mem_map.mp hn
      exact List.mem_range.mpr seq.isLt
    have hperm := List.subperm_of_subset
      (hnodup.map fun _ _ heq => BitVec.eq_of_toNat_eq heq) hsub
    have hlength := hperm.length_le
    rwa [List.length_map, List.length_range] at hlength
  have hcount := congrArg List.length heq
  rw [h.chan .b, List.length_append, h.sent, hlen] at hcount
  exact absurd hn (not_lt.mpr (hcount ▸ hle))

theorem steady_connected : ∃ key, Steady key 0 (duoRun duoConnected).1 (duoRun duoConnected).2 := by
  have hpeers : ((duoRun duoConnected).1.peer .a).pending.countP (fun p => p.active) ≤ 1 ∧
      (((duoRun duoConnected).1.peer .a).sessions.length = 1 ∧
        ∀ s ∈ ((duoRun duoConnected).1.peer .a).sessions, s.active = true ∧
          s.routes = [⟨0, 0, 0⟩] ∧ ∀ t ∈ ((duoRun duoConnected).1.peer .b).sessions,
            t.sessionKey = s.sessionKey) ∧
      ((duoRun duoConnected).1.peer .b).sessions.length = 1 ∧
        ∀ t ∈ ((duoRun duoConnected).1.peer .b).sessions, t.active = true ∧ t.addr = addr 2 ∧
          t.recvSeq = ReplayState.zero := by
    decide +kernel
  have htrace : (∀ side, ((duoRun duoConnected).1.chan side).isEmpty = true ∧
        sentPayloads (ofPeer side (duoRun duoConnected).2) = [] ∧
        acceptedPayloads (ofPeer side (duoRun duoConnected).2) = []) ∧
      Fresh (duoRun duoConnected).2 := by
    decide +kernel
  obtain ⟨hpending, ⟨hlenA, hA⟩, hlenB, hB⟩ := hpeers
  obtain ⟨s, hs⟩ := List.length_eq_one_iff.mp hlenA
  obtain ⟨t, ht⟩ := List.length_eq_one_iff.mp hlenB
  obtain ⟨hsa, hroutes, hkey⟩ := hA s (by simp [hs])
  obtain ⟨hta, haddr, hzero⟩ := hB t (by simp [ht])
  refine ⟨s.sessionKey, hpending, ⟨s, hs, hsa, hroutes, rfl⟩, ⟨t, [], ht, hta, haddr,
    hkey t (by simp [ht]), hzero ▸ represents_zero, List.nodup_nil, ?_⟩, fun side => ?_, ?_, ?_⟩
  · rw [(htrace.1 .b).2.2]
    rfl
  · exact List.isEmpty_iff.mp (htrace.1 side).1
  · rw [(htrace.1 .a).2.1]
    rfl
  · exact htrace.2

theorem duoRun_gcmKeyed (is : List (Act UInt8)) :
    crypto.GcmKeyed ((duoRun is).2.map Prod.snd) := by
  have hgen : ∀ e ∈ (duoRun is).2.map Prod.snd, e.Genuine crypto none := by
    intro e he
    obtain ⟨x, hx, rfl⟩ := List.mem_map.mp he
    have hx' := Machine.forall_mem_run (duoStep_genuine crypto_gcmCorrect crypto_sized
      pairParams_wellKeyed duoAddr) _ _ x hx
    rwa [pairParams_psk] at hx'
  exact Crypto.gcmKeyed_of_genuine hgen crypto_opensOnly

theorem steady_run (m : ℕ) :
    Machine.Guarded (duoStep crypto pairParams duoAddr) Uncounted (Duo.initial duoConfig pairEph)
      (duoConnected ++ rounds m) ∧
    ∃ key, Steady key m (duoRun (duoConnected ++ rounds m)).1
      (duoRun (duoConnected ++ rounds m)).2 := by
  obtain ⟨key, hsteady⟩ := steady_connected
  have hconnect : Machine.Guarded (duoStep crypto pairParams duoAddr) Uncounted
      (Duo.initial duoConfig pairEph) duoConnected := by
    decide +kernel
  obtain ⟨hok, hend⟩ := hsteady.rounds m
  rw [Nat.zero_add] at hend
  refine ⟨(Machine.guarded_append _ _ _ _).mpr ⟨hconnect, hok⟩, key, ?_⟩
  rw [duoRun, Machine.run_append]
  exact hend

end Sample

open Sample in
/-- The counter of a session wraps around after `2 ^ 64` packets, and not every packet is
accepted then, although nothing is lost. -/
theorem wrapped_not_accepted : ∃ is,
    Machine.Guarded (duoStep crypto pairParams duoAddr)
      (fun d x => d.Live crypto pairParams ∧ x.Regular duoAddr d ∧ x.InTime d)
      (Duo.initial duoConfig pairEph) is ∧
    crypto.GcmKeyed ((duoRun is).2.map Prod.snd) ∧ Fresh (duoRun is).2 ∧
    sentPayloads (ofPeer .a (duoRun is).2) ≠
      acceptedPayloads (ofPeer .b (duoRun is).2) ++ sentPayloads ((duoRun is).1.chan .b) := by
  obtain ⟨hok, key, hsteady⟩ := steady_run (2 ^ 64 + 1)
  exact ⟨_, hok, duoRun_gcmKeyed _, hsteady.fresh, hsteady.not_all_accepted (Nat.lt_succ_self _)⟩

namespace Sample

/-- A rekey whose initiation is lost, up to the time when its pending entry is given up. -/
def lostInitiation : List (Act UInt8) := duoConnected ++ [
  Act.react .a (tickAt 300 11), Act.drop .b, Act.react .a (tickAt 310 12)]

/-- A rekey whose response is lost, up to the time when its pending entry is given up. -/
def lostResponse : List (Act UInt8) := duoConnected ++ [
  .react .a (tickAt 300 11), arrive .b 301, .drop .a, .react .a (tickAt 310 12)]

end Sample

open Sample in
theorem accepted_after_failure_lostInitiation :
    ∃ (sess : PeerSession SKey) (packet : Bytes) (usedPrevKey : Bool),
      (.a, .accepted 0 sess.sessionKey usedPrevKey packet sess.sendSeq ipPacket) ∈
        (duoStep crypto pairParams duoAddr (duoRun (lostInitiation ++ [send .b 311])).1
          (arrive .a 311)).2 := by
  have hok : Machine.Guarded (duoStep crypto pairParams duoAddr)
      (Duo.Orderly crypto pairParams duoAddr) (Duo.initial duoConfig pairEph)
      (lostInitiation ++ ([send .b 311] ++ [arrive .a 311])) := by decide +kernel
  have htrace : TraceOk crypto (duoRun (lostInitiation ++ [send .b 311])).2 := by decide +kernel
  have hnone : ∀ p ∈ ((duoRun lostInitiation).1.peer .a).pending, p.active = false := by
    decide +kernel
  have hchan : ((duoRun lostInitiation).1.chan .a).isEmpty = true := by decide +kernel
  have hsession : ((duoRun lostInitiation).1.peer .b).sessions.length = 1 ∧
      ∀ s ∈ ((duoRun lostInitiation).1.peer .b).sessions,
        s.active = true ∧ s.routes = [⟨0, 0, 0⟩] := by decide +kernel
  have hall := accepted_after_failure crypto_gcmCorrect crypto_sized crypto_dhCorrect duo_joined
    pairEph hok htrace
  rw [duoRun, Machine.run_append]
  rw [duoRun] at hnone hchan hsession
  generalize Machine.run _ _ lostInitiation = r at hall hnone hchan hsession ⊢
  obtain ⟨s, hs⟩ := List.length_eq_one_iff.mp hsession.1
  obtain ⟨ha, hroutes⟩ := hsession.2 s (by simp [hs])
  obtain ⟨packet, -, -, hsend⟩ := step_send (P := pairParams .b) hs ha hroutes 311
  have hreact : duoStep crypto pairParams duoAddr r.1 (send .b 311) =
      ({ peer := Function.update r.1.peer .b
            { r.1.peer .b with sessions := [{ s with sendSeq := s.sendSeq + 1, lastSent := 311 }] }
         chan := Function.update r.1.chan .a [.sentData s ipPacket packet] },
        [(.b, .sentData s ipPacket packet)]) := by
    simp [duoStep, Duo.react, send, hsend, Side.other, List.isEmpty_iff.mp hchan, outgoing,
      Event.datagram]
  refine ⟨s, packet, hall hnone ?_ s ipPacket packet ?_ ?_⟩
  · simp [hreact, ofPeer, initiations]
  · simp [hreact, Side.other]
  · simp [hreact]

open Sample in
/-- A response is lost, and the pending entry of the initiator times out. The next packet
of the responder arrives before any other rekey, and is not accepted. -/
theorem lost_response_not_accepted :
    ((∀ p ∈ ((duoRun lostResponse).1.peer .a).pending, p.active = false) ∧
      (∀ side, ((duoRun lostResponse).1.peer side).sessions.map (fun s => s.active) = [true]) ∧
      ((duoRun lostResponse).1.chan .a).isEmpty = true) ∧
    (sentPayloads (ofPeer .b (duoRun lostResponse).2) = [] ∧
      sentPayloads (ofPeer .b (duoRun (lostResponse ++ [send .b 311, arrive .a 311])).2) =
        [ipPacket] ∧
      initiations (ofPeer .a (duoRun (lostResponse ++ [send .b 311, arrive .a 311])).2) =
        initiations (ofPeer .a (duoRun lostResponse).2)) ∧
    ((duoRun (lostResponse ++ [send .b 311, arrive .a 311])).1.chan .a).isEmpty = true ∧
    acceptedPayloads (ofPeer .a (duoRun (lostResponse ++ [send .b 311, arrive .a 311])).2) = [] := by
  decide +kernel

end LaneCove
