import LaneCove.Secrecy

/-!
# Confidentiality of the traffic

The tunnel on symbolic messages: handshakes as before, and packets that peers send in the
sessions they have. `forward_to_peer` puts the sequence number and the payload under the
session key. The attacker is the network. It delivers what it likes in handshakes, knows static
private keys of some peers and all atoms but those to be hidden, and sees every packet.

A peer may be talking to the attacker without knowing, in a session under a name that the
attacker has the key of. What is hidden must not be sent there. Everywhere else it is safe, and
in a session with an honest ephemeral key it stays so when static keys become known.

## Main definitions

- `Symbolic.Session` — a session as one side holds it
- `Symbolic.Tunnel`, `Symbolic.tunnelStep` — handshakes and packets
- `Symbolic.Session.Private` — sessions that the attacker has no part in

## Main results

- `Symbolic.Session.Private.not_safe` — their keys are out of reach
- `Symbolic.TunnelTraced.step` — what one action of a peer keeps
- `Symbolic.payload_secrecy` — what is sent in them stays hidden
-/

namespace LaneCove.Symbolic

open DolevYao

variable {P A : Type}

/-- A session as one side holds it: the two public keys of the other side that it was
negotiated with, and its key. -/
structure Session (P A : Type) where
  peerStatic : Term (SecretKey P) A
  peerEph : Term (SecretKey P) A
  key : Term (SecretKey P) A

/-- The session that a call which returned 0 has set up. -/
def Event.session : Event P A → Option (Session P A)
  | .initiated .. => none
  | .responded _ _ init reply =>
    reply.sessionKey.map fun key => ⟨reply.clientStaticPub, init.ephPub, key⟩
  | .completed _ server _ resp key => some ⟨staticPub server, resp.ephPub, key⟩

/-- The peers, the sessions set up so far, and the packets sent in them. -/
structure Tunnel (P A : Type) where
  world : World P A
  sessions : List (Session P A)
  packets : List (Term (SecretKey P) A)

def Tunnel.initial : Tunnel P A := ⟨World.initial, [], []⟩

/-- What can happen: an action in a handshake, or the side that has the `i`-th session sends a
packet in it. -/
inductive TunnelAction (P A : Type) where
  | handshake (act : Action P A)
  | send (i : ℕ) (seq payload : A)

/-- The packet of `forward_to_peer`, less the header, which is the same in all of them. -/
def packet (key : Term (SecretKey P) A) (seq payload : A) : Term (SecretKey P) A :=
  .enc key (.pair (.atom seq) (.atom payload))

/-- The other side is not the attacker: it is known by a static key that the attacker does not
have, or the ephemeral key is one that an honest peer has generated. -/
def Session.Private (compromised : Set P) (s : Session P A) : Prop :=
  (∃ p, s.peerStatic = staticPub p ∧ p ∉ compromised) ∨ ∃ n, s.peerEph = ephPub n

/-- What the attacker computes from the keys it has, the handshakes and the packets; `hidden` are
the atoms that it does not have to begin with. -/
def Tunnel.Derivable (compromised : Set P) (hidden : Set A) (t : Tunnel P A) :
    Term (SecretKey P) A → Prop :=
  DolevYao.Derives {u | Known compromised hiddenᶜ t.world.network u ∨ u ∈ t.packets}

variable [DecidableEq P] [DecidableEq A] {psk : Option A} {compromised : Set P} {hidden : Set A}

/-- One action of the honest peers. -/
def tunnelStep (psk : Option A) (t : Tunnel P A) :
    TunnelAction P A → Tunnel P A × List (Event P A)
  | .handshake act =>
    let r := step psk t.world act
    ({ t with world := r.1, sessions := t.sessions ++ r.2.filterMap Event.session }, r.2)
  | .send i seq payload =>
    match t.sessions[i]? with
    | none => (t, [])
    | some s => ({ t with packets := packet s.key seq payload :: t.packets }, [])

/-- What is hidden is sent in private sessions only. -/
def SentPrivately (compromised : Set P) (hidden : Set A) (t : Tunnel P A) :
    TunnelAction P A → Prop
  | .handshake _ => True
  | .send i seq payload =>
    ∀ s, t.sessions[i]? = some s → seq ∈ hidden ∨ payload ∈ hidden → s.Private compromised

omit [DecidableEq P] [DecidableEq A] in
/-- With an ephemeral key of one's own, one of the two public keys of the other side makes a
secret that the attacker does not have. -/
theorem Session.Private.not_safe_dh [DecidablePred (Secret compromised)] {s : Session P A}
    (h : s.Private compromised) (n : ℕ) :
    ¬ ((s.peerStatic.dh (.ephemeral n)).Safe (Secret compromised) ∧
      (s.peerEph.dh (.ephemeral n)).Safe (Secret compromised)) := by
  rintro ⟨hstatic, heph⟩
  rcases h with ⟨p, hp, hnot⟩ | ⟨m, hm⟩
  · rw [hp] at hstatic
    exact not_safe_ephemeral (k := .static p) hnot hstatic
  · rw [hm] at heph
    exact not_safe_ephemeral (k := .ephemeral m) trivial heph

/-- Both of these secrets are in the session key, on either side. -/
theorem Session.Private.not_safe [DecidablePred (Secret compromised)] {e : Event P A}
    (hvalid : e.Valid psk) {s : Session P A} (hs : e.session = some s)
    (h : s.Private compromised) : ¬ s.key.Safe (Secret compromised) := by
  cases e with
  | initiated => exact absurd hs (by simp [Event.session])
  | responded server eph init reply =>
    obtain ⟨key, hkey, rfl⟩ := Option.map_eq_some_iff.mp hs
    obtain ⟨-, -, -, hderived⟩ := respond_eq_some hvalid
    obtain rfl := Option.some.inj (hkey.symm.trans hderived)
    rintro ⟨heph, hsc, -⟩
    exact h.not_safe_dh eph ⟨hsc, heph⟩
  | completed client server eph resp key =>
    obtain rfl := Option.some.inj hs
    obtain ⟨-, -, rfl⟩ := recvResp_eq_some hvalid
    rintro ⟨heph, -, hss, -⟩
    exact h.not_safe_dh eph ⟨hss, heph⟩

/-- Where sessions and packets come from. -/
structure TunnelTraced (psk : Option A) (compromised : Set P) [DecidablePred (Secret compromised)]
    (hidden : Set A) (t : Tunnel P A) (tr : List (Event P A)) : Prop where
  traced : Traced psk t.world tr
  sessions : ∀ s ∈ t.sessions, ∃ e ∈ tr, e.session = some s
  packets : ∀ u ∈ t.packets, u.Safe (Secret compromised) ∧
    u.Keeps (Secret compromised) (· ∈ hidden)

section Invariant

variable [DecidablePred (Secret compromised)]

theorem TunnelTraced.step {t : Tunnel P A} {tr : List (Event P A)}
    (h : TunnelTraced psk compromised hidden t tr) {act : TunnelAction P A}
    (hsend : SentPrivately compromised hidden t act) :
    TunnelTraced psk compromised hidden (tunnelStep psk t act).1
      (tr ++ (tunnelStep psk t act).2) := by
  cases act with
  | handshake act =>
    refine ⟨h.traced.step act, fun s hs => ?_, h.packets⟩
    rcases List.mem_append.mp hs with hs | hs
    · obtain ⟨e, he, hsession⟩ := h.sessions s hs
      exact ⟨e, List.mem_append_left _ he, hsession⟩
    · obtain ⟨e, he, hsession⟩ := List.mem_filterMap.mp hs
      exact ⟨e, List.mem_append_right _ he, hsession⟩
  | send i seq payload =>
    simp only [tunnelStep]
    split
    · rw [List.append_nil]
      exact h
    · next s hs =>
      rw [List.append_nil]
      refine ⟨h.traced, h.sessions, List.forall_mem_cons.mpr ⟨⟨⟨trivial, trivial⟩, ?_⟩, h.packets⟩⟩
      intro hkey
      -- under a key that can become known there is nothing to hide
      obtain ⟨e, he, hsession⟩ := h.sessions s (List.mem_of_getElem? hs)
      have hpublic : ¬ (seq ∈ hidden ∨ payload ∈ hidden) := fun hmem =>
        (hsend s hs hmem).not_safe (h.traced.valid e he) hsession hkey
      exact not_or.mp hpublic

/-- What the attacker has is in order, and so is what it computes. -/
theorem TunnelTraced.keeps {t : Tunnel P A} {tr : List (Event P A)}
    (h : TunnelTraced psk compromised hidden t tr) {u : Term (SecretKey P) A}
    (hu : t.Derivable compromised hidden u) : u.Keeps (Secret compromised) (· ∈ hidden) := by
  refine (DolevYao.Derives.of_closed closed_keeps (fun u hu => ?_) hu).2
  rcases hu with hknown | hpacket
  · refine ⟨h.traced.safe_of_derivable (.known hknown), ?_⟩
    cases hknown with
    | staticPub => trivial
    | staticKey => trivial
    | atom ha => exact ha
    | ephPub hm =>
      obtain ⟨eph, secret, p, rfl⟩ := h.traced.network_eq hm
      trivial
    | encStatic hm =>
      obtain ⟨eph, secret, p, rfl⟩ := h.traced.network_eq hm
      exact fun _ => trivial
    | hmac hm ht =>
      obtain ⟨eph, secret, p, rfl⟩ := h.traced.network_eq hm
      obtain ⟨a, -, rfl⟩ := Option.map_eq_some_iff.mp ht
      trivial
  · exact h.packets u hpacket

end Invariant

/-- **Confidentiality.** In every run of handshakes and packets, whatever the attacker delivers:
if the atoms in `hidden` are sent in private sessions only, the attacker derives none of them. -/
theorem payload_secrecy (psk : Option A) (compromised : Set P) (hidden : Set A)
    {acts : List (TunnelAction P A)}
    (hsend : Machine.Guarded (tunnelStep psk) (SentPrivately compromised hidden) Tunnel.initial
      acts) :
    ∀ a ∈ hidden, ¬ (Machine.run (tunnelStep psk) Tunnel.initial acts).1.Derivable compromised
      hidden (.atom a) := by
  classical
  intro a ha hderives
  have hinitial : TunnelTraced psk compromised hidden (Tunnel.initial : Tunnel P A) [] :=
    ⟨traced_initial psk, by simp [Tunnel.initial], by simp [Tunnel.initial]⟩
  have htraced := Machine.run_invariant_of_guarded
    (fun t tr act (h : TunnelTraced psk compromised hidden t tr) hsend => h.step hsend) hinitial
    hsend
  exact htraced.keeps hderives ha

/-- Peer 0 starts a handshake, and peer 1, which has answered it, sends payload 2. -/
def answeredRun : List (TunnelAction ℕ ℕ) :=
  [.handshake (.initiate 0 1), .handshake (.precompute 1),
    .handshake (.deliverInit 1 (initiation (some 0) 0 1 0)), .send 0 1 2]

/-- The session that the packet is sent in. -/
theorem answeredRun_sessions : ∃ peerStatic key,
    (Machine.run (tunnelStep (some 0)) Tunnel.initial (answeredRun.take 3)).1.sessions =
      [⟨peerStatic, ephPub 0, key⟩] := by
  obtain ⟨reply, -, hreply, -⟩ := respond_initiation (some (0 : ℕ)) (0 : ℕ) 1 0 1
  obtain ⟨key, hkey⟩ : ∃ key, reply.sessionKey = some key := ⟨_, (respond_eq_some hreply).2.2.2⟩
  refine ⟨reply.clientStaticPub, key, ?_⟩
  simp only [answeredRun, List.take_succ_cons, List.take_zero, Machine.run_cons, Machine.run_nil,
    tunnelStep, step, sendInit_eq, Tunnel.initial, World.initial, Function.update_self, hreply,
    List.filterMap_cons, List.filterMap_nil, Event.session, hkey, Option.map_some, List.append_nil,
    List.nil_append, Nat.zero_add]
  rfl

/-- The packet is on the network, all static keys are known, and so are the PSK and the
sequence number, 0 and 1. -/
theorem payload_secrecy_answered :
    (Machine.run (tunnelStep (some 0)) Tunnel.initial answeredRun).1.packets.length = 1 ∧
      ¬ (Machine.run (tunnelStep (some 0)) Tunnel.initial answeredRun).1.Derivable Set.univ {2}
        (.atom 2) := by
  obtain ⟨peerStatic, key, hsessions⟩ := answeredRun_sessions
  have hrun : answeredRun = answeredRun.take 3 ++ [.send 0 1 2] := rfl
  have hguard : Machine.Guarded (tunnelStep (some 0)) (SentPrivately Set.univ {2}) Tunnel.initial
      answeredRun := by
    rw [hrun, Machine.guarded_append]
    refine ⟨⟨trivial, trivial, trivial, trivial⟩, fun s hs _ => .inr ⟨0, ?_⟩, trivial⟩
    rw [hsessions] at hs
    rw [← Option.some.inj hs]
  refine ⟨?_, payload_secrecy (some 0) Set.univ {2} hguard 2 rfl⟩
  rw [hrun, Machine.run_append]
  simp only [Machine.run_cons, Machine.run_nil, tunnelStep, hsessions, List.getElem?_cons_zero,
    List.length_cons]
  rfl

end LaneCove.Symbolic
