import LaneCove.Foundations.DolevYao
import LaneCove.Foundations.Machine
import LaneCove.Handshake

/-!
# The handshake on symbolic messages

The handshake functions run on terms instead of bytes: `symbolicSuite` is the
second instance of `Suite`, with perfect primitives. Any number of peers run them
in both roles over a network that the attacker is: whatever it can derive from
what was sent, it can deliver to anyone, as an initiation or as a response.

## Main definitions

- `symbolicSuite` — X25519, SHA-256, HMAC and AES-GCM as term constructors
- `Symbolic.step` — one action of an honest peer
- `Symbolic.Deliverable` — the messages the attacker can deliver
- `Symbolic.Traced` — what a run has produced, and by which call

## Main results

- `Symbolic.Traced.step`, `Symbolic.traced_run` — every event of a run is a
  successful call, and every message was sent by one
-/

namespace LaneCove

open DolevYao

/-- The private keys that honest peers hold: peer `p` has a static key, and
`ephemeral n` is the `n`-th key that `generate_eph_keypair` made. -/
inductive SecretKey (P : Type) where
  | static (p : P)
  | ephemeral (n : ℕ)
deriving DecidableEq

section Suite

variable (P A : Type) [DecidableEq P] [DecidableEq A]

/-- The handshake operations on terms. -/
def symbolicSuite : Suite (SecretKey P) (Term (SecretKey P) A) (Term (SecretKey P) A)
    (Term (SecretKey P) A) (Term (SecretKey P) A) (Term (SecretKey P) A) where
  sharedSecret k t := some (t.dh k)
  identityKey keyMaterial := .hash keyMaterial
  sessionKey ecdhEph ecdhScEs ecdhEcSs clientEphPub serverEphPub clientStaticPub serverStaticPub :=
    .hash (.pair ecdhEph (.pair ecdhScEs (.pair ecdhEcSs (.pair clientEphPub
      (.pair serverEphPub (.pair clientStaticPub serverStaticPub))))))
  sealIdentity key pub := some (.enc key pub)
  openIdentity key enc := Term.decrypt key enc
  mac psk ephPub encStatic := some (.mac psk (.pair ephPub encStatic))

end Suite

namespace Symbolic

variable {P A : Type}

abbrev Message (P A : Type) :=
  HsMessage (Term (SecretKey P) A) (Term (SecretKey P) A) (Term (SecretKey P) A)

abbrev ClientState (P A : Type) :=
  HsClientState (SecretKey P) (Term (SecretKey P) A) (Term (SecretKey P) A)

abbrev Reply (P A : Type) :=
  ServerReply (Term (SecretKey P) A) (Term (SecretKey P) A) (Term (SecretKey P) A)
    (Term (SecretKey P) A)

/-- The static public key of a peer. -/
def staticPub (p : P) : Term (SecretKey P) A := .pub (.static p)

/-- The public part of an ephemeral key. -/
def ephPub (n : ℕ) : Term (SecretKey P) A := .pub (.ephemeral n)

/-- A handshake of `client` with the configured key of `server`. -/
structure Pending (P A : Type) where
  client : P
  server : P
  eph : ℕ
  init : Message P A
  state : ClientState P A

/-- What the honest peers hold, and what has been sent. -/
structure World (P A : Type) where
  /-- how many ephemeral keys exist -/
  generated : ℕ
  /-- the precomputed ephemeral key of each peer -/
  precomp : P → Option ℕ
  pending : List (Pending P A)
  network : List (Message P A)

def World.initial : World P A := ⟨0, fun _ => none, [], []⟩

/-- What can happen: a peer precomputes its next ephemeral key, starts a
handshake, or is delivered a message in one of the two roles. -/
inductive Action (P A : Type) where
  | precompute (p : P)
  | initiate (client server : P)
  | deliverInit (server : P) (init : Message P A)
  | deliverResp (i : ℕ) (resp : Message P A)

/-- The calls that returned 0, with what they were given and what they put out. -/
inductive Event (P A : Type) where
  | initiated (client server : P) (eph : ℕ) (init : Message P A)
  | responded (server : P) (eph : ℕ) (init : Message P A) (reply : Reply P A)
  | completed (client server : P) (eph : ℕ) (resp : Message P A) (key : Term (SecretKey P) A)

section Step

variable [DecidableEq P] [DecidableEq A]

/-- `handshake_client_send` of a peer. -/
def sendInit (psk : Option A) (client server : P) (eph : ℕ) :
    Option (Message P A × ClientState P A) :=
  (symbolicSuite P A).clientSend (psk.map .atom) (staticPub client) (staticPub server)
    (.ephemeral eph) (ephPub eph)

/-- `handshake_server_respond` of a peer with its precomputed key. -/
def respond (psk : Option A) (server : P) (eph : ℕ) (init : Message P A) : Option (Reply P A) :=
  (symbolicSuite P A).serverRespond (psk.map .atom) (.static server) (staticPub server)
    (some (.ephemeral eph)) (ephPub eph) init

/-- `handshake_client_recv` of a peer. -/
def recvResp (psk : Option A) (client server : P) (state : ClientState P A)
    (resp : Message P A) : Option (Term (SecretKey P) A) :=
  (symbolicSuite P A).clientRecv (psk.map .atom) (.static client) (staticPub client)
    (staticPub server) state resp

/-- One action of the honest peers; a call that fails changes nothing. -/
def step (psk : Option A) (w : World P A) : Action P A → World P A × List (Event P A)
  | .precompute p =>
    ({ w with
      generated := w.generated + 1
      precomp := Function.update w.precomp p (some w.generated) }, [])
  | .initiate client server =>
    match sendInit psk client server w.generated with
    | none => ({ w with generated := w.generated + 1 }, [])
    | some (init, state) =>
      ({ w with
        generated := w.generated + 1
        pending := ⟨client, server, w.generated, init, state⟩ :: w.pending
        network := init :: w.network },
        [.initiated client server w.generated init])
  | .deliverInit server init =>
    match w.precomp server with
    | none => (w, [])
    | some eph =>
      match respond psk server eph init with
      | none => (w, [])
      | some reply =>
        ({ w with network := reply.response :: w.network }, [.responded server eph init reply])
  | .deliverResp i resp =>
    match w.pending[i]? with
    | none => (w, [])
    | some p =>
      match recvResp psk p.client p.server p.state resp with
      | none => (w, [])
      | some key =>
        ({ w with pending := w.pending.eraseIdx i },
          [.completed p.client p.server p.eph resp key])

end Step

/-- What the attacker has: the static public keys, the static private keys of the
peers in `compromised`, the atomic keys in `keys`, and every message sent. -/
inductive Known (compromised : Set P) (keys : Set A) (network : List (Message P A)) :
    Term (SecretKey P) A → Prop
  | staticPub (p : P) : Known compromised keys network (staticPub p)
  | staticKey {p : P} (h : p ∈ compromised) : Known compromised keys network (.priv (.static p))
  | atom {a : A} (h : a ∈ keys) : Known compromised keys network (.atom a)
  | ephPub {m : Message P A} (h : m ∈ network) : Known compromised keys network m.ephPub
  | encStatic {m : Message P A} (h : m ∈ network) : Known compromised keys network m.encStatic
  | hmac {m : Message P A} {t : Term (SecretKey P) A} (h : m ∈ network) (ht : m.hmac = some t) :
      Known compromised keys network t

/-- What the attacker can compute from it. -/
def Derivable (compromised : Set P) (keys : Set A) (network : List (Message P A))
    (t : Term (SecretKey P) A) : Prop :=
  DolevYao.Derives {t | Known compromised keys network t} t

/-- The attacker can put the message together. -/
structure Sendable (compromised : Set P) (keys : Set A) (network : List (Message P A))
    (m : Message P A) : Prop where
  ephPub : Derivable compromised keys network m.ephPub
  encStatic : Derivable compromised keys network m.encStatic
  hmac : ∀ t, m.hmac = some t → Derivable compromised keys network t

/-- The network delivers only what the attacker can put together. -/
def Deliverable (compromised : Set P) (keys : Set A) (w : World P A) : Action P A → Prop
  | .deliverInit _ m => Sendable compromised keys w.network m
  | .deliverResp _ m => Sendable compromised keys w.network m
  | _ => True

theorem Sendable.of_mem {compromised : Set P} {keys : Set A} {network : List (Message P A)}
    {m : Message P A} (h : m ∈ network) : Sendable compromised keys network m where
  ephPub := .known (.ephPub h)
  encStatic := .known (.encStatic h)
  hmac _ ht := .known (.hmac h ht)

section Calls

variable [DecidableEq P] [DecidableEq A] {psk : Option A}

/-- The form all honest messages have. -/
def message (psk : Option A) (e secret plain : Term (SecretKey P) A) : Message P A where
  ephPub := e
  encStatic := .enc (.hash secret) plain
  hmac := psk.map fun a => .mac (.atom a) (.pair e (.enc (.hash secret) plain))

/-- The initiation of a handshake. -/
def initiation (psk : Option A) (client server : P) (eph : ℕ) : Message P A :=
  message psk (ephPub eph) ((staticPub server).dh (.ephemeral eph)) (staticPub client)

/-- What the client keeps. -/
def clientState (server : P) (eph : ℕ) : ClientState P A :=
  ⟨some (.ephemeral eph), ephPub eph, (staticPub server).dh (.ephemeral eph)⟩

theorem hmacField_symbolic (e enc : Term (SecretKey P) A) :
    (symbolicSuite P A).hmacField (psk.map .atom) e enc =
      some (psk.map fun a => .mac (.atom a) (.pair e enc)) := by
  cases psk <;> rfl

theorem sendInit_eq (client server : P) (eph : ℕ) :
    sendInit psk client server eph =
      some (initiation psk client server eph, clientState server eph) := by
  simp [sendInit, Suite.clientSend, hmacField_symbolic, initiation, message, clientState]
  rfl

/-- The session key, from the three secrets and the four public keys. -/
def sessionKey (ecdhEph ecdhScEs ecdhEcSs clientEph serverEph client server :
    Term (SecretKey P) A) : Term (SecretKey P) A :=
  (symbolicSuite P A).sessionKey ecdhEph ecdhScEs ecdhEcSs clientEph serverEph client server

/-- `handshake_server_respond` returns 0 only on authentic messages that name a
client under the server's own key. -/
theorem respond_eq_some {server : P} {eph : ℕ} {init : Message P A} {reply : Reply P A}
    (h : respond psk server eph init = some reply) :
    (symbolicSuite P A).hmacValid (psk.map .atom) init = true ∧
      init.encStatic = .enc (.hash (init.ephPub.dh (.static server))) reply.clientStaticPub ∧
      reply.response =
        message psk (ephPub eph) (init.ephPub.dh (.ephemeral eph)) (staticPub server) ∧
      reply.sessionKey = some (sessionKey (init.ephPub.dh (.ephemeral eph))
        (reply.clientStaticPub.dh (.ephemeral eph)) (init.ephPub.dh (.static server))
        init.ephPub (ephPub eph) reply.clientStaticPub (staticPub server)) := by
  obtain ⟨_, _, _, _, hvalid, hss, hopen, heph, henc, hmac, hresp, hkey⟩ :=
    Suite.serverRespond_eq_some h
  obtain rfl := Option.some.inj hss
  obtain rfl := Option.some.inj heph
  obtain rfl := Option.some.inj henc
  rw [hmacField_symbolic] at hmac
  obtain rfl := Option.some.inj hmac
  exact ⟨hvalid, Term.decrypt_eq_some.mp hopen, hresp, hkey⟩

/-- `handshake_client_recv` returns 0 only on authentic messages that name the
configured server under the client's ephemeral key. -/
theorem recvResp_eq_some {client server : P} {eph : ℕ} {resp : Message P A}
    {key : Term (SecretKey P) A}
    (h : recvResp psk client server (clientState server eph) resp = some key) :
    (symbolicSuite P A).hmacValid (psk.map .atom) resp = true ∧
      resp.encStatic = .enc (.hash (resp.ephPub.dh (.ephemeral eph))) (staticPub server) ∧
      key = sessionKey (resp.ephPub.dh (.ephemeral eph)) (resp.ephPub.dh (.static client))
        ((staticPub server).dh (.ephemeral eph)) (ephPub eph) resp.ephPub (staticPub client)
        (staticPub server) := by
  simp only [recvResp, Suite.clientRecv, Option.ite_none_right_eq_some, Option.bind_eq_bind,
    Option.bind_eq_some_iff, Option.ite_none_left_eq_some] at h
  obtain ⟨hvalid, _, heph, pub, hopen, hpub, _, hsc, hkey⟩ := h
  obtain rfl := Option.some.inj heph
  obtain rfl := Option.some.inj hsc
  obtain rfl := not_not.mp hpub
  exact ⟨hvalid, Term.decrypt_eq_some.mp hopen, (Option.some.inj hkey).symm⟩

theorem opensSealed_symbolic : (symbolicSuite P A).OpensSealed := by
  intro key pub out h
  obtain rfl := Option.some.inj h
  exact Term.decrypt_eq_some.mpr rfl

theorem response_symbolic (server : P) (n : ℕ) (init : Message P A) :
    (symbolicSuite P A).response (psk.map .atom) (staticPub server) (some (.ephemeral n))
      (ephPub n) init =
    some (message psk (ephPub n) (init.ephPub.dh (.ephemeral n)) (staticPub server)) := by
  simp [Suite.response, hmacField_symbolic, message]
  rfl

/-- An initiation that reaches the server is answered, and the response that reaches
the client completes the handshake. -/
theorem respond_initiation (psk : Option A) (client server : P) (n n' : ℕ) :
    ∃ reply key, respond psk server n' (initiation psk client server n) = some reply ∧
      recvResp psk client server (clientState server n) reply.response = some key := by
  have hagree : ∀ k k', (symbolicSuite P A).Agrees k k' (.pub k) (.pub k') :=
    fun k k' => ⟨congrArg some (Term.dh_pub_comm k k')⟩
  have hsend : sendInit psk client server n = _ := sendInit_eq client server n
  have hspec := (symbolicSuite P A).serverRespond_spec (psk.map .atom) (.static server)
    (staticPub server) (some (.ephemeral n')) (ephPub n') (initiation psk client server n)
  rw [Suite.initiator_clientSend opensSealed_symbolic
    (hagree (.ephemeral n) (.static server)) hsend, response_symbolic] at hspec
  obtain ⟨key, hreply, -⟩ := hspec
  obtain ⟨-, -, -, hkey⟩ := respond_eq_some hreply
  obtain ⟨-, hrecv⟩ := Suite.clientRecv_serverRespond opensSealed_symbolic
    (hagree (.ephemeral n) (.static server)) (hagree (.ephemeral n) (.ephemeral n'))
    (hagree (.static client) (.ephemeral n')) hsend hreply hkey
  exact ⟨_, _, hreply, hrecv⟩

/-- The HMAC check under a PSK. -/
theorem hmac_of_hmacValid {a : A} {m : Message P A}
    (h : (symbolicSuite P A).hmacValid (some (.atom a)) m = true) :
    m.hmac = some (.mac (.atom a) (.pair m.ephPub m.encStatic)) := by
  simpa [Suite.hmacValid, symbolicSuite] using h

/-- What one action can do. -/
inductive Outcome (psk : Option A) (w : World P A) :
    Action P A → World P A → List (Event P A) → Prop
  | failed (act : Action P A) : Outcome psk w act w []
  | precompute (p : P) :
      Outcome psk w (.precompute p)
        { w with
          generated := w.generated + 1
          precomp := Function.update w.precomp p (some w.generated) } []
  | initiate (client server : P) :
      Outcome psk w (.initiate client server)
        { w with
          generated := w.generated + 1
          pending := ⟨client, server, w.generated, initiation psk client server w.generated,
            clientState server w.generated⟩ :: w.pending
          network := initiation psk client server w.generated :: w.network }
        [.initiated client server w.generated (initiation psk client server w.generated)]
  | respond {server : P} {eph : ℕ} {init : Message P A} {reply : Reply P A}
      (hprecomp : w.precomp server = some eph) (h : respond psk server eph init = some reply) :
      Outcome psk w (.deliverInit server init)
        { w with network := reply.response :: w.network } [.responded server eph init reply]
  | complete {i : ℕ} {p : Pending P A} {resp : Message P A} {key : Term (SecretKey P) A}
      (hp : p ∈ w.pending) (h : recvResp psk p.client p.server p.state resp = some key) :
      Outcome psk w (.deliverResp i resp) { w with pending := w.pending.eraseIdx i }
        [.completed p.client p.server p.eph resp key]

theorem step_outcome (psk : Option A) (w : World P A) (act : Action P A) :
    Outcome psk w act (step psk w act).1 (step psk w act).2 := by
  cases act with
  | precompute p => exact .precompute p
  | initiate client server =>
    simp only [step, sendInit_eq]
    exact .initiate client server
  | deliverInit server init =>
    simp only [step]
    split
    · exact .failed _
    · next eph hprecomp =>
      split
      · exact .failed _
      · next reply h => exact .respond hprecomp h
  | deliverResp i resp =>
    simp only [step]
    split
    · exact .failed _
    · next p hp =>
      split
      · exact .failed _
      · next key h => exact .complete (List.mem_of_getElem? hp) h

/-- The event is the successful call it stands for. -/
def Event.Valid (psk : Option A) : Event P A → Prop
  | .initiated client server eph init => init = initiation psk client server eph
  | .responded server eph init reply => Symbolic.respond psk server eph init = some reply
  | .completed client server eph resp key =>
    recvResp psk client server (clientState server eph) resp = some key

/-- The message a call has sent. -/
def Event.sent : Event P A → Option (Message P A)
  | .initiated _ _ _ init => some init
  | .responded _ _ _ reply => some reply.response
  | .completed .. => none

/-- What a run has produced, and by which call. -/
structure Traced (psk : Option A) (w : World P A) (tr : List (Event P A)) : Prop where
  valid : ∀ e ∈ tr, e.Valid psk
  sent : ∀ m ∈ w.network, ∃ e ∈ tr, e.sent = some m
  pending : ∀ p ∈ w.pending, .initiated p.client p.server p.eph p.init ∈ tr ∧
    p.state = clientState p.server p.eph

theorem traced_initial (psk : Option A) : Traced psk (World.initial : World P A) [] where
  valid _ h := absurd h (by simp)
  sent _ h := absurd h (by simp [World.initial])
  pending _ h := absurd h (by simp [World.initial])

/-- Events, messages and handshakes added together stay traced. -/
theorem Traced.extend {w w' : World P A} {tr es : List (Event P A)} (h : Traced psk w tr)
    (hvalid : ∀ e ∈ es, e.Valid psk)
    (hsent : ∀ m ∈ w'.network, m ∈ w.network ∨ ∃ e ∈ es, e.sent = some m)
    (hpending : ∀ p ∈ w'.pending, p ∈ w.pending ∨
      (.initiated p.client p.server p.eph p.init ∈ es ∧ p.state = clientState p.server p.eph)) :
    Traced psk w' (tr ++ es) where
  valid e he := (List.mem_append.mp he).elim (h.valid e) (hvalid e)
  sent m hm := by
    rcases hsent m hm with hold | ⟨e, he, hsent⟩
    · obtain ⟨e, he, hsent⟩ := h.sent m hold
      exact ⟨e, List.mem_append_left _ he, hsent⟩
    · exact ⟨e, List.mem_append_right _ he, hsent⟩
  pending p hp := by
    rcases hpending p hp with hold | ⟨hinit, hstate⟩
    · obtain ⟨hinit, hstate⟩ := h.pending p hold
      exact ⟨List.mem_append_left _ hinit, hstate⟩
    · exact ⟨List.mem_append_right _ hinit, hstate⟩

theorem Traced.step {w : World P A} {tr : List (Event P A)} (h : Traced psk w tr)
    (act : Action P A) : Traced psk (step psk w act).1 (tr ++ (step psk w act).2) := by
  generalize hw : (Symbolic.step psk w act).1 = w'
  generalize hes : (Symbolic.step psk w act).2 = es
  have hout := step_outcome psk w act
  rw [hw, hes] at hout
  cases hout with
  | failed => exact h.extend (by simp) (fun _ hm => .inl hm) (fun _ hp => .inl hp)
  | precompute p => exact h.extend (by simp) (fun _ hm => .inl hm) (fun _ hp => .inl hp)
  | initiate client server =>
    refine h.extend ?_ ?_ ?_
    · simp [Event.Valid]
    · intro m hm
      rcases List.mem_cons.mp hm with rfl | hm
      · exact .inr ⟨_, List.mem_singleton.mpr rfl, rfl⟩
      · exact .inl hm
    · intro p hp
      rcases List.mem_cons.mp hp with rfl | hp
      · exact .inr ⟨List.mem_singleton.mpr rfl, rfl⟩
      · exact .inl hp
  | respond hprecomp hcall =>
    refine h.extend ?_ ?_ (fun _ hp => .inl hp)
    · simpa [Event.Valid] using hcall
    · intro m hm
      rcases List.mem_cons.mp hm with rfl | hm
      · exact .inr ⟨_, List.mem_singleton.mpr rfl, rfl⟩
      · exact .inl hm
  | complete hp hcall =>
    refine h.extend ?_ (fun _ hm => .inl hm) (fun _ hp => .inl (List.mem_of_mem_eraseIdx hp))
    rw [(h.pending _ hp).2] at hcall
    simpa [Event.Valid] using hcall

theorem traced_run (psk : Option A) (acts : List (Action P A)) :
    Traced psk (Machine.run (Symbolic.step psk) World.initial acts).1
      (Machine.run (Symbolic.step psk) World.initial acts).2 :=
  Machine.run_invariant (fun _ _ act h => h.step act) (traced_initial psk) acts

/-- Every message on the network names a peer, under some secret, and carries the
public part of an ephemeral key. -/
theorem Traced.network_eq {w : World P A} {tr : List (Event P A)} (h : Traced psk w tr)
    {m : Message P A} (hm : m ∈ w.network) :
    ∃ eph secret p, m = message psk (ephPub eph) secret (staticPub p) := by
  obtain ⟨e, he, hsent⟩ := h.sent m hm
  have hvalid := h.valid e he
  cases e with
  | initiated client server eph init =>
    obtain rfl := Option.some.inj hsent
    exact ⟨eph, _, client, hvalid⟩
  | responded server eph init reply =>
    obtain rfl := Option.some.inj hsent
    obtain ⟨-, -, hresp, -⟩ := respond_eq_some hvalid
    exact ⟨eph, _, server, hresp⟩
  | completed => exact absurd hsent (by simp [Event.sent])

end Calls

/-- A client, `false`, and a server, `true`, exchange the two messages. -/
def exchange : List (Action Bool Unit) :=
  [.precompute true, .initiate false true, .deliverInit true (initiation (some ()) false true 1)]

theorem run_exchange {reply : Reply Bool Unit}
    (h : respond (some ()) true 0 (initiation (some ()) false true 1) = some reply) :
    Machine.run (step (some ())) World.initial exchange =
      ({ generated := 2
         precomp := Function.update (fun _ => none) true (some 0)
         pending := [⟨false, true, 1, initiation (some ()) false true 1, clientState true 1⟩]
         network := [reply.response, initiation (some ()) false true 1] },
        [.initiated false true 1 (initiation (some ()) false true 1),
          .responded true 0 (initiation (some ()) false true 1) reply]) := by
  simp [exchange, step, sendInit_eq, World.initial, h]

end Symbolic

end LaneCove
