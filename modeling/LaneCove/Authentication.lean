import LaneCove.Sample
import LaneCove.Symbolic

/-!
# Agreement and authentication

What a completed handshake means. On bytes: an undisturbed exchange gives both
sides the same key, and the server the name of the client. On symbolic messages,
against an attacker without the PSK: a client that completes a handshake has
talked to the server it meant to, about this very handshake.

## Main results

- `handshake_key_agreement` — an undisturbed exchange
- `Symbolic.fresh_run` — ephemeral keys are used for one purpose
- `Symbolic.Traced.mem_network` — what passes the HMAC check is a message that was sent
- `Symbolic.client_authenticates_server` — a completed handshake has its responder
-/

namespace LaneCove

section Agreement

variable {Priv Key : Type} {C : Crypto Priv Key}

/-- An initiation that arrives unmodified is answered if the server can encrypt,
authenticate and send its response. -/
theorem handshakeServerRespond_isSome (hC : C.GcmCorrect) (hS : C.Sized) (hD : C.DhCorrect)
    {psk : Option Key} {staticC staticS ephC : Priv} {ephS : Option Priv} {ephPubS init : Bytes}
    {sentOk : Bool} {state : HsClientState Priv Bytes Bytes} (respondOk : Bool)
    (hsend : handshakeClientSend C psk (C.publicKey staticC) (C.publicKey staticS) (some ephC)
      sentOk = some (init, state)) :
    (handshakeServerRespond C psk staticS (C.publicKey staticS) ephS ephPubS respondOk
        init).1.isSome =
      (respondOk && (C.suite.response psk (C.publicKey staticS) ephS ephPubS
        (decodeHs psk init)).isSome) := by
  simp only [handshakeClientSend, Option.bind_eq_bind, Option.bind_some, Option.bind_eq_some_iff,
    Option.ite_none_right_eq_some, Option.some.injEq, Prod.mk.injEq] at hsend
  obtain ⟨⟨msg, state'⟩, hclient, -, rfl, -⟩ := hsend
  have hsized := clientSend_wellSized hC hS (hS.publicKey_length _) hclient
  have hinit := Suite.initiator_clientSend hC.decrypt_encrypt (hD.agrees ephC staticS) hclient
  have hspec := C.suite.serverRespond_spec psk staticS (C.publicKey staticS) ephS ephPubS msg
  simp only [handshakeServerRespond, isHandshake_encodeHs hsized, decodeHs_encodeHs hsized,
    Bool.not_true, Bool.false_eq_true, if_false]
  rw [hinit] at hspec
  cases hresp : C.suite.response psk (C.publicKey staticS) ephS ephPubS msg with
  | none =>
    rw [hresp] at hspec
    simp [hspec]
  | some response =>
    rw [hresp] at hspec
    obtain ⟨key, hserver, -⟩ := hspec
    cases respondOk <;> simp [hserver]

/-- **Key agreement.** The server answers the unmodified initiation of an honest
client whenever it can build and send a response; having answered, it outputs the
client's static key and a session key, and the client outputs the same session key
from the unmodified response. -/
theorem handshake_key_agreement (hC : C.GcmCorrect) (hS : C.Sized) (hD : C.DhCorrect)
    (psk : Option Key) (staticC staticS ephC ephS : Priv) {init : Bytes} {sentOk : Bool}
    {state : HsClientState Priv Bytes Bytes} (respondOk : Bool)
    (hsend : handshakeClientSend C psk (C.publicKey staticC) (C.publicKey staticS) (some ephC)
      sentOk = some (init, state)) :
    let answer := handshakeServerRespond C psk staticS (C.publicKey staticS) (some ephS)
      (C.publicKey ephS) respondOk init
    answer.1.isSome = (respondOk && (C.suite.response psk (C.publicKey staticS) (some ephS)
        (C.publicKey ephS) (decodeHs psk init)).isSome) ∧
      ∀ resp, answer.1 = some resp → ∃ key, answer.2 = some (C.publicKey staticC, key) ∧
        (handshakeClientRecv C psk staticC (C.publicKey staticC) (C.publicKey staticS) state
          resp).1 = some key := by
  intro answer
  refine ⟨handshakeServerRespond_isSome hC hS hD respondOk hsend, fun resp hresp => ?_⟩
  have heph : ∀ key, some ephS = some key → C.publicKey ephS = C.publicKey key := by
    rintro key ⟨⟩
    rfl
  exact handshake_agreement hC hS hD heph hsend
    (Prod.ext hresp rfl : answer = (some resp, answer.2))

open Sample in
/-- Peers 2 and 1 with a PSK and the ephemeral keys 10 and 20. -/
theorem handshake_key_agreement_psk : ∃ init state resp key,
    handshakeClientSend crypto (some 7) (crypto.publicKey 2) (crypto.publicKey 1) (some 10) true =
      some (init, state) ∧
    handshakeServerRespond crypto (some 7) 1 (crypto.publicKey 1) (some 20) (crypto.publicKey 20)
      true init = (some resp, some (crypto.publicKey 2, key)) ∧
    (handshakeClientRecv crypto (some 7) 2 (crypto.publicKey 2) (crypto.publicKey 1) state
      resp).1 = some key := by
  -- the toy server can build a response to the packet the toy client has built
  have hbuilt : (handshakeClientSend crypto (some 7) (crypto.publicKey 2) (crypto.publicKey 1)
      (some 10) true).map (fun out => (crypto.suite.response (some 7) (crypto.publicKey 1)
        (some 20) (crypto.publicKey 20) (decodeHs (some (7 : SKey)) out.1)).isSome) = some true := by
    decide +kernel
  obtain ⟨⟨init, state⟩, hsend, hresponse⟩ := Option.map_eq_some_iff.mp hbuilt
  obtain ⟨hanswer, hagree⟩ := handshake_key_agreement crypto_gcmCorrect crypto_sized
    crypto_dhCorrect (some 7) 2 1 10 20 true hsend
  rw [hresponse] at hanswer
  obtain ⟨resp, hresp⟩ := Option.isSome_iff_exists.mp hanswer
  obtain ⟨key, hkey, hrecv⟩ := hagree resp hresp
  exact ⟨init, state, resp, key, hsend, Prod.ext hresp hkey, hrecv⟩

end Agreement

namespace Symbolic

open DolevYao

variable {P A : Type}

/-- `owner` assigns one use to every ephemeral key that was generated: the handshake
of a client with a server, or the precomputed keys of a responder. -/
structure Fresh (owner : ℕ → Option (P × P)) (w : World P A) (tr : List (Event P A)) : Prop where
  precomp : ∀ {p n}, w.precomp p = some n → n < w.generated ∧ owner n = none
  initiated : ∀ {c s n m}, .initiated c s n m ∈ tr → n < w.generated ∧ owner n = some (c, s)
  responded : ∀ {s n m r}, .responded s n m r ∈ tr → n < w.generated ∧ owner n = none

theorem fresh_initial : Fresh (fun _ => none) (World.initial : World P A) [] where
  precomp h := absurd h (by simp [World.initial])
  initiated h := absurd h (by simp)
  responded h := absurd h (by simp)

/-- A key that is generated next has no use yet. -/
theorem Fresh.generate {owner : ℕ → Option (P × P)} {w w' : World P A} {tr : List (Event P A)}
    (h : Fresh owner w tr) (use : Option (P × P)) (hgen : w'.generated = w.generated + 1)
    (hprecomp : ∀ {p n}, w'.precomp p = some n → w.precomp p = some n ∨
      (n = w.generated ∧ use = none)) :
    Fresh (Function.update owner w.generated use) w' tr := by
  have hold : ∀ {n x}, n < w.generated ∧ owner n = x →
      n < w'.generated ∧ Function.update owner w.generated use n = x := by
    rintro n x ⟨hlt, hx⟩
    rw [Function.update_of_ne hlt.ne]
    exact ⟨by omega, hx⟩
  refine ⟨fun hp => ?_, fun he => hold (h.initiated he), fun he => hold (h.responded he)⟩
  rcases hprecomp hp with hp | ⟨rfl, rfl⟩
  · exact hold (h.precomp hp)
  · exact ⟨by omega, Function.update_self ..⟩

/-- No initiation names anyone under the secret of two ephemeral keys. -/
theorem initiation_encStatic_ne (psk : Option A) (c s : P) (n n' : ℕ) (x : Term (SecretKey P) A) :
    (initiation psk c s n').encStatic ≠ .enc (.hash ((ephPub n').dh (.ephemeral n))) x := by
  intro h
  have hks := Term.power.inj (Term.hash.inj (Term.enc.inj h).1)
  have hmem : SecretKey.static s ∈ ({.ephemeral n, .ephemeral n'} : Multiset (SecretKey P)) := by
    rw [← show _ = ({.ephemeral n, .ephemeral n'} : Multiset (SecretKey P)) from hks]
    simp
  simp at hmem

/-- A response under the secret of two ephemeral keys answers a message with the
other one. -/
theorem message_encStatic_eq {psk : Option A} {e : Term (SecretKey P) A} {s s' : P} {n n' : ℕ}
    (h : (message psk (ephPub n') (e.dh (.ephemeral n')) (staticPub s')).encStatic =
      .enc (.hash ((ephPub n').dh (.ephemeral n))) (staticPub s)) :
    e = ephPub n ∧ s' = s := by
  obtain ⟨hkey, hplain⟩ := Term.enc.inj h
  have hsecret : e.dh (.ephemeral n') = .power {.ephemeral n', .ephemeral n} := by
    rw [Term.hash.inj hkey, ephPub, Term.dh_pub, Multiset.pair_comm]
  exact ⟨Term.dh_eq_power_cons hsecret, SecretKey.static.inj (Term.pub_injective hplain)⟩

variable [DecidableEq P] [DecidableEq A] {psk : Option A}

theorem Fresh.step {owner : ℕ → Option (P × P)} {w : World P A} {tr : List (Event P A)}
    (h : Fresh owner w tr) (act : Action P A) :
    ∃ owner', Fresh owner' (step psk w act).1 (tr ++ (step psk w act).2) := by
  generalize hw : (Symbolic.step psk w act).1 = w'
  generalize hes : (Symbolic.step psk w act).2 = es
  have hout := step_outcome psk w act
  rw [hw, hes] at hout
  cases hout with
  | failed =>
    rw [List.append_nil]
    exact ⟨owner, h⟩
  | precompute p =>
    rw [List.append_nil]
    refine ⟨_, h.generate none rfl fun {q n} hq => ?_⟩
    simp only [Function.update_apply] at hq
    split at hq
    · exact .inr ⟨(Option.some.inj hq).symm, rfl⟩
    · exact .inl hq
  | initiate client server =>
    have hgen : Fresh (Function.update owner w.generated (some (client, server)))
        { w with generated := w.generated + 1 } tr := h.generate _ rfl .inl
    refine ⟨_, hgen.precomp, fun he => ?_, fun he => ?_⟩
    · rcases List.mem_append.mp he with he | he
      · exact hgen.initiated he
      · obtain ⟨rfl, rfl, rfl, -⟩ := Event.initiated.inj (List.mem_singleton.mp he)
        exact ⟨Nat.lt_succ_self _, Function.update_self ..⟩
    · rcases List.mem_append.mp he with he | he
      · exact hgen.responded he
      · exact absurd (List.mem_singleton.mp he) (by simp)
  | respond hprecomp hcall =>
    refine ⟨owner, h.precomp, fun he => ?_, fun he => ?_⟩
    · rcases List.mem_append.mp he with he | he
      · exact h.initiated he
      · exact absurd (List.mem_singleton.mp he) (by simp)
    · rcases List.mem_append.mp he with he | he
      · exact h.responded he
      · obtain ⟨rfl, rfl, -⟩ := Event.responded.inj (List.mem_singleton.mp he)
        exact h.precomp hprecomp
  | complete hp hcall =>
    refine ⟨owner, h.precomp, fun he => ?_, fun he => ?_⟩
    · rcases List.mem_append.mp he with he | he
      · exact h.initiated he
      · exact absurd (List.mem_singleton.mp he) (by simp)
    · rcases List.mem_append.mp he with he | he
      · exact h.responded he
      · exact absurd (List.mem_singleton.mp he) (by simp)

theorem fresh_run (psk : Option A) (acts : List (Action P A)) :
    ∃ owner, Fresh owner (Machine.run (Symbolic.step psk) World.initial acts).1
      (Machine.run (Symbolic.step psk) World.initial acts).2 :=
  Machine.run_invariant (I := fun w tr => ∃ owner, Fresh owner w tr)
    (fun _ _ act ⟨_, h⟩ => h.step act) ⟨_, fresh_initial⟩ acts

/-- Without the PSK, what passes the HMAC check is a message that was sent. -/
theorem Traced.mem_network {a : A} {w : World P A} {tr : List (Event P A)}
    (h : Traced (some a) w tr) {compromised : Set P} {keys : Set A} (ha : a ∉ keys)
    {m : Message P A} (hm : Sendable compromised keys w.network m)
    (hvalid : (symbolicSuite P A).hmacValid (some (.atom a)) m = true) : m ∈ w.network := by
  have hmac := hmac_of_hmacValid hvalid
  let sent : Set (Term (SecretKey P) A) := {t | ∃ m ∈ w.network, t = .pair m.ephPub m.encStatic}
  have hknown : ∀ t, Known compromised keys w.network t → t.Unforged a sent := by
    intro t ht
    cases ht with
    | staticPub => trivial
    | staticKey => trivial
    | atom hkey =>
      rintro rfl
      exact ha hkey
    | ephPub hm =>
      obtain ⟨eph, secret, p, rfl⟩ := h.network_eq hm
      trivial
    | encStatic hm =>
      obtain ⟨eph, secret, p, rfl⟩ := h.network_eq hm
      trivial
    | hmac hm ht =>
      obtain ⟨eph, secret, p, rfl⟩ := h.network_eq hm
      obtain rfl := Option.some.inj ht
      exact fun _ => ⟨_, hm, rfl⟩
  have hunforged := DolevYao.Derives.of_closed closed_unforged hknown (hm.hmac _ hmac)
  obtain ⟨m', hm', heq⟩ := hunforged rfl
  obtain ⟨heph, henc⟩ := Term.pair.inj heq
  obtain ⟨eph, secret, p, hform⟩ := h.network_eq hm'
  have hmac' : m'.hmac = some (.mac (.atom a) (.pair m'.ephPub m'.encStatic)) := by rw [hform]; rfl
  have hsame : m = m' := by
    cases m
    cases m'
    simp only at heph henc hmac hmac'
    rw [heph, henc, hmac, hmac', heph, henc]
  rwa [hsame]

/-- Every initiation that was answered is a message that was sent. -/
def Answered (w : World P A) (tr : List (Event P A)) : Prop :=
  ∀ s n init reply, .responded s n init reply ∈ tr → init ∈ w.network

theorem Answered.step {a : A} {w : World P A} {tr : List (Event P A)} (hT : Traced (some a) w tr)
    (h : Answered w tr) {compromised : Set P} {keys : Set A} (ha : a ∉ keys) {act : Action P A}
    (hok : Deliverable compromised keys w act) :
    Answered (step (some a) w act).1 (tr ++ (step (some a) w act).2) := by
  generalize hw : (Symbolic.step (some a) w act).1 = w'
  generalize hes : (Symbolic.step (some a) w act).2 = es
  have hout := step_outcome (some a) w act
  rw [hw, hes] at hout
  intro s n init reply he
  rcases List.mem_append.mp he with he | he
  · have hold := h s n init reply he
    cases hout with
    | failed => exact hold
    | precompute => exact hold
    | initiate => exact List.mem_cons_of_mem _ hold
    | respond => exact List.mem_cons_of_mem _ hold
    | complete => exact hold
  · cases hout with
    | failed => exact absurd he (by simp)
    | precompute => exact absurd he (by simp)
    | initiate => exact absurd (List.mem_singleton.mp he) (by simp)
    | respond hprecomp hcall =>
      obtain ⟨-, -, rfl, -⟩ := Event.responded.inj (List.mem_singleton.mp he)
      obtain ⟨hvalid, -⟩ := respond_eq_some hcall
      exact List.mem_cons_of_mem _ (hT.mem_network ha hok hvalid)
    | complete => exact absurd (List.mem_singleton.mp he) (by simp)

theorem answered_run {a : A} {compromised : Set P} {keys : Set A} (ha : a ∉ keys)
    {acts : List (Action P A)}
    (hok : Machine.Guarded (step (some a)) (Deliverable compromised keys) World.initial acts) :
    Answered (Machine.run (step (some a)) World.initial acts).1
      (Machine.run (step (some a)) World.initial acts).2 := by
  have hrun := Machine.run_invariant_of_guarded
    (I := fun w tr => Traced (some a) w tr ∧ Answered w tr)
    (fun w tr act h hok => ⟨h.1.step act, h.2.step h.1 ha hok⟩)
    ⟨traced_initial _, fun _ _ _ _ h => absurd h (by simp)⟩ hok
  exact hrun.2

/-- The message with the ephemeral key of an initiation is that initiation. -/
theorem Traced.eq_initiation {w : World P A} {tr : List (Event P A)} (hT : Traced psk w tr)
    {owner : ℕ → Option (P × P)} (hF : Fresh owner w tr) {c s : P} {n : ℕ} {init m : Message P A}
    (hinit : .initiated c s n init ∈ tr) (hm : m ∈ w.network) (heph : m.ephPub = ephPub n) :
    m = init := by
  obtain ⟨e, he, hsent⟩ := hT.sent m hm
  have hvalid := hT.valid e he
  cases e with
  | initiated c' s' n' m' =>
    obtain rfl := Option.some.inj hsent
    have hn : n' = n := by
      rw [show m' = _ from hvalid] at heph
      exact SecretKey.ephemeral.inj (Term.pub_injective heph)
    subst hn
    have howner := (hF.initiated hinit).2.symm.trans (hF.initiated he).2
    obtain ⟨rfl, rfl⟩ := Prod.mk.inj (Option.some.inj howner)
    rw [show m' = _ from hvalid, show init = _ from hT.valid _ hinit]
  | responded s' n' init' reply =>
    obtain rfl := Option.some.inj hsent
    obtain ⟨-, -, hresp, -⟩ := respond_eq_some hvalid
    have hn : n' = n := by
      rw [hresp] at heph
      exact SecretKey.ephemeral.inj (Term.pub_injective heph)
    subst hn
    exact absurd ((hF.initiated hinit).2.symm.trans (hF.responded he).2) (by simp)
  | completed => exact absurd hsent (by simp [Event.sent])

/-- **The client authenticates the server.** Peers share a PSK that the attacker does
not have. Whenever a client can complete its pending handshake with a message of the
attacker, the configured server has processed exactly the initiation of this handshake,
identified the client and derived the same key, and the message is its response. No
initiation is accepted as a response, and no response to anything else. -/
theorem client_authenticates_server {a : A} {compromised : Set P} {keys : Set A} (ha : a ∉ keys)
    {acts : List (Action P A)}
    (hok : Machine.Guarded (step (some a)) (Deliverable compromised keys) World.initial acts)
    {p : Pending P A} (hp : p ∈ (Machine.run (step (some a)) World.initial acts).1.pending)
    {m : Message P A}
    (hm : Sendable compromised keys (Machine.run (step (some a)) World.initial acts).1.network m)
    {key : Term (SecretKey P) A}
    (hrecv : recvResp (some a) p.client p.server p.state m = some key) :
    (∃ eph reply, .responded p.server eph p.init reply ∈
        (Machine.run (step (some a)) World.initial acts).2 ∧
      reply.clientStaticPub = staticPub p.client ∧ reply.sessionKey = some key ∧
      reply.response = m) ∧
    (∀ c s n init, .initiated c s n init ∈ (Machine.run (step (some a)) World.initial acts).2 →
      init ≠ m) ∧
    (∀ s n init reply, .responded s n init reply ∈
      (Machine.run (step (some a)) World.initial acts).2 → reply.response = m →
        s = p.server ∧ init = p.init) := by
  have hT := traced_run (some a) acts
  have hA := answered_run ha hok
  obtain ⟨owner, hF⟩ := fresh_run (some a) acts
  generalize (Machine.run (step (some a)) World.initial acts).1 = w at *
  generalize (Machine.run (step (some a)) World.initial acts).2 = tr at *
  obtain ⟨hinit, hstate⟩ := hT.pending p hp
  rw [hstate] at hrecv
  obtain ⟨hvalid, henc, hkey⟩ := recvResp_eq_some hrecv
  have hnotInit : ∀ c s n init, .initiated c s n init ∈ tr → init ≠ m := by
    rintro c s n init he rfl
    have hform : init = initiation (some a) c s n := hT.valid _ he
    rw [hform] at henc
    exact initiation_encStatic_ne _ _ _ _ _ _ henc
  have hanswer : ∀ s n init reply, .responded s n init reply ∈ tr → reply.response = m →
      s = p.server ∧ init = p.init := by
    rintro s n init reply he rfl
    obtain ⟨-, -, hresp, -⟩ := respond_eq_some (hT.valid _ he)
    rw [hresp] at henc
    obtain ⟨heph, rfl⟩ := message_encStatic_eq henc
    exact ⟨rfl, hT.eq_initiation hF hinit (hA _ _ _ _ he) heph⟩
  refine ⟨?_, hnotInit, hanswer⟩
  obtain ⟨e, he, hsent⟩ := hT.sent m (hT.mem_network ha hm hvalid)
  cases e with
  | initiated c s n init => exact absurd (Option.some.inj hsent) (hnotInit c s n init he)
  | completed => exact absurd hsent (by simp [Event.sent])
  | responded s n init reply =>
    have hresp := Option.some.inj hsent
    obtain ⟨rfl, rfl⟩ := hanswer s n init reply he hresp
    obtain ⟨-, hname, hform, hderived⟩ := respond_eq_some (hT.valid _ he)
    have hinit' : p.init = initiation (some a) p.client p.server p.eph := hT.valid _ hinit
    have hclient : reply.clientStaticPub = staticPub p.client := by
      rw [hinit'] at hname
      exact (Term.enc.inj hname).2.symm
    refine ⟨n, reply, he, hclient, ?_, hresp⟩
    -- the two sides compute the three secrets from opposite ends
    have hephPub : m.ephPub = ephPub n := by rw [← hresp, hform]; rfl
    have hclientEph : p.init.ephPub = ephPub p.eph := by rw [hinit']; rfl
    rw [hderived, hkey, hclient, hephPub, hclientEph]
    simp only [ephPub, staticPub]
    rw [Term.dh_pub_comm (SecretKey.ephemeral n) (SecretKey.ephemeral p.eph),
      Term.dh_pub_comm (SecretKey.ephemeral n) (SecretKey.static p.client),
      Term.dh_pub_comm (SecretKey.static p.server) (SecretKey.ephemeral p.eph)]

/-- The messages of the exchange are all the attacker needs to deliver. -/
theorem guarded_exchange :
    Machine.Guarded (step (some ())) (Deliverable ∅ ∅) World.initial exchange := by
  have hsent : Sendable ∅ ∅ [initiation (some ()) false true 1]
      (initiation (some ()) false true 1) := .of_mem (by simp)
  simpa [exchange, step, sendInit_eq, World.initial, Deliverable] using hsent

/-- The exchange can be completed, with an attacker that has nothing but the messages. -/
theorem client_authenticates_server_exchange : ∃ key eph reply,
    recvResp (some ()) false true (clientState true 1) reply.response = some key ∧
      .responded true eph (initiation (some ()) false true 1) reply ∈
        (Machine.run (step (some ())) World.initial exchange).2 ∧
      reply.clientStaticPub = staticPub false ∧ reply.sessionKey = some key := by
  obtain ⟨reply, key, hreply, hrecv⟩ := respond_initiation (some ()) false true 1 0
  have hpending : ⟨false, true, 1, initiation (some ()) false true 1, clientState true 1⟩ ∈
      (Machine.run (step (some ())) World.initial exchange).1.pending := by
    rw [run_exchange hreply]
    exact List.mem_singleton.mpr rfl
  have hsent : Sendable ∅ ∅ (Machine.run (step (some ())) World.initial exchange).1.network
      reply.response := by
    rw [run_exchange hreply]
    exact .of_mem (List.mem_cons_self ..)
  obtain ⟨⟨eph, reply', he, hclient, hkey, hresp⟩, -⟩ :=
    client_authenticates_server (Set.notMem_empty ()) guarded_exchange hpending hsent hrecv
  rw [← hresp] at hrecv
  exact ⟨key, eph, reply', hrecv, he, hclient, hkey⟩

end Symbolic

end LaneCove
