import LaneCove.Symbolic

/-!
# Secrecy of session keys

Session keys against an attacker that is the network, knows the PSK and some static
private keys. What honest peers send is safe whatever they were sent before: a
message holds the public part of an ephemeral key, the name of its sender under a
key of its own, and a MAC. The secret of two keys that the attacker has neither of
therefore stays out of reach, and every session key is a hash over such a secret.

## Main results

- `Symbolic.Traced.safe_of_derivable` — what the attacker derives is safe
- `Symbolic.session_key_secrecy` — the session keys it cannot derive
-/

namespace LaneCove.Symbolic

open DolevYao

variable {P A : Type}

/-- The keys an attacker with the static keys of `compromised` does not have. -/
def Secret (compromised : Set P) : SecretKey P → Prop
  | .static p => p ∉ compromised
  | .ephemeral _ => True

theorem not_safe_ephemeral {compromised : Set P} [DecidablePred (Secret compromised)] {n : ℕ}
    {k : SecretKey P} (hk : Secret compromised k) :
    ¬ ((Term.pub k).dh (.ephemeral n) : Term (SecretKey P) A).Safe (Secret compromised) :=
  have heph : Secret compromised (.ephemeral n) := trivial
  not_safe_dh_pub heph hk

variable [DecidableEq P] [DecidableEq A] {psk : Option A} {w : World P A} {tr : List (Event P A)}

/-- What the attacker derives has no two secret keys in one group element. -/
theorem Traced.safe_of_derivable (h : Traced psk w tr) {compromised : Set P}
    [DecidablePred (Secret compromised)] {keys : Set A} {t : Term (SecretKey P) A}
    (ht : Derivable compromised keys w.network t) : t.Safe (Secret compromised) := by
  refine DolevYao.Derives.of_closed closed_safe (fun t ht => ?_) ht
  cases ht with
  | staticPub p => exact safe_pub _
  | staticKey hp => exact not_not.mpr hp
  | atom => trivial
  | ephPub hm =>
    obtain ⟨eph, secret, p, rfl⟩ := h.network_eq hm
    exact safe_pub _
  | encStatic hm =>
    obtain ⟨eph, secret, p, rfl⟩ := h.network_eq hm
    exact (safe_pub _ : (staticPub p : Term (SecretKey P) A).Safe (Secret compromised))
  | hmac hm ht =>
    obtain ⟨eph, secret, p, rfl⟩ := h.network_eq hm
    obtain ⟨a, -, rfl⟩ := Option.map_eq_some_iff.mp ht
    trivial

/-- The three secrets a session key is derived from. -/
theorem Traced.safe_sessionKey (h : Traced psk w tr) {compromised : Set P}
    [DecidablePred (Secret compromised)] {keys : Set A}
    {ecdhEph ecdhScEs ecdhEcSs clientEph serverEph client server : Term (SecretKey P) A}
    (hkey : Derivable compromised keys w.network
      (sessionKey ecdhEph ecdhScEs ecdhEcSs clientEph serverEph client server)) :
    ecdhEph.Safe (Secret compromised) ∧ ecdhScEs.Safe (Secret compromised) ∧
      ecdhEcSs.Safe (Secret compromised) := by
  obtain ⟨heph, hsc, hss, -⟩ := h.safe_of_derivable hkey
  exact ⟨heph, hsc, hss⟩

/-- **Session key secrecy.** In every run: the key a client outputs for a server, and the
key a server outputs for a client, is not derivable while the static key of the other side
is not known; and a key computed from two ephemeral keys of honest peers is not derivable
even if all static keys become known. The attacker has the PSK throughout. -/
theorem session_key_secrecy (psk : Option A) (compromised : Set P) (acts : List (Action P A)) :
    let run := Machine.run (step psk) World.initial acts
    (∀ {c s n resp key}, .completed c s n resp key ∈ run.2 → s ∉ compromised →
      ¬ Derivable compromised Set.univ run.1.network key) ∧
    (∀ {s n init reply key p}, .responded s n init reply ∈ run.2 → reply.sessionKey = some key →
      reply.clientStaticPub = staticPub p → p ∉ compromised →
      ¬ Derivable compromised Set.univ run.1.network key) ∧
    (∀ {c s n resp key n'}, .completed c s n resp key ∈ run.2 → resp.ephPub = ephPub n' →
      ¬ Derivable Set.univ Set.univ run.1.network key) ∧
    (∀ {s n init reply key n'}, .responded s n init reply ∈ run.2 → reply.sessionKey = some key →
      init.ephPub = ephPub n' → ¬ Derivable Set.univ Set.univ run.1.network key) := by
  classical
  intro run
  have hT : Traced psk run.1 run.2 := traced_run psk acts
  refine ⟨fun he hs hkey => ?_, fun he hk hp hnot hkey => ?_, fun he hn hkey => ?_,
    fun he hk hn hkey => ?_⟩
  -- the client's own ephemeral key and the static key of the server
  · obtain ⟨-, -, rfl⟩ := recvResp_eq_some (hT.valid _ he)
    exact not_safe_ephemeral (k := .static _) hs (hT.safe_sessionKey hkey).2.2
  -- the server's ephemeral key and the static key of the client
  · obtain ⟨-, -, -, hderived⟩ := respond_eq_some (hT.valid _ he)
    obtain rfl := Option.some.inj (hk.symm.trans hderived)
    rw [hp] at hkey
    exact not_safe_ephemeral (k := .static _) hnot (hT.safe_sessionKey hkey).2.1
  -- both ephemeral keys, seen from either side
  · obtain ⟨-, -, rfl⟩ := recvResp_eq_some (hT.valid _ he)
    rw [hn] at hkey
    exact not_safe_ephemeral (k := .ephemeral _) trivial (hT.safe_sessionKey hkey).1
  · obtain ⟨-, -, -, hderived⟩ := respond_eq_some (hT.valid _ he)
    obtain rfl := Option.some.inj (hk.symm.trans hderived)
    rw [hn] at hkey
    exact not_safe_ephemeral (k := .ephemeral _) trivial (hT.safe_sessionKey hkey).1

/-- The exchange is completed. The key of the client is out of reach of an attacker with the
client's static key, that of the server of one with the server's, and both of one with all static
keys. -/
theorem session_key_secrecy_exchange : ∃ resp key reply key',
    let run := Machine.run (step (some ())) World.initial (exchange ++ [.deliverResp 0 resp])
    .completed false true 1 resp key ∈ run.2 ∧
    .responded true 0 (initiation (some ()) false true 1) reply ∈ run.2 ∧
    reply.sessionKey = some key' ∧
    ¬ Derivable {false} Set.univ run.1.network key ∧
    ¬ Derivable {true} Set.univ run.1.network key' ∧
    ¬ Derivable Set.univ Set.univ run.1.network key ∧
    ¬ Derivable Set.univ Set.univ run.1.network key' := by
  obtain ⟨reply, key, hreply, hrecv⟩ := respond_initiation (some ()) false true 1 0
  obtain ⟨-, hname, hform, hderived⟩ := respond_eq_some hreply
  have hclient : reply.clientStaticPub = staticPub false := (Term.enc.inj hname).2.symm
  have hephPub : reply.response.ephPub = ephPub 0 := by rw [hform]; rfl
  have hevents : (Machine.run (step (some ())) World.initial
      (exchange ++ [.deliverResp 0 reply.response])).2 =
        [.initiated false true 1 (initiation (some ()) false true 1),
          .responded true 0 (initiation (some ()) false true 1) reply,
          .completed false true 1 reply.response key] := by
    rw [Machine.run_append, run_exchange hreply]
    simp [step, hrecv]
  have hdone : .completed false true 1 reply.response key ∈ (Machine.run (step (some ()))
      World.initial (exchange ++ [.deliverResp 0 reply.response])).2 := by
    rw [hevents]
    simp
  have hanswered : .responded true 0 (initiation (some ()) false true 1) reply ∈
      (Machine.run (step (some ())) World.initial
        (exchange ++ [.deliverResp 0 reply.response])).2 := by
    rw [hevents]
    simp
  refine ⟨reply.response, key, reply, _, hdone, hanswered, hderived, ?_, ?_, ?_, ?_⟩
  · exact (session_key_secrecy (some ()) {false} _).1 hdone (by simp)
  · exact (session_key_secrecy (some ()) {true} _).2.1 hanswered hderived hclient (by simp)
  · exact (session_key_secrecy (some ()) ∅ _).2.2.1 hdone hephPub
  · exact (session_key_secrecy (some ()) ∅ _).2.2.2 hanswered hderived rfl

end LaneCove.Symbolic
