import Mathlib.Data.Multiset.AddSub
import Mathlib.Data.Multiset.Filter
import Mathlib.Data.Set.Basic
import Mathlib.Tactic.Common

/-!
# Symbolic messages and the Dolev–Yao attacker

Messages are terms over perfect primitives. A group element is the generator
raised to a product of scalars, so that Diffie–Hellman values commute and are
equal only if the same scalars went into them; a term that is not a group element
can still be raised to a scalar, with itself as the base. The attacker derives
what the rules of `Derives` give and nothing else.

## Main definitions

- `Term` — messages; `Term.pub`, `Term.dh` — public keys and Diffie–Hellman
- `Derives` — what the attacker can compute from a set of messages
- `Closed` — predicates the attacker cannot leave
- `Term.Safe` — at most one scalar of a group element is secret
- `Term.Unforged` — every MAC under an unknown key is an authentic one

## Main results

- `Derives.of_closed` — induction over what the attacker derives
- `closed_safe`, `closed_keeps`, `closed_unforged` — the invariants of protocol proofs
- `not_safe_dh_pub` — the secret of two key pairs neither of which is known
-/

namespace DolevYao

variable {N A : Type}

/-- Messages over scalars named in `N` and atomic keys named in `A`. -/
inductive Term (N A : Type) where
  | atom (a : A)
  | priv (k : N)
  /-- the generator raised to the product of the scalars -/
  | power (ks : Multiset N)
  /-- a string that is not known to be a group element, raised to scalars -/
  | rawPower (base : Term N A) (ks : Multiset N)
  | pair (t u : Term N A)
  | hash (t : Term N A)
  | mac (key t : Term N A)
  | enc (key t : Term N A)
deriving DecidableEq

namespace Term

/-- The public key of a scalar. -/
def pub (k : N) : Term N A := power {k}

/-- Diffie–Hellman: raise a term to a scalar. -/
def dh (k : N) : Term N A → Term N A
  | power ks => power (k ::ₘ ks)
  | rawPower t ks => rawPower t (k ::ₘ ks)
  | t => rawPower t {k}

/-- Authenticated decryption. -/
def decrypt [DecidableEq N] [DecidableEq A] (key : Term N A) : Term N A → Option (Term N A)
  | enc key' t => if key' = key then some t else none
  | _ => none

@[simp] theorem dh_pub (k k' : N) : dh k (pub k' : Term N A) = power {k, k'} := rfl

theorem dh_pub_comm (k k' : N) : dh k (pub k' : Term N A) = dh k' (pub k) := by
  rw [dh_pub, dh_pub, Multiset.pair_comm]

theorem pub_injective : Function.Injective (pub : N → Term N A) := by
  intro k k' h
  have hks : ({k} : Multiset N) = {k'} := power.inj h
  exact Multiset.singleton_inj.mp hks

/-- A group element comes from a group element only. -/
theorem dh_eq_power_cons {k : N} {ks : Multiset N} {t : Term N A}
    (h : dh k t = power (k ::ₘ ks)) : t = power ks := by
  cases t with
  | power ks' =>
    have hks := power.inj h
    rw [Multiset.cons_inj_right] at hks
    rw [hks]
  | _ => exact absurd h (by simp [dh])

theorem decrypt_eq_some [DecidableEq N] [DecidableEq A] {key t u : Term N A} :
    decrypt key t = some u ↔ t = enc key u := by
  cases t with
  | enc key' t' =>
    simp only [decrypt, Option.ite_none_right_eq_some, Option.some.injEq, enc.injEq]
  | _ => simp [decrypt]

end Term

/-- What the attacker computes from the messages in `K`. -/
inductive Derives (K : Set (Term N A)) : Term N A → Prop
  | known {t} (h : t ∈ K) : Derives K t
  | generator : Derives K (.power 0)
  | dh {k t} (hk : Derives K (.priv k)) (ht : Derives K t) : Derives K (t.dh k)
  /-- a known scalar can be inverted -/
  | undh {k t} (hk : Derives K (.priv k)) (ht : Derives K (t.dh k)) : Derives K t
  | pair {t u} (ht : Derives K t) (hu : Derives K u) : Derives K (.pair t u)
  | fst {t u} (h : Derives K (.pair t u)) : Derives K t
  | snd {t u} (h : Derives K (.pair t u)) : Derives K u
  | hash {t} (h : Derives K t) : Derives K (.hash t)
  | mac {key t} (hkey : Derives K key) (ht : Derives K t) : Derives K (.mac key t)
  | enc {key t} (hkey : Derives K key) (ht : Derives K t) : Derives K (.enc key t)
  | dec {key t} (h : Derives K (.enc key t)) (hkey : Derives K key) : Derives K t

/-- A predicate that every computation of the attacker keeps. -/
structure Closed (P : Term N A → Prop) : Prop where
  generator : P (.power 0)
  dh : ∀ {k t}, P (.priv k) → P t → P (t.dh k)
  undh : ∀ {k t}, P (.priv k) → P (t.dh k) → P t
  pair : ∀ {t u}, P (.pair t u) ↔ P t ∧ P u
  hash : ∀ {t}, P t → P (.hash t)
  mac : ∀ {key t}, P key → P t → P (.mac key t)
  enc : ∀ {key t}, P key → P t → P (.enc key t)
  dec : ∀ {key t}, P (.enc key t) → P key → P t

/-- Induction over what the attacker derives. -/
theorem Derives.of_closed {P : Term N A → Prop} (hP : Closed P) {K : Set (Term N A)}
    (hK : ∀ t ∈ K, P t) {t : Term N A} (h : Derives K t) : P t := by
  induction h with
  | known h => exact hK _ h
  | generator => exact hP.generator
  | dh _ _ ihk iht => exact hP.dh ihk iht
  | undh _ _ ihk iht => exact hP.undh ihk iht
  | pair _ _ iht ihu => exact hP.pair.mpr ⟨iht, ihu⟩
  | fst _ ih => exact (hP.pair.mp ih).1
  | snd _ ih => exact (hP.pair.mp ih).2
  | hash _ ih => exact hP.hash ih
  | mac _ _ ihkey iht => exact hP.mac ihkey iht
  | enc _ _ ihkey iht => exact hP.enc ihkey iht
  | dec _ _ ih ihkey => exact hP.dec ih ihkey

section Secrecy

variable (secret : N → Prop) [DecidablePred secret]

/-- What can become known while the scalars in `secret` are not: a group element
has at most one secret scalar, a hash is known only with what was hashed, and
ciphertexts hide nothing but terms that are safe anyway. -/
def Term.Safe : Term N A → Prop
  | .atom _ => True
  | .priv k => ¬ secret k
  | .power ks => (ks.filter secret).card ≤ 1
  | .rawPower t ks => t.Safe ∧ ∀ k ∈ ks, ¬ secret k
  | .pair t u => t.Safe ∧ u.Safe
  | .hash t => t.Safe
  | .mac _ _ => True
  | .enc _ t => t.Safe

variable {secret}

/-- A known scalar makes no difference. -/
theorem Term.safe_dh {k : N} (hk : ¬ secret k) (t : Term N A) :
    (t.dh k).Safe secret ↔ t.Safe secret := by
  cases t with
  | power ks => simp [Term.dh, Term.Safe, hk]
  | rawPower t ks => simp [Term.dh, Term.Safe, hk]
  | _ => simp [Term.dh, Term.Safe, hk]

theorem closed_safe : Closed (Term.Safe secret : Term N A → Prop) where
  generator := by simp [Term.Safe]
  dh hk ht := (Term.safe_dh hk _).mpr ht
  undh hk ht := (Term.safe_dh hk _).mp ht
  pair := Iff.rfl
  hash h := h
  mac _ _ := trivial
  enc _ ht := ht
  dec h _ := h

theorem safe_pub (k : N) : (Term.pub k : Term N A).Safe secret :=
  (Multiset.card_le_card (Multiset.filter_le _ _)).trans (Multiset.card_singleton k).le

/-- The shared secret of two key pairs neither of which is known. -/
theorem not_safe_dh_pub {k k' : N} (hk : secret k) (hk' : secret k') :
    ¬ (Term.dh k (Term.pub k') : Term N A).Safe secret := by
  have hself : Multiset.filter secret (k ::ₘ {k'}) = k ::ₘ {k'} :=
    Multiset.filter_eq_self.mpr (by simp [hk, hk'])
  simp [Term.pub, Term.dh, Term.Safe, hself]

variable (secret) (hidden : A → Prop)

/-- The atoms in `hidden` stand under keys only that cannot become known. -/
def Term.Keeps : Term N A → Prop
  | .atom a => ¬ hidden a
  | .priv _ => True
  | .power _ => True
  | .rawPower t _ => t.Keeps
  | .pair t u => t.Keeps ∧ u.Keeps
  | .hash _ => True
  | .mac _ _ => True
  | .enc key t => key.Safe secret → t.Keeps

variable {secret hidden}

theorem Term.keeps_dh (k : N) (t : Term N A) :
    (t.dh k).Keeps secret hidden ↔ t.Keeps secret hidden := by
  cases t <;> rfl

theorem closed_keeps :
    Closed (fun t : Term N A => t.Safe secret ∧ t.Keeps secret hidden) where
  generator := ⟨closed_safe.generator, trivial⟩
  dh hk ht := ⟨closed_safe.dh hk.1 ht.1, (Term.keeps_dh _ _).mpr ht.2⟩
  undh hk ht := ⟨closed_safe.undh hk.1 ht.1, (Term.keeps_dh _ _).mp ht.2⟩
  pair := and_and_and_comm
  hash h := ⟨h.1, trivial⟩
  mac _ _ := ⟨trivial, trivial⟩
  enc _ ht := ⟨ht.1, fun _ => ht.2⟩
  dec h hkey := ⟨h.1, h.2 hkey.1⟩

end Secrecy

section Authenticity

variable (key : A) (sent : Set (Term N A))

/-- As long as the atomic key is unknown, its MACs are those of terms in `sent`. -/
def Term.Unforged : Term N A → Prop
  | .atom a => a ≠ key
  | .priv _ => True
  | .power _ => True
  | .rawPower t _ => t.Unforged
  | .pair t u => t.Unforged ∧ u.Unforged
  | .hash _ => True
  | .mac k t => k = .atom key → t ∈ sent
  | .enc _ t => t.Unforged

variable {key sent}

theorem Term.unforged_dh (k : N) (t : Term N A) :
    (t.dh k).Unforged key sent ↔ t.Unforged key sent := by
  cases t <;> rfl

theorem closed_unforged : Closed (Term.Unforged key sent : Term N A → Prop) where
  generator := trivial
  dh _ ht := (Term.unforged_dh _ _).mpr ht
  undh _ ht := (Term.unforged_dh _ _).mp ht
  pair := Iff.rfl
  hash _ := trivial
  mac hkey _ := by
    rintro rfl
    exact absurd rfl hkey
  enc _ ht := ht
  dec h _ := h

end Authenticity

end DolevYao
