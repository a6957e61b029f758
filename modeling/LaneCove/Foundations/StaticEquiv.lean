import LaneCove.Foundations.DolevYao

/-!
# What an observer can tell apart

An observer holds messages under handles and computes with them; a recipe is one such
computation. Two views, with the same handles, are statically equivalent if no two recipes
give the same message from one view and different ones from the other. Views that differ only
in what stands under keys that are out of reach are equivalent: the observer computes in one as
in the other, with those ciphertexts exchanged.

## Main definitions

- `Recipe`, `Yields` — computations of the observer, and their results on a view
- `StaticEquiv` — views that no test of equality tells apart
- `Term.mask` — exchange some ciphertexts in a message

## Main results

- `derives_iff_yields` — recipes are the derivations of the attacker
- `Yields.mask` — computations go through with ciphertexts exchanged
- `staticEquiv_of_mask` — views with exchanged ciphertexts are equivalent
-/

namespace DolevYao

variable {N A ι : Type}

/-- A computation on messages that are named in `ι`; one constructor for each rule of
`Derives`. -/
inductive Recipe (ι : Type) where
  | given (i : ι)
  | generator
  | dh (k t : Recipe ι)
  | undh (k t : Recipe ι)
  | pair (t u : Recipe ι)
  | fst (t : Recipe ι)
  | snd (t : Recipe ι)
  | hash (t : Recipe ι)
  | mac (key t : Recipe ι)
  | enc (key t : Recipe ι)
  | dec (t key : Recipe ι)

/-- The result of a recipe on a view. A recipe that takes a message for something it is not has
none. -/
inductive Yields (view : ι → Option (Term N A)) : Recipe ι → Term N A → Prop
  | given {i t} (h : view i = some t) : Yields view (.given i) t
  | generator : Yields view .generator (.power 0)
  | dh {rk r k t} (hk : Yields view rk (.priv k)) (ht : Yields view r t) :
      Yields view (.dh rk r) (t.dh k)
  | undh {rk r k t} (hk : Yields view rk (.priv k)) (ht : Yields view r (t.dh k)) :
      Yields view (.undh rk r) t
  | pair {r s t u} (ht : Yields view r t) (hu : Yields view s u) :
      Yields view (.pair r s) (.pair t u)
  | fst {r t u} (h : Yields view r (.pair t u)) : Yields view (.fst r) t
  | snd {r t u} (h : Yields view r (.pair t u)) : Yields view (.snd r) u
  | hash {r t} (h : Yields view r t) : Yields view (.hash r) (.hash t)
  | mac {rk r key t} (hkey : Yields view rk key) (ht : Yields view r t) :
      Yields view (.mac rk r) (.mac key t)
  | enc {rk r key t} (hkey : Yields view rk key) (ht : Yields view r t) :
      Yields view (.enc rk r) (.enc key t)
  | dec {rk r key t} (h : Yields view r (.enc key t)) (hkey : Yields view rk key) :
      Yields view (.dec r rk) t

variable {view view' : ι → Option (Term N A)}

theorem Yields.derives {r : Recipe ι} {t : Term N A} (h : Yields view r t) :
    Derives {t | ∃ i, view i = some t} t := by
  induction h with
  | given h => exact .known ⟨_, h⟩
  | generator => exact .generator
  | dh _ _ ihk iht => exact .dh ihk iht
  | undh _ _ ihk iht => exact .undh ihk iht
  | pair _ _ iht ihu => exact .pair iht ihu
  | fst _ ih => exact .fst ih
  | snd _ ih => exact .snd ih
  | hash _ ih => exact .hash ih
  | mac _ _ ihk iht => exact .mac ihk iht
  | enc _ _ ihk iht => exact .enc ihk iht
  | dec _ _ ih ihk => exact .dec ih ihk

/-- What the attacker derives from the messages of a view is what some recipe yields. -/
theorem derives_iff_yields {t : Term N A} :
    Derives {t | ∃ i, view i = some t} t ↔ ∃ r, Yields view r t := by
  refine ⟨fun h => ?_, fun ⟨_, h⟩ => h.derives⟩
  induction h with
  | known h =>
    obtain ⟨i, hi⟩ := h
    exact ⟨_, .given hi⟩
  | generator => exact ⟨_, .generator⟩
  | dh _ _ ihk iht =>
    obtain ⟨⟨_, hk⟩, ⟨_, ht⟩⟩ := ihk, iht
    exact ⟨_, .dh hk ht⟩
  | undh _ _ ihk iht =>
    obtain ⟨⟨_, hk⟩, ⟨_, ht⟩⟩ := ihk, iht
    exact ⟨_, .undh hk ht⟩
  | pair _ _ iht ihu =>
    obtain ⟨⟨_, ht⟩, ⟨_, hu⟩⟩ := iht, ihu
    exact ⟨_, .pair ht hu⟩
  | fst _ ih =>
    obtain ⟨_, h⟩ := ih
    exact ⟨_, .fst h⟩
  | snd _ ih =>
    obtain ⟨_, h⟩ := ih
    exact ⟨_, .snd h⟩
  | hash _ ih =>
    obtain ⟨_, h⟩ := ih
    exact ⟨_, .hash h⟩
  | mac _ _ ihk iht =>
    obtain ⟨⟨_, hk⟩, ⟨_, ht⟩⟩ := ihk, iht
    exact ⟨_, .mac hk ht⟩
  | enc _ _ ihk iht =>
    obtain ⟨⟨_, hk⟩, ⟨_, ht⟩⟩ := ihk, iht
    exact ⟨_, .enc hk ht⟩
  | dec _ _ ih ihk =>
    obtain ⟨⟨_, h⟩, ⟨_, hk⟩⟩ := ih, ihk
    exact ⟨_, .dec h hk⟩

/-- No test whether two recipes yield the same message tells the views apart. With one recipe
twice: it yields a message from both views or from none. -/
def StaticEquiv (view view' : ι → Option (Term N A)) : Prop :=
  ∀ r s, (∃ t, Yields view r t ∧ Yields view s t) ↔ ∃ t, Yields view' r t ∧ Yields view' s t

namespace Term

/-- The message with the ciphertexts replaced for which `swap` has another one. -/
def mask (swap : Term N A → Option (Term N A)) : Term N A → Term N A
  | atom a => atom a
  | priv k => priv k
  | power ks => power ks
  | rawPower t ks => rawPower (t.mask swap) ks
  | pair t u => pair (t.mask swap) (u.mask swap)
  | hash t => hash (t.mask swap)
  | mac key t => mac (key.mask swap) (t.mask swap)
  | enc key t => (swap (enc key t)).getD (enc (key.mask swap) (t.mask swap))

variable {swap : Term N A → Option (Term N A)}

/-- Diffie–Hellman does not look into ciphertexts. -/
theorem mask_dh (hswap : ∀ t t', swap t = some t' → ∃ key u, t' = enc key u) (k : N)
    (t : Term N A) : (t.dh k).mask swap = (t.mask swap).dh k := by
  cases t with
  | enc key t =>
    cases hs : swap (enc key t) with
    | none => simp [dh, mask, hs]
    | some t' =>
      obtain ⟨key', u, rfl⟩ := hswap _ _ hs
      simp [dh, mask, hs]
  | _ => rfl

end Term

/-- Ciphertexts are exchanged for ciphertexts, and only where their keys are out of reach. -/
structure Exchanges (secret : N → Prop) [DecidablePred secret]
    (swap : Term N A → Option (Term N A)) : Prop where
  enc : ∀ t t', swap t = some t' → ∃ key u, t' = .enc key u
  locked : ∀ key u t', swap (.enc key u) = some t' → ¬ key.Safe secret

section Mask

variable {secret : N → Prop} [DecidablePred secret] {swap : Term N A → Option (Term N A)}

theorem Exchanges.mask_enc (h : Exchanges secret swap) {key : Term N A} (hkey : key.Safe secret)
    (t : Term N A) : (Term.enc key t).mask swap = .enc (key.mask swap) (t.mask swap) := by
  cases hs : swap (.enc key t) with
  | none => simp [Term.mask, hs]
  | some t' => exact absurd hkey (h.locked key t t' hs)

/-- Every computation goes through with the ciphertexts exchanged: it never opens one of them,
and never makes one. -/
theorem Yields.mask (hswap : Exchanges secret swap)
    (hsafe : ∀ i t, view i = some t → t.Safe secret) {r : Recipe ι} {t : Term N A}
    (h : Yields view r t) :
    Yields (fun i => (view i).map (Term.mask swap)) r (t.mask swap) := by
  have hreach : ∀ {r t}, Yields view r t → t.Safe secret := by
    intro r t hy
    refine Derives.of_closed closed_safe ?_ hy.derives
    rintro t ⟨i, hi⟩
    exact hsafe i t hi
  induction h with
  | given h => exact .given (by rw [h, Option.map_some])
  | generator => exact .generator
  | dh _ _ ihk iht =>
    rw [Term.mask_dh hswap.enc]
    exact .dh ihk iht
  | undh _ _ ihk iht =>
    rw [Term.mask_dh hswap.enc] at iht
    exact .undh ihk iht
  | pair _ _ iht ihu => exact .pair iht ihu
  | fst _ ih => exact .fst ih
  | snd _ ih => exact .snd ih
  | hash _ ih => exact .hash ih
  | mac _ _ ihk iht => exact .mac ihk iht
  | enc hkey _ ihk iht =>
    rw [hswap.mask_enc (hreach hkey)]
    exact .enc ihk iht
  | dec _ hkey ih ihk =>
    rw [hswap.mask_enc (hreach hkey)] at ih
    exact .dec ih ihk

/-- Two views that become each other by exchanging ciphertexts are equivalent. -/
theorem staticEquiv_of_mask {swap' : Term N A → Option (Term N A)}
    (hswap : Exchanges secret swap) (hswap' : Exchanges secret swap')
    (hsafe : ∀ i t, view i = some t → t.Safe secret)
    (hsafe' : ∀ i t, view' i = some t → t.Safe secret)
    (hview : ∀ i, (view i).map (Term.mask swap) = view' i)
    (hview' : ∀ i, (view' i).map (Term.mask swap') = view i) : StaticEquiv view view' := by
  obtain rfl := funext hview
  intro r s
  constructor
  · rintro ⟨t, hr, hs⟩
    exact ⟨_, hr.mask hswap hsafe, hs.mask hswap hsafe⟩
  · rintro ⟨t, hr, hs⟩
    have hback := funext hview'
    exact ⟨_, hback ▸ hr.mask hswap' hsafe', hback ▸ hs.mask hswap' hsafe'⟩

end Mask

end DolevYao
