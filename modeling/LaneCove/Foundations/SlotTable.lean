import Mathlib.Algebra.Order.Group.Multiset
import Mathlib.Data.List.Nodup
import Mathlib.Data.List.Perm.Subperm
import Mathlib.Tactic.Abel
import Mathlib.Tactic.Common

/-!
# Tables of slots

A fixed array of which only some slots are in use, as the list of its slots. A
predicate `live` says which slots count and a function `key` what they are
looked up by. The lookup returns the first live slot with a given key.

## Main definitions

- `SlotTable.lookup` — the first live slot with a key
- `SlotTable.Unique` — no two live slots have the same key
- `SlotTable.Updated` — a table that differs from another in one slot

## Main results

- `SlotTable.unique_iff_lookup` — keys are unique exactly when every live slot is
  found under its own key
- `SlotTable.Unique.update` — an update keeps uniqueness if the new key is free
- `SlotTable.Unique.exists_dead` — a table with a slot for every key has a free one
- `SlotTable.coe_filterMap_set` — what a table contains after an update, as a multiset
-/

namespace SlotTable

variable {α κ : Type*}

/-- The first live slot with key `k`. -/
def lookup [DecidableEq κ] (live : α → Bool) (key : α → κ) (k : κ) (t : List α) : Option ℕ :=
  t.findIdx? fun a => live a && key a = k

/-- No two live slots have the same key. -/
def Unique (live : α → Bool) (key : α → κ) (t : List α) : Prop :=
  ∀ (i j : ℕ) (a b : α), t[i]? = some a → t[j]? = some b → live a = true → live b = true →
    key a = key b → i = j

/-- Slot `i` of `t'` holds `a`, possibly as a new slot, and the others are those of `t`. -/
def Updated (t : List α) (i : ℕ) (a : α) (t' : List α) : Prop :=
  ∀ j, t'[j]? = if j = i then some a else t[j]?

variable {t t' : List α} {i j : ℕ} {a b : α}

theorem updated_set (h : t[i]? = some b) (a : α) : Updated t i a (t.set i a) := by
  intro j
  obtain ⟨hi, -⟩ := List.getElem?_eq_some_iff.mp h
  by_cases hj : j = i
  · subst hj
    simp [hi]
  · rw [List.getElem?_set_ne (Ne.symm hj), if_neg hj]

theorem updated_modify (h : t[i]? = some b) (f : α → α) : Updated t i (f b) (t.modify i f) := by
  intro j
  rw [List.getElem?_modify]
  by_cases hj : j = i
  · subst hj
    simp [h]
  · simp [hj, Ne.symm hj]

theorem updated_append_modify (t : List α) (a : α) (f : α → α) :
    Updated t t.length (f a) ((t ++ [a]).modify t.length f) := by
  intro j
  rw [List.getElem?_modify, List.getElem?_append]
  rcases Nat.lt_trichotomy j t.length with hj | rfl | hj
  · have hne : j ≠ t.length := by omega
    simp [hj, hne, hne.symm]
  · simp
  · have hlt : ¬ j < t.length := by omega
    have hne : j ≠ t.length := by omega
    have hsub : j - t.length ≠ 0 := by omega
    simp [hlt, hne, hsub]

theorem Updated.self (h : Updated t i a t') : t'[i]? = some a := by
  rw [h i, if_pos rfl]

theorem Updated.of_ne (h : Updated t i a t') (hj : j ≠ i) : t'[j]? = t[j]? := by
  rw [h j, if_neg hj]

/-- A slot of the new table is the updated one or a slot of the old table. -/
theorem Updated.cases (h : Updated t i a t') (hb : t'[j]? = some b) :
    (j = i ∧ b = a) ∨ (j ≠ i ∧ t[j]? = some b) := by
  by_cases hj : j = i
  · subst hj
    rw [h.self] at hb
    exact Or.inl ⟨rfl, (Option.some.inj hb).symm⟩
  · rw [h.of_ne hj] at hb
    exact Or.inr ⟨hj, hb⟩

section Lookup

variable [DecidableEq κ] {live : α → Bool} {key : α → κ} {k : κ}

theorem lookup_eq_some (h : lookup live key k t = some i) :
    ∃ a, t[i]? = some a ∧ live a = true ∧ key a = k := by
  obtain ⟨hi, hp, -⟩ := List.findIdx?_eq_some_iff_getElem.mp h
  simp only [Bool.and_eq_true, decide_eq_true_eq] at hp
  exact ⟨t[i], List.getElem?_eq_getElem hi, hp.1, hp.2⟩

theorem lookup_eq_none :
    lookup live key k t = none ↔
      ∀ (i : ℕ) (a : α), t[i]? = some a → live a = true → key a ≠ k := by
  simp only [lookup, List.findIdx?_eq_none_iff, Bool.and_eq_false_iff, decide_eq_false_iff_not]
  constructor
  · intro h i a ha hl
    rcases h a (List.mem_of_getElem? ha) with hf | hk
    · exact absurd hl (by simp [hf])
    · exact hk
  · intro h a ha
    obtain ⟨i, hi⟩ := List.mem_iff_getElem?.mp ha
    cases hl : live a with
    | false => exact Or.inl rfl
    | true => exact Or.inr (h i a hi hl)

/-- A live slot is found under its own key, at its own index or an earlier one. -/
theorem lookup_key (key : α → κ) (ha : t[i]? = some a) (hl : live a = true) :
    ∃ j, lookup live key (key a) t = some j := by
  cases h : lookup live key (key a) t with
  | none => exact absurd rfl (lookup_eq_none.mp h i a ha hl)
  | some j => exact ⟨j, rfl⟩

theorem Unique.lookup_self (hu : Unique live key t) (ha : t[i]? = some a) (hl : live a = true) :
    lookup live key (key a) t = some i := by
  obtain ⟨j, hj⟩ := lookup_key key ha hl
  obtain ⟨b, hb, hlb, hkb⟩ := lookup_eq_some hj
  rw [hj, hu j i b a hb ha hlb hl hkb]

/-- Keys are unique exactly when every live slot is found under its own key. -/
theorem unique_iff_lookup :
    Unique live key t ↔
      ∀ (i : ℕ) (a : α), t[i]? = some a → live a = true →
        lookup live key (key a) t = some i := by
  constructor
  · intro hu i a ha hl
    exact hu.lookup_self ha hl
  · intro h i j a b ha hb hla hlb hk
    have hi := h i a ha hla
    rw [hk, h j b hb hlb] at hi
    exact (Option.some.inj hi).symm

end Lookup

/-- An update keeps uniqueness if no other live slot has the new key. -/
theorem Unique.update {live : α → Bool} {key : α → κ} (hu : Unique live key t)
    (h : Updated t i a t')
    (hnew : live a = true → ∀ (j : ℕ) (b : α), j ≠ i → t[j]? = some b → live b = true →
      key b ≠ key a) :
    Unique live key t' := by
  intro j j' b b' hb hb' hl hl' hk
  rcases h.cases hb with ⟨rfl, rfl⟩ | ⟨hj, hb⟩
  · rcases h.cases hb' with ⟨rfl, -⟩ | ⟨hj', hb'⟩
    · rfl
    · exact absurd hk.symm (hnew hl j' b' hj' hb' hl')
  · rcases h.cases hb' with ⟨rfl, rfl⟩ | ⟨hj', hb'⟩
    · exact absurd hk (hnew hl' j b hj hb hl)
    · exact hu j j' b b' hb hb' hl hl' hk

/-- The table grows at most up to the updated slot. -/
theorem Updated.length_le (h : Updated t i a t') : t'.length ≤ max t.length (i + 1) := by
  by_contra hlt
  have hout : t'[max t.length (i + 1)]? = none := by
    rw [h.of_ne (by omega)]
    exact List.getElem?_eq_none (by omega)
  have := List.getElem?_eq_none_iff.mp hout
  omega

/-- **Pigeonhole**: live slots have distinct keys among `ks`. If one of these keys
has no slot and there are as many slots as keys, then some slot is not live. -/
theorem Unique.exists_dead [DecidableEq κ] {live : α → Bool} {key : α → κ} {k : κ} {ks : List κ}
    (hu : Unique live key t)
    (hks : ∀ (i : ℕ) (a : α), t[i]? = some a → live a = true → key a ∈ ks) (hk : k ∈ ks)
    (hnone : lookup live key k t = none) (hlen : ks.length ≤ t.length) :
    ∃ a ∈ t, live a = false := by
  by_contra hall
  have hlive : ∀ i a, t[i]? = some a → live a = true := fun i a ha => by
    cases hl : live a with
    | true => rfl
    | false => exact absurd ⟨a, List.mem_of_getElem? ha, hl⟩ hall
  have hfree : k ∉ t.map key := by
    intro hmem
    obtain ⟨a, ha, rfl⟩ := List.mem_map.mp hmem
    obtain ⟨i, hi⟩ := List.mem_iff_getElem?.mp ha
    exact lookup_eq_none.mp hnone i a hi (hlive i a hi) rfl
  have hnodup : (t.map key).Nodup := by
    rw [List.nodup_iff_getElem?_ne_getElem?]
    intro i j hij hj heq
    rw [List.length_map] at hj
    have hi : i < t.length := by omega
    simp only [List.getElem?_map, List.getElem?_eq_getElem hi, List.getElem?_eq_getElem hj,
      Option.map_some, Option.some.injEq] at heq
    have hi' := List.getElem?_eq_getElem hi
    have hj' := List.getElem?_eq_getElem hj
    have := hu i j _ _ hi' hj' (hlive i _ hi') (hlive j _ hj') heq
    omega
  have hsub : k :: t.map key ⊆ ks := by
    intro x hx
    rcases List.mem_cons.mp hx with rfl | hx
    · exact hk
    · obtain ⟨a, ha, rfl⟩ := List.mem_map.mp hx
      obtain ⟨i, hi⟩ := List.mem_iff_getElem?.mp ha
      exact hks i a hi (hlive i a hi)
  have hle := (List.subperm_of_subset (List.nodup_cons.mpr ⟨hfree, hnodup⟩) hsub).length_le
  rw [List.length_cons, List.length_map] at hle
  omega

/-- What the slots of a table contribute, before and after an update. -/
theorem coe_filterMap_set {β : Type*} (f : α → Option β) (h : t[i]? = some a) (b : α) :
    (↑((t.set i b).filterMap f) + ↑(f a).toList : Multiset β) =
      ↑(t.filterMap f) + ↑(f b).toList := by
  obtain ⟨hi, rfl⟩ := List.getElem?_eq_some_iff.mp h
  have hset : t.set i b = t.take i ++ b :: t.drop (i + 1) := by
    rw [List.set_eq_take_append_cons_drop, if_pos hi]
  have hsplit : t = t.take i ++ t[i] :: t.drop (i + 1) := by simp
  have hcons : ∀ c, (↑((c :: t.drop (i + 1)).filterMap f) : Multiset β) =
      ↑(f c).toList + ↑((t.drop (i + 1)).filterMap f) := by
    intro c
    cases hc : f c <;> simp [hc]
  conv_rhs => rw [hsplit]
  rw [hset, List.filterMap_append, List.filterMap_append, ← Multiset.coe_add, ← Multiset.coe_add,
    hcons, hcons]
  abel

end SlotTable
