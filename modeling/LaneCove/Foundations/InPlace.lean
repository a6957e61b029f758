import Mathlib.Algebra.BigOperators.Fin
import Mathlib.Data.Nat.Bitwise
import Mathlib.Tactic.Common

/-!
# Programs that update a word array in place

An array of machine words together with the indices a program has stored to. An
access outside the array, a read of a word that was stored to before, and a shift
by the width of a word or more are faults, so a program that returns a result has
made none of them.

## Main definitions

- `InPlace.State`, `InPlace.Fault` — the array, and what can go wrong
- `InPlace.read`, `InPlace.store`, `InPlace.update`, `InPlace.shiftLeft`, `InPlace.shiftRight`
- `InPlace.value` — the number an array stands for, least significant word first

## Main results

- `InPlace.testBit_value` — bit `w * i + j` of the number is bit `j` of word `i`
- `InPlace.testBit_value_of_le` — and there are no bits beyond the last word
-/

namespace InPlace

variable {n w : ℕ}

/-- An array and the indices that were stored to. -/
structure State (n w : ℕ) where
  words : Vector (BitVec w) n
  stored : List ℤ

inductive Fault
  | outside (index : ℤ)
  | overwritten (index : ℤ)
  | shift (amount : ℤ)
deriving DecidableEq

def read (st : State n w) (i : ℤ) : Except Fault (BitVec w) :=
  if h : 0 ≤ i ∧ i < n then
    if i ∈ st.stored then .error (.overwritten i)
    else
      have hi : i.toNat < n := by omega
      .ok st.words[i.toNat]
  else .error (.outside i)

/-- `c ? words[i] : 0` -/
def readIf (c : Prop) [Decidable c] (st : State n w) (i : ℤ) : Except Fault (BitVec w) :=
  if c then read st i else .ok 0

def store (st : State n w) (i : ℤ) (word : BitVec w) : Except Fault (State n w) :=
  if h : 0 ≤ i ∧ i < n then
    have hi : i.toNat < n := by omega
    .ok ⟨st.words.set i.toNat word, i :: st.stored⟩
  else .error (.outside i)

/-- A compound assignment `words[i] op= …` -/
def update (st : State n w) (i : ℤ) (op : BitVec w → BitVec w) : Except Fault (State n w) := do
  let word ← read st i
  store st i (op word)

def shiftLeft (x : BitVec w) (amount : ℤ) : Except Fault (BitVec w) :=
  if 0 ≤ amount ∧ amount < w then .ok (x <<< amount.toNat) else .error (.shift amount)

def shiftRight (x : BitVec w) (amount : ℤ) : Except Fault (BitVec w) :=
  if 0 ≤ amount ∧ amount < w then .ok (x >>> amount.toNat) else .error (.shift amount)

theorem read_ok {st : State n w} {i : ℕ} (hi : i < n) (hfresh : (i : ℤ) ∉ st.stored) :
    read st i = .ok st.words[i] := by
  rw [read, dif_pos (by omega), if_neg hfresh]
  rfl

/-- A guarded read: the guard says that the index is a natural number, which is then
inside and not stored to. -/
theorem readIf_ok {c : Prop} [Decidable c] {st : State n w} {i : ℤ} {k : ℕ} (hk : c → i = k)
    (hin : c → k < n) (hfresh : c → i ∉ st.stored) :
    readIf c st i = .ok (if h : c then have := hin h; st.words[k] else 0) := by
  by_cases h : c
  · obtain rfl := hk h
    rw [readIf, if_pos h, dif_pos h]
    exact read_ok (hin h) (hfresh h)
  · rw [readIf, if_neg h, dif_neg h]

theorem store_ok (st : State n w) {i : ℕ} (hi : i < n) (word : BitVec w) :
    store st i word = .ok ⟨st.words.set i word, (i : ℤ) :: st.stored⟩ := by
  rw [store, dif_pos (by omega)]
  rfl

theorem update_ok (st : State n w) {i : ℕ} (hi : i < n) (hfresh : (i : ℤ) ∉ st.stored)
    (op : BitVec w → BitVec w) :
    update st i op = .ok ⟨st.words.set i (op st.words[i]), (i : ℤ) :: st.stored⟩ := by
  rw [update, read_ok hi hfresh]
  exact store_ok st hi _

theorem shiftLeft_ok (x : BitVec w) {amount : ℕ} (h : amount < w) :
    shiftLeft x amount = .ok (x <<< amount) := by
  rw [shiftLeft, if_pos (by omega)]
  rfl

theorem shiftRight_ok (x : BitVec w) {amount : ℕ} (h : amount < w) :
    shiftRight x amount = .ok (x >>> amount) := by
  rw [shiftRight, if_pos (by omega)]
  rfl

/-- The number with the words as its digits. -/
def value (words : Vector (BitVec w) n) : ℕ :=
  ∑ i : Fin n, words[i].toNat * 2 ^ (w * i)

/-- The digits below `k` make a number below the next digit's weight. -/
theorem sum_lt (digits : ℕ → BitVec w) (k : ℕ) :
    ∑ i ∈ Finset.range k, (digits i).toNat * 2 ^ (w * i) < 2 ^ (w * k) := by
  induction k with
  | zero => simp
  | succ k ih =>
    have htop := (digits k).isLt
    rw [Finset.sum_range_succ]
    calc ∑ i ∈ Finset.range k, (digits i).toNat * 2 ^ (w * i) + (digits k).toNat * 2 ^ (w * k)
        < 2 ^ (w * k) + (digits k).toNat * 2 ^ (w * k) := Nat.add_lt_add_right ih _
      _ = ((digits k).toNat + 1) * 2 ^ (w * k) := by rw [Nat.add_mul, Nat.one_mul, Nat.add_comm]
      _ ≤ 2 ^ w * 2 ^ (w * k) := Nat.mul_le_mul_right _ htop
      _ = 2 ^ (w * (k + 1)) := by rw [← Nat.pow_add, Nat.mul_succ, Nat.add_comm]

theorem testBit_sum (digits : ℕ → BitVec w) {k i j : ℕ} (hi : i < k) (hj : j < w) :
    (∑ i ∈ Finset.range k, (digits i).toNat * 2 ^ (w * i)).testBit (w * i + j) =
      (digits i).getLsbD j := by
  induction k with
  | zero => exact absurd hi (Nat.not_lt_zero i)
  | succ k ih =>
    rw [Finset.sum_range_succ, Nat.add_comm, Nat.mul_comm (digits k).toNat,
      Nat.testBit_two_pow_mul_add _ (sum_lt digits k)]
    by_cases hik : i < k
    · have hbelow : w * i + j < w * k := by
        have hle : w * (i + 1) ≤ w * k := Nat.mul_le_mul_left w hik
        rw [Nat.mul_succ] at hle
        omega
      rw [if_pos hbelow]
      exact ih hik
    · obtain rfl : i = k := by omega
      rw [if_neg (by omega), Nat.add_sub_cancel_left]
      rfl

theorem value_eq_sum (words : Vector (BitVec w) n) :
    value words = ∑ i ∈ Finset.range n, (words[i]?.getD 0).toNat * 2 ^ (w * i) := by
  rw [Finset.sum_range]
  exact Finset.sum_congr rfl fun i _ => by simp

theorem testBit_value_of_le (words : Vector (BitVec w) n) {k : ℕ} (hk : w * n ≤ k) :
    (value words).testBit k = false := by
  have hlt : value words < 2 ^ (w * n) := by
    rw [value_eq_sum]
    exact sum_lt (fun i => words[i]?.getD 0) n
  exact Nat.testBit_lt_two_pow (hlt.trans_le (Nat.pow_le_pow_right (by omega) hk))

theorem testBit_value (words : Vector (BitVec w) n) {i j : ℕ} (hi : i < n) (hj : j < w) :
    (value words).testBit (w * i + j) = words[i].getLsbD j := by
  rw [value_eq_sum, testBit_sum (fun i => words[i]?.getD 0) hi hj]
  simp [hi]

end InPlace
