import LaneCove.Replay
import LaneCove.Foundations.InPlace

/-!
# The in-place shift of the replay window

The advance branch of `check_replay` once more, with the indices and shift amounts
of the source as they are and every access checked. On any content of the window
it makes no faulty access, and what it leaves is the old window shifted left as one
2048-bit number, with the lowest bit set.

## Main definitions

- `shiftIteration`, `shiftWords` — the body of the loop, and the loop
- `advanceWindow` — the branch on the window

## Main results

- `shiftWords_eq` — the checked loop returns what `shiftLoop` computes
- `advance_shifts_left` — the branch is a left shift of a 2048-bit number
-/

namespace LaneCove

open InPlace

/-- The window while the branch works on it. -/
abbrev Shifting := InPlace.State 32 64

/-- The body of the shift loop. -/
def shiftIteration (wn bn i : ℤ) (st : Shifting) : Except Fault Shifting := do
  let loSrc := i - wn
  let hiSrc := loSrc - 1
  let lo ← readIf (0 ≤ loSrc) st loSrc
  let hi ← readIf (0 < bn ∧ 0 ≤ hiSrc) st hiSrc
  if 0 < bn then
    let upper ← shiftLeft lo bn
    let lower ← shiftRight hi (64 - bn)
    store st i (upper ||| lower)
  else store st i lo

/-- `for (int i = n - 1; i >= 0; i--)` -/
def shiftWords (wn bn : ℤ) : ℕ → Shifting → Except Fault Shifting
  | 0, st => .ok st
  | n + 1, st => do
    let st ← shiftIteration wn bn n st
    shiftWords wn bn n st

/-- What the branch does to the window when the highest number grows by `diff`. The last
statement, `window[0] |= 1`, is meant to see what the shift has stored. -/
def advanceWindow (diff : BitVec 64) (window : ReplayWindow) : Except Fault ReplayWindow := do
  let window ←
    if 32 * 64 ≤ diff.toNat then .ok (Vector.replicate _ 0)
    else
      (shiftWords ((diff.toNat / 64 : ℕ) : ℤ) ((diff.toNat % 64 : ℕ) : ℤ) 32 ⟨window, []⟩).map
        State.words
  (update ⟨window, []⟩ 0 (· ||| 1)).map State.words

-- ════════════════════════════════════════════════════════════════════════
-- No faults
-- ════════════════════════════════════════════════════════════════════════

/-- If only words above `i` were stored to, the body computes `shiftWord`. -/
theorem shiftIteration_eq (wn : ℕ) {bn i : ℕ} (hbn : bn < 64) (hi : i < 32) {st : Shifting}
    (hstored : ∀ k ∈ st.stored, (i : ℤ) < k) :
    shiftIteration wn bn i st =
      .ok ⟨st.words.set i (shiftWord wn bn i hi st.words), (i : ℤ) :: st.stored⟩ := by
  have hfresh : ∀ k : ℤ, k ≤ i → k ∉ st.stored := by
    intro k hk hmem
    have habove := hstored k hmem
    omega
  have hlo : readIf ((0 : ℤ) ≤ i - wn) st (i - wn) =
      .ok (if h : wn ≤ i then st.words[i - wn] else 0) := by
    rw [readIf_ok (k := i - wn) (by omega) (by omega) (fun _ => hfresh _ (by omega))]
    simp only [show ((0 : ℤ) ≤ i - wn) ↔ wn ≤ i by omega]
  have hhi : readIf ((0 : ℤ) < bn ∧ (0 : ℤ) ≤ i - wn - 1) st (i - wn - 1) =
      .ok (if h : 0 < bn ∧ wn + 1 ≤ i then st.words[i - wn - 1] else 0) := by
    rw [readIf_ok (k := i - wn - 1) (by omega) (by omega) (fun _ => hfresh _ (by omega))]
    simp only [show ((0 : ℤ) < bn ∧ (0 : ℤ) ≤ i - wn - 1) ↔ 0 < bn ∧ wn + 1 ≤ i by omega]
  have hright : ∀ x : BitVec 64, 0 < bn → shiftRight x (64 - (bn : ℤ)) = .ok (x >>> (64 - bn)) := by
    intro x hb
    rw [show (64 - (bn : ℤ)) = ((64 - bn : ℕ) : ℤ) by omega]
    exact shiftRight_ok x (by omega)
  simp only [shiftIteration, hlo, hhi, shiftLeft_ok _ hbn, shiftWord]
  by_cases hb : 0 < bn
  · simp only [Int.natCast_pos.mpr hb, hb, if_true, hright _ hb]
    exact store_ok st hi _
  · simp only [show ¬ (0 : ℤ) < bn by omega, hb, if_false]
    exact store_ok st hi _

/-- The loop goes from the top word down, and its body only reads words that are not
above the one it stores. -/
theorem shiftWords_eq (wn : ℕ) {bn n : ℕ} (hbn : bn < 64) (hn : n ≤ 32) (st : Shifting)
    (hstored : ∀ k ∈ st.stored, (n : ℤ) ≤ k) :
    (shiftWords wn bn n st).map State.words = .ok (shiftLoop wn bn n hn st.words) := by
  induction n generalizing st with
  | zero => rfl
  | succ n ih =>
    have hbody := shiftIteration_eq wn hbn (show n < 32 by omega) fun k hk => by
      have hle := hstored k hk
      omega
    rw [shiftWords, hbody, shiftLoop]
    refine ih (by omega) _ fun k hk => ?_
    rcases List.mem_cons.mp hk with rfl | hk
    · exact le_rfl
    · have hle := hstored k hk
      omega

theorem advanceWindow_eq (st : ReplayState) {seq : BitVec 64} (hlt : st.highest < seq) :
    advanceWindow (seq - st.highest) st.window = .ok (checkReplay seq st).2.window := by
  have hlowest : ∀ window : ReplayWindow, (update ⟨window, []⟩ 0 (· ||| 1)).map State.words =
      .ok (window.set 0 (window[0] ||| 1)) := by
    intro window
    have hupdate := update_ok (⟨window, []⟩ : Shifting) (i := 0) (by decide) List.not_mem_nil
      (· ||| 1)
    exact congrArg (Except.map State.words) hupdate
  simp only [advanceWindow, checkReplay, if_pos hlt]
  split
  · exact hlowest _
  · have hloop := shiftWords_eq ((seq - st.highest).toNat / 64)
      (Nat.mod_lt (seq - st.highest).toNat (show 0 < 64 by omega)) (le_refl 32)
      ⟨st.window, []⟩ (by simp)
    simp only [hloop, bind, Except.bind, hlowest]

-- ════════════════════════════════════════════════════════════════════════
-- The window as a number
-- ════════════════════════════════════════════════════════════════════════

theorem testBit_window (window : ReplayWindow) {k : ℕ} (hk : k < 32 * 64) :
    (value window).testBit k = bitAt window k := by
  obtain ⟨i, j, hi, hj, rfl⟩ := exists_word_bit hk
  rw [testBit_value window hi hj, bitAt_word window hi hj]

/-- **Window shift.** On every content of the window and for every advance, the branch
returns without an access outside the window, a read of a word it has overwritten or a
shift by 64 or more; it leaves what `check_replay` leaves, which is the window shifted left
as a number of 2048 bits, with the lowest bit set. -/
theorem advance_shifts_left (window : ReplayWindow) (highest seq : BitVec 64) (hlt : highest < seq) :
    ∃ window', advanceWindow (seq - highest) window = .ok window' ∧
      checkReplay seq ⟨highest, window⟩ = (0, ⟨seq, window'⟩) ∧
      value window' = value window * 2 ^ (seq - highest).toNat % 2 ^ 2048 ||| 1 := by
  refine ⟨_, advanceWindow_eq ⟨highest, window⟩ hlt, by simp only [checkReplay, if_pos hlt], ?_⟩
  have hdiff : (seq - highest).toNat = seq.toNat - highest.toNat :=
    BitVec.toNat_sub_of_le (BitVec.le_of_lt hlt)
  apply Nat.eq_of_testBit_eq
  intro k
  have hone : Nat.testBit 1 k = (k == 0) := by
    rw [Bool.eq_iff_iff, Nat.testBit_one_eq_true_iff_self_eq_zero, beq_iff_eq]
  rw [Nat.testBit_or, Nat.testBit_mod_two_pow, Nat.testBit_mul_two_pow, hone, hdiff]
  by_cases hk : k < 32 * 64
  · have hnew : (ReplayState.mk highest window).highest < seq := hlt
    have hbit := (checkReplay_of_lt hnew).2.2 k hk
    rw [testBit_window _ hk, hbit, testBit_window window (by omega)]
    simp only [SlidingWindow.advance, ReplayState.toSlidingWindow, show k < 2048 by omega,
      decide_true, Bool.and_true, Bool.true_and]
    exact Bool.or_comm _ _
  · rw [testBit_value_of_le _ (by omega)]
    simp [show ¬ k < 2048 by omega, show k ≠ 0 by omega]

/-- All bits set, the highest number advanced by one: bit 2047 falls out. -/
theorem advance_shifts_left_full : ∃ window',
    advanceWindow (8 - 7) (Vector.replicate 32 (BitVec.allOnes 64)) = .ok window' ∧
      checkReplay 8 ⟨7, Vector.replicate 32 (BitVec.allOnes 64)⟩ = (0, ⟨8, window'⟩) ∧
      value window' = value (Vector.replicate 32 (BitVec.allOnes 64)) *
        2 ^ (8 - 7 : BitVec 64).toNat % 2 ^ 2048 ||| 1 :=
  advance_shifts_left _ 7 8 (by decide)

end LaneCove
