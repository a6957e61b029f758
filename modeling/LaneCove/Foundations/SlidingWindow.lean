import Mathlib.Data.List.Basic
import Mathlib.Order.MinMax
import Mathlib.Tactic.Common

/-!
# Sliding windows over sequence numbers

The abstract side of an anti-replay window of arbitrary width `W`: the highest
number accepted so far and, for every distance `k < W`, whether the number `k`
below the highest has been accepted.

`SlidingWindow.Represents` ties such a window to the plain list of accepted
numbers, and `SlidingWindow.check_isSome_iff` and `SlidingWindow.Represents.check`
say that the window decides membership of that list exactly, up to its width.
-/

/-- The highest accepted number and the marks below it, indexed by distance. -/
structure SlidingWindow where
  highest : ℕ
  marked : ℕ → Bool

namespace SlidingWindow

/-- The largest accepted number, `0` if none. -/
def maxAccepted (acc : List ℕ) : ℕ := acc.foldr max 0

@[simp] theorem maxAccepted_nil : maxAccepted [] = 0 := rfl

@[simp] theorem maxAccepted_cons (n : ℕ) (acc : List ℕ) :
    maxAccepted (n :: acc) = max n (maxAccepted acc) := rfl

theorem le_maxAccepted {n : ℕ} {acc : List ℕ} (h : n ∈ acc) : n ≤ maxAccepted acc := by
  induction acc with
  | nil => simp at h
  | cons m acc ih =>
    rcases List.mem_cons.mp h with rfl | h
    · exact le_max_left _ _
    · exact (ih h).trans (le_max_right _ _)

theorem maxAccepted_le {b : ℕ} {acc : List ℕ} (h : ∀ n ∈ acc, n ≤ b) : maxAccepted acc ≤ b := by
  induction acc with
  | nil => exact Nat.zero_le b
  | cons m acc ih =>
    exact max_le (h m List.mem_cons_self) (ih fun n hn => h n (List.mem_cons_of_mem m hn))

/-- Mark everything the advance from `w.highest` to `n` leaves inside the width
`W`, and `n` itself. -/
def advance (W : ℕ) (w : SlidingWindow) (n : ℕ) : SlidingWindow where
  highest := n
  marked k := k == 0 || (decide (n - w.highest ≤ k) && decide (k < W) &&
    w.marked (k - (n - w.highest)))

/-- Mark a number at distance `w.highest - n`. -/
def mark (w : SlidingWindow) (n : ℕ) : SlidingWindow where
  highest := w.highest
  marked k := k == w.highest - n || w.marked k

/-- Decide one number: `some` is the window after accepting it. -/
def check (W : ℕ) (w : SlidingWindow) (n : ℕ) : Option SlidingWindow :=
  if w.highest < n then some (w.advance W n)
  else if W ≤ w.highest - n then none
  else if w.marked (w.highest - n) then none
  else some (w.mark n)

/-- The window holds exactly the accepted numbers that are less than `W` below
the highest one. -/
structure Represents (W : ℕ) (w : SlidingWindow) (acc : List ℕ) : Prop where
  highest_eq : w.highest = maxAccepted acc
  marked_iff : ∀ k, k < W → (w.marked k = true ↔ ∃ n ∈ acc, n + k = w.highest)

variable {W : ℕ} {w w' : SlidingWindow} {acc : List ℕ} {n : ℕ}

/-- The empty window represents the empty list. -/
theorem represents_empty (W : ℕ) : Represents W ⟨0, fun _ => false⟩ [] :=
  ⟨rfl, by simp⟩

theorem Represents.le_highest (h : Represents W w acc) (hn : n ∈ acc) : n ≤ w.highest :=
  h.highest_eq ▸ le_maxAccepted hn

/-- The mark at the distance of `n` says whether `n` was accepted. -/
theorem Represents.marked_sub_iff (h : Represents W w acc) (hle : n ≤ w.highest)
    (hW : w.highest - n < W) : w.marked (w.highest - n) = true ↔ n ∈ acc := by
  rw [h.marked_iff _ hW]
  constructor
  · rintro ⟨m, hm, he⟩
    have : m = n := by omega
    exact this ▸ hm
  · intro hn
    exact ⟨n, hn, by omega⟩

/-- Advancing over the highest number keeps the representation. -/
theorem Represents.advance (h : Represents W w acc) (hlt : w.highest < n) (hW : 0 < W) :
    Represents W (w.advance W n) (n :: acc) := by
  refine ⟨?_, fun k hk => ?_⟩
  · have := h.highest_eq
    simp only [SlidingWindow.advance, maxAccepted_cons]
    omega
  · simp only [SlidingWindow.advance, Bool.or_eq_true, beq_iff_eq, Bool.and_eq_true,
      decide_eq_true_eq]
    constructor
    · rintro (rfl | ⟨⟨hle, _⟩, hm⟩)
      · exact ⟨n, by simp, rfl⟩
      · obtain ⟨m, hmem, he⟩ := (h.marked_iff _ (by omega)).mp hm
        exact ⟨m, by simp [hmem], by omega⟩
    · rintro ⟨m, hmem, he⟩
      rcases List.mem_cons.mp hmem with rfl | hmem
      · left; omega
      · have hmh := h.le_highest hmem
        refine Or.inr ⟨⟨by omega, hk⟩, ?_⟩
        exact (h.marked_iff _ (by omega)).mpr ⟨m, hmem, by omega⟩

/-- Marking a number not above the highest keeps the representation. -/
theorem Represents.mark (h : Represents W w acc) (hle : n ≤ w.highest) :
    Represents W (w.mark n) (n :: acc) := by
  refine ⟨?_, fun k hk => ?_⟩
  · have := h.highest_eq
    simp only [SlidingWindow.mark, maxAccepted_cons]
    omega
  · simp only [SlidingWindow.mark, Bool.or_eq_true, beq_iff_eq]
    constructor
    · rintro (rfl | hm)
      · exact ⟨n, by simp, by omega⟩
      · obtain ⟨m, hmem, he⟩ := (h.marked_iff k hk).mp hm
        exact ⟨m, by simp [hmem], he⟩
    · rintro ⟨m, hmem, he⟩
      rcases List.mem_cons.mp hmem with rfl | hmem
      · left; omega
      · exact Or.inr ((h.marked_iff k hk).mpr ⟨m, hmem, he⟩)

/-- A represented window accepts a number exactly when it is new and either
above the maximum or less than the width below it. -/
theorem Represents.check_isSome_iff (h : Represents W w acc) :
    (check W w n).isSome ↔
      n ∉ acc ∧ (maxAccepted acc < n ∨ maxAccepted acc - n < W) := by
  rw [← h.highest_eq]
  unfold check
  by_cases hlt : w.highest < n
  · have hnew : n ∉ acc := fun hn => by
      have := h.le_highest hn
      omega
    simp [hlt, hnew]
  · by_cases hW : W ≤ w.highest - n
    · have : ¬ w.highest - n < W := by omega
      simp [hlt, hW, this]
    · have hiff := h.marked_sub_iff (n := n) (by omega) (by omega)
      have hin : w.highest - n < W := by omega
      by_cases hm : w.marked (w.highest - n) = true
      · simp [hlt, hW, hm, hiff.mp hm]
      · simp [hlt, hW, hm, hin, mt hiff.mpr hm]

/-- The window after accepting `n` represents the list extended by `n`. -/
theorem Represents.check (h : Represents W w acc) (hW : 0 < W) (hc : check W w n = some w') :
    Represents W w' (n :: acc) := by
  unfold SlidingWindow.check at hc
  split at hc
  · next hlt =>
    obtain rfl := Option.some.inj hc
    exact h.advance hlt hW
  · next hle =>
    split at hc
    · exact absurd hc (by simp)
    · split at hc
      · exact absurd hc (by simp)
      · obtain rfl := Option.some.inj hc
        exact h.mark (by omega)

/-- Two windows with the same highest number and the same marks below the width
are interchangeable. -/
theorem Represents.of_agree (h : Represents W w acc) (hh : w'.highest = w.highest)
    (hm : ∀ k, k < W → w'.marked k = w.marked k) : Represents W w' acc :=
  ⟨hh ▸ h.highest_eq, fun k hk => by rw [hm k hk, hh, h.marked_iff k hk]⟩

end SlidingWindow
