import LaneCove.Foundations.Machine
import LaneCove.Foundations.SlidingWindow
import Mathlib.Tactic.Common

/-!
# Replay protection

`checkReplay` of `common.h`: a 2048-bit window kept in 32 words of 64 bits, with
`window[0]` the least significant word, bit `0` the highest accepted sequence
number and bit `k` the number `k` below it. The words are shifted in place, from
the top word down.

## Main definitions

- `shiftLoop` — the in-place shift loop of the advance branch
- `checkReplay` — the decision on one sequence number
- `ReplayState.toSlidingWindow` — the abstract window a state stands for

## Main results

- `checkReplay_refines` — one call is one step of `SlidingWindow.check`
- `checkReplay_run_spec` — every run decides membership of the accepted set
-/

namespace LaneCove

/-- `uint64_t window[REPLAY_WINDOW_WORDS]`, 32 words of 64 bits. -/
abbrev ReplayWindow := Vector (BitVec 64) 32

/-- The receive side of a session: `recv_seq_highest` and `recv_seq_window`. -/
structure ReplayState where
  highest : BitVec 64
  window : ReplayWindow
deriving DecidableEq

/-- The all-zero state that `session_init` installs. -/
def ReplayState.zero : ReplayState := ⟨0, Vector.replicate _ 0⟩

/-- The word the shift loop stores at index `i`, read from the current window. -/
def shiftWord (wn bn i : ℕ) (hi : i < 32) (window : ReplayWindow) : BitVec 64 :=
  let lo : BitVec 64 := if _h : wn ≤ i then window[i - wn] else 0
  let hi : BitVec 64 := if _h : 0 < bn ∧ wn + 1 ≤ i then window[i - wn - 1] else 0
  if 0 < bn then (lo <<< bn) ||| (hi >>> (64 - bn)) else lo

/-- `for (i = n - 1; i >= 0; i--) window[i] = ...`, each iteration on the window
the previous ones left. -/
def shiftLoop (wn bn : ℕ) : (n : ℕ) → n ≤ 32 → ReplayWindow → ReplayWindow
  | 0, _, window => window
  | n + 1, hn, window =>
    shiftLoop wn bn n (by omega) (window.set n (shiftWord wn bn n hn window))

/-- `check_replay`: `0` if the number is new, `-1` if it is a duplicate or too old. -/
def checkReplay (seq : BitVec 64) (st : ReplayState) : ℤ × ReplayState :=
  if st.highest < seq then
    let diff := (seq - st.highest).toNat
    let window :=
      if 32 * 64 ≤ diff then Vector.replicate _ 0
      else shiftLoop (diff / 64) (diff % 64) 32 le_rfl st.window
    (0, ⟨seq, window.set 0 (window[0] ||| 1)⟩)
  else
    let diff := (st.highest - seq).toNat
    if h : 32 * 64 ≤ diff then (-1, st)
    else
      have hw : diff / 64 < 32 := by omega
      if st.window[diff / 64] &&& (1#64 <<< (diff % 64)) ≠ 0 then (-1, st)
      else
        (0, ⟨st.highest, st.window.set (diff / 64) (st.window[diff / 64] ||| (1#64 <<< (diff % 64)))⟩)

/-- Bit `k` of the window, counted from the least significant word. -/
def bitAt (window : ReplayWindow) (k : ℕ) : Bool :=
  if h : k / 64 < 32 then window[k / 64].getLsbD (k % 64) else false

theorem bitAt_word (window : ReplayWindow) {i j : ℕ} (hi : i < 32) (hj : j < 64) :
    bitAt window (64 * i + j) = window[i].getLsbD j := by
  have hdiv : (64 * i + j) / 64 = i := by omega
  have hmod : (64 * i + j) % 64 = j := by omega
  simp only [bitAt, hdiv, hmod, dif_pos hi]

theorem exists_word_bit {k : ℕ} (hk : k < 32 * 64) :
    ∃ i j, i < 32 ∧ j < 64 ∧ k = 64 * i + j :=
  ⟨k / 64, k % 64, by omega, by omega, by omega⟩

@[simp] theorem bitAt_replicate_zero (k : ℕ) : bitAt (Vector.replicate _ 0#64) k = false := by
  simp [bitAt]

/-- Setting one bit of one word sets exactly that bit of the window. -/
theorem bitAt_set_or (window : ReplayWindow) {i b k : ℕ} (hi : i < 32)
    (hb : b < 64) (hk : k < 32 * 64) :
    bitAt (window.set i (window[i] ||| (1#64 <<< b))) k =
      (k == 64 * i + b || bitAt window k) := by
  obtain ⟨j, c, hj, hc, rfl⟩ := exists_word_bit hk
  rw [bitAt_word _ hj hc, bitAt_word _ hj hc, Vector.getElem_set]
  by_cases hij : i = j
  · subst hij
    by_cases hbc : c = b
    · subst hbc
      simp [hc]
    · have hne : ¬ 64 * i + c = 64 * i + b := by omega
      have hbit : (1#64 <<< b).getLsbD c = false := by
        simp only [BitVec.getLsbD_shiftLeft, BitVec.getLsbD_one]
        by_cases hcb : c < b
        · simp [hcb]
        · simp [show c - b ≠ 0 by omega]
      simp [hbc, hbit]
  · have hne : ¬ 64 * j + c = 64 * i + b := by omega
    simp [hij, hne]

/-- The bit test of the source, on one word. -/
theorem and_shiftLeft_ne_zero_iff (x : BitVec 64) {b : ℕ} (hb : b < 64) :
    x &&& (1#64 <<< b) ≠ 0 ↔ x.getLsbD b = true := by
  rw [← BitVec.twoPow_eq, BitVec.and_twoPow]
  by_cases hx : x.getLsbD b = true
  · have hne : BitVec.twoPow 64 b ≠ 0#64 := by
      intro h0
      have hbit := congrArg (fun y => y.getLsbD b) h0
      simp [hb] at hbit
    simp [hx, hne]
  · simp [hx]

/-- One stored word, bit by bit: the window moved up by `64 * wn + bn`. -/
theorem shiftWord_getLsbD (window : ReplayWindow) {wn bn i j : ℕ}
    (hi : i < 32) (hbn : bn < 64) (hj : j < 64) :
    (shiftWord wn bn i hi window).getLsbD j =
      (decide (64 * wn + bn ≤ 64 * i + j) &&
        bitAt window (64 * i + j - (64 * wn + bn))) := by
  unfold shiftWord
  by_cases h0 : 0 < bn
  · simp only [h0, if_true, true_and, BitVec.getLsbD_or, BitVec.getLsbD_shiftLeft,
      BitVec.getLsbD_ushiftRight]
    by_cases hjb : j < bn
    · -- the bit comes from the top of the next lower word
      by_cases hw : wn + 1 ≤ i
      · have hle : 64 * wn + bn ≤ 64 * i + j := by omega
        have hidx : 64 * i + j - (64 * wn + bn) = 64 * (i - wn - 1) + (64 - bn + j) := by omega
        rw [hidx, bitAt_word _ (by omega) (by omega)]
        simp [hjb, hw, hle]
      · have hle : ¬ 64 * wn + bn ≤ 64 * i + j := by omega
        simp [hjb, hw, hle]
    · -- the bit comes from the same relative position of the source word
      by_cases hw : wn ≤ i
      · have hle : 64 * wn + bn ≤ 64 * i + j := by omega
        have hidx : 64 * i + j - (64 * wn + bn) = 64 * (i - wn) + (j - bn) := by omega
        rw [hidx, bitAt_word _ (by omega) (by omega)]
        have hhi : ∀ x : BitVec 64, x.getLsbD (64 - bn + j) = false := fun x =>
          BitVec.getLsbD_of_ge x _ (by omega)
        simp [hjb, hj, hw, hle, hhi]
      · have hle : ¬ 64 * wn + bn ≤ 64 * i + j := by omega
        have hw' : ¬ wn + 1 ≤ i := by omega
        simp [hw, hw', hle]
  · have hb0 : bn = 0 := by omega
    subst hb0
    by_cases hw : wn ≤ i
    · have hle : 64 * wn ≤ 64 * i + j := by omega
      have hidx : 64 * i + j - 64 * wn = 64 * (i - wn) + j := by omega
      simp only [lt_irrefl, if_false, hw, dif_pos, Nat.add_zero, hle, decide_true, Bool.true_and]
      rw [hidx, bitAt_word _ (by omega) hj]
    · have hle : ¬ 64 * wn ≤ 64 * i + j := by omega
      simp [hw, hle]

/-- A stored word only depends on the words not above it. -/
theorem shiftWord_set_above (window : ReplayWindow) {wn bn i n : ℕ} (v : BitVec 64)
    (hi : i < 32) (hn : n < 32) (hin : i < n) :
    shiftWord wn bn i hi (window.set n v) = shiftWord wn bn i hi window := by
  have hread : ∀ j, (hj : j < n) → (window.set n v)[j] = window[j] := fun j hj =>
    Vector.getElem_set_ne _ _ (by omega)
  unfold shiftWord
  by_cases hlo : wn ≤ i
  · by_cases hhi : 0 < bn ∧ wn + 1 ≤ i
    · simp only [hlo, hhi, and_self, dif_pos, hread (i - wn) (by omega),
        hread (i - wn - 1) (by omega)]
    · simp only [hlo, hhi, dif_pos, dif_neg, not_false_eq_true, hread (i - wn) (by omega)]
  · have hhi : ¬ (0 < bn ∧ wn + 1 ≤ i) := by omega
    simp only [hlo, hhi, dif_neg, not_false_eq_true]

/-- The loop on the words below `n` replaces each of them by its shifted word
computed from the window before the loop: the descending order never reads a
word it has already stored. -/
theorem shiftLoop_getElem (wn bn n : ℕ) (hn : n ≤ 32) (window : ReplayWindow)
    {i : ℕ} (hi : i < 32) :
    (shiftLoop wn bn n hn window)[i] =
      if i < n then shiftWord wn bn i hi window else window[i] := by
  induction n generalizing window with
  | zero => simp [shiftLoop]
  | succ n ih =>
    rw [shiftLoop, ih]
    by_cases hin : i < n
    · rw [if_pos hin, if_pos (by omega), shiftWord_set_above window _ hi (by omega) hin]
    · by_cases he : i = n
      · subst he
        simp
      · rw [if_neg hin, if_neg (by omega), Vector.getElem_set_ne _ _ (by omega)]

/-- The whole loop shifts the window up by `diff` bits. -/
theorem bitAt_shiftLoop (window : ReplayWindow) (diff : ℕ) {k : ℕ} (hk : k < 32 * 64) :
    bitAt (shiftLoop (diff / 64) (diff % 64) 32 le_rfl window) k =
      (decide (diff ≤ k) && bitAt window (k - diff)) := by
  obtain ⟨i, j, hi, hj, rfl⟩ := exists_word_bit hk
  rw [bitAt_word _ hi hj, shiftLoop_getElem, if_pos hi,
    shiftWord_getLsbD window hi (Nat.mod_lt _ (by omega)) hj, Nat.div_add_mod]

/-- The abstract window a replay state stands for. -/
def ReplayState.toSlidingWindow (st : ReplayState) : SlidingWindow where
  highest := st.highest.toNat
  marked := bitAt st.window

/-- The state and an abstract window agree on the highest number and on every
bit of the window. -/
def ReplayState.Agrees (st : ReplayState) (w : SlidingWindow) : Prop :=
  st.highest.toNat = w.highest ∧ ∀ k, k < 32 * 64 → bitAt st.window k = w.marked k

/-- The advance branch, before the new number is marked. -/
theorem bitAt_advance (st : ReplayState) {seq : BitVec 64} (hlt : st.highest < seq)
    {k : ℕ} (hk : k < 32 * 64) :
    bitAt (if 32 * 64 ≤ (seq - st.highest).toNat then Vector.replicate _ 0
      else shiftLoop ((seq - st.highest).toNat / 64) ((seq - st.highest).toNat % 64) 32 le_rfl
        st.window) k =
      (decide (seq.toNat - st.highest.toNat ≤ k) &&
        bitAt st.window (k - (seq.toNat - st.highest.toNat))) := by
  have hdiff : (seq - st.highest).toNat = seq.toNat - st.highest.toNat :=
    BitVec.toNat_sub_of_le (BitVec.le_of_lt hlt)
  rw [hdiff]
  split
  · next hbig =>
    have hle : ¬ seq.toNat - st.highest.toNat ≤ k := by omega
    simp [hle]
  · exact bitAt_shiftLoop _ _ hk

/-- The four outcomes of a call. A number above the highest is always accepted. -/
theorem checkReplay_of_lt {seq : BitVec 64} {st : ReplayState} (hlt : st.highest < seq) :
    (checkReplay seq st).1 = 0 ∧
      (checkReplay seq st).2.Agrees (st.toSlidingWindow.advance 2048 seq.toNat) := by
  simp only [checkReplay, hlt, if_true, true_and]
  refine ⟨rfl, fun k hk => ?_⟩
  refine (bitAt_set_or (b := 0) _ (i := 0) (by omega) (by omega) hk).trans ?_
  rw [bitAt_advance st hlt hk]
  simp [SlidingWindow.advance, ReplayState.toSlidingWindow, show k < 2048 by omega]

theorem checkReplay_of_far {seq : BitVec 64} {st : ReplayState}
    (hle : seq.toNat ≤ st.highest.toNat) (hfar : 32 * 64 ≤ st.highest.toNat - seq.toNat) :
    checkReplay seq st = (-1, st) := by
  have hlt : ¬ st.highest < seq := Nat.not_lt.mpr hle
  have hdiff : (st.highest - seq).toNat = st.highest.toNat - seq.toNat :=
    BitVec.toNat_sub_of_le hle
  simp only [checkReplay, hlt, if_false, hdiff, hfar, dif_pos]

/-- Inside the window the decision is the bit at the distance of the number. -/
theorem checkReplay_of_near {seq : BitVec 64} {st : ReplayState}
    (hle : seq.toNat ≤ st.highest.toNat) (hnear : st.highest.toNat - seq.toNat < 32 * 64) :
    (bitAt st.window (st.highest.toNat - seq.toNat) = true ∧ checkReplay seq st = (-1, st)) ∨
    (bitAt st.window (st.highest.toNat - seq.toNat) = false ∧ (checkReplay seq st).1 = 0 ∧
      (checkReplay seq st).2.Agrees (st.toSlidingWindow.mark seq.toNat)) := by
  have hlt : ¬ st.highest < seq := Nat.not_lt.mpr hle
  have hdiff : (st.highest - seq).toNat = st.highest.toNat - seq.toNat :=
    BitVec.toNat_sub_of_le hle
  have hfar : ¬ 32 * 64 ≤ st.highest.toNat - seq.toNat := by omega
  have hdivmod := Nat.div_add_mod (st.highest.toNat - seq.toNat) 64
  have hmod : (st.highest.toNat - seq.toNat) % 64 < 64 := Nat.mod_lt _ (by omega)
  have hword : (st.highest.toNat - seq.toNat) / 64 < 32 := by omega
  have htest := and_shiftLeft_ne_zero_iff st.window[(st.highest.toNat - seq.toNat) / 64] hmod
  rw [← bitAt_word st.window hword hmod, hdivmod] at htest
  by_cases hm : bitAt st.window (st.highest.toNat - seq.toNat) = true
  · refine Or.inl ⟨hm, ?_⟩
    simp only [checkReplay, hlt, if_false, hdiff, hfar, dif_neg, not_false_eq_true,
      if_pos (htest.mpr hm)]
  · refine Or.inr ⟨Bool.not_eq_true _ ▸ hm, ?_⟩
    simp only [checkReplay, hlt, if_false, hdiff, hfar, dif_neg, not_false_eq_true,
      if_neg (mt htest.mp hm), true_and]
    refine ⟨rfl, fun k hk => ?_⟩
    rw [bitAt_set_or st.window hword hmod hk, hdivmod]
    rfl

/-- One call is one step of the abstract window of width 2048. -/
theorem checkReplay_refines (seq : BitVec 64) (st : ReplayState) :
    (∃ w, SlidingWindow.check 2048 st.toSlidingWindow seq.toNat = some w ∧
      (checkReplay seq st).1 = 0 ∧ (checkReplay seq st).2.Agrees w) ∨
    (SlidingWindow.check 2048 st.toSlidingWindow seq.toNat = none ∧
      checkReplay seq st = (-1, st)) := by
  by_cases hlt : st.highest < seq
  · have hlt' : st.highest.toNat < seq.toNat := hlt
    refine Or.inl ⟨_, ?_, checkReplay_of_lt hlt⟩
    simp [SlidingWindow.check, ReplayState.toSlidingWindow, hlt']
  · have hle : seq.toNat ≤ st.highest.toNat := Nat.le_of_not_lt hlt
    have hlt' : ¬ st.highest.toNat < seq.toNat := by omega
    by_cases hfar : 2048 ≤ st.highest.toNat - seq.toNat
    · refine Or.inr ⟨?_, checkReplay_of_far hle hfar⟩
      simp [SlidingWindow.check, ReplayState.toSlidingWindow, hlt', hfar]
    · rcases checkReplay_of_near hle (by omega) with ⟨hm, hout⟩ | ⟨hm, hout⟩
      · refine Or.inr ⟨?_, hout⟩
        simp [SlidingWindow.check, ReplayState.toSlidingWindow, hlt', hfar, hm]
      · refine Or.inl ⟨_, ?_, hout⟩
        simp [SlidingWindow.check, ReplayState.toSlidingWindow, hlt', hfar, hm]

/-- The state records exactly the numbers in `acc`. -/
def ReplayState.Represents (st : ReplayState) (acc : List (BitVec 64)) : Prop :=
  SlidingWindow.Represents 2048 st.toSlidingWindow (acc.map BitVec.toNat)

theorem represents_zero : ReplayState.zero.Represents [] := by
  refine (SlidingWindow.represents_empty 2048).of_agree rfl fun k _ => ?_
  exact bitAt_replicate_zero k

theorem mem_map_toNat {seq : BitVec 64} {acc : List (BitVec 64)} :
    seq.toNat ∈ acc.map BitVec.toNat ↔ seq ∈ acc := by
  simp only [List.mem_map]
  constructor
  · rintro ⟨a, ha, he⟩
    exact BitVec.eq_of_toNat_eq he ▸ ha
  · intro h
    exact ⟨seq, h, rfl⟩

/-- What one call does to a state that represents the accepted numbers `acc`. -/
theorem ReplayState.Represents.checkReplay {st : ReplayState} {acc : List (BitVec 64)}
    (h : st.Represents acc) (seq : BitVec 64) :
    ((LaneCove.checkReplay seq st).1 = 0 ∧ seq ∉ acc ∧
      (SlidingWindow.maxAccepted (acc.map BitVec.toNat) < seq.toNat ∨
        SlidingWindow.maxAccepted (acc.map BitVec.toNat) - seq.toNat < 2048) ∧
      (LaneCove.checkReplay seq st).2.Represents (seq :: acc)) ∨
    (LaneCove.checkReplay seq st = (-1, st) ∧
      ¬ (seq ∉ acc ∧ (SlidingWindow.maxAccepted (acc.map BitVec.toNat) < seq.toNat ∨
        SlidingWindow.maxAccepted (acc.map BitVec.toNat) - seq.toNat < 2048))) := by
  have hiff := SlidingWindow.Represents.check_isSome_iff h (n := seq.toNat)
  rw [mem_map_toNat] at hiff
  rcases checkReplay_refines seq st with ⟨w, hc, hret, hagree⟩ | ⟨hc, hret⟩
  · have hnew := hiff.mp (by simp [hc])
    refine Or.inl ⟨hret, hnew.1, hnew.2, ?_⟩
    exact (SlidingWindow.Represents.check h (by omega) hc).of_agree hagree.1 hagree.2
  · refine Or.inr ⟨hret, fun hn => ?_⟩
    have := hiff.mpr hn
    simp [hc] at this

/-- One call as a machine step; the event is the number with the value returned. -/
def replayStep (st : ReplayState) (seq : BitVec 64) : ReplayState × List (BitVec 64 × ℤ) :=
  ((checkReplay seq st).2, [(seq, (checkReplay seq st).1)])

/-- The numbers a run accepted, latest first. -/
def acceptedSeqs (calls : List (BitVec 64 × ℤ)) : List (BitVec 64) :=
  ((calls.filter fun call => call.2 = 0).map Prod.fst).reverse

theorem acceptedSeqs_concat (calls : List (BitVec 64 × ℤ)) (seq : BitVec 64) (ret : ℤ) :
    acceptedSeqs (calls ++ [(seq, ret)]) =
      if ret = 0 then seq :: acceptedSeqs calls else acceptedSeqs calls := by
  by_cases h : ret = 0 <;> simp [acceptedSeqs, List.filter_append, h]

/-- The state and the calls after `check_replay` on each number in turn. -/
def replayRun (seqs : List (BitVec 64)) : ReplayState × List (BitVec 64 × ℤ) :=
  Machine.run replayStep ReplayState.zero seqs

/-- A run from the zero state always represents the numbers it accepted. -/
theorem run_represents (seqs : List (BitVec 64)) :
    (replayRun seqs).1.Represents (acceptedSeqs (replayRun seqs).2) := by
  apply Machine.run_invariant (I := fun st calls => ReplayState.Represents st (acceptedSeqs calls))
  · intro st calls seq h
    rw [replayStep, acceptedSeqs_concat]
    rcases h.checkReplay seq with ⟨hret, _, _, hrep⟩ | ⟨hret, _⟩
    · rw [if_pos hret]
      exact hrep
    · rw [hret, if_neg (by simp)]
      exact h
  · exact represents_zero

/-- The largest number a run accepted, `0` if none. -/
def highestAccepted (seqs : List (BitVec 64)) : ℕ :=
  SlidingWindow.maxAccepted ((acceptedSeqs (replayRun seqs).2).map BitVec.toNat)

/-- Every run of `check_replay` from the zero state decides the set
specification: a number is accepted exactly when it is new and above the
maximum or less than 2048 below it, any other call changes nothing, and
`highest` is the maximum accepted so far. -/
theorem checkReplay_run_spec (seqs : List (BitVec 64)) (seq : BitVec 64) :
    ((checkReplay seq (replayRun seqs).1).1 = 0 ↔ seq ∉ acceptedSeqs (replayRun seqs).2 ∧
      (highestAccepted seqs < seq.toNat ∨ highestAccepted seqs - seq.toNat < 2048)) ∧
    ((checkReplay seq (replayRun seqs).1).1 ≠ 0 →
      checkReplay seq (replayRun seqs).1 = (-1, (replayRun seqs).1)) ∧
    (replayRun seqs).1.highest.toNat = highestAccepted seqs := by
  have hrep := run_represents seqs
  refine ⟨?_, ?_, hrep.highest_eq⟩
  · rcases hrep.checkReplay seq with ⟨hret, hnew, hin, _⟩ | ⟨hret, hold⟩
    · exact iff_of_true hret ⟨hnew, hin⟩
    · exact iff_of_false (by simp [hret]) hold
  · intro hne
    rcases hrep.checkReplay seq with ⟨hret, _⟩ | ⟨hret, _⟩
    · exact absurd hret hne
    · exact hret

end LaneCove
