import LaneCove.Foundations.CString
import Mathlib.Tactic.IntervalCases

/-!
# Numbers and addresses in print

What `printf` writes for a number is what `atoi` reads, for every number an `int` can hold.
IPv4 addresses in dotted decimal notation are four such numbers; `inet_pton` takes no other
form, no leading zeros and nothing above 255.

## Main definitions

- `CString.printNat`, `CString.printInt` — the conversions `"%u"` and `"%d"`
- `Ipv4.ntop`, `Ipv4.pton` — addresses in dotted decimal notation

## Main results

- `CString.atoi_printInt` — a number is read back
- `Ipv4.pton_ntop` — an address is read back
- `Ipv4.chars_of_pton` — what is read has the form of an address
-/

namespace CString

-- ════════════════════════════════════════════════════════════════════════
-- Decimal numbers
-- ════════════════════════════════════════════════════════════════════════

/-- The digit of a number below 10. -/
def printDigit (n : ℕ) : UInt8 := UInt8.ofNat (48 + n)

/-- The conversion `"%u"`. -/
def printNat (n : ℕ) : List UInt8 :=
  if n < 10 then [printDigit n] else printNat (n / 10) ++ [printDigit (n % 10)]

/-- The conversion `"%d"`. -/
def printInt (n : ℤ) : List UInt8 :=
  if n < 0 then 45 :: printNat n.natAbs else printNat n.natAbs

theorem printDigit_spec {n : ℕ} (h : n < 10) :
    isDigit (printDigit n) ∧ decimal [printDigit n] = n ∧ (printDigit n = 48 → n = 0) := by
  interval_cases n <;> decide

theorem isDigit_printNat (n : ℕ) : ∀ b ∈ printNat n, isDigit b := by
  fun_induction printNat n with
  | case1 n hlt =>
    rw [List.forall_mem_singleton]
    exact (printDigit_spec hlt).1
  | case2 n hge ih =>
    rw [List.forall_mem_append, List.forall_mem_singleton]
    exact ⟨ih, (printDigit_spec (Nat.mod_lt n (by decide))).1⟩

theorem decimal_printNat (n : ℕ) : decimal (printNat n) = n := by
  fun_induction printNat n with
  | case1 n hlt => exact (printDigit_spec hlt).2.1
  | case2 n hge ih =>
    obtain ⟨hdigit, hvalue, -⟩ := printDigit_spec (Nat.mod_lt n (by decide : 10 > 0))
    rw [decimal_append (isDigit_printNat _) (by simpa using hdigit), ih, hvalue,
      List.length_singleton]
    omega

theorem printNat_ne_nil (n : ℕ) : printNat n ≠ [] := by
  rw [printNat]
  split <;> simp

theorem length_printNat_le {n k : ℕ} (h : n < 10 ^ (k + 1)) : (printNat n).length ≤ k + 1 := by
  induction k generalizing n with
  | zero =>
    rw [printNat, if_pos (by omega)]
    exact le_rfl
  | succ k ih =>
    rw [printNat]
    split
    · simp
    · rw [List.length_append, List.length_singleton]
      have := ih (n := n / 10) (by rw [Nat.div_lt_iff_lt_mul (by decide)]; omega)
      omega

/-- Only the number 0 starts with a zero. -/
theorem eq_zero_of_head_printNat {n : ℕ} (h : (printNat n).head? = some 48) : n = 0 := by
  fun_induction printNat n with
  | case1 n hlt => exact (printDigit_spec hlt).2.2 (by simpa using h)
  | case2 n hge ih =>
    obtain ⟨b, s, hs⟩ := List.exists_cons_of_ne_nil (printNat_ne_nil (n / 10))
    have := ih (by simpa [hs] using h)
    omega

/-- No character but digits is printed. -/
theorem notMem_printNat {b : UInt8} (h : isDigit b = false) (n : ℕ) : b ∉ printNat n := by
  intro hb
  have := isDigit_printNat n b hb
  simp_all

theorem zero_notMem_printInt (n : ℤ) : 0 ∉ printInt n := by
  unfold printInt
  split
  · simpa using notMem_printNat (by decide) _
  · exact notMem_printNat (by decide) _

theorem atoi_printNat {n : ℕ} (h : n < 2 ^ 31) : atoi (printNat n) = n := by
  rw [atoi_of_digits (isDigit_printNat n) (by rwa [decimal_printNat]), decimal_printNat]

/-- Every `int` is read back as it was printed. -/
theorem atoi_printInt {n : ℤ} (h : -2 ^ 31 ≤ n) (h' : n < 2 ^ 31) : atoi (printInt n) = n := by
  unfold printInt
  split
  · have hnum : Numeral ([] ++ 45 :: (printNat n.natAbs ++ [])) (-decimal (printNat n.natAbs)) :=
      .negative (by simp) (isDigit_printNat _) (by simp [StopsAt])
    rw [List.append_nil, List.nil_append] at hnum
    rw [atoi_eq hnum, decimal_printNat, toInt, max_eq_right (by omega), min_eq_right (by omega),
      Int.bmod_eq_of_le (by omega) (by omega)]
    omega
  · rw [atoi_printNat (by omega)]
    omega

end CString

-- ════════════════════════════════════════════════════════════════════════
-- Addresses
-- ════════════════════════════════════════════════════════════════════════

namespace Ipv4

open CString

/-- The address in dotted decimal notation. -/
def ntop (addr : BitVec 32) : List UInt8 :=
  printNat (addr.toNat / 2 ^ 24) ++ 46 :: (printNat (addr.toNat / 2 ^ 16 % 256) ++
    46 :: (printNat (addr.toNat / 2 ^ 8 % 256) ++ 46 :: printNat (addr.toNat % 256)))

/-- One of the four numbers. -/
def readOctet : List UInt8 → Option ℕ
  | [] => none
  | b :: rest =>
    let s := b :: rest
    if s.all isDigit && decide (decimal s ≤ 255) && (rest.isEmpty || !decide (b = 48)) then
      some (decimal s)
    else none

/-- `inet_pton` for `AF_INET`, with the address in host byte order. -/
def pton (s : List UInt8) : Option (BitVec 32) := do
  let (s₁, s) ← strchr 46 s
  let (s₂, s) ← strchr 46 s
  let (s₃, s₄) ← strchr 46 s
  let a ← readOctet s₁
  let b ← readOctet s₂
  let c ← readOctet s₃
  let d ← readOctet s₄
  return BitVec.ofNat 32 (((a * 256 + b) * 256 + c) * 256 + d)

theorem readOctet_printNat {n : ℕ} (h : n < 256) : readOctet (printNat n) = some n := by
  obtain ⟨b, rest, hs⟩ := List.exists_cons_of_ne_nil (printNat_ne_nil n)
  have hdigits := isDigit_printNat n
  have hvalue := decimal_printNat n
  have hzero : b = 48 → rest = [] := by
    rintro rfl
    obtain rfl := eq_zero_of_head_printNat (by rw [hs]; rfl)
    rw [printNat] at hs
    simp_all
  rw [hs] at hdigits hvalue ⊢
  simp only [readOctet, hvalue]
  rw [if_pos]
  simp only [Bool.and_eq_true, List.all_eq_true, decide_eq_true_eq, Bool.or_eq_true,
    List.isEmpty_iff, Bool.not_eq_true', decide_eq_false_iff_not]
  exact ⟨⟨hdigits, by omega⟩, or_iff_not_imp_right.mpr fun hb => hzero (not_not.mp hb)⟩

/-- Every address is read back as it was printed. -/
theorem pton_ntop (addr : BitVec 32) : pton (ntop addr) = some addr := by
  have hdot : ∀ n, 46 ∉ printNat n := notMem_printNat (by decide)
  have haddr := addr.isLt
  simp only [pton, ntop, strchr_append (hdot _), Option.bind_eq_bind, Option.bind_some,
    readOctet_printNat (show addr.toNat / 2 ^ 24 < 256 by omega),
    readOctet_printNat (Nat.mod_lt _ (by decide : 256 > 0))]
  refine congrArg some (BitVec.eq_of_toNat_eq ?_)
  rw [BitVec.toNat_ofNat]
  omega

theorem length_ntop_le (addr : BitVec 32) : (ntop addr).length ≤ 15 := by
  have hlen : ∀ n < 256, (printNat n).length ≤ 3 := fun n hn => length_printNat_le (by omega)
  have haddr := addr.isLt
  have h₁ := hlen (addr.toNat / 2 ^ 24) (by omega)
  have h₂ := hlen (addr.toNat / 2 ^ 16 % 256) (by omega)
  have h₃ := hlen (addr.toNat / 2 ^ 8 % 256) (by omega)
  have h₄ := hlen (addr.toNat % 256) (by omega)
  simp only [ntop, List.length_append, List.length_cons]
  omega

/-- Only digits and dots are printed. -/
theorem notMem_ntop {b : UInt8} (h : isDigit b = false) (hdot : b ≠ 46) (addr : BitVec 32) :
    b ∉ ntop addr := by
  simp [ntop, notMem_printNat h, hdot]

/-- A number has at most three digits and nothing else. -/
theorem readOctet_digits {s : List UInt8} {n : ℕ} (h : readOctet s = some n) :
    s.length ≤ 3 ∧ ∀ b ∈ s, isDigit b := by
  cases s with
  | nil => exact absurd h (by simp [readOctet])
  | cons b rest =>
    simp only [readOctet, Option.ite_none_right_eq_some, Bool.and_eq_true, List.all_eq_true,
      decide_eq_true_eq, Bool.or_eq_true, List.isEmpty_iff, Bool.not_eq_true',
      decide_eq_false_iff_not] at h
    obtain ⟨⟨⟨hdigits, hle⟩, hzero⟩, -⟩ := h
    refine ⟨?_, hdigits⟩
    obtain ⟨hb, hrest⟩ := List.forall_mem_cons.mp hdigits
    rcases hzero with rfl | hb₀
    · simp
    · have hsplit := decimal_append (s := [b]) (t := rest) (by simpa using hb) hrest
      have hvalue : decimal [b] = b.toNat - 48 := by simp [decimal, hb]
      have hpos : 1 ≤ decimal [b] := by
        have hge : 48 ≤ b.toNat := by
          simp only [isDigit, Bool.and_eq_true, decide_eq_true_eq] at hb
          exact UInt8.le_iff_toNat_le.mp hb.1
        have hne : b.toNat ≠ 48 := fun heq => hb₀ (UInt8.toNat_inj.mp heq)
        omega
      by_contra hlong
      have hpow : 10 ^ 3 ≤ 10 ^ rest.length :=
        Nat.pow_le_pow_right (by decide) (by rw [List.length_cons] at hlong; omega)
      have hmul := Nat.mul_le_mul_right (10 ^ rest.length) hpos
      rw [List.singleton_append] at hsplit
      omega

/-- Nothing but digits and dots is read, and at most 15 characters. -/
theorem chars_of_pton {s : List UInt8} {addr : BitVec 32} (h : pton s = some addr) :
    s.length ≤ 15 ∧ ∀ b ∈ s, isDigit b ∨ b = 46 := by
  simp only [pton, Option.bind_eq_bind, Option.bind_eq_some_iff, Prod.exists] at h
  obtain ⟨s₁, t₁, h₁, s₂, t₂, h₂, s₃, s₄, h₃, a, ha, b, hb, c, hc, d, hd, -⟩ := h
  obtain rfl := eq_append_of_strchr h₁
  obtain rfl := eq_append_of_strchr h₂
  obtain rfl := eq_append_of_strchr h₃
  obtain ⟨hla, hda⟩ := readOctet_digits ha
  obtain ⟨hlb, hdb⟩ := readOctet_digits hb
  obtain ⟨hlc, hdc⟩ := readOctet_digits hc
  obtain ⟨hld, hdd⟩ := readOctet_digits hd
  constructor
  · simp only [List.length_append, List.length_cons]
    omega
  · intro x hx
    simp only [List.mem_append, List.mem_cons] at hx
    rcases hx with hx | rfl | hx | rfl | hx | rfl | hx
    · exact Or.inl (hda x hx)
    · exact Or.inr rfl
    · exact Or.inl (hdb x hx)
    · exact Or.inr rfl
    · exact Or.inl (hdc x hx)
    · exact Or.inr rfl
    · exact Or.inl (hdd x hx)

example : ntop 0x0a090002 = ascii "10.9.0.2" := by simp [ntop, printNat]; decide

end Ipv4
