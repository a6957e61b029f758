import Mathlib.Algebra.Order.Ring.Int
import Mathlib.Data.List.TakeWhile
import Mathlib.Tactic.Common
import Mathlib.Tactic.Ring

/-!
# Text as the C library reads it

C strings are the bytes before the first zero. The functions of `string.h` and
`stdlib.h` on them, for the "C" locale and 32-bit `int`, 64-bit `long`: searching
returns the two parts of the string around the character that was found.

## Main definitions

- `CString.ofBuffer` — the string in a buffer
- `CString.strchr`, `CString.strrchr` — the parts around the first, the last occurrence
- `CString.atoi` — decimal numbers, with everything `strtol` tolerates
- `CString.scanHex2` — one `sscanf` with `"%02x%n"`
- `CString.printHex2` — `sprintf` with `"%02x"`

## Main results

- `CString.scanHex2_two_iff` — the pairs of characters that pass for a byte
-/

namespace CString

/-- The bytes of an ASCII text. -/
def ascii (s : String) : List UInt8 := s.toList.map fun c => UInt8.ofNat c.toNat

/-- The string at the start of a buffer. -/
def ofBuffer (buf : List UInt8) : List UInt8 := buf.takeWhile (· ≠ 0)

/-- A string ends at its first zero byte. -/
theorem ofBuffer_eq {buf text : List UInt8} (h : text ++ [0] <+: buf) (hzero : 0 ∉ text) :
    ofBuffer buf = text := by
  obtain ⟨rest, rfl⟩ := h
  rw [ofBuffer, List.append_assoc, List.takeWhile_append_of_pos]
  · simp
  · intro b hb
    simpa using fun he : b = 0 => hzero (he ▸ hb)

/-- The parts before and after the first `c`. -/
def strchr (c : UInt8) : List UInt8 → Option (List UInt8 × List UInt8)
  | [] => none
  | b :: s => if b = c then some ([], s) else (strchr c s).map fun r => (b :: r.1, r.2)

/-- The parts before and after the last `c`. -/
def strrchr (c : UInt8) : List UInt8 → Option (List UInt8 × List UInt8)
  | [] => none
  | b :: s =>
    match strrchr c s with
    | some r => some (b :: r.1, r.2)
    | none => if b = c then some ([], s) else none

theorem strchr_eq_none {c : UInt8} {s : List UInt8} (h : c ∉ s) : strchr c s = none := by
  induction s with
  | nil => rfl
  | cons b s ih =>
    rw [List.mem_cons, not_or] at h
    rw [strchr, if_neg (Ne.symm h.1), ih h.2]
    rfl

theorem strchr_append {c : UInt8} {s : List UInt8} (h : c ∉ s) (t : List UInt8) :
    strchr c (s ++ c :: t) = some (s, t) := by
  induction s with
  | nil => simp [strchr]
  | cons b s ih =>
    rw [List.mem_cons, not_or] at h
    rw [List.cons_append, strchr, if_neg (Ne.symm h.1), ih h.2]
    rfl

/-- What `strchr` finds are the parts of the text. -/
theorem eq_append_of_strchr {c : UInt8} {s t u : List UInt8} (h : strchr c s = some (t, u)) :
    s = t ++ c :: u := by
  induction s generalizing t with
  | nil => exact absurd h (by simp [strchr])
  | cons b s ih =>
    rw [strchr] at h
    split at h
    · next hb =>
      obtain ⟨rfl, rfl⟩ := Prod.mk.inj (Option.some.inj h)
      rw [hb, List.nil_append]
    · obtain ⟨⟨t', u'⟩, hfound, hparts⟩ := Option.map_eq_some_iff.mp h
      obtain ⟨rfl, rfl⟩ := Prod.mk.inj hparts
      rw [ih hfound, List.cons_append]

/-- The part before the first `c` is determined by the text. -/
theorem append_cons_inj {c : UInt8} {s s' t t' : List UInt8} (h : s ++ c :: t = s' ++ c :: t')
    (hs : c ∉ s) (hs' : c ∉ s') : s = s' ∧ t = t' := by
  have hfound := strchr_append hs t
  rw [h, strchr_append hs' t', Option.some.injEq, Prod.mk.injEq] at hfound
  exact ⟨hfound.1.symm, hfound.2.symm⟩

theorem strrchr_eq_none {c : UInt8} {s : List UInt8} (h : c ∉ s) : strrchr c s = none := by
  induction s with
  | nil => rfl
  | cons b s ih =>
    rw [List.mem_cons, not_or] at h
    rw [strrchr, ih h.2]
    exact if_neg (Ne.symm h.1)

theorem strrchr_append {c : UInt8} {t : List UInt8} (h : c ∉ t) (s : List UInt8) :
    strrchr c (s ++ c :: t) = some (s, t) := by
  induction s with
  | nil => simp [strrchr, strrchr_eq_none h]
  | cons b s ih => rw [List.cons_append, strrchr, ih]

theorem strrchr_eq_some {c : UInt8} {s t u : List UInt8} (h : strrchr c s = some (t, u)) :
    s = t ++ c :: u ∧ c ∉ u := by
  have hmem : c ∈ s := by
    by_contra hno
    exact absurd h (by simp [strrchr_eq_none hno])
  -- the first occurrence in the reversed text is the last one
  obtain ⟨a, b, hsplit, ha⟩ := List.eq_append_cons_of_mem (List.mem_reverse.mpr hmem)
  have hs : s = b.reverse ++ c :: a.reverse := by
    rw [← List.reverse_inj, hsplit]
    simp
  have hlast : c ∉ a.reverse := by simpa using ha
  rw [hs, strrchr_append hlast, Option.some.injEq, Prod.mk.injEq] at h
  obtain ⟨rfl, rfl⟩ := h
  exact ⟨hs, hlast⟩

def isSpace (b : UInt8) : Bool := b = 32 || (9 ≤ b && b ≤ 13)

def isDigit (b : UInt8) : Bool := 48 ≤ b && b ≤ 57

/-- The number written by the leading decimal digits. -/
def decimal (s : List UInt8) : ℕ :=
  (s.takeWhile isDigit).foldl (fun n b => 10 * n + (b.toNat - 48)) 0

/-- `strtol` with base 10: blanks, a sign, digits; the result saturates. -/
def strtol (s : List UInt8) : ℤ :=
  let value : ℤ :=
    match s.dropWhile isSpace with
    | 45 :: digits => -decimal digits
    | 43 :: digits => decimal digits
    | digits => decimal digits
  max (-2 ^ 63) (min (2 ^ 63 - 1) value)

/-- `atoi` is `strtol` converted to `int`. -/
def atoi (s : List UInt8) : ℤ := (strtol s).bmod (2 ^ 32)

example : atoi (ascii " -12x") = -12 := by decide

-- ════════════════════════════════════════════════════════════════════════
-- Decimal numbers
-- ════════════════════════════════════════════════════════════════════════

/-- Nothing but decimal digits, at least one. -/
def IsNumber (s : List UInt8) : Prop := s ≠ [] ∧ ∀ b ∈ s, isDigit b

/-- The text does not go on with a character of the kind. -/
def StopsAt (kind : UInt8 → Bool) (s : List UInt8) : Prop := ∀ b ∈ s.head?, kind b = false

/-- `strtol` finds the number `m` at the start of the text: after blanks, with a sign or
none, and up to the first character that is no digit. Without digits the number is 0. -/
inductive Numeral : List UInt8 → ℤ → Prop
  | negative {blanks digits rest : List UInt8} (hblanks : ∀ b ∈ blanks, isSpace b)
      (hdigits : ∀ b ∈ digits, isDigit b) (hrest : StopsAt isDigit rest) :
      Numeral (blanks ++ 45 :: (digits ++ rest)) (-decimal digits)
  | positive {blanks digits rest : List UInt8} (hblanks : ∀ b ∈ blanks, isSpace b)
      (hdigits : ∀ b ∈ digits, isDigit b) (hrest : StopsAt isDigit rest) :
      Numeral (blanks ++ 43 :: (digits ++ rest)) (decimal digits)
  | unsigned {blanks digits rest : List UInt8} (hblanks : ∀ b ∈ blanks, isSpace b)
      (hdigits : ∀ b ∈ digits, isDigit b) (hrest : StopsAt isDigit rest)
      (hstart : digits = [] → StopsAt isSpace rest ∧ StopsAt (fun b => b = 43 || b = 45) rest) :
      Numeral (blanks ++ (digits ++ rest)) (decimal digits)

/-- A number as `strtol` returns it and the conversion to `int` changes it. -/
def toInt (m : ℤ) : ℤ := (max (-2 ^ 63) (min (2 ^ 63 - 1) m)).bmod (2 ^ 32)

theorem takeWhile_append_of_stops {kind : UInt8 → Bool} {s rest : List UInt8}
    (hs : ∀ b ∈ s, kind b) (hrest : StopsAt kind rest) : (s ++ rest).takeWhile kind = s := by
  rw [List.takeWhile_append_of_pos hs]
  cases rest with
  | nil => simp
  | cons b rest => simp [List.takeWhile_cons_of_neg, hrest b rfl]

theorem dropWhile_append_of_stops {kind : UInt8 → Bool} {s rest : List UInt8}
    (hs : ∀ b ∈ s, kind b) (hrest : StopsAt kind rest) : (s ++ rest).dropWhile kind = rest := by
  rw [List.dropWhile_append_of_pos hs]
  cases rest with
  | nil => simp
  | cons b rest => simp [List.dropWhile_cons_of_neg, hrest b rfl]

theorem decimal_append_of_stops {digits rest : List UInt8} (hdigits : ∀ b ∈ digits, isDigit b)
    (hrest : StopsAt isDigit rest) : decimal (digits ++ rest) = decimal digits := by
  rw [decimal, takeWhile_append_of_stops hdigits hrest, decimal,
    List.takeWhile_eq_self_iff.mpr hdigits]

theorem isSpace_of_isDigit {b : UInt8} (h : isDigit b = true) : isSpace b = false := by
  simp only [isDigit, isSpace, Bool.and_eq_true, decide_eq_true_eq, Bool.or_eq_false_iff,
    decide_eq_false_iff_not, UInt8.le_iff_toNat_le, ← UInt8.toNat_inj, UInt8.reduceToNat] at *
  grind

/-- The number found determines the result. -/
theorem atoi_eq {s : List UInt8} {m : ℤ} (h : Numeral s m) : atoi s = toInt m := by
  cases h with
  | @negative blanks digits rest hblanks hdigits hrest =>
    have hstart := dropWhile_append_of_stops hblanks
      (show StopsAt isSpace (45 :: (digits ++ rest)) by simp [StopsAt, isSpace])
    simp only [atoi, strtol, hstart, decimal_append_of_stops hdigits hrest, toInt]
  | @positive blanks digits rest hblanks hdigits hrest =>
    have hstart := dropWhile_append_of_stops hblanks
      (show StopsAt isSpace (43 :: (digits ++ rest)) by simp [StopsAt, isSpace])
    simp only [atoi, strtol, hstart, decimal_append_of_stops hdigits hrest, toInt]
  | @unsigned blanks digits rest hblanks hdigits hrest hother =>
    -- the number starts with its first digit, or nothing of it is there
    have hhead : StopsAt isSpace (digits ++ rest) ∧
        StopsAt (fun b => b = 43 || b = 45) (digits ++ rest) := by
      cases digits with
      | nil => exact hother rfl
      | cons d digits =>
        have hd := hdigits d (by simp)
        refine ⟨by simpa [StopsAt] using isSpace_of_isDigit hd, ?_⟩
        simp only [StopsAt, List.cons_append, List.head?_cons, Option.mem_some_iff, forall_eq',
          Bool.or_eq_false_iff, decide_eq_false_iff_not]
        exact ⟨by rintro rfl; exact absurd hd (by decide),
          by rintro rfl; exact absurd hd (by decide)⟩
    rw [atoi, strtol, dropWhile_append_of_stops hblanks hhead.1]
    split
    · next heq => exact absurd (hhead.2 45 (by simp [heq])) (by decide)
    · next heq => exact absurd (hhead.2 43 (by simp [heq])) (by decide)
    · rw [decimal_append_of_stops hdigits hrest, toInt]

/-- Every text starts with a number in this sense. -/
theorem exists_numeral (s : List UInt8) : ∃ m, Numeral s m := by
  have hstops : ∀ (kind : UInt8 → Bool) (s : List UInt8), StopsAt kind (s.dropWhile kind) := by
    intro kind s b hb
    have hhead := List.head?_dropWhile_not kind s
    rw [hb] at hhead
    exact hhead
  have hdigits : ∀ u : List UInt8, ∀ b ∈ u.takeWhile isDigit, isDigit b = true := fun _ _ hb =>
    List.mem_takeWhile_imp hb
  have hu : ∀ u : List UInt8, u.takeWhile isDigit ++ u.dropWhile isDigit = u := fun _ =>
    List.takeWhile_append_dropWhile
  rw [← List.takeWhile_append_dropWhile (p := isSpace) (l := s)]
  have hblanks : ∀ b ∈ s.takeWhile isSpace, isSpace b = true :=
    fun _ hb => List.mem_takeWhile_imp hb
  have hstop := hstops isSpace s
  generalize s.takeWhile isSpace = blanks at hblanks
  generalize s.dropWhile isSpace = t at hstop
  by_cases hsign : StopsAt (fun b => b = 43 || b = 45) t
  · have hfound := Numeral.unsigned hblanks (hdigits t) (hstops isDigit t) fun hnil => by
      have hrest : t.dropWhile isDigit = t := by simpa [hnil] using hu t
      exact hrest.symm ▸ ⟨hstop, hsign⟩
    rw [hu t] at hfound
    exact ⟨_, hfound⟩
  · cases t with
    | nil => exact absurd (show StopsAt _ [] by simp [StopsAt]) hsign
    | cons c u =>
      have hc : c = 43 ∨ c = 45 := by simpa [StopsAt, or_iff_not_imp_left] using hsign
      rcases hc with rfl | rfl
      · have hfound := Numeral.positive hblanks (hdigits u) (hstops isDigit u)
        rw [hu u] at hfound
        exact ⟨_, hfound⟩
      · have hfound := Numeral.negative hblanks (hdigits u) (hstops isDigit u)
        rw [hu u] at hfound
        exact ⟨_, hfound⟩

/-- What holds of the number at the start of a text holds of its `atoi`. -/
theorem forall_numeral_iff (s : List UInt8) (p : ℤ → Prop) :
    (∀ m, Numeral s m → p (toInt m)) ↔ p (atoi s) := by
  constructor
  · intro h
    obtain ⟨m, hm⟩ := exists_numeral s
    rw [atoi_eq hm]
    exact h m hm
  · intro h m hm
    rw [← atoi_eq hm]
    exact h

theorem atoi_of_digits {s : List UInt8} (hs : ∀ b ∈ s, isDigit b) (hsmall : decimal s < 2 ^ 31) :
    atoi s = decimal s := by
  have hfound : Numeral ([] ++ (s ++ [])) (decimal s) :=
    .unsigned (by simp) hs (by simp [StopsAt]) (by simp [StopsAt])
  rw [List.nil_append, List.append_nil] at hfound
  rw [atoi_eq hfound, toInt]
  norm_num at hsmall ⊢
  rw [min_eq_right (by omega)]
  exact Int.bmod_eq_of_le (by omega) (by omega)

theorem decimal_append {s t : List UInt8} (hs : ∀ b ∈ s, isDigit b) (ht : ∀ b ∈ t, isDigit b) :
    decimal (s ++ t) = decimal s * 10 ^ t.length + decimal t := by
  have hfold : ∀ (t : List UInt8) (n : ℕ), t.foldl (fun n b => 10 * n + (b.toNat - 48)) n =
      n * 10 ^ t.length + t.foldl (fun n b => 10 * n + (b.toNat - 48)) 0 := by
    intro t
    induction t with
    | nil => simp
    | cons b t ih =>
      intro n
      rw [List.foldl_cons, List.foldl_cons, ih, ih (10 * 0 + _), List.length_cons, Nat.pow_succ]
      ring
  have hst : ∀ b ∈ s ++ t, isDigit b = true := fun b hb =>
    (List.mem_append.mp hb).elim (hs b) (ht b)
  rw [decimal, List.takeWhile_eq_self_iff.mpr hst, List.foldl_append, hfold, decimal, decimal,
    List.takeWhile_eq_self_iff.mpr hs, List.takeWhile_eq_self_iff.mpr ht]

/-- Cutting a number short does no harm only to 0. -/
theorem atoi_take_eq_iff {s : List UInt8} (hs : ∀ b ∈ s, isDigit b) (hsmall : decimal s < 2 ^ 31)
    (k : ℕ) : atoi (s.take k) = decimal s ↔ s.length ≤ k ∨ decimal s = 0 := by
  have htake : ∀ b ∈ s.take k, isDigit b = true := fun b hb => hs b (List.mem_of_mem_take hb)
  have hdrop : ∀ b ∈ s.drop k, isDigit b = true := fun b hb => hs b (List.mem_of_mem_drop hb)
  have hsplit := decimal_append htake hdrop
  rw [List.take_append_drop] at hsplit
  have hle : decimal (s.take k) * 1 ≤ decimal (s.take k) * 10 ^ (s.drop k).length :=
    Nat.mul_le_mul_left _ (Nat.one_le_pow _ _ (by omega))
  rw [atoi_of_digits htake (by omega), Nat.cast_inj]
  constructor
  · intro heq
    by_contra hno
    obtain ⟨hlong, hpos⟩ := not_or.mp hno
    have hten : decimal (s.take k) * 10 ≤ decimal (s.take k) * 10 ^ (s.drop k).length := by
      refine Nat.mul_le_mul_left _ (Nat.le_self_pow ?_ 10)
      rw [List.length_drop]
      omega
    omega
  · rintro (hshort | hzero)
    · rw [List.take_of_length_le hshort]
    · omega

-- ════════════════════════════════════════════════════════════════════════
-- Hexadecimal numbers
-- ════════════════════════════════════════════════════════════════════════

/-- The value of a hexadecimal digit. -/
def hexValue (b : UInt8) : Option ℕ :=
  if 48 ≤ b && b ≤ 57 then some (b.toNat - 48)
  else if 65 ≤ b && b ≤ 70 then some (b.toNat - 55)
  else if 97 ≤ b && b ≤ 102 then some (b.toNat - 87)
  else none

/-- The conversion `%02x`: at most two characters, of which the first may be a
sign. `0x` is the start of a number but no number. Returns the value and the
number of characters. -/
def convertHex2 : List UInt8 → Option (BitVec 32 × ℕ)
  | [] => none
  | c :: rest =>
    if c = 43 || c = 45 then
      (rest.head?.bind hexValue).map fun d =>
        (if c = 45 then -BitVec.ofNat 32 d else BitVec.ofNat 32 d, 2)
    else
      match hexValue c with
      | none => none
      | some d =>
        match rest with
        | [] => some (BitVec.ofNat 32 d, 1)
        | c' :: _ =>
          match hexValue c' with
          | some d' => some (BitVec.ofNat 32 (16 * d + d'), 2)
          | none => if c = 48 && (c' = 120 || c' = 88) then none else some (BitVec.ofNat 32 d, 1)

/-- `sscanf(s, "%02x%n", ..)`: leading blanks are skipped and counted by `%n` but
not by the field width. -/
def scanHex2 (s : List UInt8) : Option (BitVec 32 × ℕ) :=
  (convertHex2 (s.dropWhile isSpace)).map fun r => (r.1, (s.takeWhile isSpace).length + r.2)

example : scanHex2 (ascii "7fff") = some (0x7f, 2) := by decide

-- ════════════════════════════════════════════════════════════════════════
-- Hexadecimal numbers of two digits
-- ════════════════════════════════════════════════════════════════════════

/-- The digit `sprintf` prints for a value below 16. -/
def hexDigit (n : ℕ) : UInt8 := UInt8.ofNat (if n < 10 then 48 + n else 87 + n)

/-- `sprintf(.., "%02x", byte)`, without the zero at its end. -/
def printHex2 (byte : UInt8) : List UInt8 :=
  [hexDigit (byte.toNat / 16), hexDigit (byte.toNat % 16)]

/-- `tolower` -/
def toLower (b : UInt8) : UInt8 := if 65 ≤ b && b ≤ 90 then b + 32 else b

def isSign (b : UInt8) : Bool := b = 43 || b = 45

/-- The two characters at the start of a text that one `"%02x%n"` takes for a byte: two
digits, a sign and a digit, or a blank and a digit with which the number ends. -/
def PassesForByte : List UInt8 → Prop
  | c :: d :: rest =>
    (hexValue d).isSome ∧ ((hexValue c).isSome ∨ isSign c ∨
      isSpace c ∧ (rest.head?.bind hexValue).isNone ∧
        ¬ (d = 48 ∧ (rest.head? = some 120 ∨ rest.head? = some 88)))
  | _ => False

/-- The facts about one character, for all of them. -/
theorem hexValue_table : ∀ i : Fin 256, ∀ v ∈ hexValue (UInt8.ofNat i), v < 16 ∧
    hexDigit v = toLower (UInt8.ofNat i) ∧ isSpace (UInt8.ofNat i) = false ∧
    isSign (UInt8.ofNat i) = false ∧ UInt8.ofNat i ≠ 0 := by
  decide +kernel

/-- A hexadecimal digit is no blank, no sign and not the end of a string, and its value is
printed as the same digit in lower case. -/
theorem hexValue_spec {b : UInt8} {v : ℕ} (h : hexValue b = some v) : v < 16 ∧
    hexDigit v = toLower b ∧ isSpace b = false ∧ isSign b = false ∧ b ≠ 0 := by
  have hb : UInt8.ofNat b.toNat = b := UInt8.ofNat_toNat
  have htable := hexValue_table ⟨b.toNat, b.toNat_lt⟩ v (by rw [hb]; exact h)
  rwa [hb] at htable

theorem hexValue_hexDigit {v : ℕ} (hv : v < 16) : hexValue (hexDigit v) = some v := by
  have htable : ∀ v : Fin 16, hexValue (hexDigit v) = some v.val := by decide
  exact htable ⟨v, hv⟩

theorem isSign_of_isSpace {b : UInt8} (h : isSpace b = true) : isSign b = false := by
  cases hs : isSign b with
  | false => rfl
  | true =>
    simp only [isSign, Bool.or_eq_true, decide_eq_true_eq] at hs
    rcases hs with rfl | rfl <;> exact absurd h (by decide)

/-- A number of one character: a digit that no digit and no `x` of a prefix follows. -/
theorem convertHex2_one_iff (d : UInt8) (rest : List UInt8) :
    (∃ byte, convertHex2 (d :: rest) = some (byte, 1)) ↔
      (hexValue d).isSome ∧ (rest.head?.bind hexValue).isNone ∧
        ¬ (d = 48 ∧ (rest.head? = some 120 ∨ rest.head? = some 88)) := by
  cases hd : hexValue d with
  | none =>
    refine iff_of_false ?_ (by simp)
    rintro ⟨byte, h⟩
    rw [convertHex2, hd] at h
    split at h
    · cases hr : rest.head?.bind hexValue <;> simp [hr] at h
    · simp at h
  | some x =>
    have hsign : (d = 43 || d = 45) = false := (hexValue_spec hd).2.2.2.1
    rw [convertHex2, hd]
    simp only [hsign, Bool.false_eq_true, if_false]
    cases rest with
    | nil => simp
    | cons e rest =>
      cases he : hexValue e with
      | some y => simp [he]
      | none =>
        by_cases hx : d = 48 ∧ (e = 120 ∨ e = 88)
        · simp [he, hx]
        · simp [he, hx]

/-- A number of two characters: a sign or a digit, and a digit. -/
theorem convertHex2_two_iff (c : UInt8) (rest : List UInt8) :
    (∃ byte, convertHex2 (c :: rest) = some (byte, 2)) ↔
      (rest.head?.bind hexValue).isSome ∧ ((hexValue c).isSome ∨ isSign c) := by
  by_cases hs : isSign c = true
  · rw [convertHex2, if_pos (show (c = 43 || c = 45) = true from hs)]
    cases rest.head?.bind hexValue <;> simp [hs]
  · rw [convertHex2, if_neg (show ¬ (c = 43 || c = 45) = true from hs)]
    cases hc : hexValue c with
    | none => simp [hs]
    | some x =>
      cases rest with
      | nil => simp
      | cons d rest =>
        cases hd : hexValue d with
        | some y => simp [hd]
        | none =>
          simp only [hd]
          split <;> simp [hd]

theorem convertHex2_length {s : List UInt8} {byte : BitVec 32} {n : ℕ}
    (h : convertHex2 s = some (byte, n)) : n = 1 ∨ n = 2 := by
  cases s with
  | nil => exact absurd h (by simp [convertHex2])
  | cons c rest =>
    rw [convertHex2] at h
    split at h
    · obtain ⟨_, -, he⟩ := Option.map_eq_some_iff.mp h
      exact Or.inr (Prod.mk.inj he).2.symm
    · split at h
      · exact absurd h (by simp)
      · split at h
        · exact Or.inl (Prod.mk.inj (Option.some.inj h)).2.symm
        · split at h
          · exact Or.inr (Prod.mk.inj (Option.some.inj h)).2.symm
          · split at h
            · exact absurd h (by simp)
            · exact Or.inl (Prod.mk.inj (Option.some.inj h)).2.symm

/-- The blanks before a number are counted with it. -/
theorem exists_map_count {x : Option (BitVec 32 × ℕ)} {k m : ℕ} :
    (∃ byte, (x.map fun r => (r.1, k + r.2)) = some (byte, k + m)) ↔
      ∃ byte, x = some (byte, m) := by
  cases x with
  | none => simp
  | some r => simp [Prod.ext_iff]

/-- One conversion takes two characters exactly if they pass for a byte. -/
theorem scanHex2_two_iff (s : List UInt8) :
    (∃ byte, scanHex2 s = some (byte, 2)) ↔ PassesForByte s := by
  cases s with
  | nil => exact iff_of_false (by simp [scanHex2, convertHex2]) id
  | cons c s =>
    by_cases hc : isSpace c = true
    · -- a blank is counted, so one character is left for the number
      have hhex : (hexValue c).isSome = false := by
        cases hv : hexValue c with
        | none => rfl
        | some v => exact absurd hc (by simp [(hexValue_spec hv).2.2.1])
      rw [scanHex2, List.dropWhile_cons_of_pos hc, List.takeWhile_cons_of_pos hc, List.length_cons]
      cases s with
      | nil => exact iff_of_false (by simp [convertHex2]) id
      | cons d rest =>
        by_cases hd : isSpace d = true
        · refine iff_of_false ?_ ?_
          · rintro ⟨byte, h⟩
            obtain ⟨⟨byte', k⟩, hconv, he⟩ := Option.map_eq_some_iff.mp h
            have hk := convertHex2_length hconv
            have hlen := (Prod.mk.inj he).2
            rw [List.takeWhile_cons_of_pos hd, List.length_cons] at hlen
            omega
          · rintro ⟨hdigit, -⟩
            obtain ⟨v, hv⟩ := Option.isSome_iff_exists.mp hdigit
            exact absurd hd (by simp [(hexValue_spec hv).2.2.1])
        · have hsign : isSign c = false := isSign_of_isSpace hc
          rw [List.dropWhile_cons_of_neg hd, List.takeWhile_cons_of_neg hd, List.length_nil]
          refine (exists_map_count (m := 1)).trans ((convertHex2_one_iff d rest).trans ?_)
          simp [PassesForByte, hhex, hsign, hc]
    · rw [scanHex2, List.dropWhile_cons_of_neg hc, List.takeWhile_cons_of_neg hc, List.length_nil]
      refine (exists_map_count (m := 2)).trans ((convertHex2_two_iff c s).trans ?_)
      cases s with
      | nil => simp [PassesForByte]
      | cons d rest => simp [PassesForByte, hc]

/-- Two digits are read as the byte they write. -/
theorem scanHex2_digits {c d : UInt8} {x y : ℕ} (hc : hexValue c = some x) (hd : hexValue d = some y)
    (rest : List UInt8) :
    scanHex2 (c :: d :: rest) = some (BitVec.ofNat 32 (16 * x + y), 2) := by
  obtain ⟨-, -, hspace, hsign, -⟩ := hexValue_spec hc
  have hsign' : (c = 43 || c = 45) = false := hsign
  rw [scanHex2, List.dropWhile_cons_of_neg (by simp [hspace]),
    List.takeWhile_cons_of_neg (by simp [hspace]), convertHex2]
  simp [hsign', hc, hd]

theorem zero_notMem_printHex2 (byte : UInt8) : 0 ∉ printHex2 byte := by
  have hdigit : ∀ {v : ℕ}, v < 16 → 0 ≠ hexDigit v := fun hv =>
    (hexValue_spec (hexValue_hexDigit hv)).2.2.2.2.symm
  have hbyte := byte.toNat_lt
  simpa [printHex2] using ⟨hdigit (by omega), hdigit (by omega)⟩

/-- The byte that two digits write is printed as these digits. -/
theorem printHex2_of_digits {c d : UInt8} {x y : ℕ} (hc : hexValue c = some x)
    (hd : hexValue d = some y) :
    printHex2 (BitVec.ofNat 32 (16 * x + y)).toNat.toUInt8 = [toLower c, toLower d] := by
  obtain ⟨hx, hxc, -⟩ := hexValue_spec hc
  obtain ⟨hy, hyd, -⟩ := hexValue_spec hd
  have hval : ((BitVec.ofNat 32 (16 * x + y)).toNat.toUInt8).toNat = 16 * x + y := by
    simp
    omega
  rw [printHex2, hval, show (16 * x + y) / 16 = x by omega, show (16 * x + y) % 16 = y by omega, hxc,
    hyd]

/-- A byte is read back from its two digits. -/
theorem scanHex2_printHex2 (byte : UInt8) (rest : List UInt8) :
    scanHex2 (printHex2 byte ++ rest) = some (BitVec.ofNat 32 byte.toNat, 2) := by
  have hbyte := byte.toNat_lt
  have hscan := scanHex2_digits (hexValue_hexDigit (show byte.toNat / 16 < 16 by omega))
    (hexValue_hexDigit (show byte.toNat % 16 < 16 by omega)) rest
  rwa [show 16 * (byte.toNat / 16) + byte.toNat % 16 = byte.toNat by omega] at hscan

end CString
