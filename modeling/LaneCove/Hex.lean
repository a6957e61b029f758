import LaneCove.Config
import LaneCove.Foundations.Buffer

/-!
# Keys as hexadecimal text

`bytes_to_hex` and `hex_to_bytes` of `common.c`. What the first prints the second reads
back. The second hands each pair of characters to `sscanf`, which also takes a sign and a
digit, or a blank and a digit, for a number of two characters.

## Main definitions

- `bytesToHex` — the function of that name, on the buffer it fills
- `IsHex` — the texts `hex_to_bytes` is meant to accept

## Main results

- `hexToBytes_isSome_iff` — the texts it does accept
- `hexToBytes_exact_iff` — for which texts these agree
- `hex_round_trip` — printing and reading are inverse
-/

namespace LaneCove

open CString

variable {n : ℕ}

/-- The loop of `bytes_to_hex` from byte `i` on. Each `sprintf` also stores the end of a
string, which the next one overwrites. -/
def printLoop (i : ℕ) : Bytes → Buffer n → Except Buffer.Fault (Buffer n)
  | [], hexOut => .ok hexOut
  | byte :: bytes, hexOut => do
    let hexOut ← Buffer.store hexOut (i * 2) (printHex2 byte ++ [0])
    printLoop (i + 1) bytes hexOut

/-- `bytes_to_hex` -/
def bytesToHex (bytes : Bytes) (hexOut : Buffer n) : Except Buffer.Fault (Buffer n) := do
  let hexOut ← printLoop 0 bytes hexOut
  Buffer.store hexOut (bytes.length * 2) [0]

/-- `len` bytes in hexadecimal: `2 * len` digits. -/
def IsHex (hex : Bytes) (len : ℕ) : Prop :=
  hex.length = 2 * len ∧ ∀ c ∈ hex, (hexValue c).isSome

instance (hex : Bytes) (len : ℕ) : Decidable (IsHex hex len) := inferInstanceAs (Decidable (_ ∧ _))

-- ════════════════════════════════════════════════════════════════════════
-- Reading
-- ════════════════════════════════════════════════════════════════════════

theorem hexLoop_succ {hex : Bytes} {byte : BitVec 32} (h : scanHex2 hex = some (byte, 2))
    (len : ℕ) :
    hexLoop (len + 1) hex = (hexLoop len (hex.drop 2)).map (byte.toNat.toUInt8 :: ·) := by
  rw [hexLoop, h]
  rfl

/-- The loop succeeds exactly if every pair of characters passes for a byte. -/
theorem hexLoop_isSome_iff (hex : Bytes) (len : ℕ) :
    (hexLoop len hex).isSome ↔ ∀ i < len, PassesForByte (hex.drop (2 * i)) := by
  induction len generalizing hex with
  | zero => simp [hexLoop]
  | succ len ih =>
    have htail := ih (hex.drop 2)
    simp only [List.drop_drop, show ∀ i, 2 + 2 * i = 2 * (i + 1) by omega] at htail
    rw [Nat.forall_lt_succ_left, Nat.mul_zero, List.drop_zero, ← scanHex2_two_iff hex, ← htail,
      hexLoop]
    split
    · next byte hscan => simp [hscan]
    · next hscan =>
      refine iff_of_false (by simp) ?_
      rintro ⟨⟨byte, hbyte⟩, -⟩
      exact hscan byte hbyte

/-- The texts that `hex_to_bytes` accepts. -/
theorem hexToBytes_isSome_iff (hex : Bytes) (len : ℕ) :
    (hexToBytes hex len).isSome ↔ hex.length % 2 ^ 32 = len * 2 % 2 ^ 32 ∧
      ∀ i < len, PassesForByte (hex.drop (2 * i)) := by
  rw [hexToBytes]
  split
  · next hne => exact iff_of_false (by simp) fun h => hne h.1
  · next heq =>
    rw [hexLoop_isSome_iff]
    exact ⟨fun h => ⟨not_not.mp heq, h⟩, And.right⟩

/-- Where a text of pairs that pass for bytes has other characters than digits. -/
theorem isHex_iff_of_passes {hex : Bytes} {len : ℕ}
    (hpass : ∀ i < len, PassesForByte (hex.drop (2 * i))) :
    IsHex hex len ↔ hex.length = 2 * len ∧
      ∀ i < len, ∀ c ∈ hex[2 * i]?, isSign c = false ∧ isSpace c = false := by
  refine and_congr_right fun hlen => ?_
  constructor
  · intro hdigits i hi c hc
    obtain ⟨v, hv⟩ := Option.isSome_iff_exists.mp (hdigits c (List.mem_of_getElem? hc))
    exact ⟨(hexValue_spec hv).2.2.2.1, (hexValue_spec hv).2.2.1⟩
  · intro hfirst c hc
    obtain ⟨k, hk, rfl⟩ := List.getElem_of_mem hc
    -- position `k` is the first or the second character of pair `k / 2`
    have hpair := hpass (k / 2) (by omega)
    have hsecond : 2 * (k / 2) + 1 < hex.length := by omega
    rw [List.drop_eq_getElem_cons (by omega), List.drop_eq_getElem_cons hsecond] at hpair
    obtain ⟨hd, hc⟩ := hpair
    by_cases hodd : k % 2 = 1
    · simpa only [show 2 * (k / 2) + 1 = k by omega] using hd
    · have hidx : 2 * (k / 2) = k := by omega
      obtain ⟨hsign, hspace⟩ := hfirst (k / 2) (by omega) hex[k] (by simp [hidx])
      simpa only [hidx, hsign, hspace, Bool.false_eq_true, false_and, or_false] using hc

theorem IsHex.passes {hex : Bytes} {len : ℕ} (h : IsHex hex len) {i : ℕ} (hi : i < len) :
    PassesForByte (hex.drop (2 * i)) := by
  have hlen := h.1
  rw [List.drop_eq_getElem_cons (by omega), List.drop_eq_getElem_cons (by omega)]
  exact ⟨h.2 _ (List.getElem_mem _), Or.inl (h.2 _ (List.getElem_mem _))⟩

/-- **Which texts are keys.** `hex_to_bytes` is right about a text exactly unless every pair
of characters passes for a byte and the text has a sign or a blank in front of a digit, or a
length that only as an `int` is the expected one. -/
theorem hexToBytes_exact_iff (hex : Bytes) (len : ℕ) :
    ((hexToBytes hex len).isSome ↔ IsHex hex len) ↔
      ¬ (hex.length % 2 ^ 32 = len * 2 % 2 ^ 32 ∧
        (∀ i < len, PassesForByte (hex.drop (2 * i))) ∧
        (hex.length ≠ 2 * len ∨ ∃ i < len, ∃ c ∈ hex[2 * i]?, isSign c ∨ isSpace c)) := by
  have hmeant : IsHex hex len → (hexToBytes hex len).isSome := fun h =>
    (hexToBytes_isSome_iff hex len).mpr ⟨by rw [h.1, Nat.mul_comm], fun i hi => h.passes hi⟩
  have hother : (∀ i < len, PassesForByte (hex.drop (2 * i))) →
      (¬ IsHex hex len ↔ hex.length ≠ 2 * len ∨
        ∃ i < len, ∃ c ∈ hex[2 * i]?, isSign c ∨ isSpace c) := by
    intro hpass
    rw [isHex_iff_of_passes hpass, not_and_or]
    simp [or_iff_not_imp_left]
  constructor
  · rintro h ⟨hlen, hpass, hodd⟩
    exact (hother hpass).mpr hodd (h.mp ((hexToBytes_isSome_iff hex len).mpr ⟨hlen, hpass⟩))
  · refine fun h => ⟨fun hsome => ?_, hmeant⟩
    obtain ⟨hlen, hpass⟩ := (hexToBytes_isSome_iff hex len).mp hsome
    by_contra hno
    exact h ⟨hlen, hpass, (hother hpass).mp hno⟩

/-- A sign and a digit are taken for a byte. -/
theorem hexToBytes_sign : ¬ ((hexToBytes (ascii "+f") 1).isSome ↔ IsHex (ascii "+f") 1) := by
  decide

-- ════════════════════════════════════════════════════════════════════════
-- Printing
-- ════════════════════════════════════════════════════════════════════════

theorem printLoop_ok (bytes : Bytes) {printed : Bytes} {i : ℕ} {hexOut : Buffer n}
    (hprinted : printed <+: hexOut.1) (hi : printed.length = i * 2)
    (hroom : printed.length + bytes.length * 2 < n) :
    ∃ hexOut', printLoop i bytes hexOut = .ok hexOut' ∧
      printed ++ bytes.flatMap printHex2 <+: hexOut'.1 := by
  induction bytes generalizing printed i hexOut with
  | nil => exact ⟨hexOut, rfl, by simpa using hprinted⟩
  | cons byte bytes ih =>
    rw [List.length_cons] at hroom
    obtain ⟨hexOut₁, hstore, hnext⟩ := Buffer.store_behind hprinted (printHex2 byte ++ [0])
      (show (i * 2 : ℤ) = printed.length by omega) (by simp [printHex2]; omega)
    have hnext' : printed ++ printHex2 byte <+: hexOut₁.1 := by
      refine List.IsPrefix.trans ?_ hnext
      rw [← List.append_assoc]
      exact List.prefix_append _ _
    obtain ⟨hexOut', hloop, hdone⟩ := ih hnext' (i := i + 1) (by simp [printHex2]; omega)
      (by simp [printHex2]; omega)
    refine ⟨hexOut', ?_, by simpa using hdone⟩
    rw [printLoop, hstore]
    exact hloop

/-- The buffer holds the digits of all bytes as a string. -/
theorem bytesToHex_ok (bytes : Bytes) (hexOut : Buffer n) (hroom : bytes.length * 2 < n) :
    ∃ hexOut', bytesToHex bytes hexOut = .ok hexOut' ∧
      ofBuffer hexOut'.1 = bytes.flatMap printHex2 := by
  obtain ⟨hexOut₁, hloop, hprinted⟩ := printLoop_ok bytes
    (show [] <+: hexOut.1 from List.nil_prefix) (show [].length = 0 * 2 from rfl)
    (by simpa using hroom)
  rw [List.nil_append] at hprinted
  have hlen : (bytes.flatMap printHex2).length = bytes.length * 2 := by
    simp [List.length_flatMap, printHex2]
  obtain ⟨hexOut', hstore, hdone⟩ := Buffer.store_behind hprinted [0]
    (show (bytes.length * 2 : ℤ) = (bytes.flatMap printHex2).length by omega) (by simp; omega)
  refine ⟨hexOut', ?_, ofBuffer_eq hdone fun hmem => ?_⟩
  · rw [bytesToHex, hloop]
    exact hstore
  · obtain ⟨byte, -, hbyte⟩ := List.mem_flatMap.mp hmem
    exact zero_notMem_printHex2 byte hbyte

-- ════════════════════════════════════════════════════════════════════════
-- Round trips
-- ════════════════════════════════════════════════════════════════════════

theorem hexLoop_printed (bytes rest : Bytes) :
    hexLoop bytes.length (bytes.flatMap printHex2 ++ rest) = some bytes := by
  induction bytes with
  | nil => rfl
  | cons byte bytes ih =>
    have hlen : (printHex2 byte).length = 2 := rfl
    rw [List.flatMap_cons, List.append_assoc, List.length_cons,
      hexLoop_succ (scanHex2_printHex2 byte _), List.drop_left' hlen, ih, Option.map_some,
      BitVec.toNat_ofNat, Nat.mod_eq_of_lt (by have := byte.toNat_lt; omega)]
    simp

theorem hexLoop_digits {hex : Bytes} {len : ℕ} (h : IsHex hex len) :
    ∃ bytes, hexLoop len hex = some bytes ∧ bytes.length = len ∧
      bytes.flatMap printHex2 = hex.map toLower := by
  induction len generalizing hex with
  | zero =>
    obtain rfl := List.eq_nil_of_length_eq_zero h.1
    exact ⟨[], rfl, rfl, rfl⟩
  | succ len ih =>
    obtain ⟨hlen, hdigits⟩ := h
    match hex, hlen with
    | c :: d :: rest, hlen =>
      obtain ⟨x, hx⟩ := Option.isSome_iff_exists.mp (hdigits c (by simp))
      obtain ⟨y, hy⟩ := Option.isSome_iff_exists.mp (hdigits d (by simp))
      have hrest : IsHex rest len :=
        ⟨by simpa [Nat.mul_add] using hlen, fun b hb => hdigits b (by simp [hb])⟩
      obtain ⟨bytes, hloop, hcount, hprint⟩ := ih hrest
      refine ⟨(BitVec.ofNat 32 (16 * x + y)).toNat.toUInt8 :: bytes, ?_, ?_, ?_⟩
      · rw [hexLoop_succ (scanHex2_digits hx hy rest), List.drop_succ_cons, List.drop_succ_cons,
          List.drop_zero, hloop]
        rfl
      · rw [List.length_cons, hcount]
      · rw [List.flatMap_cons, hprint, printHex2_of_digits hx hy]
        rfl

/-- **Round trips.** Every byte string, printed into any buffer with room for it, is read back
from the buffer; and every text of digits, in either case, is read as bytes that are printed
as this text in lower case. -/
theorem hex_round_trip :
    (∀ (bytes : Bytes) (n : ℕ) (hexOut : Buffer n), bytes.length * 2 < n →
      ∃ hexOut', bytesToHex bytes hexOut = .ok hexOut' ∧
        hexToBytes (ofBuffer hexOut'.1) bytes.length = some bytes) ∧
    ∀ (hex : Bytes) (len : ℕ), IsHex hex len → ∃ bytes, hexToBytes hex len = some bytes ∧
      ∀ (n : ℕ) (hexOut : Buffer n), len * 2 < n →
        ∃ hexOut', bytesToHex bytes hexOut = .ok hexOut' ∧
          ofBuffer hexOut'.1 = hex.map toLower := by
  have hread : ∀ {hex : Bytes} {len : ℕ}, hex.length = 2 * len →
      hexToBytes hex len = hexLoop len hex := by
    intro hex len hlen
    rw [hexToBytes, if_neg (by rw [hlen, Nat.mul_comm]; exact not_not.mpr rfl)]
  constructor
  · intro bytes n hexOut hroom
    obtain ⟨hexOut', hprint, hbuf⟩ := bytesToHex_ok bytes hexOut hroom
    refine ⟨hexOut', hprint, ?_⟩
    rw [hbuf, hread (by simp [List.length_flatMap, printHex2, Nat.mul_comm])]
    simpa using hexLoop_printed bytes []
  · intro hex len h
    obtain ⟨bytes, hloop, hcount, hprinted⟩ := hexLoop_digits h
    refine ⟨bytes, (hread h.1).trans hloop, fun n hexOut hroom => ?_⟩
    obtain ⟨hexOut', hprint, hbuf⟩ := bytesToHex_ok bytes hexOut (hcount.symm ▸ hroom)
    exact ⟨hexOut', hprint, hbuf.trans hprinted⟩

/-- The bytes of the packet header, in a buffer that is not zeroed. -/
theorem hex_round_trip_header : ∃ hexOut', bytesToHex pktHeader
    (⟨List.replicate 17 0xff, rfl⟩ : Buffer 17) = .ok hexOut' ∧
      hexToBytes (ofBuffer hexOut'.1) 8 = some pktHeader :=
  hex_round_trip.1 pktHeader 17 ⟨List.replicate 17 0xff, rfl⟩ (by decide)

end LaneCove
