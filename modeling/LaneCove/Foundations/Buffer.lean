import LaneCove.Foundations.CString

/-!
# Byte buffers with checked accesses

A buffer of a fixed size. Offsets and lengths are integers, as the programs that use
them compute them, and an access that is not inside the buffer or has a negative
length is a fault. A program that returns a result has made no such access.

## Main definitions

- `Buffer n` — `n` bytes
- `Buffer.load`, `Buffer.store` — `memcpy` out of and into a buffer
- `Buffer.loadString`, `Buffer.strncpy` — strings that are read from and copied into a buffer
- `Buffer.Safe` — a computation returns, with a result that satisfies a postcondition

## Main results

- `Buffer.Safe.bind` — sequencing
- `Buffer.loadWithin_prefix`, `Buffer.load_part` — reading a known part of the buffer
- `Buffer.store_behind` — consecutive stores concatenate
- `Buffer.loadString_ok`, `Buffer.loadString_eq_error` — a string is read up to its end
-/

/-- A buffer of `n` bytes. -/
abbrev Buffer (n : ℕ) := { bytes : List UInt8 // bytes.length = n }

namespace Buffer

variable {n : ℕ} {α β : Type}

inductive Fault
  | outside (off len : ℤ)
  | negative (len : ℤ)
deriving DecidableEq

/-- A length that is passed on. -/
def checkLength (len : ℤ) : Except Fault ℤ :=
  if 0 ≤ len then .ok len else .error (.negative len)

/-- Read `len` bytes at `off`, of a buffer of which the first `size` bytes may be read. -/
def loadWithin (size : ℤ) (buf : Buffer n) (off len : ℤ) : Except Fault (List UInt8) :=
  if 0 ≤ off ∧ off + len ≤ size ∧ size ≤ n then
    (checkLength len).map fun len => (buf.1.drop off.toNat).take len.toNat
  else .error (.outside off len)

/-- Read `len` bytes at `off`. -/
def load (buf : Buffer n) (off len : ℤ) : Except Fault (List UInt8) := loadWithin n buf off len

/-- Write the bytes at `off`. -/
def store (buf : Buffer n) (off : ℤ) (bytes : List UInt8) : Except Fault (Buffer n) :=
  if h : 0 ≤ off ∧ off + bytes.length ≤ n then
    .ok ⟨buf.1.take off.toNat ++ bytes ++ buf.1.drop (off.toNat + bytes.length), by
      have hlen := buf.2
      simp only [List.length_append, List.length_take, List.length_drop]
      omega⟩
  else .error (.outside off bytes.length)

/-- Read the string at `off`, with the zero byte that ends it. -/
def loadString (buf : Buffer n) (off : ℤ) : Except Fault (List UInt8) :=
  let text := CString.ofBuffer (buf.1.drop off.toNat)
  (load buf off (text.length + 1)).map fun _ => text

/-- `strncpy`: at most `len` characters, and zeros up to `len`. -/
def strncpy (buf : Buffer n) (src : List UInt8) (len : ℕ) : Except Fault (Buffer n) :=
  store buf 0 (src.take len ++ List.replicate (len - src.length) 0)

-- ════════════════════════════════════════════════════════════════════════
-- Values
-- ════════════════════════════════════════════════════════════════════════

theorem ok_bind (a : α) (f : α → Except Fault β) : (Except.ok a >>= f) = f a := rfl

theorem checkLength_ok {len : ℤ} (h : 0 ≤ len) : checkLength len = .ok len := if_pos h

theorem loadWithin_ok {size off len : ℤ} (buf : Buffer n) (hoff : 0 ≤ off) (hlen : 0 ≤ len)
    (hsize : off + len ≤ size) (hn : size ≤ n) :
    loadWithin size buf off len = .ok ((buf.1.drop off.toNat).take len.toNat) := by
  rw [loadWithin, if_pos ⟨hoff, hsize, hn⟩, checkLength_ok hlen]
  rfl

theorem load_ok {off len : ℤ} (buf : Buffer n) (hoff : 0 ≤ off) (hlen : 0 ≤ len)
    (hn : off + len ≤ n) : load buf off len = .ok ((buf.1.drop off.toNat).take len.toNat) :=
  loadWithin_ok buf hoff hlen hn le_rfl

/-- Reading from a known first part of the buffer and no further. -/
theorem loadWithin_prefix {bytes : List UInt8} {buf : Buffer n} (hbytes : bytes <+: buf.1)
    {off len : ℤ} (hoff : 0 ≤ off) (hlen : 0 ≤ len) (hsize : off + len ≤ bytes.length) :
    loadWithin bytes.length buf off len = .ok ((bytes.drop off.toNat).take len.toNat) := by
  have hn : bytes.length ≤ n := buf.2 ▸ hbytes.length_le
  obtain ⟨rest, hrest⟩ := hbytes
  rw [loadWithin_ok buf hoff hlen hsize (by omega), ← hrest,
    List.drop_append_of_le_length (by omega),
    List.take_append_of_le_length (by rw [List.length_drop]; omega)]

/-- Reading all of a known part of the buffer. -/
theorem load_part {before bytes : List UInt8} {buf : Buffer n}
    (hbytes : before ++ bytes <+: buf.1) :
    load buf before.length bytes.length = .ok bytes := by
  have hn := hbytes.length_le
  rw [List.length_append, buf.2] at hn
  obtain ⟨rest, hrest⟩ := hbytes
  rw [load_ok buf (by omega) (by omega) (by omega), ← hrest, List.append_assoc]
  simp

theorem store_ok {off : ℤ} (buf : Buffer n) {bytes : List UInt8} (hoff : 0 ≤ off)
    (hn : off + bytes.length ≤ n) : ∃ buf', store buf off bytes = .ok buf' ∧
      buf'.1 = buf.1.take off.toNat ++ bytes ++ buf.1.drop (off.toNat + bytes.length) := by
  rw [store, dif_pos ⟨hoff, hn⟩]
  exact ⟨_, rfl, rfl⟩

/-- A store right behind a known first part of the buffer makes this part longer. -/
theorem store_behind {off : ℤ} {buf : Buffer n} {before : List UInt8} (hbefore : before <+: buf.1)
    (bytes : List UInt8) (hoff : off = before.length) (hn : off + bytes.length ≤ n) :
    ∃ buf', store buf off bytes = .ok buf' ∧ before ++ bytes <+: buf'.1 := by
  subst hoff
  obtain ⟨buf', hstore, hbuf'⟩ := store_ok buf (Int.natCast_nonneg _) hn
  refine ⟨buf', hstore, ?_⟩
  rw [hbuf', Int.toNat_natCast, ← List.prefix_iff_eq_take.mp hbefore]
  exact List.prefix_append _ _

/-- A store over a known part of the buffer replaces this part. -/
theorem store_over {buf : Buffer n} {before old rest : List UInt8}
    (hbuf : buf.1 = before ++ (old ++ rest)) {bytes : List UInt8}
    (hlen : bytes.length = old.length) :
    ∃ buf', store buf before.length bytes = .ok buf' ∧ buf'.1 = before ++ (bytes ++ rest) := by
  have hn : before.length + (old.length + rest.length) = n := by simpa [hbuf] using buf.2
  obtain ⟨buf', hstore, hbuf'⟩ := store_ok buf (Int.natCast_nonneg before.length)
    (show (before.length : ℤ) + bytes.length ≤ n by omega)
  refine ⟨buf', hstore, ?_⟩
  rw [hbuf', hbuf, Int.toNat_natCast, List.take_left, hlen, ← List.drop_drop, List.drop_left,
    List.drop_left, List.append_assoc]

theorem loadString_ok {off : ℤ} {buf : Buffer n} {before text rest : List UInt8}
    (hbuf : buf.1 = before ++ (text ++ 0 :: rest)) (hoff : off = before.length) (hzero : 0 ∉ text) :
    loadString buf off = .ok text := by
  subst hoff
  have htext : CString.ofBuffer (buf.1.drop (before.length : ℤ).toNat) = text := by
    rw [Int.toNat_natCast, hbuf, List.drop_left]
    exact CString.ofBuffer_eq ⟨rest, by simp⟩ hzero
  have hn : before.length + (text.length + (rest.length + 1)) = n := by
    simpa [hbuf] using buf.2
  simp only [loadString, htext]
  rw [load_ok buf (by omega) (by omega) (by omega)]
  rfl

/-- A string without an end runs out of the buffer. -/
theorem loadString_eq_error {buf : Buffer n} (hzero : 0 ∉ buf.1) :
    loadString buf 0 = .error (.outside 0 (n + 1)) := by
  have htext : CString.ofBuffer (buf.1.drop (0 : ℤ).toNat) = buf.1 := by
    rw [Int.toNat_zero, List.drop_zero, CString.ofBuffer, List.takeWhile_eq_self_iff]
    intro b hb
    simpa using fun he : b = 0 => hzero (he ▸ hb)
  simp only [loadString, htext, buf.2]
  rw [load, loadWithin, if_neg (by omega)]
  rfl

theorem strncpy_ok {len : ℕ} (buf : Buffer n) (src : List UInt8) (hlen : len ≤ n) :
    ∃ buf', strncpy buf src len = .ok buf' ∧
      buf'.1 = src.take len ++ List.replicate (len - src.length) 0 ++ buf.1.drop len := by
  have hsize : (src.take len ++ List.replicate (len - src.length) (0 : UInt8)).length = len := by
    rw [List.length_append, List.length_take, List.length_replicate]
    omega
  obtain ⟨buf', hstore, hbuf'⟩ := store_ok buf (le_refl 0) (show 0 + ((src.take len ++
    List.replicate (len - src.length) (0 : UInt8)).length : ℤ) ≤ n by rw [hsize]; omega)
  refine ⟨buf', hstore, ?_⟩
  rw [hbuf', hsize]
  simp

-- ════════════════════════════════════════════════════════════════════════
-- Safety
-- ════════════════════════════════════════════════════════════════════════

/-- The computation returns, and its result satisfies `Q`. -/
def Safe (x : Except Fault α) (Q : α → Prop) : Prop := ∃ a, x = .ok a ∧ Q a

theorem Safe.ok {a : α} {Q : α → Prop} (h : Q a) : Safe (.ok a) Q := ⟨a, rfl, h⟩

theorem Safe.bind {x : Except Fault α} {f : α → Except Fault β} {P : α → Prop} {Q : β → Prop}
    (hx : Safe x P) (hf : ∀ a, P a → Safe (f a) Q) : Safe (x >>= f) Q := by
  obtain ⟨a, rfl, ha⟩ := hx
  exact hf a ha

end Buffer
