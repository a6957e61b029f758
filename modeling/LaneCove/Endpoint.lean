import LaneCove.Document
import LaneCove.Foundations.Buffer

/-!
# Endpoints and the memory they are read from

`load_config` copies an endpoint into a local buffer of 256 bytes, of which `strncpy` fills
255, and searches the copy for the last colon. The last byte is not cleared. An endpoint of
255 characters or more has no end in the buffer if that byte is not zero, and the search goes
on in the memory behind the buffer.

## Main definitions

- `readEndpoint` — the branch of `load_config` for endpoints, on the memory it works in
- `EndpointExact` — the result is what the text says, in every memory

## Main results

- `readEndpoint_eq`, `readEndpoint_fault` — `parseEndpoint` is this branch, where the text ends
- `endpoint_exact_iff` — the texts that are read right
-/

namespace LaneCove

open CString

variable {n : ℕ}

/-- The branch for `endpoint` up to the call of `resolve_endpoint`. The memory begins with the
local buffer; its size is how far it may be read. -/
def readEndpoint (value : Bytes) (memory : Buffer n) :
    Except Buffer.Fault (Except LoadError (Bytes × ℤ)) := do
  let memory ← Buffer.strncpy memory value 255
  let text ← Buffer.loadString memory 0
  match strrchr 58 text with
  | none => .ok (.error (.endpoint value))
  | some (buf, _) =>
    if buf = [] then .ok (.error (.endpoint value))
    else
      let memory ← Buffer.store memory buf.length [0]
      let port ← Buffer.loadString memory (buf.length + 1)
      if atoi port ≤ 0 || 65535 < atoi port then .ok (.error (.endpointPort value))
      else
        let host ← Buffer.loadString memory 0
        .ok (.ok (host.take 255, atoi port))

/-- The outcome is the same in every memory of at least the 256 bytes of the buffer, also if
there is nothing behind them; and if the endpoint is accepted it is the host, a colon, and a
port number without a colon. -/
def EndpointExact (value : Bytes) : Prop :=
  ∃ outcome, (∀ (n : ℕ) (memory : Buffer n), 256 ≤ n → readEndpoint value memory = .ok outcome) ∧
    ∀ host port, outcome = .ok (host, port) → ∃ t, value = host ++ 58 :: t ∧ 58 ∉ t ∧
      IsNumber t ∧ (decimal t : ℤ) = port ∧ 1 ≤ port ∧ port ≤ 65535

-- ════════════════════════════════════════════════════════════════════════
-- The branch and its model
-- ════════════════════════════════════════════════════════════════════════

/-- The string that is searched, and what follows it in the memory. -/
theorem strncpy_endpoint {value : Bytes} (hvalue : 0 ∉ value) (memory : Buffer n) (hn : 256 ≤ n)
    (hends : value.length < 255 ∨ 0 ∈ memory.1.drop 255) :
    ∃ memory' rest, Buffer.strncpy memory value 255 = .ok memory' ∧
      memory'.1 = endpointBuf value (memory.1.drop 255) ++ 0 :: rest ∧
      0 ∉ endpointBuf value (memory.1.drop 255) := by
  obtain ⟨memory', hcopy, hmemory'⟩ := Buffer.strncpy_ok memory value (show 255 ≤ n by omega)
  rw [endpointBuf]
  split
  · next hshort =>
    refine ⟨memory', List.replicate (254 - value.length) 0 ++ memory.1.drop 255, hcopy, ?_, hvalue⟩
    rw [hmemory', List.take_of_length_le (by omega),
      show 255 - value.length = 254 - value.length + 1 by omega, List.replicate_succ]
    simp
  · next hlong =>
    obtain ⟨a, rest, hsplit, ha⟩ := List.eq_append_cons_of_mem (hends.resolve_left hlong)
    have hstale : ofBuffer (memory.1.drop 255) = a := by
      rw [hsplit]
      exact ofBuffer_eq ⟨rest, by simp⟩ ha
    refine ⟨memory', rest, hcopy, ?_, ?_⟩
    · rw [hmemory', hstale, hsplit, show 255 - value.length = 0 by omega]
      simp
    · rw [hstale, List.mem_append, not_or]
      exact ⟨fun hmem => hvalue (List.mem_of_mem_take hmem), ha⟩

/-- Where the copy ends in the memory, the branch computes what `parseEndpoint` says. -/
theorem readEndpoint_eq {value : Bytes} (hvalue : 0 ∉ value) (memory : Buffer n) (hn : 256 ≤ n)
    (hends : value.length < 255 ∨ 0 ∈ memory.1.drop 255) :
    readEndpoint value memory =
      .ok ((parseEndpoint value (memory.1.drop 255)).map fun r => (r.1.take 255, r.2)) := by
  obtain ⟨memory₁, rest, hcopy, hmemory₁, hzero⟩ := strncpy_endpoint hvalue memory hn hends
  rw [readEndpoint, hcopy, parseEndpoint]
  generalize endpointBuf value (memory.1.drop 255) = text at hmemory₁ hzero
  have htext := Buffer.loadString_ok (show memory₁.1 = [] ++ (text ++ 0 :: rest) from hmemory₁)
    (show (0 : ℤ) = [].length from rfl) hzero
  rw [Buffer.ok_bind, htext, Buffer.ok_bind]
  cases hcolon : strrchr 58 text with
  | none => rfl
  | some r =>
    obtain ⟨buf, port⟩ := r
    obtain ⟨rfl, -⟩ := strrchr_eq_some hcolon
    by_cases hbuf : buf = []
    · simp [hbuf, Except.map]
    · -- the zero in the place of the colon separates the two strings
      rw [List.append_assoc, List.cons_append] at hmemory₁
      obtain ⟨memory₂, hstore, hmemory₂⟩ := Buffer.store_over
        (show memory₁.1 = buf ++ ([58] ++ (port ++ 0 :: rest)) from hmemory₁)
        (show [0].length = [58].length from rfl)
      rw [List.mem_append, List.mem_cons, not_or, not_or] at hzero
      have hport : Buffer.loadString memory₂ (buf.length + 1) = .ok port :=
        Buffer.loadString_ok
          (show memory₂.1 = (buf ++ [0]) ++ (port ++ 0 :: rest) by simp [hmemory₂]) (by simp)
          hzero.2.2
      have hhost : Buffer.loadString memory₂ 0 = .ok buf :=
        Buffer.loadString_ok
          (show memory₂.1 = [] ++ (buf ++ 0 :: (port ++ 0 :: rest)) from hmemory₂) rfl hzero.1
      simp only [if_neg hbuf, hstore, Buffer.ok_bind, hport, hhost]
      split <;> rfl

/-- Otherwise the search for the colon leaves it. -/
theorem readEndpoint_fault {value : Bytes} (hvalue : 0 ∉ value) (hlong : 255 ≤ value.length)
    (memory : Buffer n) (hn : 256 ≤ n) (hstale : 0 ∉ memory.1.drop 255) :
    readEndpoint value memory = .error (.outside 0 (n + 1)) := by
  obtain ⟨memory', hcopy, hmemory'⟩ := Buffer.strncpy_ok memory value (show 255 ≤ n by omega)
  have hzero : 0 ∉ memory'.1 := by
    rw [hmemory', show 255 - value.length = 0 by omega, List.replicate_zero, List.append_nil,
      List.mem_append, not_or]
    exact ⟨fun hmem => hvalue (List.mem_of_mem_take hmem), hstale⟩
  rw [readEndpoint, hcopy, Buffer.ok_bind, Buffer.loadString_eq_error hzero]
  rfl

-- ════════════════════════════════════════════════════════════════════════
-- Against what is meant
-- ════════════════════════════════════════════════════════════════════════

/-- The memory has no part in a short endpoint. -/
theorem readEndpoint_of_short {value : Bytes} (hvalue : 0 ∉ value) (hshort : value.length < 255)
    (memory : Buffer n) (hn : 256 ≤ n) :
    readEndpoint value memory = .ok (parseEndpoint value []) := by
  rw [readEndpoint_eq hvalue memory hn (Or.inl hshort), parseEndpoint_of_short hshort]
  cases hparse : parseEndpoint value [] with
  | error e => rfl
  | ok r =>
    have hhost := parseEndpoint_host hshort hparse
    rw [Except.map, List.take_of_length_le (by omega)]

/-- **Which endpoints are read right.** An endpoint is read right, whatever the memory holds,
exactly if it is shorter than 255 characters and what follows its last colon is a port number
or does not start with a number that converts to one. -/
theorem endpoint_exact_iff {value : Bytes} (hvalue : 0 ∉ value) :
    EndpointExact value ↔ value.length < 255 ∧
      ∀ host t, value = host ++ 58 :: t → 58 ∉ t → host ≠ [] →
        (IsNumber t ∧ decimal t ≤ 65535) ∨
          ∀ m, Numeral t m → toInt m < 1 ∨ 65535 < toInt m := by
  constructor
  · rintro ⟨outcome, hsame, hexact⟩
    -- a buffer without a zero byte, and nothing behind it
    have hones := hsame 256 ⟨List.replicate 256 1, List.length_replicate⟩ le_rfl
    have hshort : value.length < 255 := by
      by_contra hlong
      rw [readEndpoint_fault hvalue (not_lt.mp hlong) _ le_rfl fun hmem =>
        absurd (List.eq_of_mem_replicate (List.mem_of_mem_drop hmem)) (by decide)] at hones
      exact absurd hones (by simp)
    rw [readEndpoint_of_short hvalue hshort _ le_rfl] at hones
    obtain rfl := Except.ok.inj hones
    refine ⟨hshort, fun host t heq ht hhost => ?_⟩
    rw [forall_numeral_iff t fun p => p < 1 ∨ 65535 < p]
    refine or_iff_not_imp_right.mpr fun hrange => ?_
    have hparse := (parseEndpoint_ok_iff hshort [] host (atoi t)).mpr
      ⟨t, heq, ht, hhost, rfl, by omega, by omega⟩
    obtain ⟨t', heq', -, hnumber, hdecimal, -, hmax⟩ := hexact _ _ hparse
    obtain rfl : t = t' := by simpa using heq.symm.trans heq'
    exact ⟨hnumber, by omega⟩
  · rintro ⟨hshort, hport⟩
    refine ⟨parseEndpoint value [],
      fun n memory hn => readEndpoint_of_short hvalue hshort memory hn, fun host port hok => ?_⟩
    obtain ⟨t, heq, ht, hhost, rfl, h1, hmax⟩ := (parseEndpoint_ok_iff hshort [] host port).mp hok
    rcases hport host t heq ht hhost with ⟨hnumber, hsmall⟩ | hother
    · exact ⟨t, heq, ht, hnumber, (atoi_of_digits hnumber.2 (by omega)).symm, h1, hmax⟩
    · rw [forall_numeral_iff t fun p => p < 1 ∨ 65535 < p] at hother
      omega

namespace Endpoint

/-- A host name of 250 characters and a port: 255 characters. -/
def longest : Bytes := List.replicate 250 97 ++ ascii ":5040"

/-- A buffer that is filled with one byte, and the memory behind it. -/
def filled (byte : UInt8) (behind : Bytes) : Buffer (256 + behind.length) :=
  ⟨List.replicate 256 byte ++ behind, by rw [List.length_append, List.length_replicate]⟩

end Endpoint

theorem endpoint_exact_relay : EndpointExact (ascii "relay:5040") := by
  refine (endpoint_exact_iff (by decide)).mpr ⟨by decide, fun host t heq ht _ => Or.inl ?_⟩
  have hsplit := strrchr_append ht host
  rw [← heq, show strrchr 58 (ascii "relay:5040") = some (ascii "relay", ascii "5040") by decide,
    Option.some.injEq, Prod.mk.injEq] at hsplit
  obtain ⟨-, rfl⟩ := hsplit
  exact ⟨⟨by decide, by decide +kernel⟩, by decide⟩

open Endpoint in
/-- The byte behind the copy becomes a digit of the port, and the byte behind the buffer is
read. -/
theorem longest_endpoint_reads_stale :
    readEndpoint longest (filled 0 []) = .ok (.ok (List.replicate 250 97, 5040)) ∧
      readEndpoint longest (filled 49 []) = .error (.outside 0 257) ∧
      readEndpoint longest (filled 49 [0]) = .ok (.ok (List.replicate 250 97, 50401)) := by
  decide +kernel

end LaneCove
