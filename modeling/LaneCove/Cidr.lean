import LaneCove.Document

/-!
# Which texts are networks

`parse_cidr` copies 31 characters of the text, cuts them at the first slash, and reads
the prefix length behind it with `atoi`. An address has at most 15 characters, so the
copy is too short for the prefix length only. `atoi` stops at the first character that is
no digit, and reports nothing.

## Main definitions

- `AcceptsDottedQuads` — what is known of `inet_pton`
- `IsCidr` — CIDR notation for an address and a prefix length
- `RouteFor` — the network of an address and a prefix length
- `Denotes` — the two together: what `parse_cidr` is meant to accept and to return

## Main results

- `cidrParts_address`, `cidrParts_slash` — the parts of the text that are read
- `parseCidr_exact_iff` — for which texts the result is the one that is meant
-/

namespace LaneCove

open CString

/-- `inet_pton` accepts nothing but numbers and dots, in at most 15 characters. -/
def AcceptsDottedQuads (inetPton : Bytes → Option (BitVec 32)) : Prop :=
  ∀ s, (inetPton s).isSome → s.length ≤ 15 ∧ ∀ b ∈ s, isDigit b ∨ b = 46

/-- A prefix length: decimal digits only, for a number up to 32. -/
def IsPrefixLen (t : Bytes) : Prop := IsNumber t ∧ decimal t ≤ 32

/-- CIDR notation for an address and a prefix length: an address, or an address, a slash
and a prefix length. -/
def IsCidr (inetPton : Bytes → Option (BitVec 32)) (cidr : Bytes) (addr : BitVec 32) (len : ℕ) :
    Prop :=
  (inetPton cidr = some addr ∧ len = 32) ∨
    ∃ a t, cidr = a ++ 47 :: t ∧ inetPton a = some addr ∧ IsPrefixLen t ∧ decimal t = len

/-- The mask has exactly its first `len` bits set, and the network is the address with all
other bits cleared. -/
structure RouteFor (addr : BitVec 32) (len : ℕ) (route : IpPrefix) : Prop where
  prefixLen : route.prefixLen = len
  mask : ∀ i < 32, route.mask.getMsbD i = decide (i < len)
  network : ∀ i < 32, route.network.getMsbD i = (addr.getMsbD i && decide (i < len))

/-- The text is CIDR notation for the network. -/
def Denotes (inetPton : Bytes → Option (BitVec 32)) (cidr : Bytes) (route : IpPrefix) : Prop :=
  ∃ addr len, IsCidr inetPton cidr addr len ∧ RouteFor addr len route

-- ════════════════════════════════════════════════════════════════════════
-- The result
-- ════════════════════════════════════════════════════════════════════════

/-- What `parse_cidr` stores for an address and a prefix length. -/
def routeOf (addr : BitVec 32) (len : ℤ) : IpPrefix :=
  { network := addr &&& cidrMask len, mask := cidrMask len, prefixLen := len }

theorem routeFor_iff {addr : BitVec 32} {len : ℕ} (hlen : len ≤ 32) (route : IpPrefix) :
    RouteFor addr len route ↔ route = routeOf addr len := by
  have hmask : ∀ i, (cidrMask len).getMsbD i = decide (i < len) := fun i => by
    rw [getMsbD_cidrMask (by omega) (by omega)]
    simp
  constructor
  · rintro ⟨hlength, hbits, hnet⟩
    have hm : route.mask = cidrMask len :=
      BitVec.eq_of_getMsbD_eq fun i hi => by rw [hbits i hi, hmask]
    have hn : route.network = addr &&& cidrMask len :=
      BitVec.eq_of_getMsbD_eq fun i hi => by rw [hnet i hi, BitVec.getMsbD_and, hmask]
    cases route
    simp_all [routeOf]
  · rintro rfl
    exact ⟨rfl, fun i _ => hmask i, fun i _ => by rw [routeOf, BitVec.getMsbD_and, hmask]⟩

-- ════════════════════════════════════════════════════════════════════════
-- The parts that are read
-- ════════════════════════════════════════════════════════════════════════

variable {inetPton : Bytes → Option (BitVec 32)}

theorem AcceptsDottedQuads.slash_notMem (hpton : AcceptsDottedQuads inetPton) {s : Bytes}
    (hs : (inetPton s).isSome) : 47 ∉ s := fun hmem =>
  absurd ((hpton s hs).2 47 hmem) (by decide)

theorem AcceptsDottedQuads.eq_none (hpton : AcceptsDottedQuads inetPton) {s : Bytes}
    (hs : 15 < s.length) : inetPton s = none := by
  by_contra hne
  have hle := (hpton s (Option.isSome_iff_ne_none.mpr hne)).1
  omega

/-- Without a slash the whole text is the address. -/
theorem cidrParts_address (hpton : AcceptsDottedQuads inetPton) {cidr : Bytes} (h : 47 ∉ cidr) :
    cidrParts inetPton cidr = (inetPton cidr).map fun addr => (addr, 32) := by
  rw [cidrParts, strchr_eq_none fun hmem => h (List.mem_of_mem_take hmem)]
  by_cases hlen : cidr.length ≤ 31
  · rw [List.take_of_length_le hlen]
  · rw [hpton.eq_none (s := cidr.take 31) (by rw [List.length_take]; omega),
      hpton.eq_none (s := cidr) (by omega)]

/-- The address ends at the first slash; of what follows, 30 characters less those of the
address are read. -/
theorem cidrParts_slash (hpton : AcceptsDottedQuads inetPton) {a : Bytes} (ha : 47 ∉ a)
    (t : Bytes) :
    cidrParts inetPton (a ++ 47 :: t) =
      (inetPton a).bind fun addr =>
        let len := atoi (t.take (30 - a.length))
        if len < 0 || 32 < len then none else some (addr, len) := by
  by_cases hlen : a.length ≤ 30
  · have hcut : (a ++ 47 :: t).take 31 = a ++ 47 :: t.take (30 - a.length) := by
      rw [List.take_append, List.take_of_length_le (by omega),
        show 31 - a.length = (30 - a.length) + 1 by omega, List.take_succ_cons]
    rw [cidrParts, hcut, strchr_append ha]
    cases haddr : inetPton a <;> simp [haddr]
  · have hcut : (a ++ 47 :: t).take 31 = a.take 31 := List.take_append_of_le_length (by omega)
    rw [cidrParts, hcut, strchr_eq_none fun hmem => ha (List.mem_of_mem_take hmem),
      hpton.eq_none (s := a.take 31) (by rw [List.length_take]; omega),
      hpton.eq_none (s := a) (by omega)]
    rfl

-- ════════════════════════════════════════════════════════════════════════
-- Against what is meant
-- ════════════════════════════════════════════════════════════════════════

theorem denotes_address {cidr : Bytes} (h : 47 ∉ cidr) (route : IpPrefix) :
    Denotes inetPton cidr route ↔ ∃ addr, inetPton cidr = some addr ∧ route = routeOf addr 32 := by
  constructor
  · rintro ⟨addr, len, ⟨haddr, rfl⟩ | ⟨a, t, rfl, -⟩, hroute⟩
    · exact ⟨addr, haddr, (routeFor_iff (le_refl 32) route).mp hroute⟩
    · exact absurd h (by simp)
  · rintro ⟨addr, haddr, hroute⟩
    exact ⟨addr, 32, Or.inl ⟨haddr, rfl⟩, (routeFor_iff (le_refl 32) route).mpr hroute⟩

theorem denotes_slash (hpton : AcceptsDottedQuads inetPton) {a : Bytes} (ha : 47 ∉ a) (t : Bytes)
    (route : IpPrefix) :
    Denotes inetPton (a ++ 47 :: t) route ↔
      ∃ addr, inetPton a = some addr ∧ IsPrefixLen t ∧ route = routeOf addr (decimal t) := by
  constructor
  · rintro ⟨addr, len, ⟨haddr, -⟩ | ⟨a', t', heq, haddr, hlen, rfl⟩, hroute⟩
    · exact absurd (List.mem_append_right a List.mem_cons_self)
        (hpton.slash_notMem (Option.isSome_of_eq_some haddr))
    · obtain ⟨rfl, rfl⟩ := append_cons_inj heq ha
        (hpton.slash_notMem (Option.isSome_of_eq_some haddr))
      exact ⟨addr, haddr, hlen, (routeFor_iff hlen.2 route).mp hroute⟩
  · rintro ⟨addr, haddr, hlen, hroute⟩
    exact ⟨addr, decimal t, Or.inr ⟨a, t, rfl, haddr, hlen, rfl⟩,
      (routeFor_iff hlen.2 route).mpr hroute⟩

/-- Behind an address, all depends on the number that is read. -/
theorem exact_iff_of_address (hpton : AcceptsDottedQuads inetPton) {a : Bytes} (ha : 47 ∉ a)
    {addr : BitVec 32} (haddr : inetPton a = some addr) (t : Bytes) :
    (∀ route, parseCidr inetPton (a ++ 47 :: t) = some route ↔
        Denotes inetPton (a ++ 47 :: t) route) ↔
      (IsPrefixLen t → atoi (t.take (30 - a.length)) = decimal t) ∧
      (¬ IsPrefixLen t →
        atoi (t.take (30 - a.length)) < 0 ∨ 32 < atoi (t.take (30 - a.length))) := by
  simp only [parseCidr, cidrParts_slash hpton ha, denotes_slash hpton ha, haddr, Option.bind_some,
    Option.some.injEq, exists_eq_left']
  generalize atoi (t.take (30 - a.length)) = len
  by_cases hlen : IsPrefixLen t
  · simp only [hlen, true_and, true_implies, not_true_eq_false, false_implies, and_true]
    have hsmall := hlen.2
    constructor
    · intro h
      have hread := (h _).mpr rfl
      split at hread
      · exact absurd hread (by simp)
      · exact congrArg IpPrefix.prefixLen (Option.some.inj hread)
    · rintro rfl route
      rw [if_neg (by simp; omega)]
      exact ⟨fun h => (Option.some.inj h).symm, fun h => congrArg some h.symm⟩
  · simp only [hlen, false_and, false_implies, not_false_eq_true, true_implies, true_and, iff_false]
    constructor
    · intro h
      by_contra hrange
      rw [if_neg (by simpa using hrange)] at h
      exact h _ rfl
    · intro hrange route
      rw [if_pos (by simpa using hrange)]
      simp

/-- **Which texts are networks.** `parse_cidr` is right about a text exactly if its address
is rejected, or what follows the first slash is a prefix length that fits into the copy or is
0, or it is no prefix length and neither does the copy start with a number that converts to
one of 0 to 32. -/
theorem parseCidr_exact_iff (hpton : AcceptsDottedQuads inetPton) (cidr : Bytes) :
    (∀ route, parseCidr inetPton cidr = some route ↔ Denotes inetPton cidr route) ↔
      ∀ a t, cidr = a ++ 47 :: t → 47 ∉ a → (inetPton a).isSome →
        (IsPrefixLen t → t.length ≤ 30 - a.length ∨ decimal t = 0) ∧
        (¬ IsPrefixLen t →
          ∀ m, Numeral (t.take (30 - a.length)) m → toInt m < 0 ∨ 32 < toInt m) := by
  by_cases hslash : 47 ∈ cidr
  · obtain ⟨a, t, rfl, ha⟩ := List.eq_append_cons_of_mem hslash
    cases haddr : inetPton a with
    | none =>
      -- the address decides
      refine iff_of_true (fun route => ?_) fun a' t' heq ha' hsome => ?_
      · rw [parseCidr, cidrParts_slash hpton ha, denotes_slash hpton ha, haddr]
        simp
      · obtain ⟨rfl, rfl⟩ := append_cons_inj heq ha ha'
        exact absurd hsome (by simp [haddr])
    | some addr =>
      rw [exact_iff_of_address hpton ha haddr]
      have hread : IsPrefixLen t → (atoi (t.take (30 - a.length)) = decimal t ↔
          t.length ≤ 30 - a.length ∨ decimal t = 0) := fun hlen =>
        atoi_take_eq_iff hlen.1.2 (by have := hlen.2; omega) _
      constructor
      · rintro ⟨hproper, hother⟩ a' t' heq ha' -
        obtain ⟨rfl, rfl⟩ := append_cons_inj heq ha ha'
        exact ⟨fun hlen => (hread hlen).mp (hproper hlen),
          fun hlen => (forall_numeral_iff _ fun n => n < 0 ∨ 32 < n).mpr (hother hlen)⟩
      · intro h
        obtain ⟨hproper, hother⟩ := h a t rfl ha (haddr ▸ rfl)
        exact ⟨fun hlen => (hread hlen).mpr (hproper hlen),
          fun hlen => (forall_numeral_iff _ fun n => n < 0 ∨ 32 < n).mp (hother hlen)⟩
  · refine iff_of_true (fun route => ?_) fun a t heq => absurd hslash (by simp [heq])
    rw [parseCidr, cidrParts_address hpton hslash, denotes_address hslash]
    cases inetPton cidr <;> simp [routeOf, eq_comm]

theorem acceptsDottedQuads_pton : AcceptsDottedQuads Ipv4.pton := by
  intro s hs
  obtain ⟨addr, haddr⟩ := Option.isSome_iff_exists.mp hs
  exact Ipv4.chars_of_pton haddr

open Ipv4 in
/-- A network of 24 bits is read right. -/
theorem parseCidr_exact_network : AcceptsDottedQuads pton ∧
    ∀ route, parseCidr pton (ascii "10.9.0.2/24") = some route ↔
      Denotes pton (ascii "10.9.0.2/24") route := by
  refine ⟨acceptsDottedQuads_pton,
    (parseCidr_exact_iff acceptsDottedQuads_pton _).mpr fun a t heq ha _ => ?_⟩
  obtain ⟨rfl, rfl⟩ := append_cons_inj
    (show ascii "10.9.0.2" ++ 47 :: ascii "24" = a ++ 47 :: t from heq) (by decide) ha
  have hlen : IsPrefixLen (ascii "24") := ⟨⟨by decide, by decide +kernel⟩, by decide⟩
  exact ⟨fun _ => Or.inl (by decide), fun hno => absurd hlen hno⟩

open Ipv4 in
/-- A slash with nothing behind it admits every address. -/
theorem parseCidr_empty_length :
    parseCidr pton (ascii "10.9.0.2/") = some { network := 0, mask := 0, prefixLen := 0 } ∧
      ¬ Denotes pton (ascii "10.9.0.2/") { network := 0, mask := 0, prefixLen := 0 } := by
  refine ⟨by decide, fun h => ?_⟩
  obtain ⟨_, -, hlen, -⟩ := (denotes_slash acceptsDottedQuads_pton
    (show 47 ∉ ascii "10.9.0.2" by decide) [] _).mp h
  exact hlen.1.1 rfl

end LaneCove
