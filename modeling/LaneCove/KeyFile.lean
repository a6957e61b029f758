import LaneCove.Config
import LaneCove.Foundations.Machine

/-!
# The file of a generated key

`load_or_generate_static_key` of `common.c` reads a raw private key from a file, or makes one
and saves it there. `peer.c` starts from a PEM file and does not call it; it is for programs
that make their own key when they are started first. Such programs come one after the other
here, with other paths in between, on one disk. What the system decides in a call is given
with it: whether files can be opened and created, and how many bytes reach the disk, which the
function does not check.

## Main definitions

- `loadOrGenerateStaticKey` — the function, on a disk
- `keyFileStep` — one call in a sequence of them

## Main results

- `loadOrGenerateStaticKey_reads` — what is on the disk after a call that returns a key
- `run_keyFileStep_keeps` — what calls do with a file that is there
- `static_key_fixed` — what all later calls return
-/

namespace LaneCove

variable {Priv : Type}

/-- X25519 keys as `EVP_PKEY` handles them. -/
structure RawKeys (Priv : Type) where
  /-- `EVP_PKEY_new_raw_private_key` -/
  newRawPrivateKey : Bytes → Option Priv
  /-- `EVP_PKEY_get_raw_private_key` -/
  getRawPrivateKey : Priv → Option Bytes
  /-- `EVP_PKEY_get_raw_public_key` -/
  getRawPublicKey : Priv → Option Bytes

/-- A raw key has its length, and is the key it was taken from. -/
structure RawKeys.RoundTrips (K : RawKeys Priv) : Prop where
  length : ∀ {key raw}, K.getRawPrivateKey key = some raw → raw.length = dhPubkeyLen
  newRaw : ∀ {key raw}, K.getRawPrivateKey key = some raw → K.newRawPrivateKey raw = some key

/-- The contents of files. -/
abbrev Disk := Bytes → Option Bytes

/-- What the system decides in one call. -/
structure KeyFileEnv (Priv : Type) where
  /-- whether a file that exists can be opened for reading -/
  opens : Bool
  /-- the key that `EVP_PKEY_keygen` makes -/
  keygen : Option Priv
  /-- whether the file can be opened for writing -/
  creates : Bool
  /-- how many bytes of the key reach the file at most -/
  written : ℕ

variable (K : RawKeys Priv)

/-- The branch for a file that was opened. -/
def readStaticKey (content : Bytes) : Option (Priv × Bytes) :=
  let priv := content.take dhPubkeyLen
  if priv.length = dhPubkeyLen then
    (K.newRawPrivateKey priv).bind fun pkey => (K.getRawPublicKey pkey).map fun pub => (pkey, pub)
  else none

/-- `generate_eph_keypair` -/
def generateEphKeypair (env : KeyFileEnv Priv) : Option (Priv × Bytes) :=
  env.keygen.bind fun pkey => (K.getRawPublicKey pkey).map fun pub => (pkey, pub)

/-- `load_or_generate_static_key`: the disk, and the key pair if 0 is returned. -/
def loadOrGenerateStaticKey (disk : Disk) (path : Bytes) (env : KeyFileEnv Priv) :
    Disk × Option (Priv × Bytes) :=
  match if env.opens then disk path else none with
  | some content => (disk, readStaticKey K content)
  | none =>
    match generateEphKeypair K env with
    | none => (disk, none)
    | some (pkey, pub) =>
      match K.getRawPrivateKey pkey with
      | none => (disk, none)
      | some priv =>
        if !env.creates then (disk, none)
        else (Function.update disk path (some (priv.take env.written)), some (pkey, pub))

/-- One call, with its path and its result. -/
def keyFileStep (disk : Disk) (call : Bytes × KeyFileEnv Priv) :
    Disk × List (Bytes × Option (Priv × Bytes)) :=
  let r := loadOrGenerateStaticKey K disk call.1 call.2
  (r.1, [(call.1, r.2)])

variable {K} {disk : Disk} {path : Bytes} {env : KeyFileEnv Priv} {pair : Priv × Bytes}

theorem readStaticKey_of_short {content : Bytes} (h : content.length < dhPubkeyLen) :
    readStaticKey K content = none := by
  rw [readStaticKey]
  simp only [List.length_take]
  rw [if_neg (by omega)]

/-- The raw key is read as the pair it belongs to. -/
theorem readStaticKey_getRaw (hK : K.RoundTrips) (hgen : generateEphKeypair K env = some pair)
    {priv : Bytes} (hpriv : K.getRawPrivateKey pair.1 = some priv) :
    readStaticKey K priv = some pair := by
  obtain ⟨pkey, -, hpub⟩ := Option.bind_eq_some_iff.mp hgen
  obtain ⟨pub, hpub, rfl⟩ := Option.map_eq_some_iff.mp hpub
  have hlen := hK.length hpriv
  simp only [readStaticKey, List.take_of_length_le hlen.le, if_pos hlen, hK.newRaw hpriv,
    Option.bind_some, hpub]

/-- What a call can do. -/
inductive KeyFileOutcome (K : RawKeys Priv) (disk : Disk) (path : Bytes) (env : KeyFileEnv Priv) :
    Disk × Option (Priv × Bytes) → Prop
  | read {content : Bytes} (h : disk path = some content) :
      KeyFileOutcome K disk path env (disk, readStaticKey K content)
  | failed (h : env.opens = true → disk path = none) :
      KeyFileOutcome K disk path env (disk, none)
  | generated {pair : Priv × Bytes} {priv : Bytes} (h : env.opens = true → disk path = none)
      (hgen : generateEphKeypair K env = some pair)
      (hpriv : K.getRawPrivateKey pair.1 = some priv) :
      KeyFileOutcome K disk path env
        (Function.update disk path (some (priv.take env.written)), some pair)

theorem loadOrGenerateStaticKey_outcome (disk : Disk) (path : Bytes) (env : KeyFileEnv Priv) :
    KeyFileOutcome K disk path env (loadOrGenerateStaticKey K disk path env) := by
  unfold loadOrGenerateStaticKey
  split
  · next content hopen => exact .read (Option.ite_none_right_eq_some.mp hopen).2
  · next hopen =>
    have hnone : env.opens = true → disk path = none := by
      intro hopens
      rwa [if_pos hopens] at hopen
    split
    · exact .failed hnone
    · next pkey pub hgen =>
      split
      · exact .failed hnone
      · next priv hpriv =>
        split
        · exact .failed hnone
        · exact .generated hnone hgen hpriv

/-- After a call that returns a key there is a file, which holds this key unless it is too
short for one. -/
theorem loadOrGenerateStaticKey_reads (hK : K.RoundTrips)
    (h : (loadOrGenerateStaticKey K disk path env).2 = some pair) :
    ∃ content, (loadOrGenerateStaticKey K disk path env).1 path = some content ∧
      readStaticKey K content = if dhPubkeyLen ≤ content.length then some pair else none := by
  have hout := loadOrGenerateStaticKey_outcome (K := K) disk path env
  generalize loadOrGenerateStaticKey K disk path env = r at h hout
  cases hout with
  | @read content hfile =>
    refine ⟨content, hfile, ?_⟩
    split
    · exact h
    · next hshort => exact readStaticKey_of_short (by omega)
  | failed => exact absurd h (by simp)
  | @generated pair' priv _ hgen hpriv =>
    obtain rfl := Option.some.inj h
    refine ⟨priv.take env.written, Function.update_self .., ?_⟩
    split
    · next hlen =>
      -- a file that is long enough was written in full
      have htake : priv.take env.written = priv := by
        refine List.take_of_length_le ?_
        have := hK.length hpriv
        rw [List.length_take] at hlen
        omega
      rw [htake]
      exact readStaticKey_getRaw hK hgen hpriv
    · next hshort => exact readStaticKey_of_short (by omega)

/-- **Step**: a call leaves a file as it is if it can open it, and so do calls for other
files; what it returns is what the file holds. -/
theorem keyFileStep_keeps {content : Bytes} (h : disk path = some content)
    {call : Bytes × KeyFileEnv Priv} (hopens : call.2.opens = true) :
    (keyFileStep K disk call).1 path = some content ∧
      ∀ result, (path, result) ∈ (keyFileStep K disk call).2 →
        result = readStaticKey K content := by
  have hout := loadOrGenerateStaticKey_outcome (K := K) disk call.1 call.2
  simp only [keyFileStep, List.mem_singleton, Prod.mk.injEq]
  generalize loadOrGenerateStaticKey K disk call.1 call.2 = r at hout
  cases hout with
  | read hfile =>
    refine ⟨h, ?_⟩
    rintro result ⟨rfl, rfl⟩
    rw [Option.some.inj (h.symm.trans hfile)]
  | failed hnone =>
    refine ⟨h, ?_⟩
    rintro result ⟨rfl, rfl⟩
    exact absurd (h.symm.trans (hnone hopens)) (by simp)
  | generated hnone =>
    have hpath : path ≠ call.1 := by
      rintro rfl
      exact absurd (h.symm.trans (hnone hopens)) (by simp)
    exact ⟨(Function.update_of_ne hpath ..).trans h, fun _ he => absurd he.1 hpath⟩

/-- **Run**: calls that can open the files there are leave a file as it is, and return what it
holds. -/
theorem run_keyFileStep_keeps {content : Bytes} {calls : List (Bytes × KeyFileEnv Priv)}
    (hopens : ∀ call ∈ calls, call.2.opens = true) (h : disk path = some content) :
    (Machine.run (keyFileStep K) disk calls).1 path = some content ∧
      ∀ result, (path, result) ∈ (Machine.run (keyFileStep K) disk calls).2 →
        result = readStaticKey K content := by
  induction calls generalizing disk with
  | nil => exact ⟨h, by simp⟩
  | cons call calls ih =>
    rw [List.forall_mem_cons] at hopens
    obtain ⟨hfile, hresult⟩ := keyFileStep_keeps (K := K) h hopens.1
    obtain ⟨hend, hresults⟩ := ih hopens.2 hfile
    refine ⟨hend, fun result hmem => ?_⟩
    rcases List.mem_append.mp hmem with hmem | hmem
    · exact hresult result hmem
    · exact hresults result hmem

/-- **The key of a file is fixed.** After a call that returns a key, in whatever way, come any
calls for any files, by processes that can open the files there are. The file of this key stays
as it is, and every call for it returns this key again, or every call fails: it fails if fewer
bytes than a key has were written, which the first call does not notice. -/
theorem static_key_fixed (hK : K.RoundTrips)
    (h : (loadOrGenerateStaticKey K disk path env).2 = some pair)
    {calls : List (Bytes × KeyFileEnv Priv)} (hopens : ∀ call ∈ calls, call.2.opens = true) :
    ∃ content, (loadOrGenerateStaticKey K disk path env).1 path = some content ∧
      let run := Machine.run (keyFileStep K) (loadOrGenerateStaticKey K disk path env).1 calls
      run.1 path = some content ∧ ∀ result, (path, result) ∈ run.2 →
        result = if dhPubkeyLen ≤ content.length then some pair else none := by
  obtain ⟨content, hfile, hread⟩ := loadOrGenerateStaticKey_reads hK h
  refine ⟨content, hfile, ?_⟩
  rw [← hread]
  exact run_keyFileStep_keeps hopens hfile

namespace Sample

/-- Keys of one byte, 32 times. -/
def rawKeys : RawKeys UInt8 := ⟨List.head?, fun k => some (List.replicate 32 k),
  fun k => some (List.replicate 32 (k + 1))⟩

theorem rawKeys_roundTrips : rawKeys.RoundTrips where
  length h := by
    obtain rfl := Option.some.inj h
    rfl
  newRaw h := by
    obtain rfl := Option.some.inj h
    rfl

/-- A call that would make key `k`. -/
def keyFileCall (k : UInt8) (written : ℕ) : KeyFileEnv UInt8 := ⟨true, some k, true, written⟩

end Sample

open Sample in
/-- Key 7 is made and returned, though the disk is full after 20 bytes; the next process finds
a file that it does not accept. -/
theorem static_key_fixed_short : ∃ content : Bytes,
    (loadOrGenerateStaticKey rawKeys (fun _ => none) [1] (keyFileCall 7 20)).1 [1] = some content ∧
      let run := Machine.run (keyFileStep rawKeys)
        (loadOrGenerateStaticKey rawKeys (fun _ => none) [1] (keyFileCall 7 20)).1
        [([2], keyFileCall 8 32), ([1], keyFileCall 9 32)]
      run.1 [1] = some content ∧ ∀ result, ([1], result) ∈ run.2 →
        result = if dhPubkeyLen ≤ content.length then some (7, List.replicate 32 8) else none :=
  static_key_fixed rawKeys_roundTrips (by decide) (by decide)

end LaneCove
