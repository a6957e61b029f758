import LaneCove.Foundations.BigEndian

/-!
# Cryptographic interface and data packets

The OpenSSL calls of `common.c` as a parameter `Crypto`, and the data packet
format built on them:

    [12-byte IV][AES-256-GCM ciphertext of (magic ‖ seq ‖ payload)][16-byte tag]

## Main definitions

- `Crypto` — X25519, SHA-256, HMAC and AES-256-GCM
- `encryptPacket`, `decryptPacket` — the functions of the same names
- `OpensOnly` — which of some keys decrypt a packet
- `frame`, `unframe` — the plaintext of a data packet

## Main results

- `decryptPacket_encryptPacket` — decryption inverts encryption
- `unframe_frame` — the sequence number and payload are read back
-/

namespace LaneCove

abbrev Bytes := List UInt8

/-- The cryptographic library. `Priv` is the type of X25519 key objects and `Key`
the type of 32-byte symmetric keys; a `none` is a call that reports failure. -/
structure Crypto (Priv Key : Type) where
  /-- `EVP_PKEY_get_raw_public_key` -/
  publicKey : Priv → Bytes
  /-- `x25519_shared_secret` -/
  x25519SharedSecret : Priv → Bytes → Option Bytes
  /-- `SHA256` -/
  sha256 : Bytes → Key
  /-- `HMAC(EVP_sha256(), ...)` -/
  hmac : Key → Bytes → Option Bytes
  /-- AES-256-GCM under key and IV: the ciphertext followed by the tag -/
  gcmEncrypt : Key → Bytes → Bytes → Option Bytes
  /-- AES-256-GCM decryption of ciphertext and tag, `none` if the tag is wrong -/
  gcmDecrypt : Key → Bytes → Bytes → Option Bytes

variable {Priv Key : Type}

/-- What the program relies on from AES-GCM: decryption inverts encryption, and
the output is the input and a 16-byte tag. -/
structure Crypto.GcmCorrect (C : Crypto Priv Key) : Prop where
  decrypt_encrypt : ∀ {key iv plain out}, C.gcmEncrypt key iv plain = some out →
    C.gcmDecrypt key iv out = some plain
  encrypt_length : ∀ {key iv plain out}, C.gcmEncrypt key iv plain = some out →
    out.length = plain.length + 16

/-- `CRYPTO_IV_LEN` random bytes. -/
abbrev Iv := { iv : Bytes // iv.length = 12 }

/-- `pkt_header`, the eight magic bytes. -/
def pktHeader : Bytes := [0xde, 0xad, 0xbe, 0xef, 0xca, 0xfe, 0xba, 0xbe]

@[simp] theorem length_pktHeader : pktHeader.length = 8 := rfl

/-- `encrypt_packet`; `iv` is what `RAND_bytes` delivered, `none` if it failed. -/
def encryptPacket (C : Crypto Priv Key) (key : Key) (iv : Option Iv) (plain : Bytes) :
    Option Bytes := do
  let iv ← iv
  let ciphertext ← C.gcmEncrypt key iv plain
  some (iv ++ ciphertext)

/-- `decrypt_packet`: the shortest packet is an IV and a tag. -/
def decryptPacket (C : Crypto Priv Key) (key : Key) (packet : Bytes) : Option Bytes :=
  if packet.length < 12 + 16 then none
  else C.gcmDecrypt key (packet.take 12) (packet.drop 12)

theorem encryptPacket_eq_some {C : Crypto Priv Key} {key : Key} {iv : Option Iv}
    {plain packet : Bytes} (h : encryptPacket C key iv plain = some packet) :
    ∃ (iv' : Iv) (out : Bytes), iv = some iv' ∧ C.gcmEncrypt key iv' plain = some out ∧
      packet = iv' ++ out := by
  cases iv with
  | none => simp [encryptPacket] at h
  | some iv' =>
    cases hout : C.gcmEncrypt key iv' plain with
    | none => simp [encryptPacket, hout] at h
    | some out =>
      refine ⟨iv', out, rfl, hout, ?_⟩
      simpa [encryptPacket, hout] using h.symm

/-- A packet of an IV and a GCM output splits at byte 12. -/
theorem decryptPacket_append {C : Crypto Priv Key} {key : Key} (iv : Iv) {out : Bytes}
    (hlen : 16 ≤ out.length) :
    decryptPacket C key (iv ++ out) = C.gcmDecrypt key iv out := by
  have hiv := iv.2
  rw [decryptPacket, if_neg (by simp; omega), List.take_left' hiv, List.drop_left' hiv]

theorem decryptPacket_encryptPacket {C : Crypto Priv Key} (hC : C.GcmCorrect) {key : Key}
    {iv : Option Iv} {plain packet : Bytes} (h : encryptPacket C key iv plain = some packet) :
    decryptPacket C key packet = some plain := by
  obtain ⟨iv', out, -, hout, rfl⟩ := encryptPacket_eq_some h
  have hlen := hC.encrypt_length hout
  rw [decryptPacket_append iv' (by omega)]
  exact hC.decrypt_encrypt hout

/-- No key of `keys` but `key` decrypts the packet. -/
def OpensOnly (C : Crypto Priv Key) (keys : List Key) (key : Key) (packet : Bytes) : Prop :=
  ∀ key' ∈ keys, key' ≠ key → decryptPacket C key' packet = none

instance [DecidableEq Key] (C : Crypto Priv Key) (keys : List Key) (key : Key) (packet : Bytes) :
    Decidable (OpensOnly C keys key packet) :=
  inferInstanceAs (Decidable (∀ key' ∈ keys, _ → _))

/-- The plaintext `forward_to_peer` builds: magic, `htobe64(seq)`, payload. -/
def frame (seq : BitVec 64) (payload : Bytes) : Bytes :=
  pktHeader ++ BigEndian.encode 8 seq.toNat ++ payload

/-- The checks of the receive path on a plaintext: `none` is a bad header. -/
def unframe (plain : Bytes) : Option (BitVec 64 × Bytes) :=
  if plain.length < 8 + 8 ∨ plain.take 8 ≠ pktHeader then none
  else some (BitVec.ofNat 64 (BigEndian.decode ((plain.drop 8).take 8)), plain.drop 16)

@[simp] theorem length_frame (seq : BitVec 64) (payload : Bytes) :
    (frame seq payload).length = 16 + payload.length := by
  simp only [frame, List.length_append, length_pktHeader, BigEndian.length_encode]

theorem unframe_frame (seq : BitVec 64) (payload : Bytes) :
    unframe (frame seq payload) = some (seq, payload) := by
  have hhead : (frame seq payload).take 8 = pktHeader := by
    simp [frame, pktHeader]
  have hseq : ((frame seq payload).drop 8).take 8 = BigEndian.encode 8 seq.toNat := by
    rw [frame, List.append_assoc, List.drop_left' (by simp), List.take_left' (by simp)]
  have hpay : (frame seq payload).drop 16 = payload :=
    List.drop_left' (by simp)
  have hlen : ¬ (frame seq payload).length < 8 + 8 := by
    simp
  rw [unframe, if_neg (by simp [hhead]), hseq, hpay, BigEndian.decode_encode (by
    have := seq.isLt
    norm_num
    omega)]
  simp

/-- A packet encrypted under `key` that decrypts under one of the keys does so under `key`, to
what was encrypted. -/
theorem OpensOnly.eq_of_decryptPacket {C : Crypto Priv Key} {keys : List Key} {key key' : Key}
    {packet : Bytes} (h : OpensOnly C keys key packet) (hC : C.GcmCorrect) {iv : Option Iv}
    {plain plain' : Bytes} (henc : encryptPacket C key iv plain = some packet)
    (hmem : key' ∈ keys) (hdec : decryptPacket C key' packet = some plain') :
    key' = key ∧ plain' = plain := by
  have hkey : key' = key := by
    by_contra hne
    rw [h key' hmem hne] at hdec
    exact absurd hdec (by simp)
  subst hkey
  rw [decryptPacket_encryptPacket hC henc] at hdec
  exact ⟨rfl, (Option.some.inj hdec).symm⟩

end LaneCove
