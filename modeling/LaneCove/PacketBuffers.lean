import LaneCove.DataPath
import LaneCove.Foundations.Buffer

/-!
# Data packets in their buffers

The data path works in three buffers of fixed size: `buffer` for what is read from the TUN
device, `plain_buf` for plaintexts and `wire_buf` for datagrams. The largest packet fills them
to the last byte. Here the functions of the data path are modelled on these buffers, with the
offsets and lengths they compute, every access checked, and every outcome of the calls into
OpenSSL.

## Main definitions

- `EncryptCalls`, `DecryptCalls` — what the calls into OpenSSL return and write
- `InBuffers.encryptPacket`, `InBuffers.decryptPacket`, `InBuffers.forwardToPeer`,
  `InBuffers.recvData`, `InBuffers.tunRead` — the functions on their buffers
- `InBuffers.Activity`, `InBuffers.run` — any sequence of packets

## Main results

- `buffers_never_overrun` — no access outside a buffer or a received packet, no negative length
- `act_refines` — what leaves the program is what the event loop says
-/

namespace LaneCove

variable {Priv Key : Type}

-- ════════════════════════════════════════════════════════════════════════
-- OpenSSL
-- ════════════════════════════════════════════════════════════════════════

/-- What `EVP_*Update` and `EVP_*Final_ex` do with `n` bytes: whether they succeed, and what
they write, which is no more than their input. A call that fails may have written as well. -/
structure CipherCalls (n : ℕ) where
  updateOk : Bool
  updateOut : Bytes
  finalOk : Bool
  finalOut : Bytes
  length_le : updateOut.length + finalOut.length ≤ n

/-- `CRYPTO_TAG_LEN` bytes. -/
abbrev Tag := { tag : Bytes // tag.length = 16 }

/-- The calls of `encrypt_packet`. -/
structure EncryptCalls where
  /-- `RAND_bytes` -/
  iv : Option Iv
  /-- `EVP_EncryptInit_ex` -/
  initOk : Bool
  cipher : (plain : Bytes) → CipherCalls plain.length
  /-- `EVP_CTRL_GCM_GET_TAG` -/
  tagOk : Bytes → Bool
  tag : Bytes → Tag

/-- The calls of `decrypt_packet`. -/
structure DecryptCalls where
  /-- `EVP_DecryptInit_ex` -/
  initOk : Bool
  cipher : (iv ciphertext tag : Bytes) → CipherCalls ciphertext.length
  /-- `EVP_CTRL_GCM_SET_TAG` -/
  setTagOk : Bool

/-- The packet for a plaintext, if all calls succeed. -/
def EncryptCalls.sealed (calls : EncryptCalls) (plain : Bytes) : Option Bytes :=
  match calls.iv, calls.initOk with
  | some iv, true =>
    let cipher := calls.cipher plain
    if cipher.updateOk && cipher.finalOk && calls.tagOk plain then
      some (iv ++ (cipher.updateOut ++ (cipher.finalOut ++ calls.tag plain)))
    else none
  | _, _ => none

/-- The plaintext of a packet, if it is long enough and all calls succeed. -/
def DecryptCalls.opened (calls : DecryptCalls) (packet : Bytes) : Option Bytes :=
  if packet.length < 12 + 16 then none
  else
    let cipher := calls.cipher (packet.take 12)
      ((packet.drop 12).take (packet.length - (12 + 16))) (packet.drop (packet.length - 16))
    if calls.initOk && cipher.updateOk && calls.setTagOk && cipher.finalOk then
      some (cipher.updateOut ++ cipher.finalOut)
    else none

-- ════════════════════════════════════════════════════════════════════════
-- The functions on their buffers
-- ════════════════════════════════════════════════════════════════════════

namespace InBuffers

variable {m n : ℕ}

/-- `encrypt_packet`: what it leaves in `out`, and `out_len` unless it fails. -/
def encryptPacket (calls : EncryptCalls) (plain : Buffer m) (plainLen : ℤ) (out : Buffer n) :
    Except Buffer.Fault (Buffer n × Option ℤ) :=
  match calls.iv, calls.initOk with
  | some iv, true => do
    let plain ← Buffer.load plain 0 plainLen
    let cipher := calls.cipher plain
    let out ← Buffer.store out 12 cipher.updateOut
    if !cipher.updateOk then .ok (out, none)
    else
      let out ← Buffer.store out (12 + cipher.updateOut.length) cipher.finalOut
      if !cipher.finalOk then .ok (out, none)
      else
        let ciphertextLen ← Buffer.checkLength (cipher.updateOut.length + cipher.finalOut.length)
        let out ← Buffer.store out (12 + ciphertextLen) (calls.tag plain)
        if !calls.tagOk plain then .ok (out, none)
        else
          let out ← Buffer.store out 0 iv
          .ok (out, some (12 + ciphertextLen + 16))
  | _, _ => .ok (out, none)

/-- `decrypt_packet`: what it leaves in `out`, and `out_len` unless it fails. Nothing behind
the first `inLen` bytes of the input may be read. -/
def decryptPacket (calls : DecryptCalls) (input : Buffer m) (inLen : ℤ) (out : Buffer n) :
    Except Buffer.Fault (Buffer n × Option ℤ) :=
  if inLen < 12 + 16 then .ok (out, none)
  else do
    let ciphertextLen ← Buffer.checkLength (inLen - (12 + 16))
    let tag ← Buffer.loadWithin inLen input (inLen - 16) 16
    let iv ← Buffer.loadWithin inLen input 0 12
    if !calls.initOk then .ok (out, none)
    else
      let ciphertext ← Buffer.loadWithin inLen input 12 ciphertextLen
      let cipher := calls.cipher iv ciphertext tag
      let out ← Buffer.store out 0 cipher.updateOut
      if !(cipher.updateOk && calls.setTagOk) then .ok (out, none)
      else
        let out ← Buffer.store out cipher.updateOut.length cipher.finalOut
        if !cipher.finalOk then .ok (out, none)
        else
          let plainLen ← Buffer.checkLength (cipher.updateOut.length + cipher.finalOut.length)
          .ok (out, some plainLen)

/-- The buffers of `event_loop`. -/
structure Buffers where
  /-- `BUFFER_SIZE` -/
  buffer : Buffer 2048
  /-- `HEADER_SIZE + SEQ_SIZE + BUFFER_SIZE` -/
  plainBuf : Buffer 2064
  /-- `BUFFER_SIZE + WIRE_OVERHEAD` -/
  wireBuf : Buffer 2092

/-- The pointer `payload` of `forward_to_peer`: `NULL`, `buffer` or `plain_buf + 16`. -/
inductive Payload
  | null
  | tun
  | inPlace

/-- Read the payload. -/
def Payload.load (payload : Payload) (bufs : Buffers) (len : ℤ) : Except Buffer.Fault Bytes :=
  match payload with
  | .null => .error (.outside 0 len)
  | .tun => Buffer.load bufs.buffer 0 len
  | .inPlace => Buffer.load bufs.plainBuf (8 + 8) len

/-- `if (payload_len > 0) memcpy(plain_buf + 16, payload, payload_len)` -/
def copyPayload (payload : Payload) (payloadLen : ℤ) (bufs : Buffers) :
    Except Buffer.Fault Buffers :=
  if 0 < payloadLen then do
    let bytes ← payload.load bufs payloadLen
    let plainBuf ← Buffer.store bufs.plainBuf (8 + 8) bytes
    .ok { bufs with plainBuf }
  else .ok bufs

/-- `forward_to_peer` with sequence number `seq`: the datagram for `sendto`, unless the
encryption fails. -/
def forwardToPeer (calls : EncryptCalls) (seq : BitVec 64) (payload : Payload) (payloadLen : ℤ)
    (bufs : Buffers) : Except Buffer.Fault (Buffers × Option Bytes) := do
  let plainBuf ← Buffer.store bufs.plainBuf 0 pktHeader
  let plainBuf ← Buffer.store plainBuf 8 (BigEndian.encode 8 seq.toNat)
  let bufs ← copyPayload payload payloadLen { bufs with plainBuf }
  let (wireBuf, encLen) ← encryptPacket calls bufs.plainBuf (8 + 8 + payloadLen) bufs.wireBuf
  match encLen with
  | none => .ok ({ bufs with wireBuf }, none)
  | some encLen =>
    let datagram ← Buffer.load wireBuf 0 encLen
    .ok ({ bufs with wireBuf }, some datagram)

/-- The two decryption attempts: `plain_len`, and whether the previous key was used. -/
def tryKeys (s : PeerSession Key) (now : Time) (current previous : DecryptCalls)
    (wireBuf : Buffer m) (nr : ℤ) (plainBuf : Buffer n) :
    Except Buffer.Fault (Buffer n × Option (ℤ × Bool)) := do
  let (plainBuf, plainLen) ← decryptPacket current wireBuf nr plainBuf
  match plainLen with
  | some plainLen => .ok (plainBuf, some (plainLen, false))
  | none =>
    if s.prevKeyActive && decide (now ≤ s.prevKeyExpires) then
      let (plainBuf, plainLen) ← decryptPacket previous wireBuf nr plainBuf
      .ok (plainBuf, plainLen.map fun plainLen => (plainLen, true))
    else .ok (plainBuf, none)

/-- The header check: the sequence number, unless the header is bad. -/
def readHeader (plainBuf : Buffer n) (plainLen : ℤ) : Except Buffer.Fault (Option (BitVec 64)) :=
  if plainLen < 8 + 8 then .ok none
  else do
    let header ← Buffer.loadWithin plainLen plainBuf 0 8
    if header ≠ pktHeader then .ok none
    else
      let seq ← Buffer.loadWithin plainLen plainBuf 8 8
      .ok (some (BitVec.ofNat 64 (BigEndian.decode seq)))

/-- `len >= 20 && (packet[0] >> 4) == 4` for a packet at `off`; the first `size` bytes of the
buffer may be read. -/
def readIpv4 (size : ℤ) (buf : Buffer n) (off len : ℤ) : Except Buffer.Fault Bool :=
  if len < 20 then .ok false
  else do
    let byte ← Buffer.loadWithin size buf off 1
    .ok (byte.headD 0 >>> 4 = 4)

/-- `ntohl(*(uint32_t *)(buf + off))` -/
def readIp (size : ℤ) (buf : Buffer n) (off : ℤ) : Except Buffer.Fault (BitVec 32) := do
  let bytes ← Buffer.loadWithin size buf off 4
  .ok (BitVec.ofNat 32 (BigEndian.decode bytes))

/-- The source check: may the payload go on? -/
def checkSource (s : PeerSession Key) (plainBuf : Buffer n) (plainLen payloadLen : ℤ) :
    Except Buffer.Fault Bool :=
  if s.routes.isEmpty then .ok true
  else do
    let ipv4 ← readIpv4 plainLen plainBuf (8 + 8) payloadLen
    if ipv4 then
      let src ← readIp plainLen plainBuf (8 + 8 + 12)
      .ok (checkAllowedSrc s src)
    else .ok true

/-- The relay shortcut: the slot of another session, if the destination is routed there. -/
def relayTarget (sessions : List (PeerSession Key)) (j : ℕ) (plainBuf : Buffer n)
    (plainLen payloadLen : ℤ) : Except Buffer.Fault (Option ℕ) := do
  let ipv4 ← readIpv4 plainLen plainBuf (8 + 8) payloadLen
  if ipv4 then
    let dst ← readIp plainLen plainBuf (8 + 8 + 16)
    .ok ((routeLookup sessions dst).filter (· ≠ j))
  else .ok none

/-- What leaves the program. -/
structure Output where
  /-- written to the TUN device -/
  toTun : Option Bytes := none
  /-- passed to `sendto` -/
  toPeer : Option Bytes := none

/-- `forward_to_peer` on slot `j`. -/
def forwardOn (calls : EncryptCalls) (sessions : List (PeerSession Key)) (j : ℕ)
    (payload : Payload) (payloadLen : ℤ) (bufs : Buffers) :
    Except Buffer.Fault (Buffers × Output) :=
  match sessions[j]? with
  | none => .ok (bufs, {})
  | some s => do
    let (bufs, datagram) ← forwardToPeer calls s.sendSeq payload payloadLen bufs
    .ok (bufs, { toPeer := datagram })

/-- The data path behind the decryption. -/
def recvPlain (sessions : List (PeerSession Key)) (j : ℕ) (s : PeerSession Key)
    (relay : ℕ → EncryptCalls) (plainLen : ℤ) (usedPrevKey : Bool) (bufs : Buffers) :
    Except Buffer.Fault (Buffers × Output) := do
  let header ← readHeader bufs.plainBuf plainLen
  match header with
  | none => .ok (bufs, {})
  | some seq =>
    if (if usedPrevKey then 0 else (checkReplay seq s.recvSeq).1) < 0 then .ok (bufs, {})
    else
      let payloadLen ← Buffer.checkLength (plainLen - 8 - 8)
      if payloadLen = 0 then .ok (bufs, {})
      else
        let allowed ← checkSource s bufs.plainBuf plainLen payloadLen
        if !allowed then .ok (bufs, {})
        else
          let target ← relayTarget sessions j bufs.plainBuf plainLen payloadLen
          match target with
          | some fwd => forwardOn (relay fwd) sessions fwd .inPlace payloadLen bufs
          | none =>
            let payload ← Buffer.loadWithin plainLen bufs.plainBuf (8 + 8) payloadLen
            .ok (bufs, { toTun := some payload })

/-- A data packet of `nr` bytes for session `s` in slot `j`; `relay` is what encryption for
the session of a slot does. -/
def recvData (sessions : List (PeerSession Key)) (j : ℕ) (s : PeerSession Key) (now : Time)
    (current previous : DecryptCalls) (relay : ℕ → EncryptCalls) (nr : ℤ) (bufs : Buffers) :
    Except Buffer.Fault (Buffers × Output) := do
  let (plainBuf, plain) ← tryKeys s now current previous bufs.wireBuf nr bufs.plainBuf
  match plain with
  | none => .ok ({ bufs with plainBuf }, {})
  | some (plainLen, usedPrevKey) =>
    recvPlain sessions j s relay plainLen usedPrevKey { bufs with plainBuf }

/-- A packet of `nr` bytes from the TUN device. -/
def tunRead (sessions : List (PeerSession Key)) (calls : ℕ → EncryptCalls) (nr : ℤ)
    (bufs : Buffers) : Except Buffer.Fault (Buffers × Output) := do
  let ipv4 ← readIpv4 nr bufs.buffer 0 nr
  if ipv4 then
    let dst ← readIp nr bufs.buffer 16
    match routeLookup sessions dst with
    | none => .ok (bufs, {})
    | some j => forwardOn (calls j) sessions j .tun nr bufs
  else .ok (bufs, {})

/-- What the data path is given to do: a datagram for the session `s` in slot `j`, a packet
from the TUN device, or a keepalive; with what the calls into OpenSSL do. -/
inductive Activity (Key : Type)
  | udpRecv (sessions : List (PeerSession Key)) (j : ℕ) (s : PeerSession Key) (now : Time)
      (current previous : DecryptCalls) (relay : ℕ → EncryptCalls) (datagram : Bytes)
      (hlen : datagram.length ≤ 2092)
  | tunRead (sessions : List (PeerSession Key)) (calls : ℕ → EncryptCalls) (packet : Bytes)
      (hpos : 1 ≤ packet.length) (hlen : packet.length ≤ 2048)
  | keepalive (s : PeerSession Key) (calls : EncryptCalls)

/-- `recvfrom` and `read` fill the start of a buffer. -/
def act (bufs : Buffers) : Activity Key → Except Buffer.Fault (Buffers × Output)
  | .udpRecv sessions j s now current previous relay datagram _ => do
    let wireBuf ← Buffer.store bufs.wireBuf 0 datagram
    recvData sessions j s now current previous relay datagram.length { bufs with wireBuf }
  | .tunRead sessions calls packet _ _ => do
    let buffer ← Buffer.store bufs.buffer 0 packet
    tunRead sessions calls packet.length { bufs with buffer }
  | .keepalive s calls => do
    let (bufs, datagram) ← forwardToPeer calls s.sendSeq .null 0 bufs
    .ok (bufs, { toPeer := datagram })

/-- One after the other, in the same buffers. -/
def run : Buffers → List (Activity Key) → Except Buffer.Fault (Buffers × List Output)
  | bufs, [] => .ok (bufs, [])
  | bufs, a :: as => do
    let (bufs, output) ← act bufs a
    let (bufs, outputs) ← run bufs as
    .ok (bufs, output :: outputs)

-- ════════════════════════════════════════════════════════════════════════
-- Encryption and decryption
-- ════════════════════════════════════════════════════════════════════════

/-- The bytes stand at the start of the buffer and their number is returned, or the call
has failed. -/
def Stored (r : Buffer n × Option ℤ) (bytes : Option Bytes) : Prop :=
  match bytes with
  | none => r.2 = none
  | some bytes => r.2 = some (bytes.length : ℤ) ∧ bytes <+: r.1.1

/-- A packet takes 28 bytes more than its plaintext. -/
theorem encryptPacket_safe (calls : EncryptCalls) {text : Bytes} {plain : Buffer m}
    (htext : text <+: plain.1) (out : Buffer n) (hn : text.length + 28 ≤ n) :
    Buffer.Safe (encryptPacket calls plain text.length out) (Stored · (calls.sealed text)) := by
  have hload : Buffer.load plain 0 text.length = .ok text :=
    Buffer.load_part (show [] ++ text <+: plain.1 from htext)
  rw [encryptPacket, EncryptCalls.sealed]
  cases calls.iv with
  | none => exact .ok rfl
  | some iv =>
    cases calls.initOk with
    | false => exact .ok rfl
    | true =>
      simp only [hload, Buffer.ok_bind]
      have hle := (calls.cipher text).length_le
      generalize calls.cipher text = cipher at hle
      have htag := (calls.tag text).2
      have h12 : (out.1.take 12).length = 12 := by
        rw [List.length_take, out.2]
        omega
      -- the parts are stored one behind the other, the IV at last
      obtain ⟨out₁, h₁, hout₁⟩ := Buffer.store_behind (show out.1.take 12 <+: out.1 from
        List.take_prefix 12 _) cipher.updateOut (show (12 : ℤ) = (out.1.take 12).length by omega)
        (by omega)
      obtain ⟨out₂, h₂, hout₂⟩ := Buffer.store_behind hout₁ cipher.finalOut
        (show (12 + cipher.updateOut.length : ℤ) = _ by rw [List.length_append, h12]; omega)
        (by omega)
      obtain ⟨out₃, h₃, rest, hout₃⟩ := Buffer.store_behind hout₂ (calls.tag text)
        (show (12 + (cipher.updateOut.length + cipher.finalOut.length) : ℤ) = _ by
          rw [List.length_append, List.length_append, h12]; omega) (by omega)
      have hparts : out₃.1 = [] ++ (out.1.take 12 ++ (cipher.updateOut ++
          (cipher.finalOut ++ ((calls.tag text).1 ++ rest)))) := by
        simp [← hout₃]
      obtain ⟨out₄, h₄, hout₄⟩ := Buffer.store_over hparts
        (show iv.1.length = (out.1.take 12).length by rw [iv.2, h12])
      have h₄' : Buffer.store out₃ 0 iv.1 = .ok out₄ := h₄
      simp only [h₁, h₂, Buffer.checkLength_ok (show (0 : ℤ) ≤ cipher.updateOut.length +
        cipher.finalOut.length by omega), h₃, h₄', Buffer.ok_bind]
      cases cipher.updateOk with
      | false => exact .ok rfl
      | true =>
        cases cipher.finalOk with
        | false => exact .ok rfl
        | true =>
          cases calls.tagOk text with
          | false => exact .ok rfl
          | true =>
            refine .ok ⟨?_, rest, ?_⟩
            · simp [iv.2, htag]
              omega
            · simp [hout₄]

/-- A plaintext is shorter than its packet. -/
theorem decryptPacket_safe (calls : DecryptCalls) {packet : Bytes} {input : Buffer m}
    (hpacket : packet <+: input.1) (out : Buffer n) (hn : packet.length ≤ n + 28) :
    Buffer.Safe (decryptPacket calls input packet.length out) (Stored · (calls.opened packet)) := by
  rw [decryptPacket, DecryptCalls.opened]
  by_cases hshort : packet.length < 12 + 16
  · rw [if_pos hshort, if_pos (by omega)]
    exact .ok rfl
  · rw [if_neg hshort, if_neg (by omega),
      Buffer.checkLength_ok (show (0 : ℤ) ≤ packet.length - (12 + 16) by omega)]
    have htag : Buffer.loadWithin packet.length input (packet.length - 16) 16 =
        .ok (packet.drop (packet.length - 16)) := by
      rw [Buffer.loadWithin_prefix hpacket (by omega) (by omega) (by omega),
        show ((packet.length : ℤ) - 16).toNat = packet.length - 16 by omega,
        List.take_of_length_le (by rw [List.length_drop]; omega)]
    have hiv : Buffer.loadWithin packet.length input 0 12 = .ok (packet.take 12) :=
      Buffer.loadWithin_prefix hpacket le_rfl (by omega) (by omega)
    have hciphertext : Buffer.loadWithin packet.length input 12 (packet.length - (12 + 16)) =
        .ok ((packet.drop 12).take (packet.length - (12 + 16))) := by
      rw [Buffer.loadWithin_prefix hpacket (by omega) (by omega) (by omega),
        show ((packet.length : ℤ) - (12 + 16)).toNat = packet.length - (12 + 16) by omega]
      rfl
    have hroom : ((packet.drop 12).take (packet.length - (12 + 16))).length ≤ n := by
      rw [List.length_take, List.length_drop]
      omega
    simp only [htag, hiv, hciphertext, Buffer.ok_bind]
    generalize (packet.drop 12).take (packet.length - (12 + 16)) = ciphertext at hroom
    generalize calls.cipher (packet.take 12) ciphertext (packet.drop (packet.length - 16)) = cipher
    have hle := cipher.length_le
    cases calls.initOk with
    | false => exact .ok rfl
    | true =>
      obtain ⟨out₁, h₁, hout₁⟩ := Buffer.store_behind (show [] <+: out.1 from List.nil_prefix)
        cipher.updateOut (show (0 : ℤ) = [].length from rfl) (by omega)
      obtain ⟨out₂, h₂, hout₂⟩ := Buffer.store_behind hout₁ cipher.finalOut
        (show (cipher.updateOut.length : ℤ) = _ by rw [List.nil_append]) (by omega)
      simp only [h₁, h₂, Buffer.checkLength_ok (show (0 : ℤ) ≤ cipher.updateOut.length +
        cipher.finalOut.length by omega), Buffer.ok_bind]
      cases cipher.updateOk with
      | false => exact .ok rfl
      | true =>
        cases calls.setTagOk with
        | false => exact .ok rfl
        | true =>
          cases cipher.finalOk with
          | false => exact .ok rfl
          | true => exact .ok ⟨by simp, hout₂⟩

-- ════════════════════════════════════════════════════════════════════════
-- Sending
-- ════════════════════════════════════════════════════════════════════════

/-- The payload of `forward_to_peer`: nothing, the packet from the TUN device, or what
follows the header in `plain_buf`. -/
def Payload.Holds (payload : Payload) (bufs : Buffers) (bytes : Bytes) : Prop :=
  match payload with
  | .null => bytes = []
  | .tun => bytes <+: bufs.buffer.1
  | .inPlace => bytes <+: bufs.plainBuf.1.drop 16

theorem Payload.Holds.length_le {payload : Payload} {bufs : Buffers} {bytes : Bytes}
    (h : payload.Holds bufs bytes) : bytes.length ≤ 2048 := by
  cases payload with
  | null =>
    rw [show bytes = [] from h]
    exact Nat.zero_le _
  | tun =>
    have hle := List.IsPrefix.length_le h
    rwa [bufs.buffer.2] at hle
  | inPlace =>
    have hle := List.IsPrefix.length_le h
    rwa [List.length_drop, bufs.plainBuf.2] at hle

/-- The header is stored over the first 16 bytes of `plain_buf`. -/
theorem store_header (seq : BitVec 64) (plainBuf : Buffer 2064) :
    ∃ plainBuf₁ plainBuf₂, Buffer.store plainBuf 0 pktHeader = .ok plainBuf₁ ∧
      Buffer.store plainBuf₁ 8 (BigEndian.encode 8 seq.toNat) = .ok plainBuf₂ ∧
      plainBuf₂.1 = frame seq [] ++ plainBuf.1.drop 16 := by
  have hsplit : plainBuf.1 = [] ++ (plainBuf.1.take 8 ++ plainBuf.1.drop 8) := by simp
  obtain ⟨plainBuf₁, h₁, hbuf₁⟩ := Buffer.store_over hsplit
    (show pktHeader.length = (plainBuf.1.take 8).length by rw [List.length_take, plainBuf.2]; rfl)
  have hsplit₁ : plainBuf₁.1 =
      pktHeader ++ ((plainBuf.1.drop 8).take 8 ++ plainBuf.1.drop 16) := by
    rw [hbuf₁, List.nil_append, show plainBuf.1.drop 16 = (plainBuf.1.drop 8).drop 8 by
      rw [List.drop_drop], List.take_append_drop]
  obtain ⟨plainBuf₂, h₂, hbuf₂⟩ := Buffer.store_over hsplit₁
    (show (BigEndian.encode 8 seq.toNat).length = ((plainBuf.1.drop 8).take 8).length by
      rw [BigEndian.length_encode, List.length_take, List.length_drop, plainBuf.2]; rfl)
  refine ⟨plainBuf₁, plainBuf₂, h₁, h₂, ?_⟩
  rw [hbuf₂, frame]
  simp

theorem frame_nil_append (seq : BitVec 64) (payload : Bytes) :
    frame seq [] ++ payload = frame seq payload := by
  simp [frame]

/-- The payload can be read also after the header has been stored. -/
theorem Payload.Holds.load {payload : Payload} {bufs : Buffers} {bytes : Bytes}
    (h : payload.Holds bufs bytes) (hne : bytes ≠ []) {seq : BitVec 64} {plainBuf : Buffer 2064}
    (hbuf : plainBuf.1 = frame seq [] ++ bufs.plainBuf.1.drop 16) :
    payload.load { bufs with plainBuf } bytes.length = .ok bytes := by
  cases payload with
  | null => exact absurd h hne
  | tun => exact Buffer.load_part (show [] ++ bytes <+: bufs.buffer.1 from h)
  | inPlace =>
    have hpart : frame seq [] ++ bytes <+: plainBuf.1 := by
      rw [hbuf]
      exact (List.prefix_append_right_inj _).mpr h
    have hload := Buffer.load_part hpart
    rw [show ((frame seq []).length : ℤ) = 8 + 8 by simp] at hload
    exact hload

theorem copyPayload_safe {payload : Payload} {bufs : Buffers} {bytes : Bytes}
    (h : payload.Holds bufs bytes) {seq : BitVec 64} {plainBuf : Buffer 2064}
    (hbuf : plainBuf.1 = frame seq [] ++ bufs.plainBuf.1.drop 16) :
    Buffer.Safe (copyPayload payload bytes.length { bufs with plainBuf })
      fun bufs' => frame seq bytes <+: bufs'.plainBuf.1 := by
  have hframe : frame seq [] <+: plainBuf.1 := ⟨_, hbuf.symm⟩
  by_cases hne : bytes = []
  · subst hne
    exact .ok hframe
  · have hlen := h.length_le
    have hpos := List.length_pos_iff.mpr hne
    obtain ⟨plainBuf', hstore, hcopied⟩ := Buffer.store_behind hframe bytes
      (show (8 + 8 : ℤ) = (frame seq []).length by simp) (by omega)
    rw [copyPayload, if_pos (by omega), h.load hne hbuf]
    simp only [Buffer.ok_bind, hstore]
    exact .ok (frame_nil_append seq bytes ▸ hcopied)

/-- The datagram is the encrypted frame of the payload. -/
theorem forwardToPeer_safe (calls : EncryptCalls) (seq : BitVec 64) {payload : Payload}
    {bufs : Buffers} {bytes : Bytes} (h : payload.Holds bufs bytes) :
    Buffer.Safe (forwardToPeer calls seq payload bytes.length bufs)
      fun r => r.2 = calls.sealed (frame seq bytes) := by
  obtain ⟨plainBuf₁, plainBuf₂, h₁, h₂, hbuf₂⟩ := store_header seq bufs.plainBuf
  simp only [forwardToPeer, h₁, h₂, Buffer.ok_bind]
  refine Buffer.Safe.bind (copyPayload_safe h hbuf₂) fun bufs' hframe => ?_
  have hlen := h.length_le
  have henc := encryptPacket_safe calls hframe bufs'.wireBuf (by rw [length_frame]; omega)
  rw [length_frame] at henc
  refine Buffer.Safe.bind henc fun r hr => ?_
  obtain ⟨wireBuf, encLen⟩ := r
  cases hsealed : calls.sealed (frame seq bytes) with
  | none =>
    rw [hsealed] at hr
    obtain rfl : encLen = none := hr
    exact .ok rfl
  | some packet =>
    rw [hsealed] at hr
    obtain ⟨rfl, hpacket⟩ := hr
    have hload : Buffer.load wireBuf 0 packet.length = .ok packet :=
      Buffer.load_part (show [] ++ packet <+: wireBuf.1 from hpacket)
    simp only [hload, Buffer.ok_bind]
    exact .ok rfl

-- ════════════════════════════════════════════════════════════════════════
-- Receiving
-- ════════════════════════════════════════════════════════════════════════

/-- Which plaintext is used, and whether it is that of the previous key. -/
def chosen (s : PeerSession Key) (now : Time) (current previous : Option Bytes) :
    Option (Bytes × Bool) :=
  match current with
  | some plain => some (plain, false)
  | none =>
    if s.prevKeyActive && decide (now ≤ s.prevKeyExpires) then
      previous.map fun plain => (plain, true)
    else none

theorem tryKeys_safe (s : PeerSession Key) (now : Time) (current previous : DecryptCalls)
    {packet : Bytes} {wireBuf : Buffer m} (hpacket : packet <+: wireBuf.1) (plainBuf : Buffer n)
    (hn : packet.length ≤ n + 28) :
    Buffer.Safe (tryKeys s now current previous wireBuf packet.length plainBuf) fun r =>
      match chosen s now (current.opened packet) (previous.opened packet) with
      | none => r.2 = none
      | some (plain, usedPrevKey) =>
        r.2 = some ((plain.length : ℤ), usedPrevKey) ∧ plain <+: r.1.1 := by
  refine Buffer.Safe.bind (decryptPacket_safe current hpacket plainBuf hn) fun r hr => ?_
  obtain ⟨plainBuf₁, plainLen⟩ := r
  cases hopened : current.opened packet with
  | some plain =>
    rw [hopened] at hr
    obtain ⟨rfl, hplain⟩ := hr
    exact .ok ⟨rfl, hplain⟩
  | none =>
    rw [hopened] at hr
    obtain rfl : plainLen = none := hr
    simp only [chosen]
    by_cases hgrace : (s.prevKeyActive && decide (now ≤ s.prevKeyExpires)) = true
    · simp only [if_pos hgrace]
      refine Buffer.Safe.bind (decryptPacket_safe previous hpacket plainBuf₁ hn) fun r hr => ?_
      obtain ⟨plainBuf₂, plainLen⟩ := r
      cases hopened : previous.opened packet with
      | some plain =>
        rw [hopened] at hr
        obtain ⟨rfl, hplain⟩ := hr
        exact .ok ⟨rfl, hplain⟩
      | none =>
        rw [hopened] at hr
        obtain rfl : plainLen = none := hr
        exact .ok rfl
    · simp only [if_neg hgrace]
      exact .ok rfl

section Plaintext

variable {plain : Bytes} {buf : Buffer n} (hplain : plain <+: buf.1)
include hplain

theorem readHeader_eq : readHeader buf plain.length = .ok ((unframe plain).map Prod.fst) := by
  rw [readHeader, unframe]
  by_cases hshort : plain.length < 8 + 8
  · rw [if_pos (by omega), if_pos (Or.inl hshort)]
    rfl
  · have hheader : Buffer.loadWithin plain.length buf 0 8 = .ok (plain.take 8) :=
      Buffer.loadWithin_prefix hplain le_rfl (by omega) (by omega)
    have hseq : Buffer.loadWithin plain.length buf 8 8 = .ok ((plain.drop 8).take 8) :=
      Buffer.loadWithin_prefix hplain (by omega) (by omega) (by omega)
    rw [if_neg (by omega), hheader, Buffer.ok_bind]
    by_cases hbad : plain.take 8 = pktHeader
    · rw [if_neg (not_not.mpr hbad), if_neg (by simp [hshort, hbad]), hseq]
      rfl
    · rw [if_pos hbad, if_pos (Or.inr hbad)]
      rfl

theorem readIpv4_eq {k : ℕ} (hk : k ≤ plain.length) :
    readIpv4 plain.length buf k (plain.length - k) = .ok (isIpv4 (plain.drop k)) := by
  rw [readIpv4, isIpv4, List.length_drop]
  by_cases hshort : plain.length - k < 20
  · rw [if_pos (by omega), decide_eq_false (show ¬ 20 ≤ plain.length - k by omega), Bool.false_and]
  · have hbyte : Buffer.loadWithin plain.length buf k 1 = .ok ((plain.drop k).take 1) :=
      Buffer.loadWithin_prefix hplain (by omega) (by omega) (by omega)
    rw [if_neg (by omega), hbyte, Buffer.ok_bind,
      decide_eq_true (show 20 ≤ plain.length - k by omega), Bool.true_and]
    cases plain.drop k <;> rfl

theorem readIp_eq {k i : ℕ} (hip : isIpv4 (plain.drop k) = true) (hi : i + 4 ≤ 20) :
    readIp plain.length buf (k + i) = .ok (ipAt (plain.drop k) i) := by
  simp only [isIpv4, List.length_drop, Bool.and_eq_true, decide_eq_true_eq] at hip
  have hbytes : Buffer.loadWithin plain.length buf (k + i) 4 =
      .ok (((plain.drop k).drop i).take 4) := by
    rw [List.drop_drop]
    exact Buffer.loadWithin_prefix hplain (by omega) (by omega) (by omega)
  rw [readIp, hbytes]
  rfl

theorem checkSource_eq (s : PeerSession Key) (hlen : 16 ≤ plain.length) :
    checkSource s buf plain.length (plain.length - 8 - 8) =
      .ok !(!s.routes.isEmpty && isIpv4 (plain.drop 16) &&
        !checkAllowedSrc s (ipAt (plain.drop 16) 12)) := by
  have hipv4 : readIpv4 plain.length buf (8 + 8) (plain.length - 8 - 8) =
      .ok (isIpv4 (plain.drop 16)) := by
    rw [show (plain.length : ℤ) - 8 - 8 = plain.length - (16 : ℕ) by omega]
    exact readIpv4_eq hplain hlen
  rw [checkSource]
  cases s.routes.isEmpty with
  | true => rfl
  | false =>
    simp only [hipv4, Buffer.ok_bind]
    cases hip : isIpv4 (plain.drop 16) with
    | false => rfl
    | true =>
      have hsrc : readIp plain.length buf (8 + 8 + 12) = .ok (ipAt (plain.drop 16) 12) :=
        readIp_eq hplain hip (by decide)
      rw [if_pos rfl, hsrc, Buffer.ok_bind]
      simp

theorem relayTarget_eq (sessions : List (PeerSession Key)) (j : ℕ) (hlen : 16 ≤ plain.length) :
    relayTarget sessions j buf plain.length (plain.length - 8 - 8) =
      .ok (if isIpv4 (plain.drop 16) then
        (routeLookup sessions (ipAt (plain.drop 16) 16)).filter (· ≠ j) else none) := by
  have hipv4 : readIpv4 plain.length buf (8 + 8) (plain.length - 8 - 8) =
      .ok (isIpv4 (plain.drop 16)) := by
    rw [show (plain.length : ℤ) - 8 - 8 = plain.length - (16 : ℕ) by omega]
    exact readIpv4_eq hplain hlen
  rw [relayTarget, hipv4, Buffer.ok_bind]
  cases hip : isIpv4 (plain.drop 16) with
  | false => rfl
  | true =>
    have hdst : readIp plain.length buf (8 + 8 + 16) = .ok (ipAt (plain.drop 16) 16) :=
      readIp_eq hplain hip (by decide)
    rw [if_pos rfl, hdst, Buffer.ok_bind, if_pos rfl]

end Plaintext

theorem forwardOn_safe (calls : EncryptCalls) (sessions : List (PeerSession Key)) (j : ℕ)
    {payload : Payload} {bufs : Buffers} {bytes : Bytes} (h : payload.Holds bufs bytes) :
    Buffer.Safe (forwardOn calls sessions j payload bytes.length bufs) fun r =>
      r.2 = { toPeer := sessions[j]?.bind fun s => calls.sealed (frame s.sendSeq bytes) } := by
  rw [forwardOn]
  cases sessions[j]? with
  | none => exact .ok rfl
  | some s =>
    refine Buffer.Safe.bind (forwardToPeer_safe calls s.sendSeq h) fun r hr => ?_
    exact .ok (congrArg (Output.mk none) hr)

/-- What a payload that goes to `hop` leads to. -/
def hopOutput (sessions : List (PeerSession Key)) (relay : ℕ → EncryptCalls) (payload : Bytes) :
    Option (Option ℕ) → Output
  | none => {}
  | some none => { toTun := some payload }
  | some (some fwd) =>
    { toPeer := sessions[fwd]?.bind fun peer => (relay fwd).sealed (frame peer.sendSeq payload) }

/-- What a plaintext leads to. -/
def plainOutput (sessions : List (PeerSession Key)) (j : ℕ) (s : PeerSession Key)
    (relay : ℕ → EncryptCalls) (usedPrevKey : Bool) (plain : Bytes) : Output :=
  match unframe plain with
  | none => {}
  | some (seq, payload) =>
    if (if usedPrevKey then 0 else (checkReplay seq s.recvSeq).1) < 0 then {}
    else hopOutput sessions relay payload (nextHop sessions j s payload)

theorem unframe_payload {plain payload : Bytes} {seq : BitVec 64}
    (h : unframe plain = some (seq, payload)) : 16 ≤ plain.length ∧ payload = plain.drop 16 := by
  unfold unframe at h
  split at h
  · exact absurd h (by simp)
  · next hok =>
    rw [not_or] at hok
    obtain ⟨-, hpayload⟩ := Prod.mk.inj (Option.some.inj h)
    exact ⟨by omega, hpayload.symm⟩

theorem recvPlain_safe (sessions : List (PeerSession Key)) (j : ℕ) (s : PeerSession Key)
    (relay : ℕ → EncryptCalls) (usedPrevKey : Bool) {plain : Bytes} {bufs : Buffers}
    (hplain : plain <+: bufs.plainBuf.1) :
    Buffer.Safe (recvPlain sessions j s relay plain.length usedPrevKey bufs)
      fun r => r.2 = plainOutput sessions j s relay usedPrevKey plain := by
  rw [recvPlain, readHeader_eq hplain, Buffer.ok_bind, plainOutput]
  cases hun : unframe plain with
  | none => exact .ok rfl
  | some r =>
    obtain ⟨seq, payload⟩ := r
    obtain ⟨hlen, rfl⟩ := unframe_payload hun
    simp only [Option.map_some]
    by_cases hreplay : (if usedPrevKey then 0 else (checkReplay seq s.recvSeq).1) < 0
    · rw [if_pos hreplay, if_pos hreplay]
      exact .ok rfl
    · have hsub : (plain.length : ℤ) - 8 - 8 = (plain.drop 16).length := by
        rw [List.length_drop]
        omega
      rw [if_neg hreplay, if_neg hreplay, Buffer.checkLength_ok (by omega), Buffer.ok_bind,
        checkSource_eq hplain s hlen, relayTarget_eq hplain sessions j hlen, nextHop_eq,
        PeerSession.admits, hsub]
      have hload : Buffer.loadWithin plain.length bufs.plainBuf (8 + 8) (plain.drop 16).length =
          .ok (plain.drop 16) := by
        rw [Buffer.loadWithin_prefix hplain (by omega) (by omega) (by rw [← hsub]; omega)]
        exact congrArg Except.ok (List.take_of_length_le le_rfl)
      have hholds : Payload.inPlace.Holds bufs (plain.drop 16) := by
        obtain ⟨rest, hrest⟩ := hplain
        exact ⟨rest, by rw [← hrest, List.drop_append_of_le_length hlen]⟩
      generalize plain.drop 16 = payload at hload hholds
      cases payload with
      | nil => exact .ok rfl
      | cons b payload =>
        rw [if_neg (by rw [List.length_cons]; omega), Buffer.ok_bind]
        cases !s.routes.isEmpty && isIpv4 (b :: payload) &&
            !checkAllowedSrc s (ipAt (b :: payload) 12) with
        | true => exact .ok rfl
        | false =>
          simp only [Buffer.ok_bind, List.isEmpty_cons, Bool.not_false, Bool.and_self, if_true]
          cases (if isIpv4 (b :: payload) then
            (routeLookup sessions (ipAt (b :: payload) 16)).filter (· ≠ j) else none) with
          | none =>
            simp only [hload, Buffer.ok_bind]
            exact .ok rfl
          | some fwd => exact forwardOn_safe (relay fwd) sessions fwd hholds

/-- What a datagram leads to. -/
def dataOutput (sessions : List (PeerSession Key)) (j : ℕ) (s : PeerSession Key) (now : Time)
    (current previous : DecryptCalls) (relay : ℕ → EncryptCalls) (packet : Bytes) : Output :=
  match chosen s now (current.opened packet) (previous.opened packet) with
  | none => {}
  | some (plain, usedPrevKey) => plainOutput sessions j s relay usedPrevKey plain

theorem recvData_safe (sessions : List (PeerSession Key)) (j : ℕ) (s : PeerSession Key) (now : Time)
    (current previous : DecryptCalls) (relay : ℕ → EncryptCalls) {packet : Bytes} {bufs : Buffers}
    (hpacket : packet <+: bufs.wireBuf.1) :
    Buffer.Safe (recvData sessions j s now current previous relay packet.length bufs)
      fun r => r.2 = dataOutput sessions j s now current previous relay packet := by
  have hlen : packet.length ≤ 2092 := bufs.wireBuf.2 ▸ hpacket.length_le
  refine Buffer.Safe.bind (tryKeys_safe s now current previous hpacket bufs.plainBuf (by omega))
    fun r hr => ?_
  obtain ⟨plainBuf, plain⟩ := r
  rw [dataOutput]
  cases hchosen : chosen s now (current.opened packet) (previous.opened packet) with
  | none =>
    rw [hchosen] at hr
    obtain rfl : plain = none := hr
    exact .ok rfl
  | some c =>
    rw [hchosen] at hr
    obtain ⟨rfl, hplain⟩ := hr
    exact recvPlain_safe sessions j s relay c.2 hplain

/-- What a packet from the TUN device leads to. -/
def tunOutput (sessions : List (PeerSession Key)) (calls : ℕ → EncryptCalls) (packet : Bytes) :
    Output :=
  if isIpv4 packet then
    match routeLookup sessions (ipAt packet 16) with
    | none => {}
    | some j =>
      { toPeer := sessions[j]?.bind fun s => (calls j).sealed (frame s.sendSeq packet) }
  else {}

theorem tunRead_safe (sessions : List (PeerSession Key)) (calls : ℕ → EncryptCalls)
    {packet : Bytes} {bufs : Buffers} (hpacket : packet <+: bufs.buffer.1) :
    Buffer.Safe (tunRead sessions calls packet.length bufs)
      fun r => r.2 = tunOutput sessions calls packet := by
  have hipv4 : readIpv4 packet.length bufs.buffer 0 packet.length = .ok (isIpv4 packet) := by
    simpa using readIpv4_eq hpacket (Nat.zero_le _)
  rw [tunRead, hipv4, Buffer.ok_bind, tunOutput]
  cases hip : isIpv4 packet with
  | false => exact .ok rfl
  | true =>
    have hdst : readIp packet.length bufs.buffer 16 = .ok (ipAt packet 16) := by
      simpa using readIp_eq hpacket (show isIpv4 (packet.drop 0) = true from hip)
        (show 16 + 4 ≤ 20 by decide)
    rw [if_pos rfl, if_pos rfl, hdst, Buffer.ok_bind]
    cases routeLookup sessions (ipAt packet 16) with
    | none => exact .ok rfl
    | some j =>
      have hholds : Payload.tun.Holds bufs packet := hpacket
      exact forwardOn_safe (calls j) sessions j hholds

/-- What an activity leads to. -/
def Activity.output : Activity Key → Output
  | .udpRecv sessions j s now current previous relay datagram _ =>
    dataOutput sessions j s now current previous relay datagram
  | .tunRead sessions calls packet _ _ => tunOutput sessions calls packet
  | .keepalive s calls => { toPeer := calls.sealed (frame s.sendSeq []) }

theorem act_safe (bufs : Buffers) (a : Activity Key) :
    Buffer.Safe (act bufs a) fun r => r.2 = a.output := by
  cases a with
  | udpRecv sessions j s now current previous relay datagram hlen =>
    obtain ⟨wireBuf, hstore, hwire⟩ := Buffer.store_behind
      (show [] <+: bufs.wireBuf.1 from List.nil_prefix) datagram (show (0 : ℤ) = [].length from rfl)
      (by omega)
    rw [act, hstore, Buffer.ok_bind]
    exact recvData_safe sessions j s now current previous relay hwire
  | tunRead sessions calls packet hpos hlen =>
    obtain ⟨buffer, hstore, hbuffer⟩ := Buffer.store_behind
      (show [] <+: bufs.buffer.1 from List.nil_prefix) packet (show (0 : ℤ) = [].length from rfl)
      (by omega)
    rw [act, hstore, Buffer.ok_bind]
    exact tunRead_safe sessions calls hbuffer
  | keepalive s calls =>
    have hsend := forwardToPeer_safe calls s.sendSeq (show Payload.null.Holds bufs [] from rfl)
    rw [List.length_nil, Nat.cast_zero] at hsend
    rw [act]
    exact Buffer.Safe.bind hsend fun r hr => .ok (congrArg (Output.mk none) hr)

end InBuffers

open InBuffers in
/-- **Packet buffers.** Whatever the data path is given to do, in whatever order, with whatever
the calls into OpenSSL return and the buffers hold, it reads and writes only inside its buffers
and inside what it has received, and computes no negative length. What leaves it depends on the
packets only. -/
theorem buffers_never_overrun (activities : List (Activity Key)) (bufs : Buffers) :
    ∃ bufs', run bufs activities = .ok (bufs', activities.map Activity.output) := by
  induction activities generalizing bufs with
  | nil => exact ⟨bufs, rfl⟩
  | cons a activities ih =>
    obtain ⟨⟨bufs₁, output⟩, hact, rfl⟩ := act_safe bufs a
    obtain ⟨bufs', hrun⟩ := ih bufs₁
    refine ⟨bufs', ?_⟩
    simp only [run, hact, Buffer.ok_bind, hrun, List.map_cons]

-- ════════════════════════════════════════════════════════════════════════
-- Against the event loop
-- ════════════════════════════════════════════════════════════════════════

/-- The calls do what AES-GCM under the key does. -/
def EncryptCalls.Realizes (calls : EncryptCalls) (C : Crypto Priv Key) (key : Key)
    (iv : Option Iv) : Prop :=
  ∀ plain, calls.sealed plain = encryptPacket C key iv plain

def DecryptCalls.Realizes (calls : DecryptCalls) (C : Crypto Priv Key) (key : Key) : Prop :=
  ∀ packet, calls.opened packet = decryptPacket C key packet

/-- The calls of a library that encrypts without changing lengths. -/
def Crypto.encryptCalls (C : Crypto Priv Key) (key : Key) (iv : Option Iv) : EncryptCalls where
  iv := iv
  initOk := true
  cipher plain :=
    match iv.bind fun iv => C.gcmEncrypt key iv plain with
    | none => ⟨false, [], false, [], Nat.zero_le _⟩
    | some out => ⟨true, out.take plain.length, true, [], by simp⟩
  tagOk _ := true
  tag plain :=
    let tag := ((iv.bind fun iv => C.gcmEncrypt key iv plain).getD []).drop plain.length
    if h : tag.length = 16 then ⟨tag, h⟩ else ⟨List.replicate 16 0, rfl⟩

def Crypto.decryptCalls (C : Crypto Priv Key) (key : Key) : DecryptCalls where
  initOk := true
  cipher iv ciphertext tag :=
    match C.gcmDecrypt key iv (ciphertext ++ tag) with
    | none => ⟨true, [], false, [], Nat.zero_le _⟩
    | some plain => ⟨true, plain.take ciphertext.length, true, [], by simp⟩
  setTagOk := true

theorem Crypto.encryptCalls_realizes {C : Crypto Priv Key} (hC : C.GcmCorrect) (key : Key)
    (iv : Option Iv) : (C.encryptCalls key iv).Realizes C key iv := by
  intro plain
  cases iv with
  | none => rfl
  | some iv =>
    cases hout : C.gcmEncrypt key iv plain with
    | none => simp [EncryptCalls.sealed, Crypto.encryptCalls, encryptPacket, hout]
    | some out =>
      have hlen := hC.encrypt_length hout
      have htag : (out.drop plain.length).length = 16 := by
        rw [List.length_drop]
        omega
      simp [EncryptCalls.sealed, Crypto.encryptCalls, encryptPacket, hout, hlen]

theorem Crypto.decryptCalls_realizes (C : Crypto Priv Key)
    (hC : ∀ {key iv out plain}, C.gcmDecrypt key iv out = some plain →
      plain.length + 16 = out.length)
    (key : Key) : (C.decryptCalls key).Realizes C key := by
  intro packet
  rw [DecryptCalls.opened, decryptPacket]
  by_cases hshort : packet.length < 12 + 16
  · rw [if_pos hshort, if_pos hshort]
  · have hjoin : (packet.drop 12).take (packet.length - (12 + 16)) ++
        packet.drop (packet.length - 16) = packet.drop 12 := by
      rw [show packet.length - 16 = 12 + (packet.length - (12 + 16)) by omega, ← List.drop_drop,
        List.take_append_drop]
    rw [if_neg hshort, if_neg hshort]
    cases hplain : C.gcmDecrypt key (packet.take 12) (packet.drop 12) with
    | none => simp [Crypto.decryptCalls, hjoin, hplain]
    | some plain =>
      have hlen := hC hplain
      have htake : plain.take ((packet.drop 12).take (packet.length - (12 + 16))).length = plain :=
        List.take_of_length_le (by rw [List.length_drop] at hlen; simp; omega)
      simp only [Crypto.decryptCalls, hjoin, hplain, htake]
      simp

open InBuffers

theorem decryptOn_eq_chosen (C : Crypto Priv Key) (s : PeerSession Key) (packet : Bytes)
    (now : Time) : decryptOn C s packet now =
      (chosen s now (decryptPacket C s.sessionKey packet)
        (decryptPacket C s.prevSessionKey packet)).map fun r =>
          (r.1, r.2, if r.2 then s.prevSessionKey else s.sessionKey) := by
  unfold decryptOn chosen
  cases decryptPacket C s.sessionKey packet with
  | some plain => rfl
  | none =>
    cases s.prevKeyActive && decide (now ≤ s.prevKeyExpires) with
    | false => rfl
    | true => cases decryptPacket C s.prevSessionKey packet <;> rfl

/-- What `forward_to_peer` sends on a slot. -/
theorem datagrams_forwardOn (C : Crypto Priv Key) (st : PeerState Priv Key) (j : ℕ)
    (payload : Bytes) (env : SendEnv) :
    tunWrites (forwardOn C st j payload env).2 = [] ∧
    datagrams (forwardOn C st j payload env).2 =
      if env.sendOk then (st.sessions[j]?.bind fun s =>
        encryptPacket C s.sessionKey env.iv (frame s.sendSeq payload)).toList else [] := by
  rw [LaneCove.forwardOn]
  cases st.sessions[j]? with
  | none => simp [tunWrites, datagrams]
  | some s =>
    simp only [LaneCove.forwardToPeer]
    cases henc : encryptPacket C s.sessionKey env.iv (frame s.sendSeq payload) with
    | none => simp [tunWrites, datagrams, henc]
    | some packet => cases env.sendOk <;> simp [tunWrites, datagrams, Event.datagram, henc]

theorem bind_sealed_eq {C : Crypto Priv Key} {slot : Option (PeerSession Key)} {iv : Option Iv}
    {calls : EncryptCalls} (hcalls : ∀ s, slot = some s → calls.Realizes C s.sessionKey iv)
    (payload : Bytes) :
    (slot.bind fun s => encryptPacket C s.sessionKey iv (frame s.sendSeq payload)) =
      slot.bind fun s => calls.sealed (frame s.sendSeq payload) := by
  cases slot with
  | none => rfl
  | some s => exact (hcalls s rfl _).symm

theorem dataOutput_eq {C : Crypto Priv Key} (sessions : List (PeerSession Key)) (j : ℕ)
    {s : PeerSession Key} (packet : Bytes) (now : Time) {current previous : DecryptCalls}
    (relay : ℕ → EncryptCalls) (hcurrent : current.Realizes C s.sessionKey)
    (hprevious : previous.Realizes C s.prevSessionKey) :
    dataOutput sessions j s now current previous relay packet =
      match openData C s packet now with
      | none => {}
      | some (_, _, _, payload, _) =>
        hopOutput sessions relay payload (nextHop sessions j s payload) := by
  rw [dataOutput, hcurrent packet, hprevious packet, openData, decryptOn_eq_chosen]
  cases chosen s now (decryptPacket C s.sessionKey packet)
      (decryptPacket C s.prevSessionKey packet) with
  | none => rfl
  | some r =>
    obtain ⟨plain, usedPrevKey⟩ := r
    cases hun : unframe plain with
    | none => simp [plainOutput, hun]
    | some r =>
      obtain ⟨seq, payload⟩ := r
      cases usedPrevKey with
      | true => simp [plainOutput, hun]
      | false =>
        by_cases hreplay : (checkReplay seq s.recvSeq).1 < 0 <;> simp [plainOutput, hun, hreplay]

/-- The buffers hand on what the event loop says: to the TUN device, and to another peer
unless `sendto` fails. -/
theorem recvData_refines {C : Crypto Priv Key} {st : PeerState Priv Key} {j : ℕ}
    {s : PeerSession Key} (hj : st.sessions[j]? = some s) (packet : Bytes) (now : Time)
    (env : RecvEnv Priv) {current previous : DecryptCalls} {relay : ℕ → EncryptCalls}
    (hcurrent : current.Realizes C s.sessionKey) (hprevious : previous.Realizes C s.prevSessionKey)
    (hrelay : ∀ i peer, st.sessions[i]? = some peer →
      (relay i).Realizes C peer.sessionKey env.relay.iv) :
    let out := dataOutput st.sessions j s now current previous relay packet
    let events := (LaneCove.recvData C st j s packet now env).2
    tunWrites events = out.toTun.toList ∧
      datagrams events = if env.relay.sendOk then out.toPeer.toList else [] := by
  intro out events
  have hout : out = _ := dataOutput_eq st.sessions j packet now relay hcurrent hprevious
  have hevents : events = (LaneCove.recvData C st j s packet now env).2 := rfl
  rw [LaneCove.recvData] at hevents
  rw [hout, hevents]
  cases openData C s packet now with
  | none => simp [tunWrites, datagrams]
  | some r =>
    obtain ⟨key, usedPrevKey, seq, payload, recvSeq⟩ := r
    -- the session is changed in other columns than those that the lookup reads
    have hlookup : ∀ dst, routeLookup (st.sessions.set j (afterAccept C s packet now recvSeq)) dst =
        routeLookup st.sessions dst := routeLookup_congr (map_set_of_eq hj rfl)
    have hhop : nextHop (st.sessions.set j (afterAccept C s packet now recvSeq)) j
        (afterAccept C s packet now recvSeq) payload = nextHop st.sessions j s payload := by
      rw [nextHop_eq, nextHop_eq, hlookup]
      rfl
    simp only [hhop]
    cases hnext : nextHop st.sessions j s payload with
    | none => simp [handOn, relayTo, hopOutput, tunWrites, datagrams, Event.datagram]
    | some hop =>
      cases hop with
      | none => simp [handOn, relayTo, hopOutput, tunWrites, datagrams, Event.datagram]
      | some fwd =>
        obtain ⟨htun, hsent⟩ := datagrams_forwardOn C
          { st with sessions := st.sessions.set j (afterAccept C s packet now recvSeq) } fwd payload
          env.relay
        rw [List.getElem?_set_ne (nextHop_ne hnext).symm,
          bind_sealed_eq (hrelay fwd) payload] at hsent
        exact ⟨htun, hsent⟩

/-- The same for packets from the TUN device. -/
theorem tunRead_refines {C : Crypto Priv Key} {st : PeerState Priv Key} (packet : Bytes)
    (env : SendEnv) {calls : ℕ → EncryptCalls} (hcalls : ∀ i peer, st.sessions[i]? = some peer →
      (calls i).Realizes C peer.sessionKey env.iv) :
    let events := (LaneCove.tunRead C st packet env).2
    tunWrites events = [] ∧ datagrams events =
      if env.sendOk then (tunOutput st.sessions calls packet).toPeer.toList else [] := by
  simp only [LaneCove.tunRead, tunOutput]
  cases isIpv4 packet with
  | false => simp [tunWrites, datagrams]
  | true =>
    cases routeLookup st.sessions (ipAt packet 16) with
    | none => simp [tunWrites, datagrams]
    | some j =>
      obtain ⟨htun, hsent⟩ := datagrams_forwardOn C st j packet env
      rw [bind_sealed_eq (hcalls j) packet] at hsent
      exact ⟨htun, hsent⟩

/-- Encryption for the sessions of a table. -/
def Crypto.slotCalls (C : Crypto Priv Key) (key : Key) (sessions : List (PeerSession Key))
    (iv : Option Iv) (i : ℕ) : EncryptCalls :=
  C.encryptCalls ((sessions[i]?.map fun s => s.sessionKey).getD key) iv

theorem Crypto.slotCalls_realizes (C : Crypto Priv Key) (hC : C.GcmCorrect) (key : Key)
    (sessions : List (PeerSession Key)) (iv : Option Iv) (i : ℕ) (peer : PeerSession Key)
    (hpeer : sessions[i]? = some peer) :
    (C.slotCalls key sessions iv i).Realizes C peer.sessionKey iv := by
  rw [Crypto.slotCalls, hpeer]
  exact encryptCalls_realizes hC peer.sessionKey iv

/-- In its buffers and with a library that keeps lengths, the data path writes to the TUN device
and sends what the event loop does. -/
theorem act_refines {C : Crypto Priv Key} (hC : C.GcmCorrect)
    (hD : ∀ {key iv out plain}, C.gcmDecrypt key iv out = some plain →
      plain.length + 16 = out.length)
    (st : PeerState Priv Key) (bufs : Buffers) :
    (∀ (j : ℕ) (s : PeerSession Key) (packet : Bytes) (now : Time) (env : RecvEnv Priv)
      (hlen : packet.length ≤ 2092), st.sessions[j]? = some s →
      ∃ bufs' out, act bufs (.udpRecv st.sessions j s now (C.decryptCalls s.sessionKey)
          (C.decryptCalls s.prevSessionKey) (C.slotCalls s.sessionKey st.sessions env.relay.iv)
          packet hlen) = .ok (bufs', out) ∧
        tunWrites (LaneCove.recvData C st j s packet now env).2 = out.toTun.toList ∧
        datagrams (LaneCove.recvData C st j s packet now env).2 =
          if env.relay.sendOk then out.toPeer.toList else []) ∧
    ∀ (key : Key) (packet : Bytes) (env : SendEnv) (hpos : 1 ≤ packet.length)
      (hlen : packet.length ≤ 2048),
      ∃ bufs' out, act bufs (.tunRead st.sessions (C.slotCalls key st.sessions env.iv) packet hpos
          hlen) = .ok (bufs', out) ∧
        tunWrites (LaneCove.tunRead C st packet env).2 = [] ∧
        datagrams (LaneCove.tunRead C st packet env).2 =
          if env.sendOk then out.toPeer.toList else [] := by
  constructor
  · intro j s packet now env hlen hj
    obtain ⟨⟨bufs', out⟩, hact, rfl⟩ := act_safe bufs (.udpRecv st.sessions j s now
      (C.decryptCalls s.sessionKey) (C.decryptCalls s.prevSessionKey)
      (C.slotCalls s.sessionKey st.sessions env.relay.iv) packet hlen)
    exact ⟨bufs', _, hact, recvData_refines hj packet now env (C.decryptCalls_realizes hD _)
      (C.decryptCalls_realizes hD _) (C.slotCalls_realizes hC _ _ _)⟩
  · intro key packet env hpos hlen
    obtain ⟨⟨bufs', out⟩, hact, rfl⟩ := act_safe bufs
      (.tunRead st.sessions (C.slotCalls key st.sessions env.iv) packet hpos hlen)
    exact ⟨bufs', _, hact, tunRead_refines packet env (C.slotCalls_realizes hC _ _ _)⟩

end LaneCove
