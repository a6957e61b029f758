import LaneCove.EventLoop

/-!
# A small executable instance

A toy cryptographic library with the laws the development assumes, small enough
to run whole handshakes by evaluation. Keys are one byte wide, a public key is
the byte repeated, and a tag is the key itself.
-/

namespace LaneCove.Sample

/-- A polynomial hash. -/
def hash (bytes : Bytes) : ℕ := bytes.foldl (fun n b => n * 1000003 + b.toNat + 1) 7

/-- Keys are 128-bit numbers, so that a tag can name its key. -/
abbrev SKey := BitVec 128

def tag (key : SKey) : Bytes := BigEndian.encode 16 key.toNat

/-- Shared secrets are symmetric and exist for all key pairs. -/
def shared (priv : UInt8) (pub : Bytes) : Option Bytes :=
  if pub.isEmpty then none else some (List.replicate 32 (priv + pub.headD 0))

def crypto : Crypto UInt8 SKey where
  publicKey priv := List.replicate 32 priv
  x25519SharedSecret := shared
  sha256 bytes := BitVec.ofNat 128 (hash bytes)
  hmac key msg := some (BigEndian.encode 32 (hash (tag key ++ msg)))
  gcmEncrypt key _ plain := some (plain ++ tag key)
  gcmDecrypt key _ out :=
    if out.drop (out.length - 16) = tag key then some (out.take (out.length - 16)) else none

theorem tag_injective {key key' : SKey} (h : tag key = tag key') : key = key' := by
  have hdec : BigEndian.decode (tag key) = BigEndian.decode (tag key') := by rw [h]
  have hlt : ∀ k : SKey, k.toNat < 256 ^ 16 := fun k => by
    have := k.isLt
    norm_num
    omega
  rw [tag, tag, BigEndian.decode_encode (hlt key), BigEndian.decode_encode (hlt key')] at hdec
  exact BitVec.eq_of_toNat_eq hdec

theorem crypto_gcmCorrect : crypto.GcmCorrect where
  decrypt_encrypt h := by
    obtain rfl := Option.some.inj h
    simp [crypto, tag]
  encrypt_length h := by
    obtain rfl := Option.some.inj h
    simp [tag]

theorem crypto_opensOnly {key : SKey} {iv : Option Iv} {plain packet : Bytes}
    (h : encryptPacket crypto key iv plain = some packet) (keys : List SKey) :
    OpensOnly crypto keys key packet := by
  intro key' _ hne
  obtain ⟨iv', out, -, hout, rfl⟩ := encryptPacket_eq_some h
  rw [decryptPacket_append iv' (by rw [crypto_gcmCorrect.encrypt_length hout]; omega)]
  obtain rfl := Option.some.inj hout
  simp only [crypto, tag, List.length_append, BigEndian.length_encode, Nat.add_sub_cancel,
    List.drop_left]
  rw [if_neg]
  exact fun he => hne (tag_injective he).symm

theorem crypto_dhCorrect : crypto.DhCorrect where
  comm a b := by simp [crypto, shared, List.replicate_succ, UInt8.add_comm]
  total a b := by simp [crypto, shared]

theorem crypto_sized : crypto.Sized where
  publicKey_length _ := by simp [crypto]
  hmac_length h := by
    obtain rfl := Option.some.inj h
    simp

def addr (n : ℕ) : SockAddr := ⟨BitVec.ofNat 32 n, 655⟩

/-- Peer `n` lives at address `n` and may send from anywhere. -/
def peerConfig (n : UInt8) (hasEndpoint : Bool) : PeerConfig :=
  ⟨crypto.publicKey n, [⟨0, 0, 0⟩], hasEndpoint, addr n.toNat, 0⟩

def params (n : UInt8) : PeerParams UInt8 SKey := ⟨n, crypto.publicKey n, none, {}⟩

def sendEnv (clk : Time) : SendEnv := ⟨some ⟨List.replicate 12 9, rfl⟩, true, clk⟩

def recvEnv (clk : Time) (fresh : UInt8) : RecvEnv UInt8 :=
  ⟨⟨clk, clk, clk, clk⟩, true, some fresh, sendEnv clk⟩

/-- The initiation of `client` to `server` with an ephemeral key. -/
def initiation (client server eph : UInt8) : Bytes :=
  ((handshakeClientSend crypto none (crypto.publicKey client) (crypto.publicKey server) (some eph)
    true).map Prod.fst).getD []

/-- A pass over the timers in which a new handshake uses the ephemeral key `eph`. -/
def tickAt (now : Time) (eph : UInt8) : Input UInt8 :=
  .tick now (fun _ => ⟨none, some eph, true, now, now⟩) (fun _ => sendEnv now)

/-- An IPv4 packet with no payload. -/
def ipPacket : Bytes := 0x45 :: List.replicate 19 0

/-- Peer 1 answers peers 2 and 3. -/
def serverRun : List (Input UInt8) → PeerState UInt8 SKey × List (Event SKey) :=
  Machine.run (step crypto (params 1))
    (PeerState.initial [peerConfig 2 false, peerConfig 3 false] (some 4))

/-- Peer 2 connects to peer 1. -/
def clientRun : List (Input UInt8) → PeerState UInt8 SKey × List (Event SKey) :=
  Machine.run (step crypto (params 2)) (PeerState.initial [peerConfig 1 true] (some 5))

/-- What peer 1 answers to the first initiation of peer 2. -/
def response : Bytes :=
  (datagrams (serverRun [.udpRecv (addr 2) (initiation 2 1 10) 100 (recvEnv 100 20)]).2).headD []

/-- Peer 2 connects, and then sends one packet. -/
def clientInputs : List (Input UInt8) := [
  tickAt 100 10,
  .udpRecv (addr 1) response 100 (recvEnv 100 6),
  .tunRead ipPacket (sendEnv 101)]

/-- The data packet peer 2 has sent. -/
def dataPacket : Bytes := (datagrams (clientRun clientInputs).2).getLastD []

end LaneCove.Sample
