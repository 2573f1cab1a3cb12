import EuroOS.CertChain

/-!
# TLS records and the key schedule

The framing of records, the big-endian fields of the handshake messages, and the
derivation of the traffic keys.  Hash, MAC, HKDF, X25519 and the AEAD are the
parameters of `TlsCrypto`.
-/

namespace EuroOS.Tls

/-- The primitives the client takes from other crates. -/
class TlsCrypto extends CertCrypto where
  sha256 : Bytes → Bytes
  hmacSha256 : Bytes → Bytes → Bytes
  hkdfExtract : Bytes → Bytes → Bytes
  hkdfExpand : Bytes → Bytes → Nat → Bytes
  publicKey : Bytes → Bytes
  diffieHellman : Bytes → Bytes → Bytes
  encrypt : Bytes → Bytes → Bytes → Bytes → Bytes
  decrypt : Bytes → Bytes → Bytes → Bytes → Option Bytes

abbrev hsClientHello : UInt8 := 1
abbrev hsServerHello : UInt8 := 2
abbrev hsNewSessionTicket : UInt8 := 4
abbrev hsEncryptedExtensions : UInt8 := 8
abbrev hsCertificate : UInt8 := 11
abbrev hsCertificateVerify : UInt8 := 15
abbrev hsFinished : UInt8 := 20

abbrev ctChangeCipherSpec : UInt8 := 20
abbrev ctAlert : UInt8 := 21
abbrev ctHandshake : UInt8 := 22
abbrev ctApplicationData : UInt8 := 23

abbrev hashLen : Nat := 32
abbrev keyLen : Nat := 32
abbrev ivLen : Nat := 12
abbrev maxRecordLen : Nat := 2 ^ 14 + 256

abbrev tlsChacha20Poly1305Sha256 : Nat := 0x1303
abbrev groupX25519 : Nat := 0x001d
abbrev sigEd25519 : Nat := 0x0807
abbrev sigEcdsaP256 : Nat := 0x0403
abbrev sigRsaPssSha256 : Nat := 0x0804
abbrev sigRsaPkcs1Sha256 : Nat := 0x0401

inductive TlsError where
  | needMore
  | alert (code : UInt8)
  | badRecord
  | decrypt
  | badFinished
  | unsupported
  | protocol (text : String)
  deriving DecidableEq

/-! ## Big-endian fields -/

def ascii (s : String) : Bytes := s.toList.map fun c => UInt8.ofNat c.toNat

def byteAt (b : Bytes) (i : Nat) : Nat := (b.getD i 0).toNat

def u16At (b : Bytes) (i : Nat) : Nat := byteAt b i * 256 + byteAt b (i + 1)

def u24At (b : Bytes) (i : Nat) : Nat :=
  byteAt b i * 65536 + byteAt b (i + 1) * 256 + byteAt b (i + 2)

def be16 (n : Nat) : Bytes := [UInt8.ofNat (n / 256), UInt8.ofNat n]

def be24 (n : Nat) : Bytes := [UInt8.ofNat (n / 65536), UInt8.ofNat (n / 256), UInt8.ofNat n]

def between (b : Bytes) (first last : Nat) : Bytes := (b.drop first).take (last - first)

structure Record where
  ctype : UInt8
  fragment : Bytes
  deriving DecidableEq

/-- `read_record`: the record and the bytes it takes, nothing when it is not
complete, or the overflow error. -/
def readRecord (buf : Bytes) : Except Unit (Option (Record × Nat)) :=
  if buf.length < 5 then .ok none
  else if u16At buf 3 > maxRecordLen then .error ()
  else if buf.length < 5 + u16At buf 3 then .ok none
  else .ok (some (⟨buf.getD 0 0, between buf 5 (5 + u16At buf 3)⟩, 5 + u16At buf 3))

def buildRecord (ctype : UInt8) (fragment : Bytes) : Bytes :=
  [ctype, 3, 3] ++ be16 fragment.length ++ fragment

def aeadAad (ciphertextLen : Nat) : Bytes :=
  [ctApplicationData, 3, 3] ++ be16 ciphertextLen

def wrapHandshake (mtype : UInt8) (body : Bytes) : Bytes :=
  mtype :: be24 body.length ++ body

def splitInner (pt : Bytes) : Except TlsError (UInt8 × Bytes) :=
  match pt.reverse.dropWhile (· == 0) with
  | [] => .error .badRecord
  | inner :: content => .ok (inner, content.reverse)

/-! ## Keys -/

structure TrafficKeys where
  secret : Bytes
  key : Bytes
  iv : Bytes
  finishedKey : Bytes
  deriving DecidableEq

structure KeySchedule where
  earlySecret : Bytes
  handshakeSecret : Bytes
  masterSecret : Bytes
  deriving DecidableEq

section keys

variable [TlsCrypto]

def hkdfExpandLabel (secret : Bytes) (label : String) (context : Bytes) (length : Nat) : Bytes :=
  let fullLabel := ascii "tls13 " ++ ascii label
  TlsCrypto.hkdfExpand secret
    (be16 length ++ UInt8.ofNat fullLabel.length :: fullLabel ++
      UInt8.ofNat context.length :: context) length

def deriveSecret (secret : Bytes) (label : String) (transcriptHash : Bytes) : Bytes :=
  hkdfExpandLabel secret label transcriptHash hashLen

def TrafficKeys.derive (secret : Bytes) : TrafficKeys :=
  { secret := secret
    key := hkdfExpandLabel secret "key" [] keyLen
    iv := hkdfExpandLabel secret "iv" [] ivLen
    finishedKey := hkdfExpandLabel secret "finished" [] hashLen }

def KeySchedule.new : KeySchedule :=
  { earlySecret := TlsCrypto.hkdfExtract (List.replicate hashLen 0) (List.replicate hashLen 0)
    handshakeSecret := List.replicate hashLen 0
    masterSecret := List.replicate hashLen 0 }

/-- The schedule with the handshake secret, and the client's and server's keys. -/
def KeySchedule.deriveHandshake (ks : KeySchedule) (ecdhe th : Bytes) :
    KeySchedule × TrafficKeys × TrafficKeys :=
  let derived := deriveSecret ks.earlySecret "derived" (TlsCrypto.sha256 [])
  let secret := TlsCrypto.hkdfExtract derived ecdhe
  ({ ks with handshakeSecret := secret },
    TrafficKeys.derive (deriveSecret secret "c hs traffic" th),
    TrafficKeys.derive (deriveSecret secret "s hs traffic" th))

def KeySchedule.deriveApplication (ks : KeySchedule) (th : Bytes) :
    KeySchedule × TrafficKeys × TrafficKeys :=
  let derived := deriveSecret ks.handshakeSecret "derived" (TlsCrypto.sha256 [])
  let secret := TlsCrypto.hkdfExtract derived (List.replicate hashLen 0)
  ({ ks with masterSecret := secret }, TrafficKeys.derive (deriveSecret secret "c ap traffic" th),
    TrafficKeys.derive (deriveSecret secret "s ap traffic" th))

/-- The initialisation vector with the sequence number in its last eight bytes. -/
def nonce (iv : Bytes) (seq : UInt64) : Bytes :=
  iv.take (ivLen - 8) ++ List.zipWith (· ^^^ ·) (iv.drop (ivLen - 8)) (le 8 seq.toNat).reverse

def aeadSeal (key iv : Bytes) (seq : UInt64) (aad plaintext : Bytes) : Bytes :=
  TlsCrypto.encrypt key (nonce iv seq) aad plaintext

def aeadOpen (key iv : Bytes) (seq : UInt64) (aad ciphertext : Bytes) : Option Bytes :=
  TlsCrypto.decrypt key (nonce iv seq) aad ciphertext

def sealRecord (innerType : UInt8) (content key iv : Bytes) (seq : UInt64) : Bytes :=
  let pt := content ++ [innerType]
  buildRecord ctApplicationData (aeadSeal key iv seq (aeadAad (pt.length + 16)) pt)

end keys

end EuroOS.Tls
