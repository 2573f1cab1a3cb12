import EuroOS.TlsSteps

/-!
# A server for the client

The messages and records of a peer that takes part in the key exchange.  `StandIn`
gives the primitives as small computable functions: a polynomial digest, a
Diffie-Hellman exchange modulo a prime, an AEAD that appends a keyed tag, and a
directory of two certificates, a root and a leaf for `example.test`.
-/

namespace EuroOS.Tls

section peer

variable [TlsCrypto]

def serverHelloMsg (pub : Bytes) : Bytes :=
  let ext := Tls13Client.pushExt 0x0033 (be16 groupX25519 ++ be16 pub.length ++ pub)
  wrapHandshake hsServerHello
    ([3, 3] ++ List.replicate 32 0 ++ 0 :: be16 tlsChacha20Poly1305Sha256 ++
      0 :: be16 ext.length ++ ext)

def peerKeys (secret clientPub transcript : Bytes) : TrafficKeys :=
  (KeySchedule.new.deriveHandshake (TlsCrypto.diffieHellman secret clientPub)
    (TlsCrypto.sha256 transcript)).2.2

def peerAppKeys (secret clientPub hellos transcript : Bytes) : TrafficKeys :=
  ((KeySchedule.new.deriveHandshake (TlsCrypto.diffieHellman secret clientPub)
    (TlsCrypto.sha256 hellos)).1.deriveApplication (TlsCrypto.sha256 transcript)).2.2

def certificateMsg (ders : List Bytes) : Bytes :=
  let list := ders.flatMap fun der => be24 der.length ++ der ++ be16 0
  wrapHandshake hsCertificate (0 :: be24 list.length ++ list)

def certificateVerifyMsg (scheme : Nat) (signature : Bytes) : Bytes :=
  wrapHandshake hsCertificateVerify (be16 scheme ++ be16 signature.length ++ signature)

def finishedMsg (keys : TrafficKeys) (transcript : Bytes) : Bytes :=
  wrapHandshake hsFinished
    (TlsCrypto.hmacSha256 keys.finishedKey (TlsCrypto.sha256 transcript))

def peerRecord (innerType : UInt8) (content : Bytes) (keys : TrafficKeys) (seq : UInt64) : Bytes :=
  sealRecord innerType content keys.key keys.iv seq

end peer

namespace StandIn

def digest (b : Bytes) : Bytes :=
  le 32 (b.foldl (fun h x => (h * 257 + x.toNat + 1) % 2 ^ 256) 0)

def tag (key nonce aad plaintext : Bytes) : Bytes :=
  (digest (key ++ nonce ++ aad ++ plaintext)).take 16

def power (base exponent : Nat) : Bytes := le 32 (base ^ (exponent % 1000) % 1000003)

def sign (key msg : Bytes) : Bytes := digest (key ++ 3 :: msg)

def rootKey : Bytes := [9]

def leafKey : Bytes := [5]

def root : Certificate :=
  { tbsDer := [2], issuerDer := [7], subjectDer := [7], notBefore := 0, notAfter := 1000
    pubkeyAlg := .ed25519, pubkey := rootKey, sigAlg := .ed25519, signature := sign rootKey [2]
    sanDns := [], isCa := true }

def leaf : Certificate :=
  { tbsDer := [1], issuerDer := [7], subjectDer := [8], notBefore := 0, notAfter := 1000
    pubkeyAlg := .ed25519, pubkey := leafKey, sigAlg := .ed25519, signature := sign rootKey [1]
    sanDns := [ascii "example.test"], isCa := false }

scoped instance crypto : TlsCrypto where
  parse der := if der = [1] then .ok leaf else if der = [2] then .ok root else .error .malformed
  verifyEcdsaP256 _ _ _ := false
  verifyEcdsaP384 _ _ _ := false
  verifyEd25519 key msg signature := signature == sign key msg
  verifyRsaPkcs1Sha256 _ _ _ := false
  verifyRsaPkcs1Sha384 _ _ _ := false
  verifyRsaPssSha256 _ _ _ := false
  sha256 := digest
  hmacSha256 key msg := digest (key ++ 0 :: msg)
  hkdfExtract salt ikm := digest (salt ++ 1 :: ikm)
  hkdfExpand prk info length := (digest (prk ++ 2 :: info)).take length
  publicKey secret := power 3 (leNat secret)
  diffieHellman secret pub := power (leNat pub) (leNat secret)
  encrypt key nonce aad plaintext := plaintext ++ tag key nonce aad plaintext
  decrypt key nonce aad ciphertext :=
    let plaintext := ciphertext.take (ciphertext.length - 16)
    if ciphertext = plaintext ++ tag key nonce aad plaintext then some plaintext else none

def host : Bytes := ascii "example.test"

def clientSecret : Bytes := le 32 17

def serverSecret : Bytes := le 32 23

def random : Bytes := List.replicate 32 4

def session : Session := Session.start host random clientSecret 500 [[2]]

def serverHello : Bytes := serverHelloMsg (TlsCrypto.publicKey serverSecret)

def hellos : Bytes := session.client.transcript ++ serverHello

def keys : TrafficKeys := peerKeys serverSecret (TlsCrypto.publicKey clientSecret) hellos

/-- The flight of an honest server: extensions, certificate, signature, Finished. -/
def extensions : Bytes := wrapHandshake hsEncryptedExtensions (be16 0)

def certificate : Bytes := certificateMsg [[1]]

def upToCertificate : Bytes := hellos ++ extensions ++ certificate

def verifyMsg : Bytes :=
  certificateVerifyMsg sigEd25519
    (sign leafKey (Tls13Client.signedContent (digest upToCertificate)))

def finished : Bytes := finishedMsg keys (upToCertificate ++ verifyMsg)

def flight : Bytes := extensions ++ certificate ++ verifyMsg ++ finished

def appKeys : TrafficKeys :=
  peerAppKeys serverSecret (TlsCrypto.publicKey clientSecret) hellos
    (upToCertificate ++ verifyMsg ++ finished)

end StandIn

end EuroOS.Tls
