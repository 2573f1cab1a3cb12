import EuroOS.ByteCodec

/-!
# Certificate chains

`chain::validate` over parsed certificates.  Reading a certificate from DER and
the signature primitives are the parameters of `CertCrypto`; the path rules,
the validity window and the host-name rule are those of the code.  Host names
are their UTF-8 bytes, which is what the ASCII comparisons look at.
-/

namespace EuroOS.Tls

inductive X509Error where
  | truncated | unexpectedTag | badLength | malformed | badTime
  deriving DecidableEq

inductive PubKeyAlg where
  | ecP256 | ecP384 | rsa | ed25519 | unsupported
  deriving DecidableEq

inductive SigAlg where
  | ecdsaSha256 | ecdsaSha384 | rsaSha256 | rsaSha384 | ed25519 | unsupported
  deriving DecidableEq

structure Certificate where
  tbsDer : Bytes
  issuerDer : Bytes
  subjectDer : Bytes
  notBefore : Int
  notAfter : Int
  pubkeyAlg : PubKeyAlg
  pubkey : Bytes
  sigAlg : SigAlg
  signature : Bytes
  sanDns : List Bytes
  isCa : Bool
  deriving DecidableEq

/-- DER parsing and the signature schemes: key, message, signature. -/
class CertCrypto where
  parse : Bytes → Except X509Error Certificate
  verifyEcdsaP256 : Bytes → Bytes → Bytes → Bool
  verifyEcdsaP384 : Bytes → Bytes → Bytes → Bool
  verifyEd25519 : Bytes → Bytes → Bytes → Bool
  verifyRsaPkcs1Sha256 : Bytes → Bytes → Bytes → Bool
  verifyRsaPkcs1Sha384 : Bytes → Bytes → Bytes → Bool
  verifyRsaPssSha256 : Bytes → Bytes → Bytes → Bool

inductive ChainError where
  | emptyChain
  | parse (e : X509Error)
  | expired
  | hostnameMismatch
  | brokenChain
  | issuerNotCa
  | badSignature
  | unknownCa
  deriving DecidableEq

/-! ## Host names -/

def toAsciiLower (b : UInt8) : UInt8 :=
  if 65 ≤ b ∧ b ≤ 90 then b + 32 else b

def eqIgnoreAsciiCase (a b : Bytes) : Bool :=
  a.map toAsciiLower == b.map toAsciiLower

def trimEndDots (s : Bytes) : Bytes :=
  (s.reverse.dropWhile (· == 46)).reverse

def afterDot : Bytes → Option Bytes
  | [] => none
  | b :: rest => if b = 46 then some rest else afterDot rest

def dnsNameMatches (pattern host : Bytes) : Bool :=
  let h := trimEndDots host
  match trimEndDots pattern with
  | 42 :: 46 :: suffix =>
    match afterDot h with
    | some hostRest => !hostRest.isEmpty && eqIgnoreAsciiCase hostRest suffix
    | none => false
  | p => eqIgnoreAsciiCase p h

def Certificate.validAt (c : Certificate) (now : Int) : Bool :=
  decide (c.notBefore ≤ now) && decide (now ≤ c.notAfter)

def Certificate.matchesHostname (c : Certificate) (host : Bytes) : Bool :=
  c.sanDns.any (dnsNameMatches · host)

/-! ## Path validation -/

variable [CertCrypto]

/-- `sig::verify`: the algorithm and the key type must match each other. -/
def verify : SigAlg → PubKeyAlg → Bytes → Bytes → Bytes → Bool
  | .ecdsaSha256, .ecP256 => CertCrypto.verifyEcdsaP256
  | .ecdsaSha384, .ecP384 => CertCrypto.verifyEcdsaP384
  | .ed25519, .ed25519 => CertCrypto.verifyEd25519
  | .rsaSha256, .rsa => CertCrypto.verifyRsaPkcs1Sha256
  | .rsaSha384, .rsa => CertCrypto.verifyRsaPkcs1Sha384
  | _, _ => fun _ _ _ => false

def Certificate.signedBy (cert signer : Certificate) : Bool :=
  verify cert.sigAlg signer.pubkeyAlg signer.pubkey cert.tbsDer cert.signature

def trustStore (ders : List Bytes) : List Certificate :=
  ders.filterMap fun der => (CertCrypto.parse der).toOption

def findIssuer (roots : List Certificate) (issuer : Bytes) : Option Certificate :=
  roots.find? fun r => r.subjectDer == issuer

/-- The certificate is anchored: its issuer is a trusted root that signed it. -/
def anchored (roots : List Certificate) (now : Int) (cert : Certificate) : Bool :=
  match findIssuer roots cert.issuerDer with
  | some root => root.validAt now && cert.signedBy root
  | none => false

/-- The walk up the chain: anchor at this certificate, or step to the next one,
which must be a valid authority that signed it. -/
def climb (roots : List Certificate) (now : Int) : List Certificate → Except ChainError Unit
  | [] => .error .unknownCa
  | cert :: rest =>
    if anchored roots now cert then .ok ()
    else
      match rest with
      | [] => .error .unknownCa
      | issuer :: more =>
        if cert.issuerDer ≠ issuer.subjectDer then .error .brokenChain
        else if !issuer.isCa then .error .issuerNotCa
        else if !issuer.validAt now then .error .expired
        else if !cert.signedBy issuer then .error .badSignature
        else climb roots now (issuer :: more)

def parseAll : List Bytes → Except X509Error (List Certificate)
  | [] => .ok []
  | der :: ders =>
    match CertCrypto.parse der with
    | .error e => .error e
    | .ok cert =>
      match parseAll ders with
      | .error e => .error e
      | .ok certs => .ok (cert :: certs)

def validate (chainDer : List Bytes) (hostname : Bytes) (now : Int)
    (roots : List Certificate) : Except ChainError (PubKeyAlg × Bytes) :=
  match parseAll chainDer with
  | .error e => .error (.parse e)
  | .ok [] => .error .emptyChain
  | .ok (leaf :: rest) =>
    if !leaf.validAt now then .error .expired
    else if !leaf.matchesHostname hostname then .error .hostnameMismatch
    else
      match climb roots now (leaf :: rest) with
      | .error e => .error e
      | .ok () => .ok (leaf.pubkeyAlg, leaf.pubkey)

end EuroOS.Tls
