import EuroOS.TlsRecord
import EuroOS.StepLoop

/-!
# The TLS 1.3 client

`Tls13Client`: the handshake handlers, the loop that takes handshake messages
from the reassembly buffer and the loop that takes records from the received
bytes.  The transcript is the bytes hashed so far, hashed where the code reads it.

`history` is not in the code: it records, newest first, each handshake message
handled (with the transcript before it and whether it was accepted) and each
run of application data stored.
-/

namespace EuroOS.Tls

open StepLoop

inductive TlsState where
  | start | waitServerHello | waitServerFinished | connected | failed
  deriving DecidableEq

inductive Epoch where
  | none | handshake | application
  deriving DecidableEq

inductive Event where
  | message (mtype : UInt8) (msg transcript : Bytes) (accepted : Bool)
  | appData (epoch : Epoch) (state : TlsState) (content : Bytes)
  deriving DecidableEq

structure Tls13Client where
  state : TlsState
  transcript : Bytes
  ks : KeySchedule
  secret : Bytes
  sni : Bytes
  clientHs : Option TrafficKeys
  serverHs : Option TrafficKeys
  clientAp : Option TrafficKeys
  serverAp : Option TrafficKeys
  serverEpoch : Epoch
  clientEpoch : Epoch
  serverSeq : UInt64
  clientSeq : UInt64
  rx : Bytes
  hsBuf : Bytes
  appBuf : Bytes
  serverCert : Option Bytes
  certChain : List Bytes
  now : Int
  trustRoots : Option (List Bytes)
  insecureSkipVerify : Bool
  history : List Event
  deriving DecidableEq

namespace Tls13Client

abbrev Result := Outcome Tls13Client TlsError UInt8

def isConnected (c : Tls13Client) : Bool := decide (c.state = .connected)

def setTrustAnchor (c : Tls13Client) (now : Int) (roots : List Bytes) : Tls13Client :=
  { c with now := now, trustRoots := some roots }

def allowInsecureNoVerification (c : Tls13Client) : Tls13Client :=
  { c with insecureSkipVerify := true }

def feed (c : Tls13Client) (data : Bytes) : Tls13Client :=
  { c with rx := c.rx ++ data }

def takeAppData (c : Tls13Client) : Tls13Client × Bytes :=
  ({ c with appBuf := [] }, c.appBuf)

def update (c : Tls13Client) (msg : Bytes) : Tls13Client :=
  { c with transcript := c.transcript ++ msg }

def fail (c : Tls13Client) (text : String) : Result :=
  ({ c with state := .failed }, .error (.protocol text))

def record (c : Tls13Client) (e : Event) : Tls13Client :=
  { c with history := e :: c.history }

/-! ## ClientHello -/

def pushExt (etype : Nat) (data : Bytes) : Bytes :=
  be16 etype ++ be16 data.length ++ data

def buildClientHello (sni random keyShare : Bytes) : Bytes :=
  let list := 0 :: be16 sni.length ++ sni
  let algs := [sigEd25519, sigEcdsaP256, sigRsaPssSha256, sigRsaPkcs1Sha256]
  let entry := be16 groupX25519 ++ be16 keyShare.length ++ keyShare
  let ext :=
    pushExt 0x0000 (be16 list.length ++ list) ++
    pushExt 0x002b [2, 0x03, 0x04] ++
    pushExt 0x000a (be16 2 ++ be16 groupX25519) ++
    pushExt 0x000d (be16 (algs.length * 2) ++ algs.flatMap be16) ++
    pushExt 0x0033 (be16 entry.length ++ entry)
  [0x03, 0x03] ++ random ++ 32 :: random ++ be16 2 ++ be16 tlsChacha20Poly1305Sha256 ++
    [1, 0] ++ be16 ext.length ++ ext

/-- The key share offered last among the extensions of a ServerHello that lie in
front of `extEnd`. -/
def findKeyShare (body : Bytes) (extEnd : Nat) : Nat → Nat → Option Bytes → Option Bytes
  | 0, _, found => found
  | fuel + 1, q, found =>
    if q + 4 ≤ extEnd then
      let etype := u16At body q
      let elen := u16At body (q + 2)
      let edata := between body (q + 4) (min (q + 4 + elen) body.length)
      let offered :=
        etype = 0x0033 ∧ 4 ≤ edata.length ∧ u16At edata 0 = groupX25519 ∧
          u16At edata 2 = 32 ∧ 4 + 32 ≤ edata.length
      findKeyShare body extEnd fuel (q + 4 + elen)
        (if offered then some (between edata 4 36) else found)
    else found

def serverPub (body : Bytes) : Except TlsError Bytes :=
  if body.length < 35 then .error .badRecord
  else
    let p := 35 + byteAt body 34
    if body.length < p + 3 then .error .badRecord
    else if u16At body p ≠ tlsChacha20Poly1305Sha256 then .error .unsupported
    else if body.length < p + 3 + 2 then .error .badRecord
    else
      let extEnd := p + 5 + u16At body (p + 3)
      if body.length < extEnd then .error .badRecord
      else
        match findKeyShare body extEnd body.length (p + 5) none with
        | none => .error (.protocol "no server key_share")
        | some pub => .ok pub

/-! ## Certificate -/

def certEntries (body : Bytes) (listEnd : Nat) : Nat → Nat → List Bytes
  | 0, _ => []
  | fuel + 1, p =>
    if p + 3 ≤ listEnd then
      let certLen := u24At body p
      let start := p + 3
      if start + certLen > listEnd then []
      else
        let after := start + certLen
        between body start after ::
          (if after + 2 > listEnd then []
           else certEntries body listEnd fuel (after + 2 + u16At body after))
    else []

def certificateList (body : Bytes) : List Bytes :=
  if body.isEmpty then []
  else
    let p := 1 + byteAt body 0
    if body.length < p + 3 then []
    else
      let listEnd := min (p + 3 + u24At body p) body.length
      certEntries body listEnd body.length (p + 3)

/-- `parse_certificate`: the saved first certificate changes only when a list was
read. -/
def parseCertificate (c : Tls13Client) (body : Bytes) : Tls13Client :=
  let chain := certificateList body
  if body.isEmpty ∨ body.length < 1 + byteAt body 0 + 3 then { c with certChain := chain }
  else { c with certChain := chain, serverCert := chain.head? }

def chainErrorText : ChainError → String
  | .emptyChain => "chain empty"
  | .parse _ => "cert unreadable"
  | .expired => "expired / not valid"
  | .hostnameMismatch => "hostname matches no SAN"
  | .brokenChain => "chain broken (issuer≠subject)"
  | .issuerNotCa => "issuer is not a CA"
  | .badSignature => "signature in chain invalid"
  | .unknownCa => "no trusted root (unknown CA)"

/-! ## The handlers -/

section handlers

variable [TlsCrypto]

def new (sni random secret : Bytes) : Tls13Client × Bytes :=
  let msg := wrapHandshake hsClientHello
    (buildClientHello sni random (TlsCrypto.publicKey secret))
  ({ state := .waitServerHello, transcript := msg, ks := KeySchedule.new, secret := secret,
     sni := sni, clientHs := none, serverHs := none, clientAp := none, serverAp := none,
     serverEpoch := .none, clientEpoch := .none, serverSeq := 0, clientSeq := 0, rx := [],
     hsBuf := [], appBuf := [], serverCert := none, certChain := [], now := 0,
     trustRoots := none, insecureSkipVerify := false, history := [] },
   buildRecord ctHandshake msg)

def transcriptHash (c : Tls13Client) : Bytes := TlsCrypto.sha256 c.transcript

def startHandshake (c : Tls13Client) (pub : Bytes) : Tls13Client :=
  let derived := c.ks.deriveHandshake (TlsCrypto.diffieHellman c.secret pub) c.transcriptHash
  { c with
    ks := derived.1
    clientHs := some derived.2.1
    serverHs := some derived.2.2
    serverEpoch := .handshake
    serverSeq := 0
    state := .waitServerFinished }

def handleServerHello (c : Tls13Client) (body : Bytes) : Result :=
  match serverPub body with
  | .error e => (c, .error e)
  | .ok pub => (c.startHandshake pub, .ok [])

def validateChain (c : Tls13Client) : Result :=
  match c.trustRoots with
  | none =>
    if c.insecureSkipVerify then (c, .ok [])
    else c.fail "no trust anchor set — validation required"
  | some roots =>
    if c.certChain.isEmpty then c.fail "server sent no certificate"
    else
      match validate c.certChain c.sni c.now (trustStore roots) with
      | .ok _ => (c, .ok [])
      | .error e => c.fail (chainErrorText e)

def signedContent (transcriptHash : Bytes) : Bytes :=
  List.replicate 64 0x20 ++ ascii "TLS 1.3, server CertificateVerify" ++ 0 :: transcriptHash

def schemeVerifies (leaf : Certificate) (scheme : Nat) (content signature : Bytes) : Bool :=
  if scheme = sigEcdsaP256 then
    decide (leaf.pubkeyAlg = .ecP256) && CertCrypto.verifyEcdsaP256 leaf.pubkey content signature
  else if scheme = sigEd25519 then
    decide (leaf.pubkeyAlg = .ed25519) && CertCrypto.verifyEd25519 leaf.pubkey content signature
  else if scheme = sigRsaPssSha256 then
    decide (leaf.pubkeyAlg = .rsa) && CertCrypto.verifyRsaPssSha256 leaf.pubkey content signature
  else false

def verifyCertificateVerify (c : Tls13Client) (body transcriptHash : Bytes) : Result :=
  if c.trustRoots.isNone then
    if c.insecureSkipVerify then (c, .ok [])
    else c.fail "no trust anchor set — CertificateVerify required"
  else if body.length < 4 then c.fail "short CertificateVerify"
  else if body.length < 4 + u16At body 2 then c.fail "CertificateVerify length"
  else
    match c.certChain with
    | [] => (c, .error (.protocol "no leaf certificate"))
    | leafDer :: _ =>
      match CertCrypto.parse leafDer with
      | .error _ => (c, .error (.protocol "leaf cert unreadable"))
      | .ok leaf =>
        if schemeVerifies leaf (u16At body 0) (signedContent transcriptHash)
            (between body 4 (4 + u16At body 2)) then (c, .ok [])
        else c.fail "CertificateVerify signature invalid"

/-- Our Finished is sealed with the handshake keys; then both sides change to the
application keys. -/
def finishHandshake (c : Tls13Client) : Result :=
  let th := c.transcriptHash
  let derived := c.ks.deriveApplication th
  match c.clientHs with
  | none => ({ c with ks := derived.1 }, .error (.protocol "no client hs"))
  | some clientHs =>
    let finMsg := wrapHandshake hsFinished (TlsCrypto.hmacSha256 clientHs.finishedKey th)
    ({ c with
        ks := derived.1
        clientAp := some derived.2.1
        serverAp := some derived.2.2
        clientEpoch := .application
        clientSeq := 0
        serverEpoch := .application
        serverSeq := 0
        state := .connected },
      .ok (buildRecord ctChangeCipherSpec [1] ++
        sealRecord ctHandshake finMsg clientHs.key clientHs.iv c.clientSeq))

def handleFinished (c : Tls13Client) (msg : Bytes) : Result :=
  match c.serverHs with
  | none => (c, .error (.protocol "no hs keys"))
  | some serverHs =>
    if msg.drop 4 ≠ TlsCrypto.hmacSha256 serverHs.finishedKey c.transcriptHash then
      ({ c with state := .failed }, .error .badFinished)
    else (c.update msg).finishHandshake

def handleCertificateVerify (c : Tls13Client) (msg : Bytes) : Result :=
  match c.verifyCertificateVerify (msg.drop 4) c.transcriptHash with
  | (c, .error e) => (c, .error e)
  | (c, .ok out) => (c.update msg, .ok out)

def dispatch (c : Tls13Client) (mtype : UInt8) (msg : Bytes) : Result :=
  if mtype = hsServerHello then (c.update msg).handleServerHello (msg.drop 4)
  else if mtype = hsEncryptedExtensions then (c.update msg, .ok [])
  else if mtype = hsCertificate then ((c.parseCertificate (msg.drop 4)).update msg).validateChain
  else if mtype = hsCertificateVerify then c.handleCertificateVerify msg
  else if mtype = hsFinished then c.handleFinished msg
  else if mtype = hsNewSessionTicket then (c, .ok [])
  else (c, .error (.protocol "unexpected handshake message"))

def handleHandshakeMsg (c : Tls13Client) (mtype : UInt8) (msg : Bytes) : Result :=
  let r := c.dispatch mtype msg
  (r.1.record (.message mtype msg c.transcript r.2.isOk), r.2)

/-! ## The loops -/

def nextMessage (c : Tls13Client) : Option Bytes :=
  if c.hsBuf.length < 4 then none
  else if c.hsBuf.length < 4 + u24At c.hsBuf 1 then none
  else some (c.hsBuf.take (4 + u24At c.hsBuf 1))

def drainStep (c : Tls13Client) : Option Result :=
  c.nextMessage.map fun msg =>
    { c with hsBuf := c.hsBuf.drop msg.length }.handleHandshakeMsg (msg.getD 0 0) msg

def drainHandshake (c : Tls13Client) : Result :=
  drive drainStep (c.hsBuf.length + 1) c

def handshakeData (c : Tls13Client) (data : Bytes) : Result :=
  { c with hsBuf := c.hsBuf ++ data }.drainHandshake

def receiveAlert (c : Tls13Client) (fragment : Bytes) : Result :=
  ({ c with state := .failed }, .error (.alert (fragment.getD 1 0)))

def serverKeys (c : Tls13Client) : Except TlsError TrafficKeys :=
  match c.serverEpoch with
  | .none => .error (.protocol "data before keys")
  | .handshake => c.serverHs.elim (.error (.protocol "no server keys")) .ok
  | .application => c.serverAp.elim (.error (.protocol "no server keys")) .ok

def storeAppData (c : Tls13Client) (content : Bytes) : Tls13Client :=
  { c with appBuf := c.appBuf ++ content }.record (.appData c.serverEpoch c.state content)

def openRecord (c : Tls13Client) (fragment : Bytes) : Except TlsError Bytes :=
  match c.serverKeys with
  | .error e => .error e
  | .ok keys =>
    match aeadOpen keys.key keys.iv c.serverSeq (aeadAad fragment.length) fragment with
    | none => .error .decrypt
    | some pt => .ok pt

def handleInner (c : Tls13Client) (innerType : UInt8) (content : Bytes) : Result :=
  if innerType = ctHandshake then c.handshakeData content
  else if innerType = ctApplicationData then (c.storeAppData content, .ok [])
  else if innerType = ctAlert then c.receiveAlert content
  else (c, .error .badRecord)

def handleEncrypted (c : Tls13Client) (fragment : Bytes) : Result :=
  match c.openRecord fragment with
  | .error e => (c, .error e)
  | .ok pt =>
    match splitInner pt with
    | .error e => ({ c with serverSeq := c.serverSeq + 1 }, .error e)
    | .ok (innerType, content) =>
      { c with serverSeq := c.serverSeq + 1 }.handleInner innerType content

def handleRecord (c : Tls13Client) (rec : Record) : Result :=
  if rec.ctype = ctChangeCipherSpec then (c, .ok [])
  else if rec.ctype = ctAlert then c.receiveAlert rec.fragment
  else if rec.ctype = ctHandshake then c.handshakeData rec.fragment
  else if rec.ctype = ctApplicationData then c.handleEncrypted rec.fragment
  else (c, .error .badRecord)

def processStep (c : Tls13Client) : Option Result :=
  match readRecord c.rx with
  | .error () => some (c, .error (.protocol "record length > 2^14+256"))
  | .ok none => none
  | .ok (some (rec, n)) => some ({ c with rx := c.rx.drop n }.handleRecord rec)

def process (c : Tls13Client) : Result := drive processStep (c.rx.length + 1) c

def encryptApp (c : Tls13Client) (data : Bytes) : Result :=
  match c.clientAp with
  | none => (c, .error (.protocol "not connected"))
  | some keys =>
    ({ c with clientSeq := c.clientSeq + 1 },
      .ok (sealRecord ctApplicationData data keys.key keys.iv c.clientSeq))

end handlers

end Tls13Client

end EuroOS.Tls
