import EuroOS.Tls

/-!
# What the client does with one message and one record

`Dispatched` lists everything a handshake message can do to the client, and
`Received` everything a record can do outside the handshake messages it carries;
the invariants are proved over these lists.  Sessions of calls follow, with what
the caller sees of them.
-/

namespace EuroOS.Tls

open StepLoop

namespace Tls13Client

theorem parseCertificate_eq (c : Tls13Client) (body : Bytes) :
    ∃ cert, c.parseCertificate body =
      { c with certChain := certificateList body, serverCert := cert } := by
  unfold parseCertificate
  split
  · exact ⟨c.serverCert, rfl⟩
  · exact ⟨(certificateList body).head?, rfl⟩

variable [TlsCrypto]

/-- The body of a CertificateVerify message carries a signature over the
transcript, by the key of the first certificate of the chain. -/
def LeafSigned (chain : List Bytes) (transcript body : Bytes) : Prop :=
  ∃ leafDer rest leaf, chain = leafDer :: rest ∧ CertCrypto.parse leafDer = .ok leaf ∧
    4 + u16At body 2 ≤ body.length ∧
    schemeVerifies leaf (u16At body 0) (signedContent (TlsCrypto.sha256 transcript))
      (between body 4 (4 + u16At body 2)) = true

def connect (c : Tls13Client) (msg : Bytes) : Tls13Client :=
  let derived := c.ks.deriveApplication (c.update msg).transcriptHash
  { c.update msg with
    ks := derived.1
    clientAp := some derived.2.1
    serverAp := some derived.2.2
    clientEpoch := .application
    clientSeq := 0
    serverEpoch := .application
    serverSeq := 0
    state := .connected }

def withChain (c : Tls13Client) (msg : Bytes) : Tls13Client :=
  (c.parseCertificate (msg.drop 4)).update msg

inductive Dispatched (c : Tls13Client) (msg : Bytes) : UInt8 → Result → Prop
  | hello (pub : Bytes) :
      Dispatched c msg hsServerHello ((c.update msg).startHandshake pub, .ok [])
  | helloRefused (e : TlsError) : Dispatched c msg hsServerHello (c.update msg, .error e)
  | extensions : Dispatched c msg hsEncryptedExtensions (c.update msg, .ok [])
  | certificate
      (hchain : ∀ roots, c.trustRoots = some roots →
        ∃ key, validate (certificateList (msg.drop 4)) c.sni c.now (trustStore roots) = .ok key) :
      Dispatched c msg hsCertificate (c.withChain msg, .ok [])
  | certificateRefused (e : TlsError) :
      Dispatched c msg hsCertificate ({ c.withChain msg with state := .failed }, .error e)
  | verified
      (hleaf : c.trustRoots.isSome → LeafSigned c.certChain c.transcript (msg.drop 4)) :
      Dispatched c msg hsCertificateVerify (c.update msg, .ok [])
  | verifyFailed (e : TlsError) :
      Dispatched c msg hsCertificateVerify ({ c with state := .failed }, .error e)
  | verifyRefused (e : TlsError) : Dispatched c msg hsCertificateVerify (c, .error e)
  | finished (keys : TrafficKeys) (out : Bytes) (hkeys : c.serverHs = some keys)
      (hmac : msg.drop 4 = TlsCrypto.hmacSha256 keys.finishedKey c.transcriptHash) :
      Dispatched c msg hsFinished (c.connect msg, .ok out)
  | finishedFailed (e : TlsError) :
      Dispatched c msg hsFinished ({ c with state := .failed }, .error e)
  | finishedUnkeyed (ks : KeySchedule) (e : TlsError) (hkeys : c.clientHs = none) :
      Dispatched c msg hsFinished ({ c.update msg with ks := ks }, .error e)
  | finishedEarly (e : TlsError) (hkeys : c.serverHs = none) :
      Dispatched c msg hsFinished (c, .error e)
  | ticket : Dispatched c msg hsNewSessionTicket (c, .ok [])
  | unexpected (mtype : UInt8) (e : TlsError)
      (hother : mtype ≠ hsServerHello ∧ mtype ≠ hsCertificate ∧ mtype ≠ hsCertificateVerify ∧
        mtype ≠ hsFinished ∧ mtype ≠ hsNewSessionTicket) :
      Dispatched c msg mtype (c, .error e)

theorem dispatched_serverHello (c : Tls13Client) (msg : Bytes) :
    Dispatched c msg hsServerHello ((c.update msg).handleServerHello (msg.drop 4)) := by
  unfold handleServerHello
  cases serverPub (msg.drop 4) with
  | error e => exact .helloRefused e
  | ok pub => exact .hello pub

theorem dispatched_certificate (c : Tls13Client) (msg : Bytes) :
    Dispatched c msg hsCertificate (c.withChain msg).validateChain := by
  obtain ⟨cert, hparse⟩ := parseCertificate_eq c (msg.drop 4)
  have hroots : (c.withChain msg).trustRoots = c.trustRoots := by unfold withChain; rw [hparse]; rfl
  have hvalidate : ∀ roots,
      validate (c.withChain msg).certChain (c.withChain msg).sni (c.withChain msg).now roots =
        validate (certificateList (msg.drop 4)) c.sni c.now roots := by
    intro roots; unfold withChain; rw [hparse]; rfl
  unfold validateChain
  rw [hroots]
  cases htrust : c.trustRoots with
  | none =>
    simp only
    split
    · exact .certificate (by simp [htrust])
    · exact .certificateRefused _
  | some roots =>
    simp only
    split
    · exact .certificateRefused _
    rw [hvalidate]
    cases hv : validate (certificateList (msg.drop 4)) c.sni c.now (trustStore roots) with
    | error e => exact .certificateRefused _
    | ok key =>
      refine .certificate ?_
      intro roots' hroots'
      rw [htrust] at hroots'
      cases hroots'
      exact ⟨key, hv⟩

theorem dispatched_certificateVerify (c : Tls13Client) (msg : Bytes) :
    Dispatched c msg hsCertificateVerify (c.handleCertificateVerify msg) := by
  unfold handleCertificateVerify verifyCertificateVerify
  by_cases hnone : c.trustRoots.isNone
  · rw [if_pos hnone]
    have hsome : ¬ c.trustRoots.isSome := by simpa using hnone
    by_cases hskip : c.insecureSkipVerify
    · rw [if_pos hskip]
      exact .verified fun h => absurd h hsome
    · rw [if_neg hskip]
      exact .verifyFailed _
  · rw [if_neg hnone]
    split_ifs with hshort hlen
    · exact .verifyFailed _
    · exact .verifyFailed _
    cases hchain : c.certChain with
    | nil => exact .verifyRefused _
    | cons leafDer rest =>
      cases hleaf : CertCrypto.parse leafDer with
      | error e =>
        simp only [hleaf]
        exact .verifyRefused _
      | ok leaf =>
        simp only [hleaf]
        by_cases hok : schemeVerifies leaf (u16At (msg.drop 4) 0)
            (signedContent c.transcriptHash)
            (between (msg.drop 4) 4 (4 + u16At (msg.drop 4) 2)) = true
        · rw [if_pos hok]
          refine .verified fun _ => ?_
          exact ⟨leafDer, rest, leaf, hchain, hleaf, Nat.not_lt.mp hlen, hok⟩
        · rw [if_neg hok]
          exact .verifyFailed _

theorem dispatched_finished (c : Tls13Client) (msg : Bytes) :
    Dispatched c msg hsFinished (c.handleFinished msg) := by
  unfold handleFinished
  split
  next hkeys => exact .finishedEarly _ hkeys
  next keys hkeys =>
    by_cases hmac : msg.drop 4 = TlsCrypto.hmacSha256 keys.finishedKey c.transcriptHash
    · rw [if_neg (not_not.mpr hmac)]
      unfold finishHandshake
      simp only
      split
      next hown => exact .finishedUnkeyed _ _ hown
      next own _ => exact .finished keys _ hkeys hmac
    · rw [if_pos hmac]
      exact .finishedFailed _

theorem dispatch_cases (c : Tls13Client) (mtype : UInt8) (msg : Bytes) :
    Dispatched c msg mtype (c.dispatch mtype msg) := by
  unfold dispatch
  split_ifs with h₁ h₂ h₃ h₄ h₅ h₆
  · subst h₁; exact dispatched_serverHello c msg
  · subst h₂; exact .extensions
  · subst h₃; exact dispatched_certificate c msg
  · subst h₄; exact dispatched_certificateVerify c msg
  · subst h₅; exact dispatched_finished c msg
  · subst h₆; exact .ticket
  · exact .unexpected mtype _ ⟨h₁, h₃, h₄, h₅, h₆⟩

inductive Received (c : Tls13Client) : Result → Prop
  | ignored : Received c (c, .ok [])
  | refused (seq : UInt64) (e : TlsError) : Received c ({ c with serverSeq := seq }, .error e)
  | alert (seq : UInt64) (e : TlsError) :
      Received c ({ c with serverSeq := seq, state := .failed }, .error e)
  | handshake (seq : UInt64) (data : Bytes) :
      Received c ({ c with serverSeq := seq, hsBuf := c.hsBuf ++ data }.drainHandshake)
  | appData (seq : UInt64) (content : Bytes) :
      Received c ({ c with serverSeq := seq }.storeAppData content, .ok [])

theorem received_inner (c : Tls13Client) (innerType : UInt8) (content : Bytes) :
    Received c ({ c with serverSeq := c.serverSeq + 1 }.handleInner innerType content) := by
  unfold handleInner
  split_ifs with h₁ h₂ h₃
  · exact .handshake _ content
  · exact .appData _ content
  · exact .alert _ _
  · exact .refused _ _

theorem received_encrypted (c : Tls13Client) (fragment : Bytes) :
    Received c (c.handleEncrypted fragment) := by
  unfold handleEncrypted
  split
  · exact .refused c.serverSeq _
  split
  · exact .refused _ _
  · exact received_inner c _ _

theorem handleRecord_cases (c : Tls13Client) (rec : Record) : Received c (c.handleRecord rec) := by
  unfold handleRecord
  split_ifs with h₁ h₂ h₃ h₄
  · exact .ignored
  · exact .alert c.serverSeq _
  · exact .handshake c.serverSeq rec.fragment
  · exact received_encrypted c rec.fragment
  · exact .refused c.serverSeq _

variable {c : Tls13Client} {r : Result}

theorem processStep_cases (h : c.processStep = some r) : (∃ e, r = (c, .error e)) ∨
      ∃ n rec, readRecord c.rx = .ok (some (rec, n)) ∧
        r = { c with rx := c.rx.drop n }.handleRecord rec := by
  unfold processStep at h
  split at h
  · cases h
    exact .inl ⟨_, rfl⟩
  · cases h
  next rec n hread =>
    cases h
    exact .inr ⟨n, rec, hread, rfl⟩

theorem drainStep_cases (h : c.drainStep = some r) :
    ∃ mtype msg rest, r = { c with hsBuf := rest }.handleHandshakeMsg mtype msg := by
  unfold drainStep at h
  obtain ⟨msg, _, rfl⟩ := Option.map_eq_some_iff.mp h
  exact ⟨msg.getD 0 0, msg, _, rfl⟩

/-! ## What a message leaves alone -/

structure SameInput (c c' : Tls13Client) : Prop where
  rx : c'.rx = c.rx
  hsBuf : c'.hsBuf = c.hsBuf
  appBuf : c'.appBuf = c.appBuf
  sni : c'.sni = c.sni
  now : c'.now = c.now
  trustRoots : c'.trustRoots = c.trustRoots
  history : c'.history = c.history

omit [TlsCrypto] in
theorem sameInput_withChain (c : Tls13Client) (msg : Bytes) : SameInput c (c.withChain msg) := by
  obtain ⟨cert, hparse⟩ := parseCertificate_eq c (msg.drop 4)
  unfold withChain
  rw [hparse]
  constructor <;> rfl

theorem Dispatched.sameInput (h : Dispatched c msg mtype r) : SameInput c r.1 := by
  cases h with
  | certificate _ => exact sameInput_withChain c msg
  | certificateRefused _ =>
    have hsame := sameInput_withChain c msg
    exact ⟨hsame.rx, hsame.hsBuf, hsame.appBuf, hsame.sni, hsame.now, hsame.trustRoots,
      hsame.history⟩
  | _ => constructor <;> rfl

end Tls13Client

/-! ## Sessions of calls -/

/-- The client, whether `process` has returned an error, and the application data
handed out so far. -/
structure Session where
  client : Tls13Client
  failed : Bool
  taken : Bytes
  deriving DecidableEq

inductive Op where
  | feed (data : Bytes)
  | process
  | takeAppData
  | encryptApp (data : Bytes)
  deriving DecidableEq

variable [TlsCrypto]

def Op.apply (s : Session) : Op → Session
  | .feed data => { s with client := s.client.feed data }
  | .process =>
    let r := s.client.process
    { s with client := r.1, failed := s.failed || !r.2.isOk }
  | .takeAppData =>
    let r := s.client.takeAppData
    { s with client := r.1, taken := s.taken ++ r.2 }
  | .encryptApp data => { s with client := (s.client.encryptApp data).1 }

def Session.run (s : Session) (ops : List Op) : Session := ops.foldl Op.apply s

theorem Session.run_append (s : Session) (ops more : List Op) :
    s.run (ops ++ more) = (s.run ops).run more := List.foldl_append

def Session.start (sni random secret : Bytes) (now : Int) (roots : List Bytes) : Session :=
  { client := (Tls13Client.new sni random secret).1.setTrustAnchor now roots
    failed := false
    taken := [] }

def Session.startWith (sni random secret : Bytes) (anchor : Option (Int × List Bytes))
    (insecure : Bool) : Session :=
  let c := (Tls13Client.new sni random secret).1
  let c := anchor.elim c fun a => c.setTrustAnchor a.1 a.2
  { client := if insecure then c.allowInsecureNoVerification else c
    failed := false
    taken := [] }

def Stops (s : Session) : List Op → Prop
  | [] => True
  | op :: ops => (op = .process → s.failed = false) ∧ Stops (op.apply s) ops

instance decidableStops (s : Session) : (ops : List Op) → Decidable (Stops s ops)
  | [] => .isTrue trivial
  | op :: ops =>
    have : Decidable (Stops (op.apply s) ops) := decidableStops (op.apply s) ops
    inferInstanceAs (Decidable ((op = .process → s.failed = false) ∧ Stops (op.apply s) ops))

end EuroOS.Tls
