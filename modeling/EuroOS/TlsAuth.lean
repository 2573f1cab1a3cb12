import EuroOS.TlsPeer

/-!
# Server authentication

A client is authenticated when, since the ServerHello its keys come from, it saw
a Certificate whose chain was accepted for the host, then a CertificateVerify
signed by that chain's leaf over the transcript up to that Certificate, and then
the Finished.  The handlers do not look at the order of the messages, so this
holds only when they come in order and the caller stops at the first error.
-/

namespace EuroOS.Tls

open List StepLoop Tls13Client

/-! ## Reading the history -/

def Event.isHello : Event → Bool
  | .message mtype _ _ accepted => decide (mtype = hsServerHello) && accepted
  | .appData .. => false

def Event.hasType (mtype : UInt8) : Event → Bool
  | .message t .. => decide (t = mtype)
  | .appData .. => false

def sinceHello : List Event → Option (List Event)
  | [] => none
  | e :: older => if e.isHello then some [] else (sinceHello older).map (e :: ·)

/-- The Certificate that was the last message to enter the transcript, with the
transcript before it. -/
def pendingCert : List Event → Option (Bytes × Bytes)
  | [] => none
  | .appData .. :: older => pendingCert older
  | .message mtype msg transcript _ :: older =>
    if mtype = hsNewSessionTicket then pendingCert older
    else if mtype = hsCertificate then some (msg, transcript)
    else none

/-- Since the last ServerHello, a CertificateVerify came directly after a
Certificate (session tickets do not count). -/
def certifiedIn : List Event → Bool
  | [] => false
  | e :: older =>
    if e.hasType hsServerHello then false
    else (e.hasType hsCertificateVerify && (pendingCert older).isSome) || certifiedIn older

def InOrder : List Event → Bool
  | [] => true
  | e :: older => (!e.hasType hsFinished || certifiedIn older) && InOrder older

variable {history : List Event}

theorem InOrder.tail (h : InOrder (e :: older) = true) : InOrder older = true := by
  unfold InOrder at h
  exact (Bool.and_eq_true _ _ ▸ h).2

theorem InOrder.certified {transcript : Bytes}
    (h : InOrder (.message hsFinished msg transcript accepted :: older) = true) :
    certifiedIn older = true := by
  unfold InOrder at h
  simp only [Event.hasType, decide_true, Bool.not_true, Bool.false_or, Bool.and_eq_true] at h
  exact h.1

def AllAccepted (history : List Event) : Prop :=
  ∀ mtype msg transcript a, Event.message mtype msg transcript a ∈ history → a = true

theorem AllAccepted.tail (h : AllAccepted (e :: older)) : AllAccepted older :=
  fun mtype msg transcript a hmem => h mtype msg transcript a (mem_cons_of_mem e hmem)

theorem exists_since_of_not_hello (he : e.isHello = false)
    (hsince : sinceHello (e :: older) = some since) :
    ∃ rest, sinceHello older = some rest ∧ since = e :: rest := by
  rw [sinceHello, if_neg (by simp [he])] at hsince
  obtain ⟨rest, hrest, heq⟩ := Option.map_eq_some_iff.mp hsince
  exact ⟨rest, hrest, heq.symm⟩

theorem mem_of_mem_sinceHello (hsince : sinceHello history = some since) (he : e ∈ since) :
    e ∈ history := by
  induction history generalizing since with
  | nil => cases hsince
  | cons e' older ih =>
    unfold sinceHello at hsince
    split_ifs at hsince with hhello
    · cases hsince
      cases he
    obtain ⟨rest, hrest, rfl⟩ := Option.map_eq_some_iff.mp hsince
    rcases mem_cons.mp he with rfl | he
    · exact mem_cons_self
    · exact mem_cons_of_mem e' (ih hrest he)

theorem exists_cert_of_pending (hpending : pendingCert history = some (certMsg, certTr))
    (haccepted : AllAccepted history) (hsince : sinceHello history = some since) :
    ∃ gap earlier, since = gap ++ .message hsCertificate certMsg certTr true :: earlier ∧
      Event.message hsCertificate certMsg certTr true ∈ history := by
  induction history generalizing since with
  | nil => simp [pendingCert] at hpending
  | cons e older ih =>
    -- a session ticket or stored data in front of the Certificate is skipped
    have hskip : ∀ (_ : e.isHello = false) (_ : pendingCert older = some (certMsg, certTr)),
        ∃ gap earlier, since = gap ++ .message hsCertificate certMsg certTr true :: earlier ∧
          Event.message hsCertificate certMsg certTr true ∈ e :: older := by
      intro he hp
      obtain ⟨rest, hrest, rfl⟩ := exists_since_of_not_hello he hsince
      obtain ⟨gap, earlier, hsplit, hmem⟩ := ih hp haccepted.tail hrest
      exact ⟨e :: gap, earlier, by rw [hsplit]; rfl, mem_cons_of_mem e hmem⟩
    cases e with
    | appData epoch state content => exact hskip rfl hpending
    | message mtype msg transcript a =>
      unfold pendingCert at hpending
      split_ifs at hpending with hticket hcert
      · exact hskip (by rw [hticket]; rfl) hpending
      cases hpending
      subst hcert
      have ha := haccepted _ _ _ _ mem_cons_self
      subst ha
      obtain ⟨rest, _, rfl⟩ := exists_since_of_not_hello rfl hsince
      exact ⟨[], rest, rfl, mem_cons_self⟩

theorem exists_pair_of_certifiedIn (hcert : certifiedIn history = true)
    (haccepted : AllAccepted history) (hsince : sinceHello history = some since) :
    ∃ mid cvMsg cvTr older certMsg certTr gap earlier,
      history = mid ++ .message hsCertificateVerify cvMsg cvTr true :: older ∧
      pendingCert older = some (certMsg, certTr) ∧
      since = mid ++ .message hsCertificateVerify cvMsg cvTr true ::
        (gap ++ .message hsCertificate certMsg certTr true :: earlier) ∧
      Event.message hsCertificate certMsg certTr true ∈ history := by
  induction history generalizing since with
  | nil => simp [certifiedIn] at hcert
  | cons e older ih =>
    unfold certifiedIn at hcert
    split_ifs at hcert with hhello
    have he : e.isHello = false := by
      cases e with
      | appData epoch state content => rfl
      | message mtype msg transcript a =>
        simp only [Event.hasType, decide_eq_true_eq] at hhello
        simp [Event.isHello, hhello]
    obtain ⟨rest, hrest, rfl⟩ := exists_since_of_not_hello he hsince
    rcases Bool.or_eq_true _ _ ▸ hcert with hpair | holder
    · obtain ⟨htype, hsome⟩ := Bool.and_eq_true _ _ ▸ hpair
      obtain ⟨⟨certMsg, certTr⟩, hpending⟩ := Option.isSome_iff_exists.mp hsome
      obtain ⟨gap, earlier, hsplit, hmem⟩ :=
        exists_cert_of_pending hpending haccepted.tail hrest
      cases e with
      | appData epoch state content => cases htype
      | message mtype msg transcript a =>
        have hmtype : mtype = hsCertificateVerify := of_decide_eq_true htype
        have ha := haccepted _ _ _ _ mem_cons_self
        subst hmtype ha
        refine ⟨[], msg, transcript, older, certMsg, certTr, gap, earlier, rfl, hpending, ?_,
          mem_cons_of_mem _ hmem⟩
        rw [hsplit]
        rfl
    · obtain ⟨mid, cvMsg, cvTr, before, certMsg, certTr, gap, earlier, hhist, hpending, hsplit,
        hmem⟩ := ih holder haccepted.tail hrest
      refine ⟨e :: mid, cvMsg, cvTr, before, certMsg, certTr, gap, earlier, ?_, hpending, ?_,
        mem_cons_of_mem e hmem⟩
      · rw [hhist]; rfl
      · rw [hsplit]; rfl

/-! ## The property -/

section authentication

variable [TlsCrypto]

def ChainAccepted (host : Bytes) (now : Int) (roots : List Bytes) (msg : Bytes) : Prop :=
  ∃ key, validate (certificateList (msg.drop 4)) host now (trustStore roots) = .ok key

/-- Since the last ServerHello: an accepted Certificate, later a CertificateVerify
by its leaf over the transcript that ends with it, later an accepted Finished. -/
def Authenticated (host : Bytes) (now : Int) (roots : List Bytes) (history : List Event) :
    Prop :=
  ∃ newer finMsg finTr mid cvMsg cvTr gap certMsg certTr earlier,
    sinceHello history =
      some (newer ++ .message hsFinished finMsg finTr true ::
        (mid ++ .message hsCertificateVerify cvMsg cvTr true ::
          (gap ++ .message hsCertificate certMsg certTr true :: earlier))) ∧
    ChainAccepted host now roots certMsg ∧
    LeafSigned (certificateList (certMsg.drop 4)) (certTr ++ certMsg) (cvMsg.drop 4)

variable {host : Bytes} {now : Int} {roots : List Bytes}

variable {history : List Event} {c c' : Tls13Client}

theorem Authenticated.cons (h : Authenticated host now roots history) (he : e.isHello = false) :
    Authenticated host now roots (e :: history) := by
  obtain ⟨newer, finMsg, finTr, mid, cvMsg, cvTr, gap, certMsg, certTr, earlier, hsince, hrest⟩ := h
  refine ⟨e :: newer, finMsg, finTr, mid, cvMsg, cvTr, gap, certMsg, certTr, earlier, ?_, hrest⟩
  rw [sinceHello, if_neg (by simp [he]), hsince]
  rfl

/-! ## The invariant of an error-free session -/

/-- Each CertificateVerify of the history that came directly after a Certificate
was checked against that Certificate. -/
def SignedPairs (history : List Event) : Prop :=
  ∀ newer cvMsg cvTr older certMsg certTr,
    history = newer ++ .message hsCertificateVerify cvMsg cvTr true :: older →
    pendingCert older = some (certMsg, certTr) →
    LeafSigned (certificateList (certMsg.drop 4)) (certTr ++ certMsg) (cvMsg.drop 4)

structure Sound (host : Bytes) (now : Int) (roots : List Bytes) (c : Tls13Client) : Prop where
  sni : c.sni = host
  time : c.now = now
  anchor : c.trustRoots = some roots
  accepted : AllAccepted c.history
  hello : c.serverHs.isSome → (sinceHello c.history).isSome
  pending : ∀ msg transcript, pendingCert c.history = some (msg, transcript) →
    c.certChain = certificateList (msg.drop 4) ∧ c.transcript = transcript ++ msg
  chain : ∀ msg transcript, Event.message hsCertificate msg transcript true ∈ c.history →
    ChainAccepted host now roots msg
  signed : SignedPairs c.history
  authenticated : c.state = .connected → Authenticated host now roots c.history

theorem SignedPairs.cons (h : SignedPairs history) (he : e.hasType hsCertificateVerify = false) :
    SignedPairs (e :: history) := by
  intro newer cvMsg cvTr older certMsg certTr hsplit hpending
  cases newer with
  | nil =>
    rw [nil_append, List.cons.injEq] at hsplit
    rw [hsplit.1] at he
    simp [Event.hasType] at he
  | cons e' newer =>
    rw [cons_append, List.cons.injEq] at hsplit
    exact h newer cvMsg cvTr older certMsg certTr hsplit.2 hpending

variable (hs : Sound host now roots c)
include hs

theorem Sound.extend (hsni : c'.sni = c.sni) (htime : c'.now = c.now)
    (hanchor : c'.trustRoots = c.trustRoots)
    (hhistory : c'.history = .message mtype msg c.transcript true :: c.history)
    (hhello : c'.serverHs.isSome → c.serverHs.isSome ∨ mtype = hsServerHello)
    (hticket : mtype = hsNewSessionTicket → c'.certChain = c.certChain ∧ c'.transcript = c.transcript)
    (hcert : mtype = hsCertificate → c'.certChain = certificateList (msg.drop 4) ∧
      c'.transcript = c.transcript ++ msg ∧ ChainAccepted host now roots msg)
    (hsigned : mtype = hsCertificateVerify → LeafSigned c.certChain c.transcript (msg.drop 4))
    (hauth : c'.state = .connected → Authenticated host now roots c'.history) :
    Sound host now roots c' where
  sni := hsni.trans hs.sni
  time := htime.trans hs.time
  anchor := hanchor.trans hs.anchor
  accepted := by
    intro t m tr a hmem
    rw [hhistory, mem_cons] at hmem
    rcases hmem with heq | hmem
    · cases heq
      rfl
    · exact hs.accepted t m tr a hmem
  hello := by
    intro hsome
    rw [hhistory, sinceHello]
    split_ifs with he
    · rfl
    rcases hhello hsome with hold | hnew
    · have := hs.hello hold
      rwa [Option.isSome_map]
    · rw [hnew] at he
      exact absurd rfl he
  pending := by
    intro m tr hpending
    rw [hhistory, pendingCert] at hpending
    split_ifs at hpending with h₁ h₂
    · have hold := hs.pending m tr hpending
      have hsame := hticket h₁
      rw [hsame.1, hsame.2]
      exact hold
    · cases hpending
      exact ⟨(hcert h₂).1, (hcert h₂).2.1⟩
  chain := by
    intro m tr hmem
    rw [hhistory, mem_cons] at hmem
    rcases hmem with heq | hmem
    · cases heq
      exact (hcert rfl).2.2
    · exact hs.chain m tr hmem
  signed := by
    rw [hhistory]
    intro newer cvMsg cvTr older certMsg certTr hsplit hpending
    cases newer with
    | nil =>
      cases hsplit
      have hcertificate := hs.pending certMsg certTr hpending
      rw [← hcertificate.1, ← hcertificate.2]
      exact hsigned rfl
    | cons e newer =>
      rw [cons_append, List.cons.injEq] at hsplit
      exact hs.signed newer cvMsg cvTr older certMsg certTr hsplit.2 hpending
  authenticated := hauth

theorem Sound.authenticated_finished (hkeys : c.serverHs.isSome)
    (hcert : certifiedIn c.history = true) (msg transcript : Bytes) :
    Authenticated host now roots (.message hsFinished msg transcript true :: c.history) := by
  obtain ⟨since, hsince⟩ := Option.isSome_iff_exists.mp (hs.hello hkeys)
  obtain ⟨mid, cvMsg, cvTr, older, certMsg, certTr, gap, earlier, hhist, hpending, hsplit, hmem⟩ :=
    exists_pair_of_certifiedIn hcert hs.accepted hsince
  refine ⟨[], msg, transcript, mid, cvMsg, cvTr, gap, certMsg, certTr, earlier, ?_,
    hs.chain certMsg certTr hmem, hs.signed mid cvMsg cvTr older certMsg certTr hhist hpending⟩
  rw [sinceHello, if_neg nofun, hsince, hsplit]
  rfl

theorem Sound.refused (hhistory : c'.history = .message mtype msg c.transcript false :: c.history)
    (hstate : c'.state = .connected → c.state = .connected) :
    c'.state = .connected → Authenticated host now roots c'.history := by
  intro hconnected
  rw [hhistory]
  exact (hs.authenticated (hstate hconnected)).cons (by simp [Event.isHello])

abbrev Good (host : Bytes) (now : Int) (roots : List Bytes) (c : Tls13Client) : Prop :=
  InOrder c.history = true → Sound host now roots c

abbrev Stopped (host : Bytes) (now : Int) (roots : List Bytes) (c : Tls13Client) : Prop :=
  InOrder c.history = true → c.state = .connected → Authenticated host now roots c.history

theorem Sound.message (mtype : UInt8) (msg : Bytes) :
    (c.handleHandshakeMsg mtype msg).Ends (Good host now roots) (Stopped host now roots) := by
  have hcase := dispatch_cases c mtype msg
  unfold handleHandshakeMsg
  generalize c.dispatch mtype msg = r at hcase
  have hsame := hcase.sameInput
  have hhistory : ∀ a, (r.1.record (.message mtype msg c.transcript a)).history =
      .message mtype msg c.transcript a :: c.history := by intro a; rw [record, hsame.history]
  -- an accepted message other than Certificate, CertificateVerify and Finished
  have hplain : ∀ (_ : mtype ≠ hsCertificate) (_ : mtype ≠ hsCertificateVerify)
      (_ : mtype = hsNewSessionTicket →
        r.1.certChain = c.certChain ∧ r.1.transcript = c.transcript)
      (_ : r.1.serverHs.isSome → c.serverHs.isSome ∨ mtype = hsServerHello)
      (_ : r.1.state = .connected → mtype ≠ hsServerHello ∧ c.state = .connected),
      Good host now roots (r.1.record (.message mtype msg c.transcript true)) := by
    intro hcert hverify hticket hhello hstate _
    refine hs.extend hsame.sni hsame.now hsame.trustRoots (hhistory true) hhello hticket
      (fun h => absurd h hcert) (fun h => absurd h hverify) fun hconnected => ?_
    rw [hhistory]
    obtain ⟨hmtype, hold⟩ := hstate hconnected
    exact (hs.authenticated hold).cons (by simp [Event.isHello, hmtype])
  cases hcase with
  | hello pub =>
    exact hplain (by decide) (by decide)
      (fun h => absurd h (by decide)) (fun _ => .inr rfl) (fun h => by cases h)
  | helloRefused e => exact fun _ => hs.refused (hhistory false) id
  | extensions =>
    exact hplain (by decide) (by decide) (fun h => absurd h (by decide)) .inl
      fun h => ⟨by decide, h⟩
  | certificate hchain =>
    intro _
    obtain ⟨cert, hparse⟩ := parseCertificate_eq c (msg.drop 4)
    refine hs.extend hsame.sni hsame.now hsame.trustRoots (hhistory true) ?_
      (fun h => absurd h (by decide)) ?_ (fun h => absurd h (by decide)) ?_
    · unfold withChain; rw [hparse]; exact .inl
    · intro _
      have hkey := hchain roots hs.anchor
      rw [hs.sni, hs.time] at hkey
      unfold withChain
      rw [hparse]
      exact ⟨rfl, rfl, hkey⟩
    · rw [hhistory]
      unfold withChain
      rw [hparse]
      exact fun h => (hs.authenticated h).cons rfl
  | certificateRefused e => exact fun _ => hs.refused (hhistory false) (fun h => by cases h)
  | verified hleaf =>
    intro _
    refine hs.extend rfl rfl rfl (hhistory true) .inl (fun h => absurd h (by decide))
      (fun h => absurd h (by decide)) ?_ ?_
    · exact fun _ => hleaf (by rw [hs.anchor]; rfl)
    · rw [hhistory]
      exact fun h => (hs.authenticated h).cons rfl
  | verifyFailed e => exact fun _ => hs.refused (hhistory false) (fun h => by cases h)
  | verifyRefused e => exact fun _ => hs.refused (hhistory false) id
  | finished keys out hkeys hmac =>
    intro horder
    have hcert : certifiedIn c.history = true := by
      have hnew : InOrder (.message hsFinished msg c.transcript true :: c.history) = true := by
        rw [← hhistory true]
        exact horder
      exact InOrder.certified hnew
    have hsome : c.serverHs.isSome := by rw [hkeys]; rfl
    refine hs.extend rfl rfl rfl (hhistory true) .inl (fun h => absurd h (by decide))
      (fun h => absurd h (by decide)) (fun h => absurd h (by decide)) ?_
    rw [hhistory]
    exact fun _ => hs.authenticated_finished hsome hcert msg c.transcript
  | finishedFailed e => exact fun _ => hs.refused (hhistory false) (fun h => by cases h)
  | finishedUnkeyed ks e hkeys => exact fun _ => hs.refused (hhistory false) id
  | finishedEarly e hkeys => exact fun _ => hs.refused (hhistory false) id
  | ticket =>
    exact hplain (by decide) (by decide) (fun _ => ⟨rfl, rfl⟩) .inl
      fun h => ⟨by decide, h⟩
  | unexpected mtype e hother => exact fun _ => hs.refused (hhistory false) id

/-! ## Records and calls -/

theorem Sound.reframe (hsni : c'.sni = c.sni)
    (htime : c'.now = c.now) (hanchor : c'.trustRoots = c.trustRoots)
    (hhistory : c'.history = c.history) (hkeys : c'.serverHs = c.serverHs)
    (hchain : c'.certChain = c.certChain) (htranscript : c'.transcript = c.transcript)
    (hstate : c'.state = .connected → c.state = .connected) : Sound host now roots c' where
  sni := hsni.trans hs.sni
  time := htime.trans hs.time
  anchor := hanchor.trans hs.anchor
  accepted := by rw [hhistory]; exact hs.accepted
  hello := by rw [hkeys, hhistory]; exact hs.hello
  pending := by rw [hhistory, hchain, htranscript]; exact hs.pending
  chain := by rw [hhistory]; exact hs.chain
  signed := by rw [hhistory]; exact hs.signed
  authenticated := by
    rw [hhistory]
    exact fun h => hs.authenticated (hstate h)

theorem Sound.storeAppData (content : Bytes) : Sound host now roots (c.storeAppData content) where
  __ := hs
  accepted := by
    intro mtype msg transcript a hmem
    rcases mem_cons.mp hmem with heq | hmem
    · cases heq
    · exact hs.accepted mtype msg transcript a hmem
  hello := by
    intro hsome
    have hold := hs.hello hsome
    have hnew : sinceHello (c.storeAppData content).history =
        (sinceHello c.history).map (.appData c.serverEpoch c.state content :: ·) := rfl
    rw [hnew, Option.isSome_map]
    exact hold
  chain := by
    intro msg transcript hmem
    rcases mem_cons.mp hmem with heq | hmem
    · cases heq
    · exact hs.chain msg transcript hmem
  signed := hs.signed.cons rfl
  authenticated := fun h => (hs.authenticated h).cons rfl

omit hs

theorem Good.of_tail (hs : Good host now roots c) (hhistory : c'.history = e :: c.history)
    (horder : InOrder c'.history = true) : Sound host now roots c := by
  rw [hhistory] at horder
  exact hs (InOrder.tail horder)

theorem good_drainStep (c : Tls13Client) (r : Result) (hs : Good host now roots c)
    (h : c.drainStep = some r) : r.Ends (Good host now roots) (Stopped host now roots) := by
  obtain ⟨mtype, msg, rest, rfl⟩ := drainStep_cases h
  apply Outcome.ends_imp
  intro horder
  have hhistory := (dispatch_cases { c with hsBuf := rest } mtype msg).sameInput.history
  have hsound : Sound host now roots c := by
    apply hs.of_tail _ horder
    · exact .message mtype msg c.transcript ({ c with hsBuf := rest }.dispatch mtype msg).2.isOk
    · exact congrArg _ hhistory
  have hmoved : Sound host now roots { c with hsBuf := rest } :=
    hsound.reframe rfl rfl rfl rfl rfl rfl rfl id
  exact hmoved.message mtype msg

theorem good_drainHandshake (c : Tls13Client) (hs : Good host now roots c) :
    c.drainHandshake.Ends (Good host now roots) (Stopped host now roots) := by
  apply drive_ends _ _ c hs (along_true _ _ c)
  intro s r hgood _ hr
  exact good_drainStep s r hgood hr

theorem good_handleRecord (c : Tls13Client) (rec : Record) (hs : Good host now roots c) :
    (c.handleRecord rec).Ends (Good host now roots) (Stopped host now roots) := by
  have hcase := handleRecord_cases c rec
  generalize c.handleRecord rec = r at hcase
  cases hcase with
  | ignored => exact hs
  | refused seq e => exact fun horder => (hs horder).authenticated
  | alert seq e => exact fun _ h => nomatch h
  | handshake seq data =>
    apply good_drainHandshake
    exact fun horder => (hs horder).reframe rfl rfl rfl rfl rfl rfl rfl id
  | appData seq content =>
    intro horder
    have hsound : Sound host now roots c := hs.of_tail rfl horder
    have hmoved : Sound host now roots { c with serverSeq := seq } :=
      hsound.reframe rfl rfl rfl rfl rfl rfl rfl id
    exact hmoved.storeAppData content

theorem good_process (c : Tls13Client) (hs : Good host now roots c) :
    c.process.Ends (Good host now roots) (Stopped host now roots) := by
  apply drive_ends _ _ c hs (along_true _ _ c)
  intro s r hgood _ hr
  rcases processStep_cases hr with ⟨e, rfl⟩ | ⟨n, rec, _, rfl⟩
  · exact fun horder => (hgood horder).authenticated
  · apply good_handleRecord
    exact fun horder => (hgood horder).reframe rfl rfl rfl rfl rfl rfl rfl id

def Holds (host : Bytes) (now : Int) (roots : List Bytes) (s : Session) : Prop :=
  if s.failed then Stopped host now roots s.client else Good host now roots s.client

theorem Holds.stopped (h : Holds host now roots s) : Stopped host now roots s.client := by
  unfold Holds at h
  split_ifs at h with hfailed
  · exact h
  · exact fun horder => (h horder).authenticated

theorem Holds.reframe (h : Holds host now roots s) {taken : Bytes}
    (hhistory : c.history = s.client.history) (hstate : c.state = s.client.state)
    (hsound : Sound host now roots s.client → Sound host now roots c) :
    Holds host now roots { s with client := c, taken := taken } := by
  unfold Holds at h ⊢
  cases hfailed : s.failed with
  | true =>
    rw [hfailed] at h
    intro horder hconnected
    rw [hhistory] at horder ⊢
    exact h horder (hstate ▸ hconnected)
  | false =>
    rw [hfailed] at h
    intro horder
    exact hsound (h (hhistory ▸ horder))

theorem Holds.apply (h : Holds host now roots s) (op : Op)
    (hstop : op = .process → s.failed = false) : Holds host now roots (op.apply s) := by
  cases op with
  | feed data => exact h.reframe rfl rfl fun hs => hs.reframe rfl rfl rfl rfl rfl rfl rfl id
  | process =>
    have hgood : Good host now roots s.client := by
      unfold Holds at h
      rwa [if_neg (by rw [hstop rfl]; exact Bool.false_ne_true)] at h
    have hends := good_process s.client hgood
    unfold Op.apply Holds
    simp only [hstop rfl, Bool.false_or]
    generalize s.client.process = r at hends
    obtain ⟨c, res⟩ := r
    cases res with
    | ok out => exact hends
    | error e => exact hends
  | takeAppData => exact h.reframe rfl rfl fun hs => hs.reframe rfl rfl rfl rfl rfl rfl rfl id
  | encryptApp data =>
    unfold Op.apply encryptApp
    simp only
    split
    · exact h.reframe rfl rfl id
    · exact h.reframe rfl rfl fun hs => hs.reframe rfl rfl rfl rfl rfl rfl rfl id

theorem holds_run (h : Holds host now roots s) (hstops : Stops s ops) :
    Holds host now roots (s.run ops) := by
  induction ops generalizing s with
  | nil => exact h
  | cons op ops ih => exact ih (h.apply op hstops.1) hstops.2

theorem holds_start (sni random secret : Bytes) (now : Int) (roots : List Bytes) :
    Holds sni now roots (Session.start sni random secret now roots) := by
  intro _
  exact {
    sni := rfl
    time := rfl
    anchor := rfl
    accepted := fun _ _ _ _ h => nomatch h
    hello := nofun
    pending := nofun
    chain := fun _ _ h => nomatch h
    signed := fun newer _ _ _ _ _ h => by cases newer <;> cases h
    authenticated := nofun }

/-- In every session whose caller stops at the first error, and in which each
Finished came after a Certificate directly followed by its CertificateVerify since
the last ServerHello, a connected client is authenticated. -/
theorem run_authenticated (sni random secret : Bytes) (now : Int) (roots : List Bytes)
    (ops : List Op) (hstops : Stops (Session.start sni random secret now roots) ops)
    (horder : InOrder ((Session.start sni random secret now roots).run ops).client.history = true)
    (hconnected : ((Session.start sni random secret now roots).run ops).client.isConnected = true) :
    Authenticated sni now roots
      ((Session.start sni random secret now roots).run ops).client.history := by
  have hholds := holds_run (holds_start sni random secret now roots) hstops
  exact hholds.stopped horder (of_decide_eq_true hconnected)

theorem Authenticated.exists_certificate (h : Authenticated host now roots history) :
    ∃ msg transcript, Event.message hsCertificate msg transcript true ∈ history := by
  obtain ⟨newer, finMsg, finTr, mid, cvMsg, cvTr, gap, certMsg, certTr, earlier, hsince, _⟩ := h
  refine ⟨certMsg, certTr, mem_of_mem_sinceHello hsince ?_⟩
  simp

end authentication

section exchanges

open StandIn

def honestExchange : List Op :=
  [.feed (buildRecord ctHandshake serverHello), .process,
    .feed (peerRecord ctHandshake flight keys 0), .process]

theorem honest_server_authenticated :
    Stops (Session.start host random clientSecret 500 [[2]]) honestExchange ∧
    InOrder ((Session.start host random clientSecret 500 [[2]]).run
      honestExchange).client.history = true ∧
    ((Session.start host random clientSecret 500 [[2]]).run
      honestExchange).client.isConnected = true ∧
    Authenticated host 500 [[2]]
      ((Session.start host random clientSecret 500 [[2]]).run honestExchange).client.history := by
  have hstops : Stops (Session.start host random clientSecret 500 [[2]]) honestExchange := by
    decide +kernel
  have horder : InOrder ((Session.start host random clientSecret 500 [[2]]).run
      honestExchange).client.history = true := by decide +kernel
  have hconnected : ((Session.start host random clientSecret 500 [[2]]).run
      honestExchange).client.isConnected = true := by decide +kernel
  exact ⟨hstops, horder, hconnected,
    run_authenticated host random clientSecret 500 [[2]] honestExchange hstops horder hconnected⟩

/-- A peer with no certificate: its hello and, under the keys of the exchange, the
Finished over the two hello messages. -/
def bareExchange : List Op :=
  [.feed (buildRecord ctHandshake serverHello ++
      peerRecord ctHandshake (finishedMsg keys hellos) keys 0), .process]

/-- The client connects to a peer that sent no certificate and no signature. -/
theorem bare_peer_connected :
    (session.run bareExchange).failed = false ∧
    (session.run bareExchange).client.isConnected = true ∧
    ¬ Authenticated host 500 [[2]] (session.run bareExchange).client.history := by
  refine ⟨by decide +kernel, by decide +kernel, ?_⟩
  intro hauth
  obtain ⟨msg, transcript, hmem⟩ := hauth.exists_certificate
  have hnone : ∀ e ∈ (session.run bareExchange).client.history,
      e.hasType hsCertificate = false := by decide +kernel
  exact absurd (hnone _ hmem) nofun

end exchanges

end EuroOS.Tls
