import EuroOS.TlsPeer

/-!
# The client as a fail-stop receiver

The client stores application data under whatever keys it has, takes a
ServerHello at any time, and most errors leave its state and buffer as they were.
The conditions below leave out exactly the records with which this happens: under
them the data handed out came under the application keys of a connected client, a
connected client leaves that state only by failing, and after an error it is
neither connected nor hands out anything more.
-/

namespace EuroOS.Tls

open StepLoop Tls13Client

/-! ## What was stored -/

def appBytes : List Event → Bytes
  | [] => []
  | .appData _ _ content :: older => appBytes older ++ content
  | .message .. :: older => appBytes older

/-- Every record stored was under the application keys of a connected client. -/
def AuthenticData (history : List Event) : Prop :=
  ∀ epoch state content, Event.appData epoch state content ∈ history →
    epoch = .application ∧ state = .connected

theorem AuthenticData.message {history : List Event} (h : AuthenticData history) (mtype : UInt8)
    (msg transcript : Bytes) (accepted : Bool) :
    AuthenticData (.message mtype msg transcript accepted :: history) := by
  intro epoch state content hmem
  rcases List.mem_cons.mp hmem with heq | hmem
  · cases heq
  · exact h epoch state content hmem

/-! ## The invariant -/

/-- A client no call of which has failed; `live` says that it was connected. -/
structure Ready (live : Bool) (taken : Bytes) (c : Tls13Client) : Prop where
  epoch : c.state = .connected → c.serverEpoch = .application
  idle : c.state ≠ .connected → c.appBuf = []
  data : AuthenticData c.history
  bytes : appBytes c.history = taken ++ c.appBuf
  stays : live = true → c.state = .connected

structure Halted (live : Bool) (taken : Bytes) (c : Tls13Client) : Prop where
  state : c.state ≠ .connected
  empty : c.appBuf = []
  data : AuthenticData c.history
  bytes : appBytes c.history = taken
  stays : live = true → c.state = .failed

variable (h : Ready live taken c)
include h

theorem Ready.not_live (hstate : c.state ≠ .connected) : live = false := by
  cases live with
  | false => rfl
  | true => exact absurd (h.stays rfl) hstate

theorem Ready.halt (hempty : c.appBuf = []) (hbuf : c'.appBuf = c.appBuf)
    (hdata : AuthenticData c'.history) (hbytes : appBytes c'.history = appBytes c.history)
    (hstate : c'.state ≠ .connected) (hfailed : c.state = .connected → c'.state = .failed) :
    Halted live taken c' where
  state := hstate
  empty := hbuf.trans hempty
  data := hdata
  bytes := by rw [hbytes, h.bytes, hempty, List.append_nil]
  stays := fun hlive => hfailed (h.stays hlive)

theorem Ready.accepted (hsame : SameInput c c') (hstate : c.state ≠ .connected)
    (hepoch : c'.state = .connected → c'.serverEpoch = .application) (mtype : UInt8) (msg : Bytes) :
    Ready live taken (c'.record (.message mtype msg c.transcript true)) where
  epoch := hepoch
  idle := fun _ => hsame.appBuf.trans (h.idle hstate)
  data := by
    apply AuthenticData.message
    rw [hsame.history]
    exact h.data
  bytes := by
    rw [record, appBytes, hsame.history, hsame.appBuf]
    exact h.bytes
  stays := by
    rw [h.not_live hstate]
    intro hlive
    cases hlive

theorem Ready.refused (hsame : SameInput c c')
    (hstate : c.state ≠ .connected) (hstate' : c'.state ≠ .connected) (mtype : UInt8)
    (msg : Bytes) : Halted live taken (c'.record (.message mtype msg c.transcript false)) := by
  refine h.halt (h.idle hstate) ?_ ?_ ?_ ?_ ?_
  · exact hsame.appBuf
  · apply AuthenticData.message
    rw [hsame.history]
    exact h.data
  · rw [record, appBytes, hsame.history]
  · exact hstate'
  · exact fun hconnected => absurd hconnected hstate

theorem Ready.reframe (hstate : c'.state = c.state) (hepoch : c'.serverEpoch = c.serverEpoch)
    (hbuf : c'.appBuf = c.appBuf) (hhistory : c'.history = c.history) : Ready live taken c' where
  epoch := by rw [hstate, hepoch]; exact h.epoch
  idle := by rw [hstate, hbuf]; exact h.idle
  data := by rw [hhistory]; exact h.data
  bytes := by rw [hhistory, hbuf]; exact h.bytes
  stays := by rw [hstate]; exact h.stays

theorem Ready.storeAppData (hstate : c.state = .connected)
    (content : Bytes) : Ready live taken (c.storeAppData content) where
  __ := h
  idle := fun hne => absurd hstate hne
  data := by
    intro epoch state content' hmem
    rcases List.mem_cons.mp hmem with heq | hmem
    · cases heq
      exact ⟨h.epoch hstate, hstate⟩
    · exact h.data epoch state content' hmem
  bytes := by
    have hold := h.bytes
    unfold Tls13Client.storeAppData record
    rw [appBytes, hold, List.append_assoc]

theorem Ready.receiveAlert (fragment : Bytes) (hempty : c.appBuf.isEmpty = true) :
    (c.receiveAlert fragment).Ends (Ready live taken) (Halted live taken) := by
  have hhalted : Halted live taken { c with state := .failed } := by
    refine h.halt (List.isEmpty_iff.mp hempty) rfl h.data rfl ?_ ?_
    · nofun
    · exact fun _ => rfl
  exact hhalted

theorem Ready.error (hstate : c.state ≠ .connected) (hsame : c'.state = c.state)
    (hbuf : c'.appBuf = c.appBuf) (hhistory : c'.history = c.history) : Halted live taken c' := by
  apply h.halt (h.idle hstate) hbuf
  · rw [hhistory]; exact h.data
  · rw [hhistory]
  · rw [hsame]; exact hstate
  · exact fun hconnected => absurd hconnected hstate

omit h

def Safe (live : Bool) (s : Session) : Prop :=
  (s.failed = true → Halted live s.taken s.client) ∧
    (s.failed = false → Ready live s.taken s.client)

theorem Safe.halted (h : Safe live s) (hfailed : s.failed = true) : Halted live s.taken s.client :=
  h.1 hfailed

theorem Safe.ready (h : Safe live s) (hfailed : s.failed = false) : Ready live s.taken s.client :=
  h.2 hfailed

theorem Safe.of_halted (hfailed : s.failed = true) (h : Halted live s.taken s.client) :
    Safe live s := by
  refine ⟨fun _ => h, fun hfalse => ?_⟩
  rw [hfailed] at hfalse
  cases hfalse

theorem Safe.of_ready (hfailed : s.failed = false) (h : Ready live s.taken s.client) :
    Safe live s := by
  refine ⟨fun htrue => ?_, fun _ => h⟩
  rw [hfailed] at htrue
  cases htrue

theorem Safe.reframe (h : Safe live s) (hstate : c.state = s.client.state)
    (hepoch : c.serverEpoch = s.client.serverEpoch) (hbuf : c.appBuf = s.client.appBuf)
    (hhistory : c.history = s.client.history) : Safe live { s with client := c } := by
  constructor
  · intro hfailed
    have hhalted := h.halted hfailed
    exact {
      state := by rw [hstate]; exact hhalted.state
      empty := hbuf.trans hhalted.empty
      data := by rw [hhistory]; exact hhalted.data
      bytes := by rw [hhistory]; exact hhalted.bytes
      stays := by rw [hstate]; exact hhalted.stays }
  · intro hfailed
    exact (h.ready hfailed).reframe hstate hepoch hbuf hhistory

section receiving

variable [TlsCrypto]

/-! ## The records that are allowed -/

def messageAllowed (c : Tls13Client) : Bool :=
  match c.nextMessage with
  | none => true
  | some msg => decide (c.state = .connected → msg.getD 0 0 = hsNewSessionTicket)

/-- Each message this buffer completes is allowed when its turn comes. -/
def drainAllowed (c : Tls13Client) : Bool :=
  decide (Along (fun c => messageAllowed c = true) drainStep (c.hsBuf.length + 1) c)

/-- Application data when connected, an alert when no data is waiting, anything
unknown only when not connected. -/
def innerAllowed (c : Tls13Client) (innerType : UInt8) (content : Bytes) : Bool :=
  if innerType = ctHandshake then drainAllowed { c with hsBuf := c.hsBuf ++ content }
  else if innerType = ctApplicationData then decide (c.state = .connected)
  else if innerType = ctAlert then c.appBuf.isEmpty
  else decide (c.state ≠ .connected)

def encryptedAllowed (c : Tls13Client) (fragment : Bytes) : Bool :=
  match c.openRecord fragment with
  | .error _ => decide (c.state ≠ .connected)
  | .ok pt =>
    match splitInner pt with
    | .error _ => decide (c.state ≠ .connected)
    | .ok (innerType, content) =>
      innerAllowed { c with serverSeq := c.serverSeq + 1 } innerType content

def recordAllowed (c : Tls13Client) (rec : Record) : Bool :=
  if rec.ctype = ctChangeCipherSpec then true
  else if rec.ctype = ctAlert then c.appBuf.isEmpty
  else if rec.ctype = ctHandshake then drainAllowed { c with hsBuf := c.hsBuf ++ rec.fragment }
  else if rec.ctype = ctApplicationData then encryptedAllowed c rec.fragment
  else decide (c.state ≠ .connected)

def nextAllowed (c : Tls13Client) : Bool :=
  match readRecord c.rx with
  | .error () => decide (c.state ≠ .connected)
  | .ok none => true
  | .ok (some (rec, n)) => recordAllowed { c with rx := c.rx.drop n } rec

/-- The caller stops at the first error, and each record is allowed when its turn
comes. -/
def Orderly (s : Session) : List Op → Prop
  | [] => True
  | op :: ops =>
    (op = .process → s.failed = false ∧
      Along (fun c => nextAllowed c = true) processStep (s.client.rx.length + 1) s.client) ∧
    Orderly (op.apply s) ops

instance decidableOrderly (s : Session) : (ops : List Op) → Decidable (Orderly s ops)
  | [] => .isTrue trivial
  | op :: ops =>
    have : Decidable (Orderly (op.apply s) ops) := decidableOrderly (op.apply s) ops
    inferInstanceAs (Decidable ((op = .process → s.failed = false ∧
      Along (fun c => nextAllowed c = true) processStep (s.client.rx.length + 1) s.client) ∧
      Orderly (op.apply s) ops))

theorem Ready.message (h : Ready live taken c) (mtype : UInt8) (msg : Bytes)
    (hallowed : c.state = .connected → mtype = hsNewSessionTicket) :
    (c.handleHandshakeMsg mtype msg).Ends (Ready live taken) (Halted live taken) := by
  by_cases hstate : c.state = .connected
  · rw [hallowed hstate]
    exact ⟨h.epoch, h.idle, h.data.message _ _ _ _, h.bytes, h.stays⟩
  have hcase := dispatch_cases c mtype msg
  unfold handleHandshakeMsg
  generalize c.dispatch mtype msg = r at hcase
  have hsame := hcase.sameInput
  cases hcase with
  | hello pub => exact h.accepted hsame hstate nofun _ msg
  | helloRefused e => exact h.refused hsame hstate hstate _ msg
  | extensions => exact h.accepted hsame hstate (fun hc => absurd hc hstate) _ msg
  | certificate hchain =>
    refine h.accepted hsame hstate ?_ _ msg
    obtain ⟨cert, hparse⟩ := parseCertificate_eq c (msg.drop 4)
    unfold withChain
    rw [hparse]
    exact fun hc => absurd hc hstate
  | certificateRefused e => exact h.refused hsame hstate nofun _ msg
  | verified hleaf => exact h.accepted hsame hstate (fun hc => absurd hc hstate) _ msg
  | verifyFailed e => exact h.refused hsame hstate nofun _ msg
  | verifyRefused e => exact h.refused hsame hstate hstate _ msg
  | finished keys out hkeys hmac => exact h.accepted hsame hstate (fun _ => rfl) _ msg
  | finishedFailed e => exact h.refused hsame hstate nofun _ msg
  | finishedUnkeyed ks e hkeys => exact h.refused hsame hstate hstate _ msg
  | finishedEarly e hkeys => exact h.refused hsame hstate hstate _ msg
  | ticket => exact h.accepted hsame hstate (fun hc => absurd hc hstate) _ msg
  | unexpected mtype e hother => exact h.refused hsame hstate hstate _ msg

theorem Ready.drainHandshake (h : Ready live taken c) (hallowed : drainAllowed c = true) :
    c.drainHandshake.Ends (Ready live taken) (Halted live taken) := by
  apply drive_ends _ _ c h (of_decide_eq_true hallowed)
  intro s r hs hmessage hr
  unfold drainStep at hr
  obtain ⟨msg, hmsg, rfl⟩ := Option.map_eq_some_iff.mp hr
  unfold messageAllowed at hmessage
  rw [hmsg] at hmessage
  have hmoved : Ready live taken { s with hsBuf := s.hsBuf.drop msg.length } :=
    hs.reframe rfl rfl rfl rfl
  exact hmoved.message _ msg (of_decide_eq_true hmessage)

/-! ## Records -/

theorem Ready.handleInner (h : Ready live taken c) (innerType : UInt8) (content : Bytes)
    (hallowed : innerAllowed c innerType content = true) :
    (c.handleInner innerType content).Ends (Ready live taken) (Halted live taken) := by
  unfold innerAllowed at hallowed
  unfold Tls13Client.handleInner
  split_ifs at hallowed ⊢ with h₁ h₂ h₃
  · have hmoved : Ready live taken { c with hsBuf := c.hsBuf ++ content } :=
      h.reframe rfl rfl rfl rfl
    exact hmoved.drainHandshake hallowed
  · exact h.storeAppData (of_decide_eq_true hallowed) content
  · exact h.receiveAlert content hallowed
  · exact h.error (of_decide_eq_true hallowed) rfl rfl rfl

theorem Ready.handleEncrypted (h : Ready live taken c) (fragment : Bytes)
    (hallowed : encryptedAllowed c fragment = true) :
    (c.handleEncrypted fragment).Ends (Ready live taken) (Halted live taken) := by
  unfold encryptedAllowed at hallowed
  unfold Tls13Client.handleEncrypted
  cases hopen : c.openRecord fragment with
  | error e =>
    rw [hopen] at hallowed
    exact h.error (of_decide_eq_true hallowed) rfl rfl rfl
  | ok pt =>
    simp only [hopen] at hallowed ⊢
    cases hsplit : splitInner pt with
    | error e =>
      rw [hsplit] at hallowed
      exact h.error (of_decide_eq_true hallowed) rfl rfl rfl
    | ok inner =>
      simp only [hsplit] at hallowed ⊢
      have hmoved : Ready live taken { c with serverSeq := c.serverSeq + 1 } :=
        h.reframe rfl rfl rfl rfl
      exact hmoved.handleInner inner.1 inner.2 hallowed

theorem Ready.handleRecord (h : Ready live taken c) (rec : Record)
    (hallowed : recordAllowed c rec = true) :
    (c.handleRecord rec).Ends (Ready live taken) (Halted live taken) := by
  unfold recordAllowed at hallowed
  unfold Tls13Client.handleRecord
  split_ifs at hallowed ⊢ with h₁ h₂ h₃ h₄
  · exact h
  · exact h.receiveAlert rec.fragment hallowed
  · have hmoved : Ready live taken { c with hsBuf := c.hsBuf ++ rec.fragment } :=
      h.reframe rfl rfl rfl rfl
    exact hmoved.drainHandshake hallowed
  · exact h.handleEncrypted rec.fragment hallowed
  · exact h.error (of_decide_eq_true hallowed) rfl rfl rfl

theorem Ready.process (h : Ready live taken c)
    (hallowed : Along (fun c => nextAllowed c = true) processStep (c.rx.length + 1) c) :
    c.process.Ends (Ready live taken) (Halted live taken) := by
  apply drive_ends _ _ c h hallowed
  intro s r hs hnext hr
  unfold nextAllowed at hnext
  unfold processStep at hr
  cases hread : readRecord s.rx with
  | error u =>
    rw [hread] at hnext hr
    cases hr
    exact hs.error (of_decide_eq_true hnext) rfl rfl rfl
  | ok found =>
    cases found with
    | none =>
      rw [hread] at hr
      cases hr
    | some item =>
      rw [hread] at hnext hr
      cases hr
      have hmoved : Ready live taken { s with rx := s.rx.drop item.2 } :=
        hs.reframe rfl rfl rfl rfl
      exact hmoved.handleRecord item.1 hnext

/-! ## Sessions -/

theorem Safe.takeAppData (h : Safe live s) : Safe live (Op.takeAppData.apply s) := by
  constructor
  · intro hfailed
    have hhalted : Halted live s.taken s.client := h.halted hfailed
    refine ⟨hhalted.state, rfl, hhalted.data, ?_, hhalted.stays⟩
    exact hhalted.bytes.trans (by rw [Op.apply, Tls13Client.takeAppData, hhalted.empty]; simp)
  · intro hfailed
    have hready : Ready live s.taken s.client := h.ready hfailed
    refine ⟨hready.epoch, fun _ => rfl, hready.data, ?_, hready.stays⟩
    exact hready.bytes.trans (List.append_nil _).symm

theorem Safe.apply (h : Safe live s) (op : Op)
    (hallowed : op = .process → s.failed = false ∧
      Along (fun c => nextAllowed c = true) processStep (s.client.rx.length + 1) s.client) :
    Safe live (op.apply s) := by
  cases op with
  | feed data => exact h.reframe rfl rfl rfl rfl
  | process =>
    obtain ⟨hfailed, halong⟩ := hallowed rfl
    have hends := (h.ready hfailed).process halong
    unfold Op.apply
    simp only [hfailed, Bool.false_or]
    generalize s.client.process = r at hends
    obtain ⟨c, res⟩ := r
    cases res with
    | ok out => exact Safe.of_ready rfl hends
    | error e => exact Safe.of_halted rfl hends
  | takeAppData => exact h.takeAppData
  | encryptApp data =>
    unfold Op.apply encryptApp
    simp only
    split
    · exact h.reframe rfl rfl rfl rfl
    · exact h.reframe rfl rfl rfl rfl

theorem Safe.run (h : Safe live s) (horderly : Orderly s ops) : Safe live (s.run ops) := by
  induction ops generalizing s with
  | nil => exact h
  | cons op ops ih => exact ih (h.apply op horderly.1) horderly.2

theorem Safe.silent (h : Safe live s) (hfailed : s.failed = true) (horderly : Orderly s ops) :
    (s.run ops).taken = s.taken ∧ (s.run ops).failed = true := by
  induction ops generalizing s with
  | nil => exact ⟨rfl, hfailed⟩
  | cons op ops ih =>
    have hstep : (op.apply s).taken = s.taken ∧ (op.apply s).failed = true := by
      cases op with
      | feed data => exact ⟨rfl, hfailed⟩
      | process =>
        rw [(horderly.1 rfl).1] at hfailed
        cases hfailed
      | takeAppData =>
        refine ⟨?_, hfailed⟩
        rw [Op.apply, Tls13Client.takeAppData, (h.halted hfailed).empty]
        exact List.append_nil _
      | encryptApp data => exact ⟨rfl, hfailed⟩
    have hrest := ih (h.apply op horderly.1) hstep.2 horderly.2
    exact ⟨hrest.1.trans hstep.1, hrest.2⟩

theorem Orderly.split (h : Orderly s (ops ++ more)) : Orderly s ops ∧ Orderly (s.run ops) more := by
  induction ops generalizing s with
  | nil => exact ⟨trivial, h⟩
  | cons op ops ih =>
    have hrest := ih h.2
    exact ⟨⟨h.1, hrest.1⟩, hrest.2⟩

theorem safe_startWith (sni random secret : Bytes) (anchor : Option (Int × List Bytes))
    (insecure : Bool) : Safe false (Session.startWith sni random secret anchor insecure) := by
  have hfresh : ∀ c : Tls13Client, c.state = .waitServerHello → c.appBuf = [] → c.history = [] →
      Ready false [] c := by
    intro c hstate hbuf hhistory
    refine ⟨?_, fun _ => hbuf, ?_, ?_, nofun⟩
    · rw [hstate]; nofun
    · rw [hhistory]; exact fun _ _ _ h => nomatch h
    · rw [hhistory, hbuf]; rfl
  have hready : Ready false [] (Session.startWith sni random secret anchor insecure).client := by
    apply hfresh <;> cases anchor <;> cases insecure <;> rfl
  exact Safe.of_ready rfl hready

/-- A later state `s'` of a session against an earlier one: the data handed out is
authentic, a connected client stays connected or fails, and an error is final. -/
structure FailStop (s s' : Session) : Prop where
  authentic : AuthenticData s'.client.history
  handedOut : s'.taken <+: appBytes s'.client.history
  stays : s.client.isConnected = true →
    s'.client.state = .connected ∨ s'.client.state = .failed
  final : s.failed = true → s'.taken = s.taken ∧ s'.client.isConnected = false

theorem Safe.failStop (h : Safe false s) (hmore : Orderly s more) : FailStop s (s.run more) := by
  have hend := h.run hmore
  have hdata : AuthenticData (s.run more).client.history ∧
      (s.run more).taken <+: appBytes (s.run more).client.history := by
    cases hfailed : (s.run more).failed with
    | true =>
      have hhalted := hend.halted hfailed
      exact ⟨hhalted.data, hhalted.bytes ▸ List.prefix_rfl⟩
    | false =>
      have hready := hend.ready hfailed
      exact ⟨hready.data, hready.bytes ▸ List.prefix_append _ _⟩
  refine ⟨hdata.1, hdata.2, ?_, ?_⟩
  · intro hconnected
    have hstate : s.client.state = .connected := of_decide_eq_true hconnected
    have hlive : Safe true s := by
      cases hfailed : s.failed with
      | true => exact absurd hstate (h.halted hfailed).state
      | false =>
        have hready := h.ready hfailed
        apply Safe.of_ready hfailed
        exact ⟨hready.epoch, hready.idle, hready.data, hready.bytes, fun _ => hstate⟩
    have hlater := hlive.run hmore
    cases hfailed : (s.run more).failed with
    | true => exact .inr ((hlater.halted hfailed).stays rfl)
    | false => exact .inl ((hlater.ready hfailed).stays rfl)
  · intro hfailed
    have hsilent := h.silent hfailed hmore
    refine ⟨hsilent.1, ?_⟩
    exact decide_eq_false (hend.halted hsilent.2).state

/-- In every session of allowed records whose caller stops at the first error, any
two states of it are fail-stop. -/
theorem run_failStop (sni random secret : Bytes) (anchor : Option (Int × List Bytes))
    (insecure : Bool) (ops more : List Op)
    (horderly : Orderly (Session.startWith sni random secret anchor insecure) (ops ++ more)) :
    FailStop ((Session.startWith sni random secret anchor insecure).run ops)
      ((Session.startWith sni random secret anchor insecure).run (ops ++ more)) := by
  obtain ⟨hops, hmore⟩ := horderly.split
  rw [Session.run_append]
  exact ((safe_startWith sni random secret anchor insecure).run hops).failStop hmore

end receiving

section exchanges

open StandIn

def completeExchange : List Op :=
  [.feed (buildRecord ctHandshake serverHello ++ peerRecord ctHandshake flight keys 0), .process,
    .feed (peerRecord ctApplicationData [104, 105] appKeys 0), .process, .takeAppData]

def closing : List Op :=
  [.feed (peerRecord ctAlert [1, 0] appKeys 1), .process, .takeAppData]

theorem honest_exchange_failStop :
    Orderly (Session.startWith host random clientSecret (some (500, [[2]])) false)
      (completeExchange ++ closing) ∧
    ((Session.startWith host random clientSecret (some (500, [[2]])) false).run
      completeExchange).taken = [104, 105] ∧
    FailStop
      ((Session.startWith host random clientSecret (some (500, [[2]])) false).run completeExchange)
      ((Session.startWith host random clientSecret (some (500, [[2]])) false).run
        (completeExchange ++ closing)) := by
  have horderly : Orderly
      (Session.startWith host random clientSecret (some (500, [[2]])) false)
      (completeExchange ++ closing) := by decide +kernel
  refine ⟨horderly, by decide +kernel, ?_⟩
  exact run_failStop host random clientSecret (some (500, [[2]])) false completeExchange closing
    horderly

def earlyData : List Op :=
  [.feed (buildRecord ctHandshake serverHello ++ peerRecord ctApplicationData [104, 105] keys 0),
    .process, .takeAppData]

def secondHello : List Op :=
  [.feed (buildRecord ctHandshake serverHello), .process]

def brokenThenData : List Op :=
  [.feed (buildRecord ctApplicationData [0]), .process,
    .feed (peerRecord ctApplicationData [104, 105] appKeys 1), .process, .takeAppData]

/-- Data is handed out before the handshake completed; a connected client is put
back into the handshake; after an error a client is connected and hands out more. -/
theorem early_data_and_errors_survived :
    (session.run earlyData).taken = [104, 105] ∧
    (session.run earlyData).client.state = .waitServerFinished ∧
    (session.run completeExchange).client.isConnected = true ∧
    ((session.run completeExchange).run secondHello).client.state = .waitServerFinished ∧
    ((session.run completeExchange).run brokenThenData).failed = true ∧
    ((session.run completeExchange).run brokenThenData).client.isConnected = true ∧
    ((session.run completeExchange).run brokenThenData).taken = [104, 105, 104, 105] := by
  decide +kernel

end exchanges

end EuroOS.Tls
