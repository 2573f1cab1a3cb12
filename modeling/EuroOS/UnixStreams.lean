import EuroOS.UnixIds

/-!
# Byte streams under interleaving

What was sent from an endpoint is what its peer received followed by what is still
in the connection.  The ids of connections stay apart because every section does to
the book of ids one of the things that keep it so.
-/

namespace EuroOS

open List Function

namespace UnixSocket

open World

section Record

variable {Core : Type}

def sentOn (ep : Endpoint) : CallEvent unix Core → Bytes
  | .ret _ (.access ep' (.send data)) (.sent _) => if ep' = ep then data else []
  | _ => []

def receivedOn (ep : Endpoint) : CallEvent unix Core → Bytes
  | .ret _ (.access ep' (.recv _)) (.received data) => if ep' = ep then data else []
  | _ => []

def sent (log : List (CallEvent unix Core)) (ep : Endpoint) : Bytes :=
  log.reverse.flatMap (sentOn ep)

def received (log : List (CallEvent unix Core)) (ep : Endpoint) : Bytes :=
  log.reverse.flatMap (receivedOn ep)

theorem sent_cons (e : CallEvent unix Core) (log : List (CallEvent unix Core)) (ep : Endpoint) :
    sent (e :: log) ep = sent log ep ++ sentOn ep e := by simp [sent]

theorem received_cons (e : CallEvent unix Core) (log : List (CallEvent unix Core))
    (ep : Endpoint) : received (e :: log) ep = received log ep ++ receivedOn ep e := by
  simp [received]

def connectedBy : CallEvent unix Core → Option UInt32
  | .ret _ _ (.connected ep) => some ep.conn
  | _ => none

def undoneBy : CallEvent unix Core → Option UInt32
  | .ret _ _ (.undone conn _) => some conn
  | _ => none

def acceptedBy : CallEvent unix Core → Option UInt32
  | .ret _ _ (.accepted (some ep)) => some ep.conn
  | _ => none

def inFlight : Option (Call × Point) → Option UInt32
  | some (_, .enqueue _ conn) => some conn
  | some (_, .undo conn _) => some conn
  | _ => none

def waitingAt (listeners : String → Option Listener) (path : String) : List UInt32 :=
  ((listeners path).map fun l => l.pending.map Endpoint.conn).getD []

def book (w : World unix Core) : Book Core where
  table := w.shared.conns.value
  flight core := inFlight (w.running core)
  waiting := waitingAt w.shared.listeners
  connected := w.log.filterMap connectedBy
  undone := w.log.filterMap undoneBy
  accepted := w.log.filterMap acceptedBy

end Record

/-! ## One connection -/

section Conn

variable {Core : Type} (ep : Endpoint) (c : Conn) (op : Access) (core : Core)

theorem access_outgoing (h : (access ep c op).1 = .inr r) (side : Side) :
    c.outgoing side ++ sentOn ⟨ep.conn, side⟩ (.ret core (.access ep op) r : CallEvent unix Core) =
      receivedOn ⟨ep.conn, side.other⟩ (.ret core (.access ep op) r : CallEvent unix Core) ++
        (access ep c op).2.outgoing side := by
  obtain ⟨conn, side'⟩ := ep
  cases op with
  | send data =>
    simp only [access] at h ⊢
    split at h
    · cases h
      rename_i hopen
      rw [if_pos hopen]
      cases side <;> cases side' <;> simp [sentOn, receivedOn, Conn.outgoing, Conn.extend]
    · cases h
      rename_i hclosed
      rw [if_neg hclosed]
      simp [sentOn, receivedOn]
  | recv max =>
    simp only [access] at h ⊢
    cases h
    cases side <;> cases side' <;>
      simp [sentOn, receivedOn, Conn.outgoing, Conn.incoming, Conn.drain, Side.other]
  | close =>
    simp only [access] at h ⊢
    split at h
    · cases h
    cases h
    rename_i hone
    rw [if_neg hone]
    cases side' <;> cases side <;> simp [sentOn, receivedOn, Conn.outgoing, Conn.shut]
  | readable | atEof | available =>
    cases h
    simp [access, sentOn, receivedOn]

theorem access_outgoing_inl {point : Point} (h : (access ep c op).1 = .inl point) (side : Side) :
    (access ep c op).2.outgoing side = c.outgoing side ∧ point = .free ep.conn := by
  cases op with
  | send data =>
    simp only [access] at h
    split at h <;> cases h
  | close =>
    simp only [access] at h ⊢
    split at h
    · cases h
      rename_i hboth
      rw [if_pos hboth]
      obtain ⟨conn, side'⟩ := ep
      cases side' <;> cases side <;> exact ⟨rfl, rfl⟩
    · cases h
  | recv | readable | atEof | available => cases h

end Conn

/-! ## What a section does -/

/-- The answers that neither move bytes nor settle the fate of a connection. -/
def Result.Plain : Result → Prop
  | .sent _ | .received _ | .connected _ | .undone _ _ | .accepted (some _) => False
  | _ => True

inductive Effect (s : State) : Point → Point ⊕ Result → State → Prop
  | bound (path : String) (backlog : Nat) :
      Effect s (.bind path backlog) (.inr .done) (setListener s path (some ⟨max backlog 1, []⟩))
  | unbound (path : String) (b : Bool) :
      Effect s (.unbind path) (.inr (.flag b)) (setListener s path none)
  | checked (path : String) : Effect s (.check path) (.inl (.newConn path)) s
  | created {s' : State} (path : String)
      (htable : s'.conns.value = s.conns.value ++ [some s.heap.length])
      (hheap : s'.heap = s.heap ++ [.new]) (hlisteners : s'.listeners = s.listeners) :
      Effect s (.newConn path) (.inl (.enqueue path (UInt32.ofNat s.conns.value.length))) s'
  | refused (path : String) (conn : UInt32) (error : UnixError) :
      Effect s (.enqueue path conn) (.inl (.undo conn error)) s
  | queued {l : Listener} (path : String) (conn : UInt32) (hl : s.listeners path = some l)
      (hroom : l.pending.length < l.backlog) :
      Effect s (.enqueue path conn) (.inr (.connected ⟨conn, .A⟩))
        (setListener s path (some { l with pending := l.pending ++ [⟨conn, .B⟩] }))
  | undone {s' : State} (conn : UInt32) (error : UnixError)
      (htable : s'.conns.value = s.conns.value.set conn.toNat none)
      (hheap : s'.heap = s.heap) (hlisteners : s'.listeners = s.listeners) :
      Effect s (.undo conn error) (.inr (.undone conn error)) s'
  | freed {s' : State} (conn : UInt32)
      (htable : s'.conns.value = s.conns.value.set conn.toNat none)
      (hheap : s'.heap = s.heap) (hlisteners : s'.listeners = s.listeners) :
      Effect s (.free conn) (.inr .done) s'
  | accepted {l : Listener} {rest : List Endpoint} (path : String) (ep : Endpoint)
      (hl : s.listeners path = some l) (hpending : l.pending = ep :: rest) :
      Effect s (.accept path) (.inr (.accepted (some ep)))
        (setListener s path (some { l with pending := rest }))
  | found {ref : Nat} (ep : Endpoint) (op : Access)
      (hslot : s.conns.value[ep.conn.toNat]? = some (some ref)) :
      Effect s (.find ep op) (.inl (.use ref ep op)) s
  | used {c : Conn} (ref : Nat) (ep : Endpoint) (op : Access) (hc : s.heap[ref]? = some c) :
      Effect s (.use ref ep op) (access ep c op).1
        { s with heap := s.heap.set ref (access ep c op).2 }
  | answered {point : Point} (r : Result) (hr : r.Plain)
      (hidle : ∀ call, inFlight (some (call, point)) = none) : Effect s point (.inr r) s

theorem Access.missing_plain (op : Access) : op.missing.Plain := by cases op <;> trivial

theorem setListener_self (s : State) (path : String) :
    setListener s path (s.listeners path) = s := by
  unfold setListener
  rw [update_eq_self]

theorem advance_effect (hu : s.conns.Uniform) (cpu : Fin shards) (point : Point) :
    Effect s point (advance cpu point s).1 (advance cpu point s).2 := by
  cases point with
  | bind path backlog =>
    simp only [advance]
    cases hl : s.listeners path with
    | some l => exact .answered _ trivial (fun _ => rfl)
    | none => exact .bound path backlog
  | unbind path => exact .unbound path _
  | listening path => exact .answered _ trivial (fun _ => rfl)
  | check path =>
    simp only [advance]
    cases hl : s.listeners path with
    | none => exact .answered _ trivial (fun _ => rfl)
    | some l =>
      by_cases hfull : l.backlog ≤ l.pending.length
      · simp only [hfull, if_true]
        exact .answered _ trivial (fun _ => rfl)
      · simp only [hfull, if_false]
        exact .checked path
  | newConn path =>
    have hid : (s.conns.write (newConnIn s.heap.length)).1 =
        UInt32.ofNat s.conns.value.length := hu.write_result _
    simp only [advance, hid]
    exact .created path rfl rfl rfl
  | enqueue path conn =>
    simp only [advance]
    cases hl : s.listeners path with
    | none => exact .refused path conn _
    | some l =>
      by_cases hfull : l.backlog ≤ l.pending.length
      · simp only [hfull, if_true]
        exact .refused path conn _
      · simp only [hfull, if_false]
        exact .queued path conn hl (by omega)
  | undo conn error => exact .undone conn error rfl rfl rfl
  | accept path =>
    simp only [advance]
    cases hl : s.listeners path with
    | none => exact .answered _ trivial (fun _ => rfl)
    | some l =>
      obtain ⟨backlog, pending⟩ := l
      cases pending with
      | nil =>
        have hsame : setListener s path (some ⟨backlog, []⟩) = s := by
          rw [← hl]
          exact setListener_self s path
        simp only [head?_nil, tail_nil, hsame]
        exact .answered _ trivial (fun _ => rfl)
      | cons ep rest => exact .accepted path ep hl rfl
  | pending path => exact .answered _ trivial (fun _ => rfl)
  | find ep op =>
    simp only [advance, hu.read cpu]
    split
    · rename_i ref hslot
      exact .found ep op hslot
    · exact .answered _ op.missing_plain (fun _ => rfl)
  | use ref ep op =>
    simp only [advance]
    cases hc : s.heap[ref]? with
    | none => exact .answered _ op.missing_plain (fun _ => rfl)
    | some c => exact .used ref ep op hc
  | free conn => exact .freed conn rfl rfl rfl
  | countLive => exact .answered _ trivial (fun _ => rfl)

theorem advance_uniform (hu : s.conns.Uniform) (cpu : Fin shards) (point : Point) :
    (advance cpu point s).2.conns.Uniform := by
  cases point with
  | newConn | undo | free => exact hu.write _
  | unbind | listening | pending | countLive => exact hu
  | bind | accept | find | use =>
    simp only [advance]
    split <;> exact hu
  | check | enqueue =>
    simp only [advance]
    split
    · exact hu
    · split <;> exact hu

/-! ## The ledger -/

def underWay (heap : List Conn) (ep : Endpoint) : Bytes :=
  (heap[ep.conn.toNat]?.map fun c => c.outgoing ep.side).getD []

def Knows (heap : List Conn) (call : Call) : Point → Prop
  | .find ep op => call = .access ep op
  | .use ref ep op => call = .access ep op ∧ ref = ep.conn.toNat ∧ ref < heap.length
  | _ => True

section Ledger

variable {Core : Type} {s s' : State} {point : Point} {next : Point ⊕ Result} {call : Call}

theorem underWay_append (heap : List Conn) (ep : Endpoint) :
    underWay (heap ++ [.new]) ep = underWay heap ep := by
  unfold underWay
  rcases Nat.lt_trichotomy ep.conn.toNat heap.length with hlt | heq | hgt
  · rw [getElem?_append_left hlt]
  · rw [heq, getElem?_concat_length, getElem?_eq_none (le_refl _)]
    cases ep.side <;> rfl
  · rw [getElem?_eq_none (by simp; omega), getElem?_eq_none (by omega)]

variable {heap : List Conn} {r : Result}

theorem underWay_set_of_ne (c : Conn) (hne : ref ≠ ep.conn.toNat) :
    underWay (heap.set ref c) ep = underWay heap ep := by
  unfold underWay
  rw [getElem?_set_ne hne]

theorem underWay_set_self (c : Conn) (hlt : ep.conn.toNat < heap.length) :
    underWay (heap.set ep.conn.toNat c) ep = c.outgoing ep.side := by
  unfold underWay
  rw [getElem?_set_self hlt, Option.map_some, Option.getD_some]

theorem sentOn_of_ne (core : Core) (hne : ep' ≠ ep) :
    sentOn ep (.ret core (.access ep' op) r : CallEvent unix Core) = [] := by
  unfold sentOn
  split
  · rename_i hevent
    cases hevent
    exact if_neg hne
  · rfl

theorem receivedOn_of_ne (core : Core) (hne : ep' ≠ ep) :
    receivedOn ep (.ret core (.access ep' op) r : CallEvent unix Core) = [] := by
  unfold receivedOn
  split
  · rename_i hevent
    cases hevent
    exact if_neg hne
  · rfl

theorem Effect.underWay_inl (h : Effect s point (.inl point') s') (hk : Knows s.heap call point)
    (ep : Endpoint) : underWay s'.heap ep = underWay s.heap ep := by
  generalize hnext : (Sum.inl point' : Point ⊕ Result) = next at h
  cases h with
  | created path _ hheap _ => rw [hheap, underWay_append]
  | used ref ep' op hc =>
    obtain ⟨-, href, hlt⟩ := hk
    subst href
    by_cases heq : ep'.conn = ep.conn
    · rw [heq] at hc hlt ⊢
      rw [underWay_set_self _ hlt, (access_outgoing_inl _ _ _ hnext.symm ep.side).1]
      simp [underWay, hc]
    · apply underWay_set_of_ne
      intro hsame
      exact heq (UInt32.toNat_inj.mp hsame)
  | bound | unbound | queued | undone | freed | accepted | answered => cases hnext
  | _ => rfl

def Result.Silent : Result → Prop
  | .sent _ | .received _ => False
  | _ => True

theorem Result.Plain.silent (h : r.Plain) : r.Silent := by
  cases r with
  | sent n => exact h
  | received data => exact h
  | _ => trivial

theorem sentOn_silent (hr : r.Silent) (core : Core) (ep : Endpoint) :
    sentOn ep (.ret core call r : CallEvent unix Core) = [] := by
  unfold sentOn
  split
  · rename_i hevent
    cases hevent
    exact hr.elim
  · rfl

theorem receivedOn_silent (hr : r.Silent) (core : Core) (ep : Endpoint) :
    receivedOn ep (.ret core call r : CallEvent unix Core) = [] := by
  unfold receivedOn
  split
  · rename_i hevent
    cases hevent
    exact hr.elim
  · rfl

theorem Effect.underWay_inr (h : Effect s point (.inr r) s') (hk : Knows s.heap call point)
    (core : Core) (ep : Endpoint) :
    underWay s.heap ep ++ sentOn ep (.ret core call r : CallEvent unix Core) =
      receivedOn ep.peer (.ret core call r : CallEvent unix Core) ++ underWay s'.heap ep := by
  have hsilent (hr : r.Silent) (hheap : s'.heap = s.heap) :
      underWay s.heap ep ++ sentOn ep (.ret core call r : CallEvent unix Core) =
        receivedOn ep.peer (.ret core call r : CallEvent unix Core) ++ underWay s'.heap ep := by
    rw [sentOn_silent hr, receivedOn_silent hr, hheap]
    simp
  generalize hnext : (Sum.inr r : Point ⊕ Result) = next at h
  cases h with
  | used ref ep' op hc =>
    obtain ⟨rfl, rfl, hlt⟩ := hk
    by_cases heq : ep'.conn = ep.conn
    · have hstep := access_outgoing ep' _ op core hnext.symm ep.side
      rw [heq] at hc hlt ⊢
      rw [underWay_set_self _ hlt]
      rw [heq] at hstep
      simpa [underWay, hc, Endpoint.peer] using hstep
    · have hne : ep' ≠ ep := fun h => heq (by rw [h])
      have hne' : ep' ≠ ep.peer := fun h => heq (by rw [h]; rfl)
      rw [sentOn_of_ne core hne, receivedOn_of_ne core hne', underWay_set_of_ne, append_nil,
        nil_append]
      intro hsame
      exact heq (UInt32.toNat_inj.mp hsame)
  | bound | unbound | queued | accepted =>
    cases hnext
    exact hsilent trivial rfl
  | undone conn error _ hheap _ =>
    cases hnext
    exact hsilent trivial hheap
  | freed conn _ hheap _ =>
    cases hnext
    exact hsilent trivial hheap
  | answered r' hr _ =>
    cases hnext
    exact hsilent hr.silent rfl
  | checked | created | refused | found => cases hnext

theorem Effect.heap_length_le (h : Effect s point next s') : s.heap.length ≤ s'.heap.length := by
  cases h with
  | created path _ hheap _ =>
    rw [hheap, length_append]
    exact Nat.le_add_right _ _
  | undone conn error _ hheap _ => rw [hheap]
  | freed conn _ hheap _ => rw [hheap]
  | used ref ep op hc => rw [length_set]
  | _ => exact le_refl _

theorem Effect.table_length (h : Effect s point next s')
    (hlen : s.conns.value.length = s.heap.length) : s'.conns.value.length = s'.heap.length := by
  cases h with
  | created path htable hheap _ =>
    rw [htable, hheap, length_append, length_append, hlen]
    rfl
  | undone conn error htable hheap _ => rw [htable, hheap, length_set, hlen]
  | freed conn htable hheap _ => rw [htable, hheap, length_set, hlen]
  | used ref ep op hc => rw [length_set, hlen]
  | _ => exact hlen

theorem Knows.mono (h : Knows heap call point) (hlen : heap.length ≤ heap'.length) :
    Knows heap' call point := by
  cases point with
  | use ref ep op => exact ⟨h.1, h.2.1, lt_of_lt_of_le h.2.2 hlen⟩
  | _ => exact h

theorem Effect.knows (h : Effect s point (.inl point') s') (hk : Knows s.heap call point)
    (hlen : s.conns.value.length = s.heap.length)
    (hself : ∀ k ref : Nat, s.conns.value[k]? = some (some ref) → ref = k) :
    Knows s'.heap call point' := by
  generalize hnext : (Sum.inl point' : Point ⊕ Result) = next at h
  cases h with
  | found ep op hslot =>
    cases hnext
    have href := hself _ _ hslot
    have hlt : ep.conn.toNat < s.conns.value.length := (List.getElem?_eq_some_iff.mp hslot).1
    rw [hlen] at hlt
    exact ⟨hk, href, by rw [href]; exact hlt⟩
  | used ref ep op hc =>
    rw [(access_outgoing_inl ep _ op hnext.symm .A).2]
    trivial
  | checked | created | refused =>
    cases hnext
    trivial
  | _ => cases hnext

def Backlogged (listeners : String → Option Listener) : Prop :=
  ∀ path l, listeners path = some l → l.pending.length ≤ l.backlog

theorem Backlogged.update (h : Backlogged listeners)
    (hl : ∀ l', l = some l' → l'.pending.length ≤ l'.backlog) :
    Backlogged (update listeners path l) := by
  intro path' l' hl'
  rcases Book.update_eq_some hl' with ⟨-, hnew⟩ | ⟨-, hold⟩
  · exact hl l' hnew
  · exact h path' l' hold

theorem Effect.backlogged (h : Effect s point next s') (hb : Backlogged s.listeners) :
    Backlogged s'.listeners := by
  cases h with
  | bound path backlog =>
    apply hb.update
    rintro l' ⟨⟩
    exact Nat.zero_le _
  | unbound path b =>
    apply hb.update
    rintro l' ⟨⟩
  | queued path conn hl hroom =>
    apply hb.update
    rintro l' ⟨⟩
    rw [length_append, length_singleton]
    exact hroom
  | accepted path ep hl hpending =>
    apply hb.update
    rintro l' ⟨⟩
    have hle := hb path _ hl
    rw [hpending, length_cons] at hle
    exact Nat.le_of_succ_le hle
  | created path _ _ hlisteners => rwa [hlisteners]
  | undone conn error _ _ hlisteners => rwa [hlisteners]
  | freed conn _ _ hlisteners => rwa [hlisteners]
  | _ => exact hb

end Ledger

/-! ## The book of ids -/

def Result.Bookless : Result → Prop
  | .connected _ | .undone _ _ | .accepted (some _) => False
  | _ => True

theorem Result.Plain.bookless {r : Result} (h : r.Plain) : r.Bookless := by
  cases r with
  | connected ep => exact h
  | undone conn error => exact h
  | accepted ep =>
    cases ep with
    | none => trivial
    | some ep => exact h
  | _ => trivial

theorem access_bookless {ep : Endpoint} {c : Conn} {op : Access} {r : Result}
    (h : (access ep c op).1 = .inr r) : r.Bookless := by
  cases op with
  | send data =>
    simp only [access] at h
    split at h <;> cases h <;> trivial
  | close =>
    simp only [access] at h
    split at h <;> cases h
    trivial
  | _ =>
    cases h
    trivial

section Books

variable {Core : Type} {w : World unix Core} {s' : State} {point : Point}
  {next : Point ⊕ Result} {call : Call} {core : Core}

variable {r : Result}

theorem connectedBy_bookless (hr : r.Bookless) (core : Core) (call : Call) :
    connectedBy (.ret core call r : CallEvent unix Core) = none := by
  cases r with
  | connected ep => exact hr.elim
  | _ => rfl

theorem undoneBy_bookless (hr : r.Bookless) (core : Core) (call : Call) :
    undoneBy (.ret core call r : CallEvent unix Core) = none := by
  cases r with
  | undone conn error => exact hr.elim
  | _ => rfl

theorem acceptedBy_bookless (hr : r.Bookless) (core : Core) (call : Call) :
    acceptedBy (.ret core call r : CallEvent unix Core) = none := by
  cases r with
  | accepted ep =>
    cases ep with
    | none => rfl
    | some ep => exact hr.elim
  | _ => rfl

theorem flight_of_running (hrun : w.running core = some (call, point)) :
    (book w).flight core = inFlight (some (call, point)) :=
  congrArg inFlight hrun

variable [DecidableEq Core]

theorem flight_settle (w : World unix Core) (core : Core) (call : Call) (next : Point ⊕ Result)
    (s' : State) : (book (w.settle core call (next, s'))).flight = update (book w).flight core
      (next.elim (fun point => inFlight (some (call, point))) fun _ => none) := by
  funext core'
  by_cases heq : core' = core
  · subst heq
    rw [update_self]
    cases next with
    | inl point => exact congrArg inFlight (update_self core' _ w.running)
    | inr r => exact congrArg inFlight (update_self core' none w.running)
  · rw [update_of_ne heq]
    exact congrArg inFlight (settle_running_of_ne w call _ heq)

theorem book_settle_inl {point' : Point} (hrun : w.running core = some (call, point))
    (hflight : inFlight (some (call, point')) = inFlight (some (call, point)))
    (htable : s'.conns.value = w.shared.conns.value)
    (hlisteners : s'.listeners = w.shared.listeners) :
    book (w.settle core call (.inl point', s')) = book w := by
  apply Book.ext
  · exact htable
  · rw [flight_settle, Sum.elim_inl, hflight, ← flight_of_running hrun, update_eq_self]
  · exact congrArg waitingAt hlisteners
  · rfl
  · rfl
  · rfl

theorem book_settle_inr (hrun : w.running core = some (call, point))
    (hidle : inFlight (some (call, point)) = none) (hr : r.Bookless) :
    book (w.settle core call (.inr r, s')) =
      { book w with table := s'.conns.value, waiting := waitingAt s'.listeners } := by
  apply Book.ext
  · rfl
  · rw [flight_settle, Sum.elim_inr, ← hidle, ← flight_of_running hrun, update_eq_self]
  · rfl
  · exact filterMap_cons_none (connectedBy_bookless hr core call)
  · exact filterMap_cons_none (undoneBy_bookless hr core call)
  · exact filterMap_cons_none (acceptedBy_bookless hr core call)

theorem waitingAt_update (listeners : String → Option Listener) (path : String)
    (l : Option Listener) :
    waitingAt (update listeners path l) =
      update (waitingAt listeners) path
        ((l.map fun l => l.pending.map Endpoint.conn).getD []) := by
  funext path'
  by_cases heq : path' = path
  · subst heq
    rw [update_self]
    unfold waitingAt
    rw [update_self]
  · rw [update_of_ne heq]
    unfold waitingAt
    rw [update_of_ne heq]

theorem waitingAt_eq {listeners : String → Option Listener} {path : String} {l : Listener}
    (hl : listeners path = some l) : waitingAt listeners path = l.pending.map Endpoint.conn := by
  unfold waitingAt
  rw [hl, Option.map_some, Option.getD_some]

theorem Effect.book_step (h : Effect w.shared point next s')
    (hrun : w.running core = some (call, point))
    (hlen : w.shared.conns.value.length = w.shared.heap.length)
    (hfresh : ∀ path, point = .newConn path → w.shared.conns.value.length < 2 ^ 32) :
    Book.Step core (book w) (book (w.settle core call (next, s'))) := by
  generalize hpoint : point = point₀ at h
  cases h with
  | bound path | unbound path =>
    subst hpoint
    apply Book.Step.of_eq _ (.clear path)
    refine (book_settle_inr hrun rfl ?_).trans
      (Book.ext rfl rfl (waitingAt_update ..) rfl rfl rfl)
    trivial
  | checked | refused | found =>
    subst hpoint
    exact .of_eq (book_settle_inl hrun rfl rfl rfl) .same
  | created path htable hheap hlisteners =>
    subst hpoint
    have hidle : (book w).flight core = none := flight_of_running hrun
    apply Book.Step.of_eq _ (.create hidle (hfresh path rfl))
    refine Book.ext ?_ (flight_settle ..) (congrArg waitingAt hlisteners) rfl rfl rfl
    exact htable.trans (by rw [← hlen]; rfl)
  | queued path conn hl hroom =>
    subst hpoint
    have hflight : (book w).flight core = some conn := flight_of_running hrun
    apply Book.Step.of_eq _ (.connect path hflight)
    refine Book.ext rfl (flight_settle ..) ((waitingAt_update ..).trans ?_) rfl rfl rfl
    rw [Book.connect_waiting]
    congr 1
    simp [book, waitingAt_eq hl]
  | undone conn error htable hheap hlisteners =>
    subst hpoint
    have hflight : (book w).flight core = some conn := flight_of_running hrun
    apply Book.Step.of_eq _ (.undo hflight)
    exact Book.ext htable (flight_settle ..) (congrArg waitingAt hlisteners) rfl rfl rfl
  | freed conn htable hheap hlisteners =>
    subst hpoint
    apply Book.Step.of_eq _ (.free conn)
    refine (book_settle_inr hrun rfl ?_).trans
      (Book.ext htable rfl (congrArg waitingAt hlisteners) rfl rfl rfl)
    trivial
  | accepted path ep hl hpending =>
    subst hpoint
    have hwaiting := waitingAt_eq hl
    rw [hpending, map_cons] at hwaiting
    have hidle : (book w).flight core = none := flight_of_running hrun
    apply Book.Step.of_eq _ (.accept path hwaiting)
    refine Book.ext rfl ((flight_settle ..).trans ?_) (waitingAt_update ..) rfl rfl rfl
    rw [Sum.elim_inr, ← hidle, update_eq_self]
    rfl
  | @used c ref ep op hc =>
    subst hpoint
    cases hnext : (access ep c op).1 with
    | inl point' =>
      have hpoint' := (access_outgoing_inl ep c op hnext .A).2
      subst hpoint'
      exact .of_eq (book_settle_inl hrun rfl rfl rfl) .same
    | inr r => exact .of_eq (book_settle_inr hrun rfl (access_bookless hnext)) .same
  | answered r hr hidle =>
    subst hpoint
    exact .of_eq (book_settle_inr hrun (hidle call) hr.bookless) .same

end Books

/-! ## Whole runs -/

section Run

variable {Core : Type}

def creates : Option (Call × Point) → Bool
  | some (_, .newConn _) => true
  | _ => false

/-- Fewer than 2^32 connections have been created when the move creates one. -/
def Fresh (w : World unix Core) : Move unix Core → Prop
  | .call _ _ => True
  | .run core _ => creates (w.running core) = true → w.shared.conns.value.length < 2 ^ 32

instance (w : World unix Core) : DecidablePred (Fresh w)
  | .call _ _ => inferInstanceAs (Decidable True)
  | .run core _ => inferInstanceAs (Decidable
      (creates (w.running core) = true → w.shared.conns.value.length < 2 ^ 32))

/-- What an endpoint received is a prefix of what its peer sent; ids are given out
once, and handed out by accept at most once; a listener has no more connections
waiting than its backlog; and the live connections are those of connects that are
in progress or succeeded, none of those that failed. -/
structure Streams (w : World unix Core) : Prop where
  stream : ∀ ep, received w.log ep <+: sent w.log ep.peer
  acceptedOnce : (w.log.filterMap acceptedBy).Nodup
  backlog : ∀ path l, w.shared.listeners path = some l → l.pending.length ≤ l.backlog
  idsOnce : (w.log.filterMap connectedBy ++ w.log.filterMap undoneBy).Nodup
  live : ∀ cpu k ref, (w.shared.conns.read cpu)[k]? = some (some ref) →
    (∃ core id, inFlight (w.running core) = some id ∧ id.toNat = k) ∨
      ∃ id ∈ w.log.filterMap connectedBy, id.toNat = k
  undone : ∀ cpu, ∀ id ∈ w.log.filterMap undoneBy,
    (w.shared.conns.read cpu)[id.toNat]? = some none

structure Sound (w : World unix Core) : Prop where
  uniform : w.shared.conns.Uniform
  length : w.shared.conns.value.length = w.shared.heap.length
  backlog : Backlogged w.shared.listeners
  ledger : ∀ ep, sent w.log ep = received w.log ep.peer ++ underWay w.shared.heap ep
  distinct : (book w).Distinct
  knows : ∀ core call point, w.running core = some (call, point) →
    Knows w.shared.heap call point

theorem Sound.streams {w : World unix Core} (h : Sound w) : Streams w where
  stream ep := by
    have hledger := h.ledger ep.peer
    have hpeer : ep.peer.peer = ep := by
      obtain ⟨conn, side⟩ := ep
      cases side <;> rfl
    rw [hpeer] at hledger
    exact ⟨_, hledger.symm⟩
  acceptedOnce := h.distinct.accepted_nodup
  backlog := h.backlog
  idsOnce := h.distinct.issued_nodup
  live cpu k ref hslot := by
    rw [h.uniform.read cpu] at hslot
    exact h.distinct.slot_open k ref hslot
  undone cpu id hmem := by
    rw [h.uniform.read cpu]
    exact h.distinct.slot_undone id hmem

theorem Sound.initial : Sound (initial empty : World unix Core) where
  uniform := ReadMostly.ofValue_uniform _
  length := rfl
  backlog path l hl := by cases hl
  ledger ep := rfl
  distinct := by constructor <;> simp [book, World.initial, empty, waitingAt, inFlight]
  knows core call point hrun := by cases hrun

variable [DecidableEq Core] {w : World unix Core}

theorem book_begin (hidle : w.running core = none) (call : Call) :
    book (w.begin core call) = book w := by
  apply Book.ext
  · rfl
  · funext core'
    by_cases heq : core' = core
    · subst heq
      have hnone : inFlight (w.running core') = none := by rw [hidle]; rfl
      have hnew : inFlight ((w.begin core' call).running core') = none := by
        rw [begin_running_self]
        cases call <;> rfl
      exact hnew.trans hnone.symm
    · exact congrArg inFlight (begin_running_of_ne w call heq)
  · rfl
  · rfl
  · rfl
  · rfl

theorem Sound.begin (h : Sound w) (hidle : w.running core = none) (call : Call) :
    Sound (w.begin core call) where
  __ := h
  ledger ep := by
    rw [World.begin, sent_cons, received_cons]
    simpa [sentOn, receivedOn] using h.ledger ep
  distinct := by
    rw [book_begin hidle call]
    exact h.distinct
  knows core' call' point hrun := by
    rcases begin_running hrun with ⟨-, rfl, rfl⟩ | ⟨-, hold⟩
    · cases call' <;> trivial
    · exact h.knows core' call' point hold

theorem Sound.settle (h : Sound w) {core : Core} {cpu : Fin shards} {call : Call} {point : Point}
    (hrun : w.running core = some (call, point)) (hfresh : Fresh w (.run core cpu)) :
    Sound (w.settle core call (advance cpu point w.shared)) := by
  have huniform := advance_uniform h.uniform cpu point
  have heff := advance_effect h.uniform cpu point
  have hk := h.knows core call point hrun
  generalize advance cpu point w.shared = outcome at huniform heff
  obtain ⟨next, s'⟩ := outcome
  have hstep := heff.book_step hrun h.length (by
    rintro path rfl
    exact hfresh (by rw [hrun]; rfl))
  constructor
  · rw [settle_shared]
    exact huniform
  · rw [settle_shared]
    exact heff.table_length h.length
  · rw [settle_shared]
    exact heff.backlogged h.backlog
  · intro ep
    rw [settle_shared]
    cases next with
    | inl point' =>
      rw [heff.underWay_inl hk ep]
      exact h.ledger ep
    | inr r =>
      change sent (.ret core call r :: w.log) ep =
        received (.ret core call r :: w.log) ep.peer ++ underWay s'.heap ep
      rw [sent_cons, received_cons, h.ledger ep, append_assoc, append_assoc,
        heff.underWay_inr hk core ep]
  · exact hstep.distinct h.distinct
  · intro core' call' point' hrun'
    rw [settle_shared]
    rcases settle_running hrun' with ⟨-, rfl, hnext⟩ | ⟨-, hold⟩
    · rw [hnext] at heff
      exact heff.knows hk h.length h.distinct.slot_self
    · exact (h.knows core' call' point' hold).mono heff.heap_length_le

theorem Reach.sound (h : Reach Fresh (initial empty) w) : Sound w := by
  apply h.invariant Sound.initial
  · intro w core call _ hidle hs
    exact hs.begin hidle call
  · intro w core cpu call point hfresh hrun hs
    exact hs.settle hrun hfresh

/-! ## After 2^32 connections -/

theorem round_trip {w : World unix Unit} {t : List (Option Nat)} (hidle : w.running () = none)
    (hl : w.shared.listeners "/s" = some ⟨1, []⟩) (ht : w.shared.conns = .ofValue t) :
    ∃ w', Reachable w w' ∧ w'.running () = none ∧ w'.shared.listeners "/s" = some ⟨1, []⟩ ∧
      w'.shared.conns = .ofValue (t ++ [some w.shared.heap.length]) ∧
      w'.log.filterMap connectedBy = UInt32.ofNat t.length :: w.log.filterMap connectedBy := by
  have hplay : ∃ w', w.play [.call () (.connect "/s"), .run () 0, .run () 0, .run () 0,
      .call () (.accept "/s"), .run () 0] = some w' ∧
      w'.running () = none ∧ w'.shared.listeners "/s" = some ⟨1, []⟩ ∧
      w'.shared.conns = .ofValue (t ++ [some w.shared.heap.length]) ∧
      w'.log.filterMap connectedBy = UInt32.ofNat t.length :: w.log.filterMap connectedBy := by
    simp [play, World.move, World.begin, World.settle, hidle, hl, ht, enter, advance,
      ReadMostly.write, ReadMostly.ofValue, newConnIn, setListener]
    rfl
  obtain ⟨w', hmoves, hrest⟩ := hplay
  exact ⟨w', reach_of_play hmoves, hrest⟩

theorem rounds (n : Nat) :
    ∃ w : World unix Unit, ∃ t, Reachable (initial empty) w ∧ w.running () = none ∧
      w.shared.listeners "/s" = some ⟨1, []⟩ ∧ w.shared.conns = .ofValue t ∧ t.length = n ∧
      w.log.filterMap connectedBy = ((List.range n).map UInt32.ofNat).reverse := by
  induction n with
  | zero =>
    have hplay : ∃ w', (initial empty : World unix Unit).play
        [.call () (.bindListen "/s" 1), .run () 0] = some w' ∧ w'.running () = none ∧
        w'.shared.listeners "/s" = some ⟨1, []⟩ ∧ w'.shared.conns = .ofValue [] ∧
        w'.log.filterMap connectedBy = [] := by
      simp [play, World.move, World.begin, World.settle, initial, empty, enter, advance,
        setListener, connectedBy]
    obtain ⟨w, hmoves, hidle, hl, ht, hlog⟩ := hplay
    exact ⟨w, [], reach_of_play hmoves, hidle, hl, ht, rfl, hlog⟩
  | succ n ih =>
    obtain ⟨w, t, hreach, hidle, hl, ht, hlen, hlog⟩ := ih
    obtain ⟨w', hreach', hidle', hl', ht', hlog'⟩ := round_trip hidle hl ht
    refine ⟨w', _, hreach.trans hreach', hidle', hl', ht', ?_, ?_⟩
    · rw [length_append, hlen]
      rfl
    · rw [hlog', hlog, hlen, range_succ, map_append, reverse_append]
      rfl

end Run

end UnixSocket

end EuroOS
