import EuroOS.UnixIds
import EuroOS.Switchboard
import EuroOS.SequentialCalls

/-!
# The fine-grained switchboard refines the single-lock one

The replicated table refers to connections on a heap; looking every reference up
gives the table of the single-lock switchboard.  References are used once, so an
update of a connection on the heap is an update of one slot.
-/

namespace EuroOS

open List

namespace UnixSocket

def resolve (heap : List Conn) (t : List (Option Nat)) : List (Option Conn) :=
  t.map (·.bind (heap[·]?))

structure Represents (s : State) (b : Switchboard) : Prop where
  uniform : s.conns.Uniform
  listeners : s.listeners = b.listeners
  conns : resolve s.heap s.conns.value = b.conns
  valid : ∀ ref, some ref ∈ s.conns.value → ref < s.heap.length
  once : ∀ (i j ref : Nat), s.conns.value[i]? = some (some ref) → s.conns.value[j]? = some (some ref) →
    i = j

theorem represents_empty : Represents empty .new where
  uniform := ReadMostly.ofValue_uniform _
  listeners := rfl
  conns := rfl
  valid := by simp [empty]
  once := by simp [empty]

variable {b : Switchboard}

theorem getElem?_resolve (heap : List Conn) (t : List (Option Nat)) (i : Nat) :
    (resolve heap t)[i]?.join = t[i]?.join.bind (heap[·]?) := by
  rw [resolve, getElem?_map]
  cases t[i]? <;> simp

theorem Represents.connAt (h : Represents s b) (ep : Endpoint) :
    b.connAt ep = s.conns.value[ep.conn.toNat]?.join.bind (s.heap[·]?) := by
  rw [Switchboard.connAt, ← h.conns, getElem?_resolve]

theorem getElem?_append_singleton {α : Type} {l : List α} {a x : α} {i : Nat}
    (h : (l ++ [a])[i]? = some x) : l[i]? = some x ∨ (i = l.length ∧ x = a) := by
  rcases Nat.lt_trichotomy i l.length with hlt | rfl | hgt
  · exact .inl (by rwa [getElem?_append_left hlt] at h)
  · exact .inr ⟨rfl, by simpa using h.symm⟩
  · rw [getElem?_eq_none (by simpa using hgt)] at h
    cases h

theorem Represents.setListener (h : Represents s b) (path : String) (l : Option Listener) :
    Represents (UnixSocket.setListener s path l)
      { b with listeners := Function.update b.listeners path l } where
  __ := h
  listeners := by simp [UnixSocket.setListener, h.listeners]

theorem Represents.newConn (h : Represents s b) :
    Represents { s with conns := (s.conns.write (newConnIn s.heap.length)).2,
                        heap := s.heap ++ [.new] }
      { b with conns := b.conns ++ [some .new] } where
  uniform := h.uniform.write _
  listeners := h.listeners
  conns := by
    have hold : resolve (s.heap ++ [.new]) s.conns.value = b.conns := by
      rw [← h.conns]
      refine map_congr_left fun entry hentry => ?_
      cases entry with
      | none => rfl
      | some ref => simpa using getElem?_append_left (h.valid ref hentry)
    simp only [ReadMostly.value_write, newConnIn, resolve, map_append] at hold ⊢
    rw [hold]
    simp
  valid := by
    intro ref href
    simp only [ReadMostly.value_write, newConnIn, mem_append, mem_singleton,
      Option.some.injEq] at href
    rw [length_append, length_singleton]
    rcases href with href | rfl
    · exact (h.valid ref href).trans (Nat.lt_succ_self _)
    · exact Nat.lt_succ_self _
  once := by
    intro i j ref hi hj
    simp only [ReadMostly.value_write, newConnIn] at hi hj
    -- the new reference is beyond all references in the table
    have hfresh {i : Nat} (hi : s.conns.value[i]? = some (some s.heap.length)) : False :=
      lt_irrefl _ (h.valid _ (mem_of_getElem? hi))
    rcases getElem?_append_singleton hi with hold | ⟨rfl, hnew⟩
    · rcases getElem?_append_singleton hj with hold' | ⟨rfl, hnew⟩
      · exact h.once i j ref hold hold'
      · exact (hfresh (hnew ▸ hold)).elim
    · rcases getElem?_append_singleton hj with hold | ⟨rfl, -⟩
      · exact (hfresh (hnew ▸ hold)).elim
      · rfl

variable {ep : Endpoint} {c : Conn}

theorem Represents.setConn (h : Represents s b)
    (href : s.conns.value[ep.conn.toNat]? = some (some ref)) (c : Conn) :
    Represents { s with heap := s.heap.set ref c } (b.setConn ep (some c)) where
  __ := h
  conns := by
    have hlt := h.valid ref (mem_of_getElem? href)
    simp only [Switchboard.setConn, ← h.conns]
    refine ext_getElem? fun i => ?_
    simp only [resolve, getElem?_map]
    by_cases hi : ep.conn.toNat = i
    · subst hi
      have hslot : ep.conn.toNat < s.conns.value.length := (List.getElem?_eq_some_iff.mp href).1
      rw [getElem?_set_self (by simpa using hslot), href]
      simp [hlt]
    rw [getElem?_set_ne hi, getElem?_map]
    cases hentry : s.conns.value[i]? with
    | none => rfl
    | some entry =>
      cases entry with
      | none => rfl
      | some ref' =>
        have hne : ref ≠ ref' := by
          rintro rfl
          exact hi (h.once _ _ _ href hentry)
        simp [getElem?_set_ne hne]
  valid := by simpa using h.valid

theorem Represents.dropConn (h : Represents s b) (ep : Endpoint) :
    Represents (UnixSocket.dropConn s ep.conn) (b.setConn ep none) where
  uniform := h.uniform.write _
  listeners := h.listeners
  conns := by
    simp [UnixSocket.dropConn, ReadMostly.value_write, dropConnIn, Switchboard.setConn, ← h.conns, resolve]
  valid := by
    intro ref href
    simp only [UnixSocket.dropConn, ReadMostly.value_write, dropConnIn] at href
    rcases mem_or_eq_of_mem_set href with href | href
    · exact h.valid ref href
    · cases href
  once := by
    intro i j ref hi hj
    simp only [UnixSocket.dropConn, ReadMostly.value_write, dropConnIn] at hi hj
    exact h.once i j ref (Book.getElem?_set_none hi).2 (Book.getElem?_set_none hj).2

/-! ## Calls on one connection -/

theorem setConn_of_connAt (h : b.connAt ep = some c) : b.setConn ep (some c) = b := by
  have hslot : b.conns[ep.conn.toNat]? = some (some c) := Option.join_eq_some_iff.mp h
  obtain ⟨hlt, hget⟩ := List.getElem?_eq_some_iff.mp hslot
  simp [Switchboard.setConn, ← hget]

theorem setConn_setConn (b : Switchboard) (ep : Endpoint) (c c' : Option Conn) :
    (b.setConn ep c).setConn ep c' = b.setConn ep c' := by simp [Switchboard.setConn]

theorem access_of_missing (h : b.connAt ep = none) (op : Access) :
    b.access ep op = (b, op.missing) := by
  cases op <;>
    simp [Switchboard.access, Switchboard.send, Switchboard.recv, Switchboard.readable,
      Switchboard.atEof, Switchboard.available, Switchboard.close, h, Access.missing,
      Switchboard.answer]

theorem access_of_result (h : b.connAt ep = some c)
    (hop : UnixSocket.access ep c op = (.inr r, c')) :
    b.access ep op = (b.setConn ep (some c'), r) := by
  cases op with
  | send data =>
    simp only [UnixSocket.access] at hop
    split_ifs at hop with hopen <;> cases hop
    · simp [Switchboard.access, Switchboard.send, h, hopen, Switchboard.answer]
    · simp [Switchboard.access, Switchboard.send, h, hopen, Switchboard.answer, setConn_of_connAt h]
  | recv max =>
    cases hop
    simp [Switchboard.access, Switchboard.recv, h, Switchboard.answer]
  | readable =>
    cases hop
    simp [Switchboard.access, Switchboard.readable, h, setConn_of_connAt h]
  | atEof =>
    cases hop
    simp [Switchboard.access, Switchboard.atEof, h, setConn_of_connAt h]
  | available =>
    cases hop
    simp [Switchboard.access, Switchboard.available, h, setConn_of_connAt h]
  | close =>
    simp only [UnixSocket.access] at hop
    split_ifs at hop with hboth <;> cases hop
    simp [Switchboard.access, Switchboard.close, h, hboth]

theorem access_of_point (h : b.connAt ep = some c)
    (hop : UnixSocket.access ep c op = (.inl point, c')) :
    point = .free ep.conn ∧ b.access ep op = (b.setConn ep none, .done) := by
  cases op with
  | send data =>
    simp only [UnixSocket.access] at hop
    split_ifs at hop <;> cases hop
  | recv | readable | atEof | available => cases hop
  | close =>
    simp only [UnixSocket.access] at hop
    split_ifs at hop with hboth <;> cases hop
    exact ⟨rfl, by simp [Switchboard.access, Switchboard.close, h, hboth]⟩

/-! ## Whole calls -/

/-- An uninterrupted call ends in one way: it returns what the single-lock switchboard returns and
represents the state it is left in. -/
def Follows (s : State) (call : Call) (next : Switchboard × Result) : Prop :=
  ∃ s₁, Represents s₁ next.1 ∧
    ∀ r s', unix.Finishes (enter call) s r s' ↔ r = next.2 ∧ s' = s₁

theorem Follows.of_result (h : Represents s₁ b')
    (hadvance : ∀ cpu, advance cpu (enter call) s = (.inr r, s₁)) : Follows s call (b', r) :=
  ⟨s₁, h, fun _ _ => unix.finishes_iff_of_result hadvance⟩

theorem follows_connect (h : Represents s b) (path : String) :
    Follows s (.connect path)
      ((b.connect path).1, Switchboard.answer .connected (b.connect path).2) := by
  have hlisteners := congrFun h.listeners path
  cases hl : b.listeners path with
  | none =>
    rw [hl] at hlisteners
    simp only [Switchboard.connect, hl, Switchboard.answer]
    refine .of_result h fun cpu => ?_
    simp [enter, advance, hlisteners]
  | some l =>
    rw [hl] at hlisteners
    by_cases hfull : l.backlog ≤ l.pending.length
    · simp only [Switchboard.connect, hl, if_pos hfull, Switchboard.answer]
      refine .of_result h fun cpu => ?_
      simp [enter, advance, hlisteners, hfull]
    simp only [Switchboard.connect, hl, if_neg hfull, Switchboard.answer]
    have hid : (s.conns.write (newConnIn s.heap.length)).1 = UInt32.ofNat b.conns.length := by
      rw [h.uniform.write_result, newConnIn, ← h.conns, resolve, length_map]
    let conn := UInt32.ofNat b.conns.length
    let s₁ : State := { s with conns := (s.conns.write (newConnIn s.heap.length)).2,
                               heap := s.heap ++ [.new] }
    let queued : Listener := { l with pending := l.pending ++ [⟨conn, .B⟩] }
    have hcheck (cpu : Fin shards) :
        advance cpu (enter (.connect path)) s = (.inl (.newConn path), s) := by
      simp [enter, advance, hlisteners, hfull]
    have hnew (cpu : Fin shards) :
        advance cpu (.newConn path) s = (.inl (.enqueue path conn), s₁) := by
      simp only [advance, hid, conn, s₁]
    -- nothing came between the check and the queueing
    have hqueue (cpu : Fin shards) : advance cpu (.enqueue path conn) s₁ =
        (.inr (.connected ⟨conn, .A⟩), UnixSocket.setListener s₁ path (some queued)) := by
      simp only [advance, s₁, hlisteners, if_neg hfull, queued]
    refine ⟨_, h.newConn.setListener path (some queued), fun r s' => ?_⟩
    exact (unix.finishes_iff_of_point hcheck).trans
      ((unix.finishes_iff_of_point hnew).trans (unix.finishes_iff_of_result hqueue))

theorem follows_access (h : Represents s b) (ep : Endpoint) (op : Access) :
    Follows s (.access ep op) (b.access ep op) := by
  have hread (cpu : Fin shards) : s.conns.read cpu = s.conns.value := h.uniform.read cpu
  have hconn := h.connAt ep
  cases hslot : s.conns.value[ep.conn.toNat]?.join with
  | none =>
    rw [hslot, Option.bind_none] at hconn
    rw [access_of_missing hconn]
    refine .of_result h fun cpu => ?_
    simp only [enter, advance, hread]
    split
    · next ref href => simp [href] at hslot
    · rfl
  | some ref =>
    have href : s.conns.value[ep.conn.toNat]? = some (some ref) := Option.join_eq_some_iff.mp hslot
    have hlt := h.valid ref (mem_of_getElem? href)
    have hheap : s.heap[ref]? = some s.heap[ref] := getElem?_eq_getElem hlt
    rw [hslot, Option.bind_some, hheap] at hconn
    have hfind (cpu : Fin shards) :
        advance cpu (enter (.access ep op)) s = (.inl (.use ref ep op), s) := by
      simp only [enter, advance, hread, href]
    cases hop : UnixSocket.access ep s.heap[ref] op with
    | mk outcome c' =>
      have huse (cpu : Fin shards) : advance cpu (.use ref ep op) s =
          (outcome, { s with heap := s.heap.set ref c' }) := by simp only [advance, hheap, hop]
      cases outcome with
      | inr r₀ =>
        rw [access_of_result hconn hop]
        refine ⟨_, h.setConn href c', fun r s' => ?_⟩
        exact (unix.finishes_iff_of_point hfind).trans
          (unix.finishes_iff_of_result huse)
      | inl point =>
        obtain ⟨rfl, haccess⟩ := access_of_point hconn hop
        have hdrop := (h.setConn href c').dropConn ep
        rw [setConn_setConn] at hdrop
        rw [haccess]
        refine ⟨_, hdrop, fun r s' => ?_⟩
        exact (unix.finishes_iff_of_point hfind).trans
          ((unix.finishes_iff_of_point huse).trans
            (unix.finishes_iff_of_result fun cpu => rfl))

theorem follows_bindListen (h : Represents s b) (path : String) (backlog : Nat) :
    Follows s (.bindListen path backlog) ((b.bindListen path backlog).1,
      Switchboard.answer (fun _ => .done) (b.bindListen path backlog).2) := by
  have hlisteners := congrFun h.listeners path
  cases hl : b.listeners path with
  | none =>
    rw [hl] at hlisteners
    simp only [Switchboard.bindListen, hl, Switchboard.answer]
    refine .of_result (h.setListener path _) fun cpu => ?_
    simp [enter, advance, hlisteners]
  | some l =>
    rw [hl] at hlisteners
    simp only [Switchboard.bindListen, hl, Switchboard.answer]
    refine .of_result h fun cpu => ?_
    simp [enter, advance, hlisteners]

theorem follows_accept (h : Represents s b) (path : String) :
    Follows s (.accept path) ((b.accept path).1, .accepted (b.accept path).2) := by
  have hlisteners := congrFun h.listeners path
  cases hl : b.listeners path with
  | none =>
    rw [hl] at hlisteners
    simp only [Switchboard.accept, hl]
    refine .of_result h fun cpu => ?_
    simp [enter, advance, hlisteners]
  | some l =>
    rw [hl] at hlisteners
    simp only [Switchboard.accept, hl]
    refine .of_result (h.setListener path _) fun cpu => ?_
    simp [enter, advance, hlisteners]

end UnixSocket

namespace Switchboard

open UnixSocket

/-- A call of the single-lock switchboard as a call of the fine-grained one. -/
def Request.call : Request → Call
  | .bindListen path backlog => .bindListen path backlog
  | .unbind path => .unbind path
  | .isListening path => .isListening path
  | .connect path => .connect path
  | .accept path => .accept path
  | .pending path => .pending path
  | .access ep op => .access ep op

theorem follows_machine (h : Represents s b) (req : Request) :
    UnixSocket.Follows s req.call (machine.step b req) := by
  cases req with
  | bindListen path backlog => exact follows_bindListen h path backlog
  | unbind path =>
    refine .of_result (h.setListener path none) fun cpu => ?_
    simp [Request.call, enter, advance, unbind, h.listeners]
  | isListening path =>
    refine .of_result h fun cpu => ?_
    simp [Request.call, enter, advance, isListening, h.listeners]
  | connect path => exact follows_connect h path
  | accept path => exact follows_accept h path
  | pending path =>
    refine .of_result h fun cpu => ?_
    simp [Request.call, enter, advance, pending, h.listeners]
  | access ep op => exact follows_access h ep op

/-- Made one after the other, calls of the fine-grained switchboard return exactly what the
single-lock switchboard returns. -/
theorem sharedSwitchboard_results (reqs : List Request) (results : List Result) :
    (∃ s, unix.Sequence UnixSocket.empty (reqs.map Request.call) results s) ↔
      results = machine.results .new reqs :=
  Sections.sequence_iff (P := unix) (R := Represents) (fun _ _ req h => follows_machine h req)
    represents_empty reqs results

end Switchboard

end EuroOS
