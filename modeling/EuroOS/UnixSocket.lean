import EuroOS.Interleaving
import EuroOS.ReadMostly
import EuroOS.ByteCodec

/-!
# Local sockets

Listeners sit behind one lock, connections behind one lock each, and the table of
connections is replicated.  A connect checks the listener, creates the connection
and queues it in separate sections, and drops the connection again when the
listener went away or filled up in between.
-/

namespace EuroOS

namespace UnixSocket

inductive Side
  | A
  | B
  deriving DecidableEq

def Side.other : Side → Side
  | .A => .B
  | .B => .A

structure Endpoint where
  conn : UInt32
  side : Side
  deriving DecidableEq

def Endpoint.peer (ep : Endpoint) : Endpoint := ⟨ep.conn, ep.side.other⟩

inductive UnixError
  | connRefused
  | addrInUse
  | backlog
  | badEndpoint
  | brokenPipe
  deriving DecidableEq

structure Conn where
  aToB : Bytes
  bToA : Bytes
  aOpen : Bool
  bOpen : Bool
  deriving DecidableEq

structure Listener where
  backlog : Nat
  pending : List Endpoint
  deriving DecidableEq

/-- The table refers to connections; a connection lives on as long as somebody
refers to it. -/
structure State where
  listeners : String → Option Listener
  conns : ReadMostly (List (Option Nat))
  heap : List Conn

def empty : State := ⟨fun _ => none, .ofValue [], []⟩

/-! ## One connection -/

namespace Conn

def new : Conn := ⟨[], [], true, true⟩

def outgoing (c : Conn) : Side → Bytes
  | .A => c.aToB
  | .B => c.bToA

def incoming (c : Conn) : Side → Bytes
  | .A => c.bToA
  | .B => c.aToB

def peerOpen (c : Conn) : Side → Bool
  | .A => c.bOpen
  | .B => c.aOpen

def extend (c : Conn) (data : Bytes) : Side → Conn
  | .A => { c with aToB := c.aToB ++ data }
  | .B => { c with bToA := c.bToA ++ data }

def drain (c : Conn) (n : Nat) : Side → Conn
  | .A => { c with bToA := c.bToA.drop n }
  | .B => { c with aToB := c.aToB.drop n }

def shut (c : Conn) : Side → Conn
  | .A => { c with aOpen := false }
  | .B => { c with bOpen := false }

end Conn

inductive Access
  | send (data : Bytes)
  | recv (max : Nat)
  | readable
  | atEof
  | available
  | close
  deriving DecidableEq

inductive Call
  | bindListen (path : String) (backlog : Nat)
  | unbind (path : String)
  | isListening (path : String)
  | connect (path : String)
  | accept (path : String)
  | pending (path : String)
  | access (ep : Endpoint) (op : Access)
  | liveConnections
  deriving DecidableEq

inductive Point
  | bind (path : String) (backlog : Nat)
  | unbind (path : String)
  | listening (path : String)
  | check (path : String)
  | newConn (path : String)
  | enqueue (path : String) (conn : UInt32)
  | undo (conn : UInt32) (error : UnixError)
  | accept (path : String)
  | pending (path : String)
  | find (ep : Endpoint) (op : Access)
  | use (conn : Nat) (ep : Endpoint) (op : Access)
  | free (conn : UInt32)
  | countLive
  deriving DecidableEq

/-- What calls return.  The id of a connection that was created and dropped again is
noted for the record. -/
inductive Result
  | done
  | flag (b : Bool)
  | count (n : Nat)
  | failed (error : UnixError)
  | undone (conn : UInt32) (error : UnixError)
  | connected (ep : Endpoint)
  | accepted (ep : Option Endpoint)
  | sent (n : Nat)
  | received (data : Bytes)
  deriving DecidableEq

def enter : Call → Point
  | .bindListen path backlog => .bind path backlog
  | .unbind path => .unbind path
  | .isListening path => .listening path
  | .connect path => .check path
  | .accept path => .accept path
  | .pending path => .pending path
  | .access ep op => .find ep op
  | .liveConnections => .countLive

def access (ep : Endpoint) (c : Conn) : Access → (Point ⊕ Result) × Conn
  | .send data =>
    if c.peerOpen ep.side then (.inr (.sent data.length), c.extend data ep.side)
    else (.inr (.failed .brokenPipe), c)
  | .recv max =>
    let n := min max (c.incoming ep.side).length
    (.inr (.received ((c.incoming ep.side).take n)), c.drain n ep.side)
  | .readable =>
    (.inr (.flag (!(c.incoming ep.side).isEmpty || !c.peerOpen ep.side)), c)
  | .atEof => (.inr (.flag ((c.incoming ep.side).isEmpty && !c.peerOpen ep.side)), c)
  | .available => (.inr (.count (c.incoming ep.side).length), c)
  | .close =>
    let c := c.shut ep.side
    if !c.aOpen && !c.bOpen then (.inl (.free ep.conn), c) else (.inr .done, c)

def Access.missing : Access → Result
  | .send _ => .failed .badEndpoint
  | .recv _ => .failed .badEndpoint
  | .readable => .flag false
  | .atEof => .flag true
  | .available => .count 0
  | .close => .done

def newConnIn (ref : Nat) (t : List (Option Nat)) : UInt32 × List (Option Nat) :=
  (UInt32.ofNat t.length, t ++ [some ref])

def dropConnIn (conn : UInt32) (t : List (Option Nat)) : Unit × List (Option Nat) :=
  ((), t.set conn.toNat none)

def dropConn (s : State) (conn : UInt32) : State :=
  { s with conns := (s.conns.write (dropConnIn conn)).2 }

def setListener (s : State) (path : String) (l : Option Listener) : State :=
  { s with listeners := Function.update s.listeners path l }

def advance (cpu : Fin shards) : Point → State → (Point ⊕ Result) × State
  | .bind path backlog, s =>
    match s.listeners path with
    | some _ => (.inr (.failed .addrInUse), s)
    | none => (.inr .done, setListener s path (some ⟨max backlog 1, []⟩))
  | .unbind path, s => (.inr (.flag (s.listeners path).isSome), setListener s path none)
  | .listening path, s => (.inr (.flag (s.listeners path).isSome), s)
  | .check path, s =>
    match s.listeners path with
    | none => (.inr (.failed .connRefused), s)
    | some l =>
      if l.backlog ≤ l.pending.length then (.inr (.failed .backlog), s)
      else (.inl (.newConn path), s)
  | .newConn path, s =>
    let outcome := s.conns.write (newConnIn s.heap.length)
    (.inl (.enqueue path outcome.1), { s with conns := outcome.2, heap := s.heap ++ [.new] })
  | .enqueue path conn, s =>
    match s.listeners path with
    | none => (.inl (.undo conn .connRefused), s)
    | some l =>
      if l.backlog ≤ l.pending.length then (.inl (.undo conn .backlog), s)
      else (.inr (.connected ⟨conn, .A⟩),
        setListener s path (some { l with pending := l.pending ++ [⟨conn, .B⟩] }))
  | .undo conn error, s => (.inr (.undone conn error), dropConn s conn)
  | .accept path, s =>
    match s.listeners path with
    | none => (.inr (.accepted none), s)
    | some l =>
      (.inr (.accepted l.pending.head?),
        setListener s path (some { l with pending := l.pending.tail }))
  | .pending path, s =>
    (.inr (.count (((s.listeners path).map fun l => l.pending.length).getD 0)), s)
  | .find ep op, s =>
    match (s.conns.read cpu)[ep.conn.toNat]? with
    | some (some ref) => (.inl (.use ref ep op), s)
    | _ => (.inr op.missing, s)
  | .use ref ep op, s =>
    match s.heap[ref]? with
    | none => (.inr op.missing, s)  -- references never dangle
    | some c =>
      let outcome := access ep c op
      (outcome.1, { s with heap := s.heap.set ref outcome.2 })
  | .free conn, s => (.inr .done, dropConn s conn)
  | .countLive, s => (.inr (.count ((s.conns.read cpu).countP Option.isSome)), s)

abbrev unix : Sections where
  Shared := State
  Call := Call
  Point := Point
  Choice := Fin shards
  Result := Result
  enter := enter
  advance := advance

end UnixSocket

end EuroOS
