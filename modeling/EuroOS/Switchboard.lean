import EuroOS.UnixSocket
import EuroOS.CallMachine

/-!
# The single-lock switchboard of local sockets

One table owns all listeners and all connections, and every call runs under one
lock.  Connection ids are positions in the table and are never reused.
-/

namespace EuroOS

open UnixSocket

structure Switchboard where
  listeners : String → Option Listener
  conns : List (Option Conn)

namespace Switchboard

def new : Switchboard := ⟨fun _ => none, []⟩

def bindListen (b : Switchboard) (path : String) (backlog : Nat) :
    Switchboard × Except UnixError Unit :=
  match b.listeners path with
  | some _ => (b, .error .addrInUse)
  | none =>
    ({ b with listeners := Function.update b.listeners path (some ⟨max backlog 1, []⟩) }, .ok ())

def unbind (b : Switchboard) (path : String) : Switchboard × Bool :=
  ({ b with listeners := Function.update b.listeners path none }, (b.listeners path).isSome)

def isListening (b : Switchboard) (path : String) : Bool := (b.listeners path).isSome

def connect (b : Switchboard) (path : String) : Switchboard × Except UnixError Endpoint :=
  match b.listeners path with
  | none => (b, .error .connRefused)
  | some l =>
    if l.backlog ≤ l.pending.length then (b, .error .backlog)
    else
      let conn := UInt32.ofNat b.conns.length
      let l := { l with pending := l.pending ++ [⟨conn, .B⟩] }
      (⟨Function.update b.listeners path (some l), b.conns ++ [some .new]⟩, .ok ⟨conn, .A⟩)

def accept (b : Switchboard) (path : String) : Switchboard × Option Endpoint :=
  match b.listeners path with
  | none => (b, none)
  | some l =>
    let rest := { l with pending := l.pending.tail }
    ({ b with listeners := Function.update b.listeners path (some rest) }, l.pending.head?)

def pending (b : Switchboard) (path : String) : Nat :=
  ((b.listeners path).map fun l => l.pending.length).getD 0

def connAt (b : Switchboard) (ep : Endpoint) : Option Conn := b.conns[ep.conn.toNat]?.join

def setConn (b : Switchboard) (ep : Endpoint) (c : Option Conn) : Switchboard :=
  { b with conns := b.conns.set ep.conn.toNat c }

def send (b : Switchboard) (ep : Endpoint) (data : Bytes) : Switchboard × Except UnixError Nat :=
  match b.connAt ep with
  | none => (b, .error .badEndpoint)
  | some c =>
    if c.peerOpen ep.side then
      (b.setConn ep (some (c.extend data ep.side)), .ok data.length)
    else (b, .error .brokenPipe)

def recv (b : Switchboard) (ep : Endpoint) (max : Nat) : Switchboard × Except UnixError Bytes :=
  match b.connAt ep with
  | none => (b, .error .badEndpoint)
  | some c =>
    let n := min max (c.incoming ep.side).length
    (b.setConn ep (some (c.drain n ep.side)), .ok ((c.incoming ep.side).take n))

def readable (b : Switchboard) (ep : Endpoint) : Bool :=
  match b.connAt ep with
  | none => false
  | some c => !(c.incoming ep.side).isEmpty || !c.peerOpen ep.side

def atEof (b : Switchboard) (ep : Endpoint) : Bool :=
  match b.connAt ep with
  | none => true
  | some c => (c.incoming ep.side).isEmpty && !c.peerOpen ep.side

def available (b : Switchboard) (ep : Endpoint) : Nat :=
  match b.connAt ep with
  | none => 0
  | some c => (c.incoming ep.side).length

def close (b : Switchboard) (ep : Endpoint) : Switchboard :=
  match b.connAt ep with
  | none => b
  | some c =>
    let c := c.shut ep.side
    b.setConn ep (if !c.aOpen && !c.bOpen then none else some c)

inductive Request
  | bindListen (path : String) (backlog : Nat)
  | unbind (path : String)
  | isListening (path : String)
  | connect (path : String)
  | accept (path : String)
  | pending (path : String)
  | access (ep : Endpoint) (op : Access)
  deriving DecidableEq

def answer {α : Type} (found : α → Result) : Except UnixError α → Result
  | .ok a => found a
  | .error e => .failed e

def access (b : Switchboard) (ep : Endpoint) : Access → Switchboard × Result
  | .send data => ((b.send ep data).1, answer .sent (b.send ep data).2)
  | .recv max => ((b.recv ep max).1, answer .received (b.recv ep max).2)
  | .readable => (b, .flag (b.readable ep))
  | .atEof => (b, .flag (b.atEof ep))
  | .available => (b, .count (b.available ep))
  | .close => (b.close ep, .done)

def machine : CallMachine Switchboard Request Result where
  step b
    | .bindListen path backlog =>
      ((b.bindListen path backlog).1, answer (fun _ => .done) (b.bindListen path backlog).2)
    | .unbind path => ((b.unbind path).1, .flag (b.unbind path).2)
    | .isListening path => (b, .flag (b.isListening path))
    | .connect path => ((b.connect path).1, answer .connected (b.connect path).2)
    | .accept path => ((b.accept path).1, .accepted (b.accept path).2)
    | .pending path => (b, .count (b.pending path))
    | .access ep op => b.access ep op

end Switchboard

end EuroOS
