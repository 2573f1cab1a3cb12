import EuroOS.Interleaving
import EuroOS.ReadMostly
import EuroOS.ByteCodec

/-!
# Message passing between processes

Ports are entries of a replicated channel table, and each channel has its own
lock around its message queue.  A send looks its channel up, checks its sender
restriction, and queues the message, in separate sections; a channel that was
unregistered in between can still be reached by calls that looked it up before.
-/

namespace EuroOS

namespace Ipc

abbrev maxQueue : Nat := 256

structure Channel where
  port : UInt32
  owner : UInt64
  restricted : Bool
  onlyFrom : UInt64
  queue : List (UInt64 × Bytes)
  deriving DecidableEq

/-- The channel table holds references to channels; a channel lives on as long
as somebody refers to it. -/
structure State where
  table : ReadMostly (List Nat)
  heap : List Channel

def empty : State := ⟨.ofValue [], []⟩

inductive Call
  | register (pid : UInt64) (port : UInt32)
  | registerRestricted (pid : UInt64) (port : UInt32) (onlyFrom : UInt64)
  | setOnlyFrom (port : UInt32) (onlyFrom : UInt64)
  | unregister (port : UInt32)
  | send (sender : UInt64) (port : UInt32) (data : Bytes)
  | take (port : UInt32)
  | recv (pid : UInt64)
  | queued (port : UInt32)
  deriving DecidableEq

/-- The sections: registry reads and writes, the loads and stores of the sender
restriction, and the queue sections. -/
inductive Point
  | claim (pid : UInt64) (port : UInt32) (onlyFrom : Option UInt64)
  | findRestricted (port : UInt32) (onlyFrom : UInt64)
  | storeOnlyFrom (channel : Nat) (onlyFrom : UInt64)
  | storeRestricted (channel : Nat)
  | remove (port : UInt32)
  | findPort (sender : UInt64) (port : UInt32) (data : Bytes)
  | loadRestricted (channel : Nat) (sender : UInt64) (data : Bytes)
  | loadOnlyFrom (channel : Nat) (sender : UInt64) (data : Bytes)
  | push (channel : Nat) (sender : UInt64) (data : Bytes)
  | findTaken (port : UInt32)
  | findOwned (pid : UInt64)
  | pop (channel : Nat)
  | findQueued (port : UInt32)
  | count (channel : Nat)
  deriving DecidableEq

/-- What calls return.  The channel of a message is noted for the record; the
caller sees the byte count or the message. -/
inductive Result
  | claimed (ok : Bool)
  | done
  | sent (channel : Nat) (len : Nat)
  | noSuchPort
  | refused
  | queueFull
  | message (channel : Nat) (sender : UInt64) (data : Bytes)
  | nothing
  | length (n : Nat)
  deriving DecidableEq

def enter : Call → Point
  | .register pid port => .claim pid port none
  | .registerRestricted pid port onlyFrom => .claim pid port (some onlyFrom)
  | .setOnlyFrom port onlyFrom => .findRestricted port onlyFrom
  | .unregister port => .remove port
  | .send sender port data => .findPort sender port data
  | .take port => .findTaken port
  | .recv pid => .findOwned pid
  | .queued port => .findQueued port

def hasPort (heap : List Channel) (port : UInt32) (channel : Nat) : Bool :=
  heap[channel]?.any fun c => c.port = port

def hasOwner (heap : List Channel) (pid : UInt64) (channel : Nat) : Bool :=
  heap[channel]?.any fun c => c.owner = pid

def byPort (s : State) (cpu : Fin shards) (port : UInt32) : Option Nat :=
  (s.table.read cpu).find? (hasPort s.heap port)

def byOwner (s : State) (cpu : Fin shards) (pid : UInt64) : Option Nat :=
  (s.table.read cpu).find? (hasOwner s.heap pid)

def claimIn (heap : List Channel) (port : UInt32) (channel : Nat) (t : List Nat) :
    Bool × List Nat :=
  if t.any (hasPort heap port) then (false, t) else (true, t ++ [channel])

def removeIn (heap : List Channel) (port : UInt32) (t : List Nat) : Unit × List Nat :=
  ((), t.eraseP (hasPort heap port))

def newChannel (pid : UInt64) (port : UInt32) (onlyFrom : Option UInt64) : Channel where
  port := port
  owner := pid
  restricted := onlyFrom.isSome
  onlyFrom := onlyFrom.getD 0
  queue := []

def advance (cpu : Fin shards) : Point → State → (Point ⊕ Result) × State
  | .claim pid port onlyFrom, s =>
    let heap := s.heap ++ [newChannel pid port onlyFrom]
    let outcome := s.table.write (claimIn s.heap port s.heap.length)
    (.inr (.claimed outcome.1), ⟨outcome.2, heap⟩)
  | .findRestricted port onlyFrom, s =>
    match byPort s cpu port with
    | some channel => (.inl (.storeOnlyFrom channel onlyFrom), s)
    | none => (.inr .done, s)
  | .storeOnlyFrom channel onlyFrom, s =>
    (.inl (.storeRestricted channel),
      { s with heap := s.heap.modify channel fun c => { c with onlyFrom := onlyFrom } })
  | .storeRestricted channel, s =>
    (.inr .done, { s with heap := s.heap.modify channel fun c => { c with restricted := true } })
  | .remove port, s => (.inr .done, { s with table := (s.table.write (removeIn s.heap port)).2 })
  | .findPort sender port data, s =>
    match byPort s cpu port with
    | some channel => (.inl (.loadRestricted channel sender data), s)
    | none => (.inr .noSuchPort, s)
  | .loadRestricted channel sender data, s =>
    if s.heap[channel]?.any Channel.restricted then
      (.inl (.loadOnlyFrom channel sender data), s)
    else (.inl (.push channel sender data), s)
  | .loadOnlyFrom channel sender data, s =>
    if s.heap[channel]?.any fun c => c.onlyFrom ≠ sender then (.inr .refused, s)
    else (.inl (.push channel sender data), s)
  | .push channel sender data, s =>
    if s.heap[channel]?.any fun c => maxQueue ≤ c.queue.length then (.inr .queueFull, s)
    else (.inr (.sent channel data.length),
      { s with heap := s.heap.modify channel fun c =>
        { c with queue := c.queue ++ [(sender, data)] } })
  | .findTaken port, s =>
    match byPort s cpu port with
    | some channel => (.inl (.pop channel), s)
    | none => (.inr .nothing, s)
  | .findOwned pid, s =>
    match byOwner s cpu pid with
    | some channel => (.inl (.pop channel), s)
    | none => (.inr .noSuchPort, s)
  | .pop channel, s =>
    match s.heap[channel]?.bind fun c => c.queue.head? with
    | some m => (.inr (.message channel m.1 m.2),
        { s with heap := s.heap.modify channel fun c => { c with queue := c.queue.tail } })
    | none => (.inr .nothing, s)
  | .findQueued port, s =>
    match byPort s cpu port with
    | some channel => (.inl (.count channel), s)
    | none => (.inr .noSuchPort, s)
  | .count channel, s =>
    (.inr (.length ((s.heap[channel]?.map fun c => c.queue.length).getD 0)), s)

abbrev ipc : Sections where
  Shared := State
  Call := Call
  Point := Point
  Choice := Fin shards
  Result := Result
  enter := enter
  advance := advance

end Ipc

end EuroOS
