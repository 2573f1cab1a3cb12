import EuroOS.ByteCodec
import EuroOS.CallMachine

/-!
# The NVMe driver and its controller

`crates/euronvme` runs one command at a time through an I/O queue pair and one
data buffer of two pages.  The controller fetches submitted entries, moves their
data and posts their completions whenever it likes.  An environment says what it
does before each access of the driver, so every delay and every order of those
steps is some environment.
-/

namespace EuroOS.EuroNvme

def qdepth : Nat := 16
def page : Nat := 4096
def dataBytes : Nat := 8192
def cmdPolls : Nat := 4000000
def ioWrite : UInt8 := 0x01
def ioRead : UInt8 := 0x02

inductive Error
  | timeout
  | status (code : Nat)
  | outOfRange
  | badLength
  | unexpected
  deriving DecidableEq

/-! ## Submission queue entries -/

abbrev Command := List UInt32

def cmdBase (opcode : UInt8) (cid : UInt16) (nsid : UInt32) (prp1 prp2 : UInt64) : Command :=
  [opcode.toUInt32 ||| cid.toUInt32 <<< 16, nsid, 0, 0, 0, 0,
    prp1.toUInt32, (prp1 >>> 32).toUInt32, prp2.toUInt32, (prp2 >>> 32).toUInt32,
    0, 0, 0, 0, 0, 0]

namespace Command

def word (c : Command) (i : Nat) : Nat := (c.getD i 0).toNat

def pair (c : Command) (i : Nat) : Nat := c.word i + c.word (i + 1) <<< 32

def opcode (c : Command) : Nat := c.word 0 % 256
def cid (c : Command) : Nat := c.word 0 / 65536
def prp1 (c : Command) : Nat := c.pair 6
def prp2 (c : Command) : Nat := c.pair 8
def slba (c : Command) : Nat := c.pair 10
def sectors (c : Command) : Nat := c.word 12 % 65536 + 1

end Command

def overlay (b : Bytes) (pos : Nat) (bs : Bytes) : Bytes :=
  b.take pos ++ bs ++ b.drop (pos + bs.length)

/-! ## The controller -/

/-- A completion queue entry: the command id, and the phase bit under the status. -/
structure Completion where
  id : Nat
  hi : Nat
  deriving DecidableEq

/-- The controller and the DMA window it shares with the driver.  The layout keeps
the queues and the data pages apart, so each has a field of its own. -/
structure Hal where
  sq : Nat → Command
  cq : Nat → Completion
  data : Bytes
  dataAt : UInt64
  sqTail : Nat
  cqHead : Nat
  /-- Where the controller is in the queues, and the phase it posts with. -/
  sqHead : Nat
  cqTail : Nat
  phase : Nat
  /-- Fetched commands whose completion is not posted, and whether their data moved. -/
  inFlight : List (Command × Bool)
  disk : Bytes
  sectorSize : Nat
  time : Nat

inductive Action
  | fetch
  | execute (i : Nat)
  | post (i : Nat)
  deriving DecidableEq

namespace Hal

def Reaches (h : Hal) (c : Command) : Prop :=
  c.prp1 = h.dataAt.toNat ∧
    (c.sectors * h.sectorSize ≤ page ∨ c.prp2 = h.dataAt.toNat + page)

instance (h : Hal) (c : Command) : Decidable (h.Reaches c) :=
  inferInstanceAs (Decidable (_ ∧ _))

def movedDisk (h : Hal) (c : Command) : Bytes :=
  if h.Reaches c ∧ c.opcode = ioWrite.toNat then
    overlay h.disk (c.slba * h.sectorSize) (h.data.take (c.sectors * h.sectorSize))
  else h.disk

def movedData (h : Hal) (c : Command) : Bytes :=
  if h.Reaches c ∧ c.opcode = ioRead.toNat then
    overlay h.data 0 (slice h.disk (c.slba * h.sectorSize) (c.sectors * h.sectorSize))
  else h.data

def transfer (h : Hal) (c : Command) : Hal :=
  { h with disk := h.movedDisk c, data := h.movedData c }

/-- One step of the controller; a step it cannot make changes nothing. -/
def act (h : Hal) : Action → Hal
  | .fetch =>
    if h.sqHead = h.sqTail then h
    else
      { h with
        sqHead := (h.sqHead + 1) % qdepth
        inFlight := h.inFlight ++ [(h.sq h.sqHead, false)] }
  | .execute i =>
    match h.inFlight[i]? with
    | some (c, false) => { h.transfer c with inFlight := h.inFlight.set i (c, true) }
    | _ => h
  | .post i =>
    match h.inFlight[i]? with
    | some (c, true) =>
      -- a full completion queue holds the completion back
      if (h.cqTail + 1) % qdepth = h.cqHead then h
      else
        { h with
          cq := Function.update h.cq h.cqTail ⟨c.cid, h.phase⟩
          cqTail := (h.cqTail + 1) % qdepth
          phase := if (h.cqTail + 1) % qdepth = 0 then h.phase ^^^ 1 else h.phase
          inFlight := h.inFlight.eraseIdx i }
    | _ => h

section Access

variable (env : Nat → List Action)

def tick (h : Hal) : Hal :=
  (env h.time).foldl act { h with time := h.time + 1 }

def writeData (h : Hal) (bs : Bytes) : Hal :=
  { h.tick env with data := overlay (h.tick env).data 0 bs }

def readData (h : Hal) (len : Nat) : Bytes × Hal :=
  (slice (h.tick env).data 0 len, h.tick env)

def writeSq (h : Hal) (slot : Nat) (c : Command) : Hal :=
  { h.tick env with sq := Function.update (h.tick env).sq slot c }

def ringSq (h : Hal) (tail : Nat) : Hal := { h.tick env with sqTail := tail }

def readHi (h : Hal) (slot : Nat) : Nat × Hal := (((h.tick env).cq slot).hi, h.tick env)

def readId (h : Hal) (slot : Nat) : Nat × Hal := (((h.tick env).cq slot).id, h.tick env)

def ringCq (h : Hal) (head : Nat) : Hal := { h.tick env with cqHead := head }

end Access

end Hal

/-! ## The driver -/

structure Queue where
  tail : Nat
  head : Nat
  phase : Nat
  deriving DecidableEq

namespace Queue

variable (env : Nat → List Action)

def submit (q : Queue) (h : Hal) (cmd : Command) : Queue × Hal :=
  let h := h.writeSq env q.tail cmd
  let tail := (q.tail + 1) % qdepth
  ({ q with tail := tail }, h.ringSq env tail)

/-- One look at the completion queue.  The phase is read before the id. -/
def poll (q : Queue) (h : Hal) : Option (Nat × Nat) × Queue × Hal :=
  let (hi, h) := h.readHi env q.head
  if hi % 2 ≠ q.phase then (none, q, h)
  else
    let (cid, h) := h.readId env q.head
    let status := hi / 2 % 2048
    let head := (q.head + 1) % qdepth
    let phase := if head = 0 then q.phase ^^^ 1 else q.phase
    (some (cid, status), { q with head := head, phase := phase }, h.ringCq env head)

end Queue

structure Stats where
  reads : Nat := 0
  writes : Nat := 0
  sectorsRead : Nat := 0
  sectorsWritten : Nat := 0
  errors : Nat := 0
  deriving DecidableEq

/-- The driver's side: `layout.data`, the I/O queue and the command in flight as its id,
whether it writes, and its number of sectors. -/
structure Nvme where
  data : UInt64
  io : Queue
  nextCid : UInt16
  pending : Option (UInt16 × Bool × UInt16)
  sectors : UInt64
  sectorSize : Nat
  stats : Stats

structure World where
  driver : Nvme
  hal : Hal

namespace Nvme

def cid (n : Nvme) : UInt16 × Nvme :=
  (n.nextCid, { n with nextCid := if n.nextCid = 0xFFFF then 1 else n.nextCid + 1 })

/-- The bytes of `count` sectors, checked against the namespace and the buffer. -/
def check (n : Nvme) (lba : UInt64) (count : UInt16) : Except Error Nat :=
  let bytes := count.toNat * n.sectorSize
  if count = 0 ∨ bytes > dataBytes then .error .badLength
  else if lba.toNat + count.toNat ≥ 2 ^ 64 ∨ lba.toNat + count.toNat > n.sectors.toNat then
    .error .outOfRange
  else .ok bytes

def ioCommand (n : Nvme) (write : Bool) (cid : UInt16) (lba : UInt64) (count : UInt16)
    (bytes : Nat) : Command :=
  let prp2 := if bytes > page then n.data + 4096 else 0
  (((cmdBase (if write then ioWrite else ioRead) cid 1 n.data prp2).set 10 lba.toUInt32).set 11
    (lba >>> 32).toUInt32).set 12 (count - 1).toUInt32

end Nvme

namespace World

variable (env : Nat → List Action)

def start (w : World) (write : Bool) (lba : UInt64) (count : UInt16) (bytes : Nat)
    (data : Bytes) : World :=
  let hal := if write then w.hal.writeData env data else w.hal
  let (cid, driver) := w.driver.cid
  let (io, hal) := driver.io.submit env hal (driver.ioCommand write cid lba count bytes)
  ⟨{ driver with io := io, pending := some (cid, write, count) }, hal⟩

def submit (w : World) (write : Bool) (lba : UInt64) (count : UInt16) (data : Bytes) :
    Except Error Unit × World :=
  if w.driver.pending.isSome then (.error .unexpected, w)
  else
    match w.driver.check lba count with
    | .error e => (.error e, w)
    | .ok bytes =>
      if write ∧ data.length ≠ bytes then (.error .badLength, w)
      else (.ok (), w.start env write lba count bytes data)

def finish (w : World) (cid : UInt16) (write : Bool) (count : UInt16) (c status : Nat)
    (outLen : Nat) : Except Error Bytes × World :=
  let stats := w.driver.stats
  let failed := { w with driver.stats := { stats with errors := stats.errors + 1 } }
  if c ≠ cid.toNat then (.error .unexpected, failed)
  else if status ≠ 0 then (.error (.status status), failed)
  else
    let bytes := count.toNat * w.driver.sectorSize
    if write then
      (.ok [], { w with
        driver.stats := { stats with
          writes := stats.writes + 1, sectorsWritten := stats.sectorsWritten + count.toNat } })
    else if outLen ≠ bytes then (.error .badLength, w)
    else
      let (out, hal) := w.hal.readData env outLen
      (.ok out, ⟨{ w.driver with
        stats := { stats with
          reads := stats.reads + 1, sectorsRead := stats.sectorsRead + count.toNat } }, hal⟩)

/-- One look for the completion of the command in flight; the bytes are what a read
puts into the caller's buffer of `outLen` bytes. -/
def complete (w : World) (outLen : Nat) : Option (Except Error Bytes) × World :=
  match w.driver.pending with
  | none => (none, w)
  | some (cid, write, count) =>
    match w.driver.io.poll env w.hal with
    | (none, io, hal) => (none, ⟨{ w.driver with io := io }, hal⟩)
    | (some (c, status), io, hal) =>
      let (r, w) := finish env ⟨{ w.driver with io := io, pending := none }, hal⟩
        cid write count c status outLen
      (some r, w)

def await (outLen : Nat) : Nat → World → Except Error Bytes × World
  | 0, w => (.error .timeout, { w with driver.pending := none })
  | polls + 1, w =>
    match w.complete env outLen with
    | (some r, w) => (r, w)
    | (none, w) => await outLen polls w

def rw (w : World) (write : Bool) (lba : UInt64) (count : UInt16) (data : Bytes)
    (outLen : Nat) : Except Error Bytes × World :=
  match w.submit env write lba count data with
  | (.error e, w) => (.error e, w)
  | (.ok (), w) => w.await env outLen cmdPolls

def read (w : World) (lba : UInt64) (count : UInt16) (outLen : Nat) :
    Except Error Bytes × World :=
  w.rw env false lba count [] outLen

def write (w : World) (lba : UInt64) (data : Bytes) : Except Error Bytes × World :=
  if data = [] ∨ data.length % w.driver.sectorSize ≠ 0 then (.error .badLength, w)
  else w.rw env true lba (UInt16.ofNat (data.length / w.driver.sectorSize)) data 0

end World

inductive Call
  | read (lba : UInt64) (count : UInt16) (outLen : Nat)
  | write (lba : UInt64) (data : Bytes)
  | submit (write : Bool) (lba : UInt64) (count : UInt16) (data : Bytes)
  | complete (outLen : Nat)

/-- One call; `none` is `complete` on a command that still runs, or on no command. -/
def call (env : Nat → List Action) (w : World) :
    Call → World × Option (Except Error Bytes)
  | .read lba count outLen => ((w.read env lba count outLen).2, some (w.read env lba count outLen).1)
  | .write lba data => ((w.write env lba data).2, some (w.write env lba data).1)
  | .submit write lba count data =>
    ((w.submit env write lba count data).2,
      some ((w.submit env write lba count data).1.map fun _ => []))
  | .complete outLen => ((w.complete env outLen).2, (w.complete env outLen).1)

def machine (env : Nat → List Action) : CallMachine World Call (Option (Except Error Bytes)) where
  step := call env

/-- What `init` leaves: the four commands of the bring-up took the ids up to 4, the
queues are empty and zeroed, and the controller waits. -/
def World.initialised (dataAt : UInt64) (sectors : UInt64) (sectorSize : Nat)
    (disk data : Bytes) : World where
  driver := ⟨dataAt, ⟨0, 0, 1⟩, 5, none, sectors, sectorSize, {}⟩
  hal := ⟨fun _ => List.replicate 16 0, fun _ => ⟨0, 0⟩, data, dataAt, 0, 0, 0, 0, 1, [], disk,
    sectorSize, 0⟩

end EuroOS.EuroNvme
