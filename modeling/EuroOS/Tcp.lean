import EuroOS.SeqNum
import EuroOS.ByteCodec

/-!
# An established TCP connection

Both directions of a connection after its handshake: sending with a retransmission
buffer, receiving with a bounded store of segments ahead of a gap, and the closing
of either side.  The port queue holds the segments that have arrived and were not
handled; the wire is the record of what the connection has emitted.
-/

namespace EuroOS

namespace Tcp

abbrev FIN : UInt8 := 0x01
abbrev SYN : UInt8 := 0x02
abbrev RST : UInt8 := 0x04
abbrev PSH : UInt8 := 0x08
abbrev ACK : UInt8 := 0x10

structure TcpSegment where
  srcPort : UInt16
  dstPort : UInt16
  seq : UInt32
  ack : UInt32
  flags : UInt8
  window : UInt16
  payload : Bytes
  deriving DecidableEq

def TcpSegment.has (seg : TcpSegment) (flag : UInt8) : Bool := seg.flags &&& flag != 0

structure TcpConn where
  dport : UInt16
  sport : UInt16
  mySeq : UInt32
  theirSeq : UInt32
  sndUna : UInt32
  isOpen : Bool
  rx : Bytes
  retx : List (UInt32 × Bytes)
  ooo : List (UInt32 × Bytes)
  staleRounds : Nat
  finSent : Bool
  peerFin : Bool
  reset : Bool
  queue : List TcpSegment
  wire : List TcpSegment
  deriving DecidableEq

/-- The connection when its handshake is over: `isn` and `irs` are the initial
sequence numbers of the two sides. -/
def established (dport sport : UInt16) (isn irs : UInt32) : TcpConn where
  dport := dport
  sport := sport
  mySeq := isn + 1
  theirSeq := irs + 1
  sndUna := isn + 1
  isOpen := true
  rx := []
  retx := []
  ooo := []
  staleRounds := 0
  finSent := false
  peerFin := false
  reset := false
  queue := []
  wire := []

namespace TcpConn

def emit (c : TcpConn) (flags : UInt8) (payload : Bytes) : TcpConn :=
  { c with wire := c.wire ++ [⟨c.sport, c.dport, c.mySeq, c.theirSeq, flags, 64240, payload⟩] }

/-! ## Receiving -/

def extend (c : TcpConn) (fresh : Bytes) : TcpConn :=
  { c with
    theirSeq := c.theirSeq + UInt32.ofNat fresh.length
    rx := c.rx ++ fresh }

def reaches (want : UInt32) (kept : UInt32 × Bytes) : Bool :=
  want - kept.1 == 0 ||
    (decide (want - kept.1 < 0x80000000) && decide ((want - kept.1).toNat < kept.2.length))

def behind (upto : UInt32) (kept : UInt32 × Bytes) : Bool :=
  decide (upto - kept.1 < 0x80000000) && decide (kept.2.length ≤ (upto - kept.1).toNat)

/-- Splice in the stored segments that have become next.  Each round takes one out
of the store, so its length is fuel enough. -/
def splice : Nat → TcpConn → TcpConn
  | 0, c => c
  | fuel + 1, c =>
    match c.ooo.find? (reaches c.theirSeq) with
    | none => c
    | some kept =>
      splice fuel (extend { c with ooo := c.ooo.eraseP (reaches c.theirSeq) }
        (kept.2.drop (c.theirSeq - kept.1).toNat))

def accept (c : TcpConn) (fresh : Bytes) : TcpConn :=
  let c := splice c.ooo.length (c.extend fresh)
  { c with ooo := c.ooo.filter fun kept => !behind c.theirSeq kept }

theorem splice_frame (fuel : Nat) (c : TcpConn) :
    ∃ t r o, splice fuel c = { c with theirSeq := t, rx := r, ooo := o } := by
  induction fuel generalizing c with
  | zero => exact ⟨_, _, _, rfl⟩
  | succ fuel ih =>
    unfold splice
    split
    · exact ⟨_, _, _, rfl⟩
    · obtain ⟨t, r, o, h⟩ := ih (extend { c with ooo := c.ooo.eraseP (reaches c.theirSeq) } _)
      exact ⟨t, r, o, h⟩

variable (c : TcpConn)

theorem accept_frame (fresh : Bytes) :
    ∃ t r o, c.accept fresh = { c with theirSeq := t, rx := r, ooo := o } := by
  obtain ⟨t, r, o, h⟩ := splice_frame c.ooo.length (c.extend fresh)
  unfold accept
  rw [h]
  exact ⟨_, _, _, rfl⟩

def keep (c : TcpConn) (seg : TcpSegment) : TcpConn :=
  if c.ooo.length < 128 ∧ ¬ c.ooo.any (fun kept => kept.1 == seg.seq) then
    { c with ooo := c.ooo ++ [(seg.seq, seg.payload)] }
  else c

/-- The payload of a segment: next, a retransmission with or without new bytes, or
ahead of a gap. -/
def place (c : TcpConn) (seg : TcpSegment) : TcpConn :=
  if seg.seq - c.theirSeq = 0 then c.accept seg.payload
  else if 0x80000000 < seg.seq - c.theirSeq then
    if (c.theirSeq - seg.seq).toNat < seg.payload.length then
      c.accept (seg.payload.drop (c.theirSeq - seg.seq).toNat)
    else c
  else c.keep seg

def handlePayload (c : TcpConn) (seg : TcpSegment) : TcpConn := (c.place seg).emit ACK []

theorem place_frame (seg : TcpSegment) :
    ∃ t r o, c.place seg = { c with theirSeq := t, rx := r, ooo := o } := by
  unfold place
  split
  · exact accept_frame c seg.payload
  split
  · split
    · exact accept_frame c _
    · exact ⟨_, _, _, rfl⟩
  · unfold keep
    split <;> exact ⟨_, _, _, rfl⟩

def ackUpto (c : TcpConn) (ack : UInt32) : TcpConn :=
  let una := if ack - c.sndUna < 0x80000000 ∧ ack ≠ c.sndUna then ack else c.sndUna
  { c with
    sndUna := una
    retx := c.retx.filter fun kept =>
      let stop := kept.1 + UInt32.ofNat kept.2.length
      decide (stop - una ≠ 0 ∧ stop - una < 0x80000000) }

def handleFin (c : TcpConn) (seg : TcpSegment) : Bool × TcpConn :=
  let finSeq := seg.seq + UInt32.ofNat seg.payload.length
  if c.peerFin then
    (false, if finSeq + 1 = c.theirSeq then c.emit ACK [] else c)
  else if finSeq ≠ c.theirSeq then (true, c)
  else
    let c := { c with theirSeq := c.theirSeq + 1 }
    let c := c.emit ACK []
    (false, { c with isOpen := false, peerFin := true })

def handleSeg (c : TcpConn) (seg : TcpSegment) : Bool × TcpConn :=
  if seg.has RST then
    if seg.seq ≠ c.theirSeq then (true, c)
    else (false, { c with isOpen := false, reset := true })
  else
    let c := if seg.has ACK then c.ackUpto seg.ack else c
    let c := if seg.payload ≠ [] then c.handlePayload seg else c
    if seg.has FIN then c.handleFin seg else (true, c)

abbrev rxBound : Nat := 256 * 1024

/-- Handle the segments of the port queue, until one finishes the connection or the
receive buffer is over its bound. -/
def pumpFrom : List TcpSegment → TcpConn → TcpConn
  | [], c => { c with queue := [] }
  | seg :: rest, c =>
    let outcome := c.handleSeg seg
    if outcome.1 = false ∨ rxBound < outcome.2.rx.length then { outcome.2 with queue := rest }
    else pumpFrom rest outcome.2

def pumpNowait (c : TcpConn) : TcpConn := pumpFrom c.queue c

def peekNowait (c : TcpConn) (max : Nat) : Bytes × TcpConn :=
  let c := c.pumpNowait
  let n := min max c.rx.length
  (c.rx.take n, c)

def recvNowait (c : TcpConn) (max : Nat) : Bytes × TcpConn :=
  let c := c.pumpNowait
  let n := min max c.rx.length
  (c.rx.take n, { c with rx := c.rx.drop n })

theorem peekNowait_fst (max : Nat) :
    (c.peekNowait max).1 = c.pumpNowait.rx.take max := List.take_eq_take_min.symm

theorem recvNowait_fst (max : Nat) :
    (c.recvNowait max).1 = c.pumpNowait.rx.take max := List.take_eq_take_min.symm

theorem peekNowait_snd (max : Nat) : (c.peekNowait max).2 = c.pumpNowait := rfl

/-! ## Sending -/

def sendChunk (c : TcpConn) (chunk : Bytes) : TcpConn :=
  let c := c.emit (PSH ||| ACK) chunk
  { c with
    retx := c.retx ++ [(c.mySeq, chunk)]
    mySeq := c.mySeq + UInt32.ofNat chunk.length }

def chunks (data : Bytes) : List Bytes :=
  (List.range ((data.length + 1023) / 1024)).map fun i => (data.drop (1024 * i)).take 1024

def sendNowait (c : TcpConn) (data : Bytes) : TcpConn := (chunks data).foldl sendChunk c

def sendFin (c : TcpConn) : TcpConn :=
  if c.finSent ∨ c.reset ∨ ¬ (c.isOpen ∨ c.peerFin) then { c with isOpen := false }
  else
    let c := c.emit (FIN ||| ACK) []
    { c with mySeq := c.mySeq + 1, finSent := true, isOpen := false }

def closeNowait (c : TcpConn) : TcpConn := c.sendFin

def finAcked (c : TcpConn) : Bool := c.finSent && c.sndUna == c.mySeq

def emitAt (c : TcpConn) (seq : UInt32) (flags : UInt8) (payload : Bytes) : TcpConn :=
  let saved := c.mySeq
  { ({ c with mySeq := seq } : TcpConn).emit flags payload with mySeq := saved }

def retransmitUnacked (c : TcpConn) : TcpConn :=
  c.retx.foldl (fun c kept => c.emitAt kept.1 (PSH ||| ACK) kept.2) c

def tick (c : TcpConn) : TcpConn :=
  let c := c.pumpNowait
  if c.reset then c
  else
    let finPending := c.finSent && !c.finAcked
    let dataPending := !c.retx.isEmpty && (c.isOpen || c.finSent)
    if !dataPending && !finPending then { c with staleRounds := 0 }
    else if 8 < c.staleRounds then c
    else
      let c := { c with staleRounds := c.staleRounds + 1 }
      if 8 < c.staleRounds then { c with isOpen := false }
      else
        let c := if dataPending then c.retransmitUnacked else c
        if finPending then c.emitAt (c.mySeq - 1) (FIN ||| ACK) [] else c

/-! ## What the operations of the send side leave alone -/

theorem emitAt_frame (seq : UInt32) (flags : UInt8) (payload : Bytes) :
    c.emitAt seq flags payload = { c with
      wire := c.wire ++ [⟨c.sport, c.dport, seq, c.theirSeq, flags, 64240, payload⟩] } := rfl

theorem retransmitUnacked_frame :
    c.retransmitUnacked = { c with
      wire := c.wire ++ c.retx.map fun kept =>
        ⟨c.sport, c.dport, kept.1, c.theirSeq, PSH ||| ACK, 64240, kept.2⟩ } := by
  unfold retransmitUnacked
  suffices h : ∀ (l : List (UInt32 × Bytes)) (c : TcpConn),
      l.foldl (fun c kept => c.emitAt kept.1 (PSH ||| ACK) kept.2) c = { c with
        wire := c.wire ++ l.map fun kept =>
          ⟨c.sport, c.dport, kept.1, c.theirSeq, PSH ||| ACK, 64240, kept.2⟩ } from h c.retx c
  intro l
  induction l with
  | nil =>
    intro c
    rw [List.foldl_nil, List.map_nil, List.append_nil]
  | cons kept l ih =>
    intro c
    rw [List.foldl_cons, ih, emitAt_frame, List.map_cons, List.append_assoc]
    rfl

theorem tick_frame :
    ∃ rounds still more, c.tick =
      { c.pumpNowait with staleRounds := rounds, isOpen := still, wire := more } := by
  unfold tick
  generalize c.pumpNowait = c
  dsimp only
  split
  · exact ⟨_, _, _, rfl⟩
  split
  · exact ⟨_, _, _, rfl⟩
  split
  · exact ⟨_, _, _, rfl⟩
  split
  · exact ⟨_, _, _, rfl⟩
  split <;> split <;> first
    | exact ⟨_, _, _, rfl⟩
    | (rw [retransmitUnacked_frame]; exact ⟨_, _, _, rfl⟩)

end TcpConn

/-- What happens to a connection: a segment is put into its port queue or handled
directly, or one of its operations is called. -/
inductive Op
  | arrive (seg : TcpSegment)
  | handle (seg : TcpSegment)
  | recv (max : Nat)
  | peek (max : Nat)
  | send (data : Bytes)
  | close
  | tick
  deriving DecidableEq

def Op.apply (c : TcpConn) : Op → TcpConn
  | .arrive seg => { c with queue := c.queue ++ [seg] }
  | .handle seg => (c.handleSeg seg).2
  | .recv max => (c.recvNowait max).2
  | .peek max => (c.peekNowait max).2
  | .send data => c.sendNowait data
  | .close => c.closeNowait
  | .tick => c.tick

def Op.delivers (c : TcpConn) : Op → Bytes
  | .recv max => (c.recvNowait max).1
  | _ => []

def run (c : TcpConn) : List Op → Bytes × TcpConn
  | [] => ([], c)
  | op :: ops =>
    let rest := run (op.apply c) ops
    (op.delivers c ++ rest.1, rest.2)

end Tcp

end EuroOS
