import EuroOS.WasmBinary

/-!
# The interpreter

Operations run on one stack of values shared by all frames.  Each frame has the
blocks it is in, with the position to go on at and the height of the stack when
the block was entered.  A run takes at most as many steps as it has fuel.
-/

namespace EuroOS.Wasm

/-! ## Numeric operations -/

structure FloatOps where
  addF32 : BitVec 32 → BitVec 32 → BitVec 32
  subF32 : BitVec 32 → BitVec 32 → BitVec 32
  mulF32 : BitVec 32 → BitVec 32 → BitVec 32
  divF32 : BitVec 32 → BitVec 32 → BitVec 32
  eqF32 : BitVec 32 → BitVec 32 → Bool
  ltF32 : BitVec 32 → BitVec 32 → Bool
  leF32 : BitVec 32 → BitVec 32 → Bool
  addF64 : BitVec 64 → BitVec 64 → BitVec 64
  subF64 : BitVec 64 → BitVec 64 → BitVec 64
  mulF64 : BitVec 64 → BitVec 64 → BitVec 64
  divF64 : BitVec 64 → BitVec 64 → BitVec 64
  eqF64 : BitVec 64 → BitVec 64 → Bool
  ltF64 : BitVec 64 → BitVec 64 → Bool
  leF64 : BitVec 64 → BitVec 64 → Bool
  /-- Conversions towards zero; out of range they give the nearest value, and 0 for NaN. -/
  f32ToI32 : BitVec 32 → BitVec 32
  f64ToI32 : BitVec 64 → BitVec 32
  i32ToF32 : BitVec 32 → BitVec 32
  i32ToF64 : BitVec 32 → BitVec 64
  u32ToF64 : BitVec 32 → BitVec 64
  f64ToF32 : BitVec 64 → BitVec 32
  f32ToF64 : BitVec 32 → BitVec 64

def i32v (v : Val) : BitVec 32 := v.setWidth 32

def ofI32 (x : BitVec 32) : Val := x.signExtend 64

def ofBits32 (x : BitVec 32) : Val := x.setWidth 64

def ofBool (b : Bool) : Val := if b then 1 else 0

inductive NumFn
  | nop
  | un (f : Val → Except String Val)
  | bin (f : Val → Val → Except String Val)

namespace NumFn

def binI32 (f : BitVec 32 → BitVec 32 → BitVec 32) : NumFn :=
  .bin fun a b => .ok (ofI32 (f (i32v a) (i32v b)))

def cmpI32 (f : BitVec 32 → BitVec 32 → Bool) : NumFn :=
  .bin fun a b => .ok (ofBool (f (i32v a) (i32v b)))

def binI64 (f : Val → Val → Val) : NumFn := .bin fun a b => .ok (f a b)

def cmpI64 (f : Val → Val → Bool) : NumFn := .bin fun a b => .ok (ofBool (f a b))

def unI32 (f : BitVec 32 → BitVec 32) : NumFn := .un fun a => .ok (ofI32 (f (i32v a)))

def unI64 (f : Val → Val) : NumFn := .un fun a => .ok (f a)

def divI32 (why : String) (f : BitVec 32 → BitVec 32 → BitVec 32) : NumFn :=
  .bin fun a b => if i32v b = 0 then .error why else .ok (ofI32 (f (i32v a) (i32v b)))

def divI64 (why : String) (f : Val → Val → Val) : NumFn :=
  .bin fun a b => if b = 0 then .error why else .ok (f a b)

def binF32 (f : BitVec 32 → BitVec 32 → BitVec 32) : NumFn :=
  .bin fun a b => .ok (ofBits32 (f (i32v a) (i32v b)))

end NumFn

open NumFn in
def numFn (fl : FloatOps) (op : Nat) : Option NumFn :=
  match op with
  | 0x45 => some (.un fun a => .ok (ofBool (i32v a == 0)))
  | 0x46 => some (cmpI32 (· == ·))
  | 0x47 => some (cmpI32 (· != ·))
  | 0x48 => some (cmpI32 BitVec.slt)
  | 0x49 => some (cmpI32 BitVec.ult)
  | 0x4a => some (cmpI32 fun a b => b.slt a)
  | 0x4b => some (cmpI32 fun a b => b.ult a)
  | 0x4c => some (cmpI32 BitVec.sle)
  | 0x4d => some (cmpI32 BitVec.ule)
  | 0x4e => some (cmpI32 fun a b => b.sle a)
  | 0x4f => some (cmpI32 fun a b => b.ule a)
  | 0x6a => some (binI32 (· + ·))
  | 0x6b => some (binI32 (· - ·))
  | 0x6c => some (binI32 (· * ·))
  | 0x6d => some (divI32 "div0" BitVec.sdiv)
  | 0x6e => some (divI32 "div0" (· / ·))
  | 0x6f => some (divI32 "rem0" BitVec.srem)
  | 0x70 => some (divI32 "rem0" (· % ·))
  | 0x71 => some (binI32 (· &&& ·))
  | 0x72 => some (binI32 (· ||| ·))
  | 0x73 => some (binI32 (· ^^^ ·))
  | 0x74 => some (binI32 fun a b => a <<< (b.toNat % 32))
  | 0x75 => some (binI32 fun a b => a.sshiftRight (b.toNat % 32))
  | 0x76 => some (binI32 fun a b => a >>> (b.toNat % 32))
  | 0x77 => some (binI32 fun a b => a.rotateLeft (b.toNat % 32))
  | 0x78 => some (binI32 fun a b => a.rotateRight (b.toNat % 32))
  | 0x50 => some (.un fun a => .ok (ofBool (a == 0)))
  | 0x51 => some (cmpI64 (· == ·))
  | 0x52 => some (cmpI64 (· != ·))
  | 0x53 => some (cmpI64 BitVec.slt)
  | 0x54 => some (cmpI64 BitVec.ult)
  | 0x55 => some (cmpI64 fun a b => b.slt a)
  | 0x56 => some (cmpI64 fun a b => b.ult a)
  | 0x57 => some (cmpI64 BitVec.sle)
  | 0x58 => some (cmpI64 BitVec.ule)
  | 0x59 => some (cmpI64 fun a b => b.sle a)
  | 0x5a => some (cmpI64 fun a b => b.ule a)
  | 0x7c => some (binI64 (· + ·))
  | 0x7d => some (binI64 (· - ·))
  | 0x7e => some (binI64 (· * ·))
  | 0x83 => some (binI64 (· &&& ·))
  | 0x84 => some (binI64 (· ||| ·))
  | 0x85 => some (binI64 (· ^^^ ·))
  | 0x86 => some (binI64 fun a b => a <<< (b.toNat % 64))
  | 0x87 => some (binI64 fun a b => a.sshiftRight (b.toNat % 64))
  | 0xa7 => some (unI32 id)
  | 0xc0 => some (unI32 fun a => (a.setWidth 8).signExtend 32)
  | 0xc1 => some (unI32 fun a => (a.setWidth 16).signExtend 32)
  | 0xc2 => some (unI64 fun a => (a.setWidth 8).signExtend 64)
  | 0xc3 => some (unI64 fun a => (a.setWidth 16).signExtend 64)
  | 0xc4 => some (unI64 fun a => (a.setWidth 32).signExtend 64)
  | 0xac => some (.un fun a => .ok (ofI32 (i32v a)))
  | 0xad => some (.un fun a => .ok ((i32v a).setWidth 64))
  | 0x5b => some (cmpI32 fl.eqF32)
  | 0x5c => some (cmpI32 fun a b => !fl.eqF32 a b)
  | 0x5d => some (cmpI32 fl.ltF32)
  | 0x5e => some (cmpI32 fun a b => fl.ltF32 b a)
  | 0x5f => some (cmpI32 fl.leF32)
  | 0x60 => some (cmpI32 fun a b => fl.leF32 b a)
  | 0x61 => some (cmpI64 fl.eqF64)
  | 0x62 => some (cmpI64 fun a b => !fl.eqF64 a b)
  | 0x63 => some (cmpI64 fl.ltF64)
  | 0x64 => some (cmpI64 fun a b => fl.ltF64 b a)
  | 0x65 => some (cmpI64 fl.leF64)
  | 0x66 => some (cmpI64 fun a b => fl.leF64 b a)
  | 0x8b => some (.un fun a => .ok (ofBits32 (i32v a &&& 0x7fffffff)))
  | 0x8c => some (.un fun a => .ok (ofBits32 (i32v a ^^^ 0x80000000)))
  | 0x92 => some (binF32 fl.addF32)
  | 0x93 => some (binF32 fl.subF32)
  | 0x94 => some (binF32 fl.mulF32)
  | 0x95 => some (binF32 fl.divF32)
  | 0x96 => some (binF32 fun a b => if fl.ltF32 a b then a else b)
  | 0x97 => some (binF32 fun a b => if fl.ltF32 b a then a else b)
  | 0x99 => some (unI64 (· &&& 0x7fffffffffffffff))
  | 0x9a => some (unI64 (· ^^^ 0x8000000000000000))
  | 0xa0 => some (binI64 fl.addF64)
  | 0xa1 => some (binI64 fl.subF64)
  | 0xa2 => some (binI64 fl.mulF64)
  | 0xa3 => some (binI64 fl.divF64)
  | 0xa4 => some (binI64 fun a b => if fl.ltF64 a b then a else b)
  | 0xa5 => some (binI64 fun a b => if fl.ltF64 b a then a else b)
  | 0xa8 => some (unI32 fl.f32ToI32)
  | 0xaa => some (.un fun a => .ok (ofI32 (fl.f64ToI32 a)))
  | 0xb2 => some (.un fun a => .ok (ofBits32 (fl.i32ToF32 (i32v a))))
  | 0xb6 => some (.un fun a => .ok (ofBits32 (fl.f64ToF32 a)))
  | 0xb7 => some (.un fun a => .ok (fl.i32ToF64 (i32v a)))
  | 0xb8 => some (.un fun a => .ok (fl.u32ToF64 (i32v a)))
  | 0xbb => some (.un fun a => .ok (fl.f32ToF64 (i32v a)))
  | 0xbc => some (unI32 id)
  | 0xbe => some (.un fun a => .ok (ofBits32 (i32v a)))
  | 0xbd | 0xbf => some .nop
  | 0x67 => some (unI32 BitVec.clz)
  | 0x68 => some (unI32 BitVec.ctz)
  | 0x69 => some (unI32 BitVec.cpop)
  | 0x79 => some (unI64 BitVec.clz)
  | 0x7a => some (unI64 BitVec.ctz)
  | 0x7b => some (unI64 BitVec.cpop)
  | 0x7f => some (.bin fun a b =>
    if b = 0 ∨ (a = BitVec.intMin 64 ∧ b = -1) then .error "i64.div_s: zero or overflow"
    else .ok (a.sdiv b))
  | 0x80 => some (divI64 "i64.div_u: zero" (· / ·))
  | 0x81 => some (divI64 "i64.rem_s: zero" fun a b => if b = -1 then 0 else a.srem b)
  | 0x82 => some (divI64 "i64.rem_u: zero" (· % ·))
  | 0x88 => some (binI64 fun a b => a >>> (b.toNat % 64))
  | 0x89 => some (binI64 fun a b => a.rotateLeft (b.toNat % 64))
  | 0x8a => some (binI64 fun a b => a.rotateRight (b.toNat % 64))
  | _ => none

def execNum (fl : FloatOps) (op : Nat) (stack : List Val) : Except WasmError (List Val) :=
  match numFn fl op, stack with
  | none, _ => .error (.unsupported "num-opcode")
  | some .nop, stack => .ok stack
  | some (.un f), a :: stack => (f a).mapError .trap |>.map (· :: stack)
  | some (.bin f), b :: a :: stack => (f a b).mapError .trap |>.map (· :: stack)
  | some _, _ => .error (.trap "stack")

/-! ## Memory -/

def page : Nat := 65536

def maxMemPages : Nat := 256

def readAt (mem : Bytes) (addr n : Nat) : Except Fault Bytes :=
  if addr + n ≤ mem.length then .ok (slice mem addr n) else .error .panic

def writeAt (mem : Bytes) (addr : Nat) (bytes : Bytes) : Except Fault Bytes :=
  if addr + bytes.length ≤ mem.length then
    .ok (mem.take addr ++ bytes ++ mem.drop (addr + bytes.length))
  else .error .panic

def trap {α : Type} (why : String) : Except Fault α := .error (.error (.trap why))

def addrOf (v : Val) : Nat := (i32v v).toNat

def loadWidth (op : Nat) : Nat :=
  if op = 0x29 ∨ op = 0x2b then 8
  else if op = 0x2a ∨ op = 0x34 ∨ op = 0x35 then 4
  else if op = 0x2e ∨ op = 0x2f ∨ op = 0x32 ∨ op = 0x33 then 2
  else 1

def loadValue (op : Nat) (m : Bytes) : Val :=
  if op = 0x2c ∨ op = 0x30 then (BitVec.ofNat 8 (leNat m)).signExtend 64
  else if op = 0x2e ∨ op = 0x32 then (BitVec.ofNat 16 (leNat m)).signExtend 64
  else if op = 0x34 then (BitVec.ofNat 32 (leNat m)).signExtend 64
  else BitVec.ofNat 64 (leNat m)

def storeWidth (op : Nat) : Nat :=
  if op = 0x37 ∨ op = 0x39 then 8
  else if op = 0x38 ∨ op = 0x3e then 4
  else if op = 0x3b ∨ op = 0x3d then 2
  else 1

def loadChecked (mem : Bytes) (addr n : Nat) : Except Fault Bytes :=
  if addr + n > mem.length then trap "load oob" else readAt mem addr n

def storeChecked (mem : Bytes) (addr : Nat) (bytes : Bytes) : Except Fault Bytes :=
  if addr + bytes.length > mem.length then trap "store oob" else writeAt mem addr bytes

def fillChecked (mem : Bytes) (d n : Nat) (val : UInt8) : Except Fault Bytes :=
  if d + n > mem.length then trap "memory.fill oob" else writeAt mem d (List.replicate n val)

def copyChecked (mem : Bytes) (d src n : Nat) : Except Fault Bytes :=
  if d + n > mem.length ∨ src + n > mem.length then trap "memory.copy oob"
  else readAt mem src n >>= writeAt mem d

def memoryGrow (mem : Bytes) (delta : Nat) : Bytes × Val :=
  let old := mem.length / page
  if delta > maxMemPages ∨ old + delta > maxMemPages then (mem, -1)
  else
    let size := (old + delta) * page
    (mem.take size ++ List.replicate (size - mem.length) 0, BitVec.ofNat 64 old)

/-! ## Frames -/

structure CtrlEntry where
  target : UInt32
  height : Nat
  arity : Nat
  isLoop : Bool
  deriving DecidableEq

structure Frame where
  codeIdx : Nat
  ip : Nat
  locals : List Val
  ctrl : List CtrlEntry
  spBase : Nat
  deriving DecidableEq

structure Cpu where
  frame : Frame
  stack : List Val
  mem : Bytes
  globals : List Val

def truncate (stack : List Val) (height : Nat) : List Val := stack.drop (stack.length - height)

def doBranch (f : Frame) (stack : List Val) (depth : Nat) : Frame × List Val :=
  match f.ctrl[depth]? with
  | none => ({ f with ip := 0xFFFFFFFF }, stack)
  | some e =>
    let stack := stack.take e.arity ++ truncate (stack.drop e.arity) e.height
    let ctrl := if e.isLoop then f.ctrl.drop depth else f.ctrl.drop (depth + 1)
    ({ f with ctrl, ip := e.target.toNat }, stack)

def pop : List Val → Except Fault (Val × List Val)
  | [] => trap "stack"
  | v :: stack => .ok (v, stack)

namespace Cpu

def branch (c : Cpu) (depth : Nat) : Cpu :=
  let (frame, stack) := doBranch c.frame c.stack depth
  { c with frame, stack }

def enter (c : Cpu) (entry : CtrlEntry) : Cpu :=
  { c with frame := { c.frame with ctrl := entry :: c.frame.ctrl } }

def setLocal (c : Cpu) (i : Nat) (v : Val) : Except Fault Cpu :=
  if i < c.frame.locals.length then
    .ok { c with frame := { c.frame with locals := c.frame.locals.set i v } }
  else trap "local index"

def push (c : Cpu) (stack : List Val) (v : Val) : Cpu := { c with stack := v :: stack }

/-- One operation that is not a call; the position is already the one after it. -/
def exec (fl : FloatOps) (codeLen : Nat) (c : Cpu) : Op → Except Fault Cpu
  | .unreachable => trap "unreachable"
  | .nop => .ok c
  | .block endAt arity => .ok (c.enter ⟨endAt + 1, c.stack.length, arity, false⟩)
  | .loop arity => .ok (c.enter ⟨UInt32.ofNat c.frame.ip, c.stack.length, arity, true⟩)
  | .if elseAt endAt arity => do
      let (cond, stack) ← pop c.stack
      let c := { c with stack }.enter ⟨endAt + 1, stack.length, arity, false⟩
      if cond = 0 then
        let ip := if elseAt = endAt then endAt.toNat else (elseAt + 1).toNat
        return { c with frame := { c.frame with ip } }
      else return c
  | .else endAt =>
    .ok { c with frame := { c.frame with ctrl := c.frame.ctrl.tail, ip := (endAt + 1).toNat } }
  | .end => .ok { c with frame := { c.frame with ctrl := c.frame.ctrl.tail } }
  | .br depth => .ok (c.branch depth.toNat)
  | .brIf depth => do
      let (cond, stack) ← pop c.stack
      let c := { c with stack }
      return if cond ≠ 0 then c.branch depth.toNat else c
  | .return => .ok { c with frame := { c.frame with ip := codeLen } }
  | .call _ => .ok c
  | .drop => .ok { c with stack := c.stack.tail }
  | .select => do
      let (cond, stack) ← pop c.stack
      let (b, stack) ← pop stack
      let (a, stack) ← pop stack
      return c.push stack (if cond ≠ 0 then a else b)
  | .localGet i =>
    match c.frame.locals[i.toNat]? with
    | none => trap "local index"
    | some v => .ok (c.push c.stack v)
  | .localSet i => do
      let (v, stack) ← pop c.stack
      { c with stack }.setLocal i.toNat v
  | .localTee i => do
      let (v, _) ← pop c.stack
      c.setLocal i.toNat v
  | .globalGet i => .ok (c.push c.stack (c.globals[i.toNat]?.getD 0))
  | .globalSet i => do
      let (v, stack) ← pop c.stack
      return { c with stack, globals := c.globals.set i.toNat v }
  | .i32Const v => .ok (c.push c.stack (ofI32 v))
  | .i64Const v => .ok (c.push c.stack v)
  | .f32Const bits => .ok (c.push c.stack (ofBits32 bits))
  | .f64Const bits => .ok (c.push c.stack bits)
  | .i32Load off => do
      let (base, stack) ← pop c.stack
      let m ← loadChecked c.mem (addrOf base + off.toNat) 4
      return c.push stack (ofI32 (BitVec.ofNat 32 (leNat m)))
  | .i32Store off => do
      let (v, stack) ← pop c.stack
      let (base, stack) ← pop stack
      let mem ← storeChecked c.mem (addrOf base + off.toNat) (le 4 (i32v v).toNat)
      return { c with stack, mem }
  | .load op off => do
      let (base, stack) ← pop c.stack
      let m ← loadChecked c.mem (addrOf base + off.toNat) (loadWidth op)
      return c.push stack (loadValue op m)
  | .store op off => do
      let (v, stack) ← pop c.stack
      let (base, stack) ← pop stack
      let mem ← storeChecked c.mem (addrOf base + off.toNat) (le (storeWidth op) v.toNat)
      return { c with stack, mem }
  | .brTable labels default => do
      let (i, stack) ← pop c.stack
      return { c with stack }.branch (labels[addrOf i]?.getD default).toNat
  | .memoryFill => do
      let (n, stack) ← pop c.stack
      let (val, stack) ← pop stack
      let (d, stack) ← pop stack
      let mem ← fillChecked c.mem (addrOf d) (addrOf n) (UInt8.ofNat val.toNat)
      return { c with stack, mem }
  | .memoryCopy => do
      let (n, stack) ← pop c.stack
      let (src, stack) ← pop stack
      let (d, stack) ← pop stack
      let mem ← copyChecked c.mem (addrOf d) (addrOf src) (addrOf n)
      return { c with stack, mem }
  | .memorySize => .ok (c.push c.stack (BitVec.ofNat 64 (c.mem.length / page)))
  | .memoryGrow => do
      let (delta, stack) ← pop c.stack
      let (mem, v) := Wasm.memoryGrow c.mem (addrOf delta)
      return { c with stack := v :: stack, mem }
  | .num op =>
    match execNum fl op c.stack with
    | .error e => .error (.error e)
    | .ok stack => .ok { c with stack }

end Cpu

/-! ## Runs -/

/-- The functions of the host; they see the memory but cannot change its length. -/
structure Host (σ : Type) where
  call : σ → Str → Str → List Val → Bytes → (σ × Bytes) × Except WasmError (List Val)
  length_mem : ∀ s module name args mem, (call s module name args mem).1.2.length = mem.length

structure State (σ : Type) where
  stack : List Val
  frames : List Frame
  mem : Bytes
  globals : List Val
  host : σ

inductive Turn (σ : Type)
  | running (s : State σ)
  | stopped (s : State σ) (r : Except WasmError (List Val))
  | panicked

namespace Module

/-- A frame at the start of a function; too many arguments for its locals abort. -/
def makeFrame (m : Module) (codeIdx : Nat) (args : List Val) (spBase : Nat) : Except Fault Frame :=
  match m.funcs[codeIdx]? with
  | none => trap "func index"
  | some func =>
    let n := (func.nParams + func.nLocals).toNat
    let args := args.take func.nParams.toNat
    if args.length > n then .error .panic
    else
      .ok { codeIdx, ip := 0, locals := args ++ List.replicate (n - args.length) 0, ctrl := [],
            spBase }

def fnArity (m : Module) (gidx : Nat) : Nat :=
  if gidx < m.imports.length then (m.imports[gidx]?.map (·.nParams.toNat)).getD 0
  else (m.funcs[gidx - m.imports.length]?.map (·.nParams.toNat)).getD 0

variable {σ : Type}

/-- A call in the frame `f`; the position of `f` is already the one after the call. -/
def call (m : Module) (host : Host σ) (s : State σ) (f : Frame) (frames : List Frame) (g : Nat) :
    Turn σ :=
  let np := m.fnArity g
  if s.stack.length < np then .stopped s (.error (.trap "call: too few args"))
  else
    let args := (s.stack.take np).reverse
    let stack := s.stack.drop np
    match m.imports[g]? with
    | some imp =>
      let ((host, mem), r) := host.call s.host imp.module imp.name args s.mem
      match r with
      | .error e => .stopped { s with host, mem } (.error e)
      | .ok res =>
        .running { s with stack := res.reverse ++ stack, frames := f :: frames, host, mem }
    | none =>
      match m.makeFrame (g - m.imports.length) args stack.length with
      | .error .panic => .panicked
      | .error (.error e) => .stopped s (.error e)
      | .ok nf => .running { s with stack, frames := nf :: f :: frames }

def finish (s : State σ) (f : Frame) (frames : List Frame) (nResults : Nat) : Turn σ :=
  let results := s.stack.take nResults
  let stack := results ++ truncate (s.stack.drop nResults) f.spBase
  match frames with
  | [] => .stopped { s with stack, frames } (.ok results.reverse)
  | _ => .running { s with stack, frames }

def step (m : Module) (fl : FloatOps) (host : Host σ) (s : State σ) : Turn σ :=
  match s.frames with
  | [] => .panicked
  | f :: frames =>
    match m.funcs[f.codeIdx]? with
    | none => .panicked
    | some func =>
      match func.code[f.ip]? with
      | none => finish s f frames func.nResults.toNat
      | some (.call g) => m.call host s { f with ip := f.ip + 1 } frames g.toNat
      | some op =>
        match Cpu.exec fl func.code.length
            ⟨{ f with ip := f.ip + 1 }, s.stack, s.mem, s.globals⟩ op with
        | .error .panic => .panicked
        | .error (.error e) => .stopped s (.error e)
        | .ok c =>
          .running { s with stack := c.stack, frames := c.frame :: frames, mem := c.mem,
                            globals := c.globals }

def runFrom (m : Module) (fl : FloatOps) (host : Host σ) : Nat → State σ → Turn σ
  | 0, s => .stopped s (.error (.trap "step limit (fuel exhausted)"))
  | fuel + 1, s =>
    match m.step fl host s with
    | .running s => m.runFrom fl host fuel s
    | turn => turn

end Module

/-! ## Instances -/

structure Instance (σ : Type) where
  mem : Bytes
  globals : List Val
  fuel : Nat
  host : σ

namespace Instance

variable {σ : Type}

def placeData (mem : Bytes) (segment : UInt32 × Bytes) : Bytes :=
  match writeAt mem segment.1.toNat segment.2 with
  | .ok mem => mem
  | .error _ => mem

def new (m : Module) (host : σ) : Instance σ where
  mem := m.data.foldl placeData (List.replicate (m.memMinPages.toNat * page) 0)
  globals := m.globals
  fuel := 50000000
  host := host

def writeMem (inst : Instance σ) (off : Nat) (data : Bytes) : Except Fault (Instance σ) :=
  if off + data.length > inst.mem.length then trap "mem-write out of bounds"
  else (writeAt inst.mem off data).map fun mem => { inst with mem }

def setFuel (inst : Instance σ) (steps : Nat) : Instance σ := { inst with fuel := max steps 1 }

/-- The state a call of an exported function starts in; an import is called directly. -/
def start (m : Module) (inst : Instance σ) (codeIdx : Nat) (args : List Val) :
    Except Fault (State σ) :=
  match m.makeFrame codeIdx args 0 with
  | .error e => .error e
  | .ok f => .ok ⟨[], [f], inst.mem, inst.globals, inst.host⟩

def invoke (m : Module) (fl : FloatOps) (host : Host σ) (inst : Instance σ) (name : Str)
    (args : List Val) : Option (Instance σ × Except WasmError (List Val)) :=
  match m.exports.find? (·.1 == name) with
  | none => some (inst, .error .noSuchExport)
  | some (_, gidx) =>
    match m.imports[gidx.toNat]? with
    | some imp =>
      let ((state, mem), r) := host.call inst.host imp.module imp.name args inst.mem
      some ({ inst with host := state, mem }, r)
    | none =>
      match start m inst (gidx.toNat - m.imports.length) args with
      | .error .panic => none
      | .error (.error e) => some (inst, .error e)
      | .ok s =>
        match m.runFrom fl host inst.fuel s with
        | .stopped s r =>
          some ({ inst with mem := s.mem, globals := s.globals, host := s.host }, r)
        | _ => none

end Instance

/-! ## The budget of steps -/

theorem Module.runFrom_of_le {m : Module} {fl : FloatOps} (hle : fuel ≤ fuel')
    (h : ∀ s', m.runFrom fl host fuel s ≠
      .stopped s' (.error (.trap "step limit (fuel exhausted)"))) :
    m.runFrom fl host fuel' s = m.runFrom fl host fuel s := by
  induction fuel generalizing fuel' s with
  | zero => exact absurd rfl (h s)
  | succ fuel ih =>
    obtain ⟨n, rfl⟩ := Nat.exists_eq_add_one.mpr (Nat.zero_lt_of_lt hle)
    simp only [runFrom] at h ⊢
    cases hstep : m.step fl host s with
    | running s₁ => exact ih (Nat.le_of_succ_le_succ hle) (by simpa only [hstep] using h)
    | stopped s₁ r => rfl
    | panicked => rfl

end EuroOS.Wasm
