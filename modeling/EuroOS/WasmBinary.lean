import EuroOS.ByteCodec

/-!
# Reading WebAssembly modules

The reader of the binary format: numbers in LEB128, sections, and function bodies
whose blocks are resolved to positions in the list of operations while they are
read.
-/

namespace EuroOS.Wasm

inductive WasmError
  | badMagic
  | truncated
  | unsupported (what : String)
  | noSuchExport
  | trap (why : String)
  | capabilityDenied (cap : Str)
  | hostError (why : Str)
  deriving DecidableEq

/-- An error that is returned, or a slice out of range, which aborts. -/
inductive Fault
  | error (e : WasmError)
  | panic
  deriving DecidableEq

abbrev Val := BitVec 64

/-! ## Bytes and numbers -/

structure Reader where
  d : Bytes
  p : Nat

abbrev Parse := StateT Reader (Except Fault)

namespace Parse

def fail {α : Type} (e : WasmError) : Parse α := fun _ => .error (.error e)

def eof : Parse Bool := fun r => .ok (r.p ≥ r.d.length, r)

def byte : Parse UInt8 := fun r =>
  match r.d[r.p]? with
  | none => .error (.error .truncated)
  | some b => .ok (b, { r with p := r.p + 1 })

def bytes (n : Nat) : Parse Bytes := fun r =>
  if (r.p + n) % 2 ^ 64 > r.d.length then .error (.error .truncated)
  else if r.p + n ≥ 2 ^ 64 then .error .panic
  else .ok (slice r.d r.p n, { r with p := r.p + n })

/-- The bytes of an unsigned number from bit `sh` on; at most `n` more of them. -/
def ulebFrom (r : Nat) (sh : Nat) : Nat → Parse Nat
  | 0 => fail .truncated
  | n + 1 => do
      let b ← byte
      let r := r ||| ((b.toNat % 128) <<< sh) % 2 ^ 64
      if b.toNat < 128 then return r
      else ulebFrom r (sh + 7) n

def uleb : Parse Nat := ulebFrom 0 0 10

def slebFrom (r : BitVec 64) (sh : Nat) : Nat → Parse (BitVec 64)
  | 0 => fail .truncated
  | n + 1 => do
      let b ← byte
      let r := r ||| (BitVec.ofNat 64 (b.toNat % 128)) <<< sh
      let sh := sh + 7
      if b.toNat < 128 then
        return if sh < 64 ∧ b.toNat % 128 ≥ 64 then r ||| (BitVec.allOnes 64) <<< sh else r
      else slebFrom r sh n

def sleb : Parse (BitVec 64) := slebFrom 0 0 10

def uleb32 : Parse UInt32 := UInt32.ofNat <$> uleb

def name : Parse Str := do
  let n ← uleb
  return fromUtf8Lossy (← bytes n)

def times {α : Type} (act : Parse α) : Nat → Parse (List α)
  | 0 => pure []
  | n + 1 => do
      let a ← act
      let as ← times act n
      return a :: as

def within {α : Type} (body : Bytes) (act : Parse α) : Parse α := fun r =>
  match act ⟨body, 0⟩ with
  | .error e => .error e
  | .ok (a, _) => .ok (a, r)

end Parse

/-! ## Operations -/

inductive Op
  | unreachable
  | nop
  | block (endAt : UInt32) (arity : Nat)
  | loop (arity : Nat)
  | «if» (elseAt endAt : UInt32) (arity : Nat)
  | «else» (endAt : UInt32)
  | «end»
  | br (depth : UInt32)
  | brIf (depth : UInt32)
  | «return»
  | call (func : UInt32)
  | drop
  | select
  | localGet (i : UInt32)
  | localSet (i : UInt32)
  | localTee (i : UInt32)
  | globalGet (i : UInt32)
  | globalSet (i : UInt32)
  | i32Const (v : BitVec 32)
  | i64Const (v : BitVec 64)
  | f32Const (bits : BitVec 32)
  | f64Const (bits : BitVec 64)
  | i32Load (off : UInt32)
  | i32Store (off : UInt32)
  | load (op : Nat) (off : UInt32)
  | store (op : Nat) (off : UInt32)
  | brTable (labels : List UInt32) (default : UInt32)
  | memoryGrow
  | memorySize
  | memoryFill
  | memoryCopy
  | num (op : Nat)
  deriving DecidableEq

def blocktypeArity (b : UInt8) : Nat := if b = 0x40 then 0 else 1

/-- The operations read so far, and the positions of the open blocks, innermost first. -/
structure Decoded where
  ops : List Op
  ctrl : List Nat

namespace Decoded

def push (s : Decoded) (op : Op) : Decoded := { s with ops := s.ops ++ [op] }

def openBlock (s : Decoded) (op : Op) : Decoded where
  ops := s.ops ++ [op]
  ctrl := s.ops.length :: s.ctrl

def here (s : Decoded) : UInt32 := UInt32.ofNat s.ops.length

def linkElse (s : Decoded) (i : Nat) : Decoded :=
  match s.ops[i]? with
  | some (.if _ endAt arity) => { s with ops := s.ops.set i (.if s.here endAt arity) }
  | _ => s

def closeBlock (s : Decoded) (i : Nat) : Decoded :=
  match s.ops[i]? with
  | some (.block _ arity) => { s with ops := s.ops.set i (.block s.here arity) }
  | some (.if elseAt _ arity) =>
    let elseAt := if elseAt = 0 then s.here else elseAt
    let ops := s.ops.set i (.if elseAt s.here arity)
    match ops[elseAt.toNat]? with
    | some (.else _) => { s with ops := ops.set elseAt.toNat (.else s.here) }
    | _ => { s with ops }
  | _ => s

end Decoded

open Parse in
def decodeOp (s : Decoded) (op : UInt8) : Parse Decoded :=
  match op.toNat with
  | 0x00 => return s.push .unreachable
  | 0x01 => return s.push .nop
  | 0x02 => return s.openBlock (.block 0 (blocktypeArity (← byte)))
  | 0x03 => return s.openBlock (.loop (blocktypeArity (← byte)))
  | 0x04 => return s.openBlock (.if 0 0 (blocktypeArity (← byte)))
  | 0x05 =>
    match s.ctrl with
    | [] => fail .truncated
    | i :: _ => return (s.linkElse i).push (.else 0)
  | 0x0b =>
    match s.ctrl with
    | [] => return s.push .end
    | i :: ctrl => return ({ s.closeBlock i with ctrl }).push .end
  | 0x0c => return s.push (.br (← uleb32))
  | 0x0d => return s.push (.brIf (← uleb32))
  | 0x0e => do
      let n ← uleb
      if n > 65536 then fail (.unsupported "br_table too large")
      else
        let labels ← times uleb32 n
        return s.push (.brTable labels (← uleb32))
  | 0x0f => return s.push .return
  | 0x10 => return s.push (.call (← uleb32))
  | 0x1a => return s.push .drop
  | 0x1b => return s.push .select
  | 0x20 => return s.push (.localGet (← uleb32))
  | 0x21 => return s.push (.localSet (← uleb32))
  | 0x22 => return s.push (.localTee (← uleb32))
  | 0x23 => return s.push (.globalGet (← uleb32))
  | 0x24 => return s.push (.globalSet (← uleb32))
  | 0x28 => do
      let _ ← uleb
      return s.push (.i32Load (← uleb32))
  | 0x36 => do
      let _ ← uleb
      return s.push (.i32Store (← uleb32))
  | 0xfc => do
      let sub ← uleb
      if sub = 10 then
        let _ ← byte
        let _ ← byte
        return s.push .memoryCopy
      else if sub = 11 then
        let _ ← byte
        return s.push .memoryFill
      else fail (.unsupported "bulk-memory op")
  | 0x3f => do
      let _ ← byte
      return s.push .memorySize
  | 0x40 => do
      let _ ← byte
      return s.push .memoryGrow
  | 0x41 => return s.push (.i32Const ((← sleb).setWidth 32))
  | 0x42 => return s.push (.i64Const (← sleb))
  | 0x43 => return s.push (.f32Const (BitVec.ofNat 32 (leNat (← bytes 4))))
  | 0x44 => return s.push (.f64Const (BitVec.ofNat 64 (leNat (← bytes 8))))
  | op =>
    if 0x29 ≤ op ∧ op ≤ 0x35 then do
      let _ ← uleb
      return s.push (.load op (← uleb32))
    else if 0x37 ≤ op ∧ op ≤ 0x3e then do
      let _ ← uleb
      return s.push (.store op (← uleb32))
    else if 0x45 ≤ op ∧ op ≤ 0xc4 then return s.push (.num op)
    else fail (.unsupported "opcode")

open Parse in
def decodeFrom (s : Decoded) : Nat → Parse Decoded
  | 0 => pure s
  | n + 1 => do
      if ← eof then return s
      else
        let op ← byte
        decodeFrom (← decodeOp s op) n

/-- Every operation takes a byte, so there are no more operations than bytes. -/
def decodeBody : Parse (List Op) := fun r =>
  (do return (← decodeFrom ⟨[], []⟩ r.d.length).ops : Parse (List Op)) r

/-! ## Modules -/

structure Func where
  typeIdx : UInt32
  nParams : UInt32
  nResults : UInt32
  nLocals : UInt32
  code : List Op

structure ImportFn where
  module : Str
  name : Str
  typeIdx : UInt32
  nParams : UInt32
  nResults : UInt32

structure Module where
  types : List (Bytes × Bytes)
  imports : List ImportFn
  funcs : List Func
  exports : List (Str × UInt32)
  memMinPages : UInt32
  globals : List Val
  data : List (UInt32 × Bytes)

namespace Module

open Parse

def empty : Module := ⟨[], [], [], [], 0, [], []⟩

def typeAt (m : Module) (i : UInt32) : Bytes × Bytes := m.types[i.toNat]?.getD ([], [])

def readLimits : Parse (UInt32 × UInt32) := do
  let flag ← byte
  let min ← uleb32
  let max ← if flag.toNat % 2 = 1 then uleb32 else pure 0
  return (min, max)

def readConstExpr : Parse Val := do
  let op ← byte
  if op ≠ 0x41 ∧ op ≠ 0x42 then fail (.unsupported "const-expr")
  else
    let v ← sleb
    let last ← byte
    if last ≠ 0x0b then fail (.unsupported "const-expr-end") else return v

def readType : Parse (Bytes × Bytes) := do
  let shape ← byte
  if shape ≠ 0x60 then fail (.unsupported "functype-shape")
  else
    let params ← bytes (← uleb)
    let results ← bytes (← uleb)
    return (params, results)

def readImport (m : Module) : Parse (Option ImportFn) := do
  let module ← name
  let name ← name
  let kind ← byte
  if kind = 0 then
    let ti ← uleb32
    let t := m.typeAt ti
    return some ⟨module, name, ti, UInt32.ofNat t.1.length, UInt32.ofNat t.2.length⟩
  else if kind = 1 then
    let _ ← byte
    let _ ← readLimits
    return none
  else if kind = 2 then
    let _ ← readLimits
    return none
  else if kind = 3 then
    let _ ← byte
    let _ ← byte
    return none
  else fail (.unsupported "import-kind")

def readGlobal : Parse Val := do
  let _ ← byte
  let _ ← byte
  readConstExpr

def readExport : Parse (Option (Str × UInt32)) := do
  let name ← name
  let kind ← byte
  let idx ← uleb32
  return if kind = 0 then some (name, idx) else none

def readLocals : Parse UInt32 := do
  let cnt ← uleb32
  let _ ← byte
  return cnt

def readFunc (m : Module) (funcTypeIdx : List UInt32) (fi : Nat) : Parse Func := do
  let size ← uleb
  let body ← bytes size
  within body do
    let counts ← times readLocals (← uleb)
    match funcTypeIdx[fi]? with
    | none => fail .truncated
    | some ti =>
      let t := m.typeAt ti
      let code ← decodeBody
      return ⟨ti, UInt32.ofNat t.1.length, UInt32.ofNat t.2.length, counts.foldr (· + ·) 0, code⟩

def readFuncs (m : Module) (funcTypeIdx : List UInt32) (fi : Nat) : Nat → Parse (List Func)
  | 0 => pure []
  | n + 1 => do
      let func ← readFunc m funcTypeIdx fi
      let funcs ← readFuncs m funcTypeIdx (fi + 1) n
      return func :: funcs

def readData : Parse (Option (UInt32 × Bytes)) := do
  let flags ← uleb
  if flags = 0 then
    let off ← readConstExpr
    let len ← uleb
    return some (UInt32.ofNat off.toNat, ← bytes len)
  else if flags = 1 then
    let len ← uleb
    let _ ← bytes len
    return none
  else fail (.unsupported "data-segment-shape")

/-- One section; the types of the functions come before their bodies. -/
def readSection (m : Module) (funcTypeIdx : List UInt32) (sectionId : UInt8) :
    Parse (Module × List UInt32) := do
  match sectionId.toNat with
  | 1 =>
    let types ← times readType (← uleb)
    return ({ m with types := m.types ++ types }, funcTypeIdx)
  | 2 =>
    let imports ← times (readImport m) (← uleb)
    return ({ m with imports := m.imports ++ imports.filterMap id }, funcTypeIdx)
  | 3 =>
    let idx ← times uleb32 (← uleb)
    return (m, funcTypeIdx ++ idx)
  | 5 =>
    let limits ← times readLimits (← uleb)
    return ({ m with memMinPages := (limits.getLast?.map Prod.fst).getD m.memMinPages }, funcTypeIdx)
  | 6 =>
    let globals ← times readGlobal (← uleb)
    return ({ m with globals := m.globals ++ globals }, funcTypeIdx)
  | 7 =>
    let exports ← times readExport (← uleb)
    return ({ m with exports := m.exports ++ exports.filterMap id }, funcTypeIdx)
  | 10 =>
    let funcs ← readFuncs m funcTypeIdx 0 (← uleb)
    return ({ m with funcs := m.funcs ++ funcs }, funcTypeIdx)
  | 11 =>
    let data ← times readData (← uleb)
    return ({ m with data := m.data ++ data.filterMap id }, funcTypeIdx)
  | _ => return (m, funcTypeIdx)

def readSections (m : Module) (funcTypeIdx : List UInt32) : Nat → Parse Module
  | 0 => pure m
  | n + 1 => do
      if ← eof then return m
      else
        let id ← byte
        let body ← bytes (← uleb)
        let (m, funcTypeIdx) ← within body (readSection m funcTypeIdx id)
        readSections m funcTypeIdx n

def parse (binary : Bytes) : Except Fault Module :=
  let read : Parse Module := do
    let magic ← bytes 4
    if magic ≠ [0, 0x61, 0x73, 0x6d] then fail .badMagic
    else
      let version ← bytes 4
      if version ≠ [1, 0, 0, 0] then fail (.unsupported "wasm-version")
      else readSections .empty [] binary.length
  (read ⟨binary, 0⟩).map Prod.fst

end Module

end EuroOS.Wasm
