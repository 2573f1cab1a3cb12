import Mathlib.Tactic

/-!
# Seccomp filters

Classic BPF as `SECCOMP_SET_MODE_FILTER` uses it: the loader's static check of a
program, the interpreter, and what the one promises about the other.

The interpreter answers every abnormal end with `RET_KILL_PROCESS`; `Ending` tells
these ends apart, and `run` is the value the caller sees.
-/

namespace EuroOS

namespace Bpf

structure Insn where
  code : UInt16
  jt : UInt8
  jf : UInt8
  k : UInt32
  deriving DecidableEq

namespace Insn

def cls (ins : Insn) : UInt16 := ins.code &&& 0x07

def mode (ins : Insn) : UInt16 := ins.code &&& 0xe0

def size (ins : Insn) : UInt16 := ins.code &&& 0x18

def op (ins : Insn) : UInt16 := ins.code &&& 0xf0

def usesX (ins : Insn) : Bool := ins.code &&& 0x08 ≠ 0

end Insn

structure SeccompData where
  nr : Int32
  arch : UInt32
  instructionPointer : UInt64
  args : Vector UInt64 6
  deriving DecidableEq

def SeccompData.word (d : SeccompData) (off : UInt32) : Option UInt32 :=
  let w (v : UInt64) (high : Bool) : UInt32 := if high then (v >>> 32).toUInt32 else v.toUInt32
  if off % 4 ≠ 0 ∨ 64 ≤ off then none
  else if off = 0 then some d.nr.toUInt32
  else if off = 4 then some d.arch
  else if off = 8 then some (w d.instructionPointer false)
  else if off = 12 then some (w d.instructionPointer true)
  else (d.args[((off - 16) / 8).toNat]?).map fun v => w v ((off - 16) % 8 = 4)

def retKillProcess : UInt32 := 0x80000000

def maxInsns : Nat := 4096

inductive LoadError
  | empty
  | tooLong
  | badInstruction (i : Nat)
  | jumpOutOfRange (i : Nat)
  | loadOutOfRange (i : Nat)
  | noReturnAtEnd
  deriving DecidableEq

/-! ## Instruction classes and modes -/

abbrev bpfLd : UInt16 := 0x00
abbrev bpfLdx : UInt16 := 0x01
abbrev bpfSt : UInt16 := 0x02
abbrev bpfStx : UInt16 := 0x03
abbrev bpfAlu : UInt16 := 0x04
abbrev bpfJmp : UInt16 := 0x05
abbrev bpfRet : UInt16 := 0x06
abbrev bpfMisc : UInt16 := 0x07

abbrev bpfW : UInt16 := 0x00
abbrev bpfImm : UInt16 := 0x00
abbrev bpfAbs : UInt16 := 0x20
abbrev bpfMem : UInt16 := 0x60
abbrev bpfLen : UInt16 := 0x80

abbrev bpfK : UInt16 := 0x00
abbrev bpfA : UInt16 := 0x10

abbrev bpfAdd : UInt16 := 0x00
abbrev bpfSub : UInt16 := 0x10
abbrev bpfMul : UInt16 := 0x20
abbrev bpfDiv : UInt16 := 0x30
abbrev bpfOr : UInt16 := 0x40
abbrev bpfAnd : UInt16 := 0x50
abbrev bpfLsh : UInt16 := 0x60
abbrev bpfRsh : UInt16 := 0x70
abbrev bpfNeg : UInt16 := 0x80
abbrev bpfMod : UInt16 := 0x90
abbrev bpfXor : UInt16 := 0xa0

abbrev bpfJa : UInt16 := 0x00
abbrev bpfJeq : UInt16 := 0x10
abbrev bpfJgt : UInt16 := 0x20
abbrev bpfJge : UInt16 := 0x30
abbrev bpfJset : UInt16 := 0x40

abbrev bpfTax : UInt16 := 0x00
abbrev bpfTxa : UInt16 := 0x80

/-! ## The loader -/

def checkLoad (i : Nat) (ins : Insn) : Except LoadError Unit :=
  if ins.mode = bpfImm ∨ ins.mode = bpfLen then .ok ()
  else if ins.mode = bpfAbs then
    if ins.size ≠ bpfW ∨ ins.k % 4 ≠ 0 ∨ 64 ≤ ins.k then .error (.loadOutOfRange i) else .ok ()
  else if ins.mode = bpfMem then
    if 16 ≤ ins.k then .error (.loadOutOfRange i) else .ok ()
  else .error (.badInstruction i)

def aluOps : List UInt16 :=
  [bpfAdd, bpfSub, bpfMul, bpfDiv, bpfOr, bpfAnd, bpfLsh, bpfRsh, bpfNeg, bpfMod, bpfXor]

def checkAlu (i : Nat) (ins : Insn) : Except LoadError Unit :=
  if ins.op ∉ aluOps then .error (.badInstruction i)
  else if (ins.op = bpfDiv ∨ ins.op = bpfMod) ∧ ins.usesX = false ∧ ins.k = 0 then
    .error (.badInstruction i)
  else .ok ()

def checkJmp (n i : Nat) (ins : Insn) : Except LoadError Unit :=
  if ins.op = bpfJa then
    if n - i - 1 + 1 ≤ ins.k.toNat ∧ n ≤ i + 1 + ins.k.toNat then .error (.jumpOutOfRange i)
    else .ok ()
  else if ins.op = bpfJeq ∨ ins.op = bpfJgt ∨ ins.op = bpfJge ∨ ins.op = bpfJset then
    if n ≤ i + 1 + ins.jt.toNat ∨ n ≤ i + 1 + ins.jf.toNat then .error (.jumpOutOfRange i)
    else .ok ()
  else .error (.badInstruction i)

def checkInsn (n i : Nat) (ins : Insn) : Except LoadError Unit :=
  if ins.cls = bpfLd ∨ ins.cls = bpfLdx then checkLoad i ins
  else if ins.cls = bpfSt ∨ ins.cls = bpfStx then
    if 16 ≤ ins.k then .error (.loadOutOfRange i) else .ok ()
  else if ins.cls = bpfAlu then checkAlu i ins
  else if ins.cls = bpfJmp then checkJmp n i ins
  else if ins.cls = bpfRet then
    if ins.code &&& 0x18 ≠ bpfK ∧ ins.code &&& 0x18 ≠ bpfA then .error (.badInstruction i)
    else .ok ()
  else if ins.cls = bpfMisc then
    if ins.code &&& 0xf8 ≠ bpfTax ∧ ins.code &&& 0xf8 ≠ bpfTxa then .error (.badInstruction i)
    else .ok ()
  else .error (.badInstruction i)

def checkFrom (n : Nat) : Nat → List Insn → Except LoadError Unit
  | _, [] => .ok ()
  | i, ins :: rest =>
    match checkInsn n i ins with
    | .error e => .error e
    | .ok () => checkFrom n (i + 1) rest

def validate (insns : List Insn) : Except LoadError Unit :=
  if insns.length = 0 then .error .empty
  else if maxInsns < insns.length then .error .tooLong
  else
    match checkFrom insns.length 0 insns with
    | .error e => .error e
    | .ok () =>
      match insns.getLast? with
      | none => .error .empty
      | some last =>
        if last.cls ≠ bpfRet ∧ last.cls ≠ bpfJmp then .error .noReturnAtEnd
        else if last.cls = bpfJmp then .error .noReturnAtEnd
        else .ok ()

structure Filter where
  insns : List Insn
  valid : validate insns = .ok ()

def Filter.load (insns : List Insn) : Except LoadError Filter :=
  match h : validate insns with
  | .error e => .error e
  | .ok () => .ok ⟨insns, h⟩

/-! ## The interpreter -/

structure Machine where
  a : UInt32
  x : UInt32
  mem : Vector UInt32 16
  pc : Nat
  deriving DecidableEq

def Machine.initial : Machine where
  a := 0
  x := 0
  mem := Vector.replicate 16 0
  pc := 0

/-- How a run ends: a RET, a zero divisor (in X or in the constant), a word
outside the data, an instruction the interpreter has no arm for, or no instruction
at all. -/
inductive Ending
  | returned (v : UInt32)
  | zeroDivisor (inX : Bool)
  | outOfData
  | unimplemented
  | pastEnd
  deriving DecidableEq

def Ending.verdict : Ending → UInt32
  | .returned v => v
  | _ => retKillProcess

def cell (k : UInt32) : Fin 16 := Fin.ofNat 16 k.toNat

def loadA (data : SeccompData) (m : Machine) (ins : Insn) : Except Ending UInt32 :=
  if ins.mode = bpfImm then .ok ins.k
  else if ins.mode = bpfAbs then
    match data.word ins.k with
    | some w => .ok w
    | none => .error .outOfData
  else if ins.mode = bpfMem then .ok (m.mem.get (cell ins.k))
  else if ins.mode = bpfLen then .ok 64
  else .error .unimplemented

def loadX (m : Machine) (ins : Insn) : Except Ending UInt32 :=
  if ins.mode = bpfImm then .ok ins.k
  else if ins.mode = bpfMem then .ok (m.mem.get (cell ins.k))
  else if ins.mode = bpfLen then .ok 64
  else .error .unimplemented

def Machine.source (m : Machine) (ins : Insn) : UInt32 := if ins.usesX then m.x else ins.k

def alu (m : Machine) (ins : Insn) : Except Ending UInt32 :=
  let src := m.source ins
  if ins.op = bpfAdd then .ok (m.a + src)
  else if ins.op = bpfSub then .ok (m.a - src)
  else if ins.op = bpfMul then .ok (m.a * src)
  else if ins.op = bpfDiv then
    if src = 0 then .error (.zeroDivisor ins.usesX) else .ok (m.a / src)
  else if ins.op = bpfMod then
    if src = 0 then .error (.zeroDivisor ins.usesX) else .ok (m.a % src)
  else if ins.op = bpfOr then .ok (m.a ||| src)
  else if ins.op = bpfAnd then .ok (m.a &&& src)
  else if ins.op = bpfXor then .ok (m.a ^^^ src)
  else if ins.op = bpfLsh then .ok (if src < 32 then m.a <<< src else 0)
  else if ins.op = bpfRsh then .ok (if src < 32 then m.a >>> src else 0)
  else if ins.op = bpfNeg then .ok (-m.a)
  else .error .unimplemented

def jumpOffset (m : Machine) (ins : Insn) : Except Ending Nat :=
  let src := m.source ins
  let branch (taken : Bool) : Except Ending Nat :=
    .ok (if taken then ins.jt.toNat else ins.jf.toNat)
  if ins.op = bpfJa then .ok ins.k.toNat
  else if ins.op = bpfJeq then branch (m.a = src)
  else if ins.op = bpfJgt then branch (src < m.a)
  else if ins.op = bpfJge then branch (src ≤ m.a)
  else if ins.op = bpfJset then branch (m.a &&& src ≠ 0)
  else .error .unimplemented

def execute (data : SeccompData) (m : Machine) (ins : Insn) : Except Ending Machine :=
  if ins.cls = bpfLd then (loadA data m ins).map fun v => { m with a := v }
  else if ins.cls = bpfLdx then (loadX m ins).map fun v => { m with x := v }
  else if ins.cls = bpfSt then .ok { m with mem := m.mem.set (cell ins.k) m.a }
  else if ins.cls = bpfStx then .ok { m with mem := m.mem.set (cell ins.k) m.x }
  else if ins.cls = bpfAlu then (alu m ins).map fun v => { m with a := v }
  else if ins.cls = bpfJmp then (jumpOffset m ins).map fun d => { m with pc := m.pc + d }
  else if ins.cls = bpfRet then
    .error (.returned (if ins.code &&& 0x18 = bpfA then m.a else ins.k))
  else if ins.cls = bpfMisc then
    if ins.code &&& 0xf8 = bpfTax then .ok { m with x := m.a }
    else if ins.code &&& 0xf8 = bpfTxa then .ok { m with a := m.x }
    else .error .unimplemented
  else .error .unimplemented

def step (insns : List Insn) (data : SeccompData) (m : Machine) : Except Ending Machine :=
  match insns[m.pc]? with
  | none => .error .pastEnd
  | some ins => execute data { m with pc := m.pc + 1 } ins

def loop (insns : List Insn) (data : SeccompData) : Nat → Machine → Option Ending
  | 0, _ => none
  | fuel + 1, m =>
    match step insns data m with
    | .error e => some e
    | .ok m' => loop insns data fuel m'

/-- The loop moves the program counter forward in every turn, so one turn more than
there are instructions is enough (`exists_ending`). -/
def Filter.ending (f : Filter) (data : SeccompData) : Option Ending :=
  loop f.insns data (f.insns.length + 1) .initial

def Filter.run (f : Filter) (data : SeccompData) : UInt32 :=
  ((f.ending data).getD .pastEnd).verdict

/-! ## Every run ends -/

theorem execute_pc (h : execute data m ins = .ok m') : m.pc ≤ m'.pc := by
  have hmap {α : Type} {r : Except Ending α} {g : α → Machine} (hg : ∀ v, m.pc ≤ (g v).pc)
      (hr : r.map g = .ok m') : m.pc ≤ m'.pc := by
    cases r with
    | error e => simp [Except.map] at hr
    | ok v =>
      obtain rfl : g v = m' := by simpa [Except.map] using hr
      exact hg v
  unfold execute at h
  split_ifs at h
  all_goals first
    | exact hmap (fun v => by simp) h
    | (simp only [Except.ok.injEq] at h; subst h; exact le_rfl)

theorem step_cases (h : step insns data m = .ok m') : m.pc < insns.length ∧ m.pc < m'.pc := by
  unfold step at h
  split at h
  · simp at h
  rename_i ins hins
  have hpc := execute_pc h
  have hlt : m.pc < insns.length := (List.getElem?_eq_some_iff.mp hins).1
  exact ⟨hlt, hpc⟩

inductive EndsIn (insns : List Insn) (data : SeccompData) : Machine → Ending → Prop
  | now {m : Machine} {e : Ending} (h : step insns data m = .error e) : EndsIn insns data m e
  | later {m m' : Machine} {e : Ending} (h : step insns data m = .ok m')
      (rest : EndsIn insns data m' e) : EndsIn insns data m e

theorem EndsIn.unique (h : EndsIn insns data m e) (h' : EndsIn insns data m e') : e = e' := by
  induction h with
  | now hstep => cases h' with
    | now hstep' => simpa [hstep] using hstep'
    | later hstep' _ => simp [hstep] at hstep'
  | later hstep _ ih => cases h' with
    | now hstep' => simp [hstep] at hstep'
    | later hstep' rest =>
      rw [hstep, Except.ok.injEq] at hstep'
      exact ih (hstep' ▸ rest)

theorem exists_loop (data : SeccompData) (hfuel : insns.length ≤ fuel + m.pc) :
    ∃ e, loop insns data (fuel + 1) m = some e ∧ EndsIn insns data m e := by
  induction fuel generalizing m with
  | zero =>
    have hstep : step insns data m = .error .pastEnd := by
      simp [step, List.getElem?_eq_none (show insns.length ≤ m.pc by omega)]
    exact ⟨_, by simp [loop, hstep], .now hstep⟩
  | succ fuel ih =>
    cases hstep : step insns data m with
    | error e => exact ⟨e, by simp [loop, hstep], .now hstep⟩
    | ok m' =>
      have hpc := step_cases hstep
      obtain ⟨e, hloop, hends⟩ := ih (m := m') (by omega)
      exact ⟨e, by rw [loop, hstep]; exact hloop, .later hstep hends⟩

theorem Filter.exists_ending (f : Filter) (data : SeccompData) :
    ∃ e, f.ending data = some e ∧ EndsIn f.insns data .initial e :=
  exists_loop data (by simp)

/-! ## What the loader promises -/

inductive Reaches (insns : List Insn) (data : SeccompData) : Machine → Prop
  | initial : Reaches insns data .initial
  | step {m m' : Machine} (h : Reaches insns data m) (hstep : step insns data m = .ok m') :
      Reaches insns data m'

theorem Reaches.endsIn (h : Reaches insns data m) (hends : EndsIn insns data m e) :
    EndsIn insns data .initial e := by
  induction h with
  | initial => exact hends
  | step _ hstep ih => exact ih (.later hstep hends)

/-- The scratch cell or the data word that the instruction names exists. -/
structure Insn.InBounds (ins : Insn) : Prop where
  scratch : (ins.cls = bpfLd ∨ ins.cls = bpfLdx) ∧ ins.mode = bpfMem ∨
    ins.cls = bpfSt ∨ ins.cls = bpfStx → ins.k < 16
  word : (ins.cls = bpfLd ∨ ins.cls = bpfLdx) ∧ ins.mode = bpfAbs →
    ins.k % 4 = 0 ∧ ins.k < 64

def Ending.Own (e : Ending) : Prop := (∃ v, e = .returned v) ∨ e = .zeroDivisor true

structure OwnVerdict (f : Filter) (data : SeccompData) : Prop where
  ends : ∃ e, f.ending data = some e ∧ f.run data = e.verdict ∧ e.Own
  inBounds : ∀ m, Reaches f.insns data m → ∀ ins, f.insns[m.pc]? = some ins → ins.InBounds

/-- What the loader lets through and the interpreter cannot do: an LDX from the
data, and a JA that lands right behind the last of `n` instructions. -/
def Insn.Stray (n i : Nat) (ins : Insn) : Prop :=
  (ins.cls = bpfLdx ∧ ins.mode = bpfAbs) ∨
    (ins.cls = bpfJmp ∧ ins.op = bpfJa ∧ i + 1 + ins.k.toNat = n)

section Check

theorem SeccompData.word_isSome (data : SeccompData) (hmod : off % 4 = 0) (hlt : off < 64) :
    ∃ w, data.word off = some w := by
  have hle : ¬ 64 ≤ off := UInt32.not_le.mpr hlt
  unfold SeccompData.word
  simp only [hmod, ne_eq, not_true_eq_false, hle, or_self, ↓reduceIte]
  by_cases h0 : off = 0
  · simp [h0]
  by_cases h4 : off = 4
  · simp [h4]
  by_cases h8 : off = 8
  · simp [h8]
  by_cases h12 : off = 12
  · simp [h12]
  -- the offset is a multiple of 4 from 16 to 60
  have hindex : (off - 16).toNat / 8 < 6 := by
    have hmod' : off.toNat % 4 = 0 := by simpa using congrArg UInt32.toNat hmod
    have hlt' : off.toNat < 64 := by simpa [UInt32.lt_iff_toNat_lt] using hlt
    have hne (c : UInt32) (h : ¬ off = c) : off.toNat ≠ c.toNat := fun he =>
      h (UInt32.toNat_inj.mp he)
    have h0' := hne _ h0
    have h4' := hne _ h4
    have h8' := hne _ h8
    have h12' := hne _ h12
    simp only [UInt32.reduceToNat] at h0' h4' h8' h12'
    have h16 : 16 ≤ off := by
      simp only [UInt32.le_iff_toNat_le, UInt32.reduceToNat]
      omega
    simp only [UInt32.toNat_sub_of_le _ _ h16, UInt32.reduceToNat]
    omega
  simp [h0, h4, h8, h12, Vector.getElem?_eq_getElem hindex]

theorem loadA_of_check (h : checkLoad i ins = .ok ()) (data : SeccompData) (m : Machine) :
    ∃ v, loadA data m ins = .ok v := by
  unfold checkLoad at h
  unfold loadA
  by_cases himm : ins.mode = bpfImm
  · simp [himm]
  by_cases habs : ins.mode = bpfAbs
  · simp +decide [habs] at h
    obtain ⟨w, hw⟩ := data.word_isSome h.2.1 h.2.2
    simp +decide [habs, hw]
  by_cases hmem : ins.mode = bpfMem
  · simp +decide [hmem]
  by_cases hlen : ins.mode = bpfLen
  · simp +decide [hlen]
  simp [himm, habs, hmem, hlen] at h

theorem loadX_of_check (h : checkLoad i ins = .ok ()) (hmode : ins.mode ≠ bpfAbs) (m : Machine) :
    ∃ v, loadX m ins = .ok v := by
  unfold checkLoad at h
  unfold loadX
  by_cases himm : ins.mode = bpfImm
  · simp [himm]
  by_cases hmem : ins.mode = bpfMem
  · simp +decide [hmem]
  by_cases hlen : ins.mode = bpfLen
  · simp +decide [hlen]
  simp [himm, hmode, hmem, hlen] at h

theorem alu_of_check (h : checkAlu i ins = .ok ()) (m : Machine) :
    (∃ v, alu m ins = .ok v) ∨ alu m ins = .error (.zeroDivisor true) := by
  unfold checkAlu at h
  by_cases hdivisor : ins.op = bpfDiv ∨ ins.op = bpfMod
  · cases hx : ins.usesX with
    | true =>
      by_cases hzero : m.x = 0
      · right
        rcases hdivisor with hop | hop <;> simp +decide [alu, Machine.source, hop, hx, hzero]
      · left
        rcases hdivisor with hop | hop <;> simp +decide [alu, Machine.source, hop, hx, hzero]
    | false =>
      have hk : ins.k ≠ 0 := by
        rintro hk
        rcases hdivisor with hop | hop <;> simp +decide [hop, hx, hk] at h
      left
      rcases hdivisor with hop | hop <;> simp +decide [alu, Machine.source, hop, hx, hk]
  · left
    have hmem : ins.op ∈ aluOps := by
      by_contra hmem
      simp [hmem] at h
    simp only [aluOps, List.mem_cons, List.not_mem_nil, or_false] at hmem
    rcases hmem with hop | hop | hop | hop | hop | hop | hop | hop | hop | hop | hop
    all_goals simp +decide [hop] at hdivisor
    all_goals simp +decide [alu, hop]

theorem jumpOffset_of_check (h : checkJmp n i ins = .ok ()) (hi : i < n)
    (hstray : ¬ (ins.op = bpfJa ∧ i + 1 + ins.k.toNat = n)) (m : Machine) :
    ∃ d, jumpOffset m ins = .ok d ∧ i + 1 + d < n := by
  unfold checkJmp at h
  by_cases hja : ins.op = bpfJa
  · have hrange : i + 1 + ins.k.toNat < n := by
      have hne : i + 1 + ins.k.toNat ≠ n := fun he => hstray ⟨hja, he⟩
      simp [hja] at h
      omega
    exact ⟨ins.k.toNat, by simp [jumpOffset, hja], hrange⟩
  · have hops : ins.op = bpfJeq ∨ ins.op = bpfJgt ∨ ins.op = bpfJge ∨ ins.op = bpfJset := by
      by_contra hops
      simp [hja, hops] at h
    have hrange : i + 1 + ins.jt.toNat < n ∧ i + 1 + ins.jf.toNat < n := by
      simpa [hja, hops] using h
    have hbranch (taken : Bool) :
        i + 1 + (if taken then ins.jt.toNat else ins.jf.toNat) < n := by
      cases taken
      · exact hrange.2
      · exact hrange.1
    rcases hops with hop | hop | hop | hop
    all_goals exact ⟨_, by simp +decide only [jumpOffset, hop]; rfl, hbranch _⟩

theorem inBounds_of_check (h : checkInsn n i ins = .ok ()) : ins.InBounds := by
  constructor
  · rintro (⟨hcls, hmode⟩ | hcls)
    · simp +decide [checkInsn, checkLoad, hcls, hmode] at h
      exact h
    · rcases hcls with hcls | hcls
      all_goals simp +decide [checkInsn, hcls] at h
      all_goals exact h
  · rintro ⟨hcls, hmode⟩
    simp +decide [checkInsn, checkLoad, hcls, hmode] at h
    exact h.2

theorem execute_of_check (h : checkInsn n i ins = .ok ()) (hi : i < n)
    (hlast : i + 1 = n → ins.cls = bpfRet) (hstray : ¬ ins.Stray n i) (data : SeccompData)
    (hpc : m.pc = i + 1) :
    (∃ e, execute data m ins = .error e ∧ e.Own) ∨
      (∃ m', execute data m ins = .ok m' ∧ m'.pc < n) := by
  by_cases hret : ins.cls = bpfRet
  · left
    exact ⟨_, by simp +decide only [execute, hret]; rfl, .inl ⟨_, rfl⟩⟩
  have hnext : i + 1 < n := by
    have : i + 1 ≠ n := fun he => hret (hlast he)
    omega
  simp only [Insn.Stray, not_or] at hstray
  by_cases hld : ins.cls = bpfLd
  · simp +decide [checkInsn, hld] at h
    obtain ⟨v, hv⟩ := loadA_of_check h data m
    right
    exact ⟨{ m with a := v }, by simp [execute, hld, hv, Except.map], by simpa [hpc] using hnext⟩
  by_cases hldx : ins.cls = bpfLdx
  · simp +decide [checkInsn, hldx] at h
    obtain ⟨v, hv⟩ := loadX_of_check h (fun hmode => hstray.1 ⟨hldx, hmode⟩) m
    right
    exact ⟨{ m with x := v }, by simp +decide [execute, hldx, hv, Except.map],
      by simpa [hpc] using hnext⟩
  by_cases hst : ins.cls = bpfSt
  · right
    exact ⟨_, by simp +decide only [execute, hst]; rfl, by simpa [hpc] using hnext⟩
  by_cases hstx : ins.cls = bpfStx
  · right
    exact ⟨_, by simp +decide only [execute, hstx]; rfl, by simpa [hpc] using hnext⟩
  by_cases halu : ins.cls = bpfAlu
  · simp +decide [checkInsn, halu] at h
    obtain ⟨v, hv⟩ | hzero := alu_of_check h m
    · right
      exact ⟨{ m with a := v }, by simp +decide [execute, halu, hv, Except.map],
        by simpa [hpc] using hnext⟩
    · left
      exact ⟨.zeroDivisor true, by simp +decide [execute, halu, hzero, Except.map], .inr rfl⟩
  by_cases hjmp : ins.cls = bpfJmp
  · simp +decide [checkInsn, hjmp] at h
    obtain ⟨d, hd, hrange⟩ := jumpOffset_of_check h hi (fun hja => hstray.2 ⟨hjmp, hja⟩) m
    right
    exact ⟨{ m with pc := m.pc + d }, by simp +decide [execute, hjmp, hd, Except.map],
      by simpa [hpc] using hrange⟩
  by_cases hmisc : ins.cls = bpfMisc
  · right
    by_cases htax : ins.code &&& 0xf8 = bpfTax
    · exact ⟨{ m with x := m.a }, by simp +decide [execute, hmisc, htax],
        by simpa [hpc] using hnext⟩
    have htxa : ins.code &&& 0xf8 = bpfTxa := by
      by_contra htxa
      simp +decide [checkInsn, hmisc, htax, htxa] at h
    exact ⟨{ m with a := m.x }, by simp +decide [execute, hmisc, htxa], by simpa [hpc] using hnext⟩
  · simp [checkInsn, hld, hldx, hst, hstx, halu, hjmp, hret, hmisc] at h

/-- A stray instruction ends the run, now or in the next turn, and not on the
program's own account. -/
theorem endsIn_of_stray (data : SeccompData) (hins : insns[m.pc]? = some ins)
    (hstray : ins.Stray insns.length m.pc) : ∃ e, EndsIn insns data m e ∧ ¬ e.Own := by
  obtain ⟨hldx, habs⟩ | ⟨hjmp, hja, htarget⟩ := hstray
  · refine ⟨.unimplemented, .now ?_, by simp [Ending.Own]⟩
    simp +decide [step, hins, execute, hldx, loadX, habs, Except.map]
  have htaken : step insns data m = .ok { m with pc := m.pc + 1 + ins.k.toNat } := by
    simp +decide [step, hins, execute, hjmp, jumpOffset, hja, Except.map]
  refine ⟨.pastEnd, .later htaken (.now ?_), by simp [Ending.Own]⟩
  simp [step, htarget]

end Check

theorem checkFrom_getElem (h : checkFrom n start insns = .ok ()) (hins : insns[i]? = some ins) :
    checkInsn n (start + i) ins = .ok () := by
  induction insns generalizing start i with
  | nil => simp at hins
  | cons first rest ih =>
    rw [checkFrom] at h
    split at h
    · simp at h
    rename_i hfirst
    cases i with
    | zero =>
      obtain rfl : first = ins := by simpa using hins
      simpa using hfirst
    | succ i =>
      have := ih h (by simpa using hins)
      rwa [Nat.add_right_comm] at this

namespace Filter

variable (f : Filter)

theorem valid_cases : checkFrom f.insns.length 0 f.insns = .ok () ∧
    ∃ last, f.insns.getLast? = some last ∧ last.cls = bpfRet := by
  have h := f.valid
  unfold validate at h
  split_ifs at h
  split at h
  · simp at h
  rename_i hcheck
  refine ⟨hcheck, ?_⟩
  split at h
  · simp at h
  rename_i last hlast
  split_ifs at h with hcls hjmp
  exact ⟨last, hlast, by tauto⟩

theorem check_getElem (hins : f.insns[i]? = some ins) :
    checkInsn f.insns.length i ins = .ok () := by simpa using checkFrom_getElem f.valid_cases.1 hins

theorem ret_of_last (hins : f.insns[i]? = some ins) (hlast : i + 1 = f.insns.length) :
    ins.cls = bpfRet := by
  obtain ⟨last, hget, hcls⟩ := f.valid_cases.2
  rw [List.getLast?_eq_getElem?, ← hlast, Nat.add_sub_cancel, hins, Option.some.injEq] at hget
  rwa [hget]

theorem length_pos : 0 < f.insns.length := by
  obtain ⟨last, hget, -⟩ := f.valid_cases.2
  cases hinsns : f.insns with
  | nil => simp [hinsns] at hget
  | cons first rest => simp

theorem step_of_not_stray (data : SeccompData) (hpc : m.pc < f.insns.length)
    (hstray : ∀ ins, f.insns[m.pc]? = some ins → ¬ ins.Stray f.insns.length m.pc) :
    (∃ e, step f.insns data m = .error e ∧ e.Own) ∨
      (∃ m', step f.insns data m = .ok m' ∧ m'.pc < f.insns.length) := by
  have hins := List.getElem?_eq_getElem hpc
  have hstep : step f.insns data m = execute data { m with pc := m.pc + 1 } f.insns[m.pc] := by
    simp [step, hins]
  rw [hstep]
  exact execute_of_check (f.check_getElem hins) hpc (f.ret_of_last hins) (hstray _ hins) data rfl

theorem own_of_endsIn
    (hstray : ∀ m, Reaches f.insns data m → ∀ ins, f.insns[m.pc]? = some ins →
      ¬ ins.Stray f.insns.length m.pc)
    (hends : EndsIn f.insns data m e) (hm : Reaches f.insns data m) (hpc : m.pc < f.insns.length) :
    e.Own := by
  induction hends with
  | now h =>
    obtain ⟨e', he', hown⟩ | ⟨m', hm', -⟩ := f.step_of_not_stray data hpc (hstray _ hm)
    · rw [h, Except.error.injEq] at he'
      exact he' ▸ hown
    · simp [h] at hm'
  | later h _ ih =>
    obtain ⟨e', he', -⟩ | ⟨m', hm', hpc'⟩ := f.step_of_not_stray data hpc (hstray _ hm)
    · simp [h] at he'
    · rw [h, Except.ok.injEq] at hm'
      exact ih (.step hm h) (hm' ▸ hpc')

/-- A filter decides on its own on exactly those records on which it meets no stray
instruction; so a filter without stray instructions always does. -/
theorem ownVerdict_iff :
    (∀ data, OwnVerdict f data ↔ ∀ m, Reaches f.insns data m →
      ∀ ins, f.insns[m.pc]? = some ins → ¬ ins.Stray f.insns.length m.pc) ∧
    ((∀ (i : Nat) (ins : Insn), f.insns[i]? = some ins → ¬ ins.Stray f.insns.length i) →
      ∀ data, OwnVerdict f data) := by
  have hiff (data : SeccompData) : OwnVerdict f data ↔ ∀ m, Reaches f.insns data m →
      ∀ ins, f.insns[m.pc]? = some ins → ¬ ins.Stray f.insns.length m.pc := by
    obtain ⟨e, he, hends⟩ := f.exists_ending data
    constructor
    · rintro ⟨⟨e', he', -, hown⟩, -⟩ m hm ins hins hstray
      obtain ⟨e'', hends', hnot⟩ := endsIn_of_stray data hins hstray
      have hfirst : e'' = e := (hm.endsIn hends').unique hends
      have hsame : e' = e := Option.some.inj (he' ▸ he)
      exact hnot (hfirst ▸ hsame ▸ hown)
    · intro hstray
      exact ⟨⟨e, he, by simp [run, he], f.own_of_endsIn hstray hends .initial f.length_pos⟩,
        fun m hm ins hins => inBounds_of_check (f.check_getElem hins)⟩
  exact ⟨hiff, fun hstray data => (hiff data).mpr fun m _ ins hins => hstray _ ins hins⟩

end Filter

/-- Both stray instructions pass the loader and are met: a JA over the final RET
falls off the end, and an LDX from the data has no arm in the interpreter. -/
theorem stray_instructions_loaded :
    (∃ f, Filter.load [⟨0x05, 0, 0, 1⟩, ⟨0x06, 0, 0, 0x7fff0000⟩] = .ok f ∧
      ∀ data, f.ending data = some .pastEnd ∧ ¬ OwnVerdict f data) ∧
    (∃ f, Filter.load [⟨0x21, 0, 0, 0⟩, ⟨0x06, 0, 0, 0x7fff0000⟩] = .ok f ∧
      ∀ data, f.ending data = some .unimplemented ∧ ¬ OwnVerdict f data) := by
  have hnot {f : Filter} {data : SeccompData} {e : Ending} (he : f.ending data = some e)
      (hown : ¬ e.Own) : ¬ OwnVerdict f data := by
    rintro ⟨⟨e', he', -, hown'⟩, -⟩
    rw [he, Option.some.injEq] at he'
    exact hown (he' ▸ hown')
  constructor
  · refine ⟨⟨_, by decide⟩, rfl, fun data => ?_⟩
    have he : Filter.ending ⟨[⟨0x05, 0, 0, 1⟩, ⟨0x06, 0, 0, 0x7fff0000⟩], by decide⟩ data =
        some .pastEnd := rfl
    exact ⟨he, hnot he (by simp [Ending.Own])⟩
  · refine ⟨⟨_, by decide⟩, rfl, fun data => ?_⟩
    have he : Filter.ending ⟨[⟨0x21, 0, 0, 0⟩, ⟨0x06, 0, 0, 0x7fff0000⟩], by decide⟩ data =
        some .unimplemented := rfl
    exact ⟨he, hnot he (by simp [Ending.Own])⟩

end Bpf

end EuroOS
