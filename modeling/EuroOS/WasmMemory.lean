import EuroOS.WasmInterp

/-!
# The memory of an instance

Loads and stores are checked against the size of the memory, and growing is
checked against the limit of pages.  The initial size is not: an instance is
within the limit exactly if its module asks for no more than the limit.
-/

namespace EuroOS.Wasm

open List

variable {fl : FloatOps}

/-! ## Checked accesses -/

variable {mem bytes : Bytes} {addr : Nat} {k : Bytes → Cpu} {off : UInt32}

theorem length_writeAt (h : writeAt mem addr bytes = .ok mem') : mem'.length = mem.length := by
  unfold writeAt at h
  split_ifs at h with hfits
  cases h
  simp only [length_append, length_take, length_drop]
  omega

theorem getElem?_writeAt (h : writeAt mem addr bytes = .ok mem')
    (hi : i < addr ∨ addr + bytes.length ≤ i) : mem'[i]? = mem[i]? := by
  unfold writeAt at h
  split_ifs at h with hfits
  cases h
  have htake : (mem.take addr).length = addr := by
    rw [length_take]
    omega
  rcases hi with hi | hi
  · rw [append_assoc, getElem?_append_left (by omega), getElem?_take_of_lt hi]
  rw [getElem?_append_right (by simp; omega), getElem?_drop]
  congr 1
  simp only [length_append, htake]
  omega

theorem length_memoryGrow (mem : Bytes) (delta : Nat) :
    (memoryGrow mem delta).1 = mem ∨ (memoryGrow mem delta).1.length ≤ maxMemPages * page := by
  unfold memoryGrow
  dsimp only
  split_ifs with hlimit
  · exact .inl rfl
  right
  have hsize : (mem.length / page + delta) * page ≤ maxMemPages * page :=
    Nat.mul_le_mul_right _ (by omega)
  simp only [length_append, length_take, length_replicate]
  omega

def accesses : Op → List Val → List (Nat × Nat)
  | .i32Load off, base :: _ => [(addrOf base + off.toNat, 4)]
  | .i32Store off, _ :: base :: _ => [(addrOf base + off.toNat, 4)]
  | .load op off, base :: _ => [(addrOf base + off.toNat, loadWidth op)]
  | .store op off, _ :: base :: _ => [(addrOf base + off.toNat, storeWidth op)]
  | .memoryFill, n :: _ :: d :: _ => [(addrOf d, addrOf n)]
  | .memoryCopy, n :: src :: d :: _ => [(addrOf d, addrOf n), (addrOf src, addrOf n)]
  | _, _ => []

/-- An access traps, or its ranges are in the memory and it changes nothing outside of them. -/
structure Contained (mem : Bytes) (ranges : List (Nat × Nat)) (r : Except Fault Cpu) : Prop where
  unbroken : r ≠ .error .panic
  inside : ∀ range ∈ ranges, range.1 + range.2 ≤ mem.length ∨
    ∃ why, r = .error (.error (.trap why))
  unchanged : ∀ c, r = .ok c → c.mem.length = mem.length ∧
    ∀ i, (∀ range ∈ ranges, i < range.1 ∨ range.1 + range.2 ≤ i) → c.mem[i]? = mem[i]?

theorem contained_trap {ranges : List (Nat × Nat)} (why : String) :
    Contained mem ranges (trap why) where
  unbroken := by simp [trap]
  inside _ _ := .inr ⟨why, rfl⟩
  unchanged c hc := by cases hc

theorem contained_load (hk : ∀ m, (k m).mem = mem) :
    Contained mem [(addr, n)] (loadChecked mem addr n >>= fun m => .ok (k m)) := by
  unfold loadChecked
  split_ifs with hfits
  · exact contained_trap "load oob"
  have hin : addr + n ≤ mem.length := by omega
  rw [readAt, if_pos hin]
  refine ⟨by simp [bind, Except.bind], forall_mem_singleton.mpr (.inl hin), fun c hc => ?_⟩
  cases hc
  simp [hk]

variable (hk : ∀ mem, (k mem).mem = mem)
include hk

theorem contained_write (hin : addr + bytes.length ≤ mem.length) :
    Contained mem [(addr, bytes.length)] (writeAt mem addr bytes >>= fun mem => .ok (k mem)) := by
  have hok : ∃ mem', writeAt mem addr bytes = .ok mem' := ⟨_, if_pos hin⟩
  obtain ⟨mem', hok⟩ := hok
  rw [hok]
  refine ⟨by simp [bind, Except.bind], forall_mem_singleton.mpr (.inl hin), fun c hc => ?_⟩
  cases hc
  rw [hk]
  exact ⟨length_writeAt hok, fun i hi => getElem?_writeAt hok (hi _ (mem_singleton_self _))⟩

theorem contained_store :
    Contained mem [(addr, bytes.length)] (storeChecked mem addr bytes >>= fun mem => .ok (k mem)) := by
  unfold storeChecked
  split_ifs with hfits
  · exact contained_trap "store oob"
  · exact contained_write hk (by omega)

theorem contained_fill :
    Contained mem [(d, n)] (fillChecked mem d n val >>= fun mem => .ok (k mem)) := by
  unfold fillChecked
  split_ifs with hfits
  · exact contained_trap "memory.fill oob"
  have hlength : (List.replicate n val).length = n := length_replicate
  have hwrite : Contained mem [(d, (List.replicate n val).length)]
      (writeAt mem d (List.replicate n val) >>= fun mem => .ok (k mem)) :=
    contained_write hk (by omega)
  rwa [hlength] at hwrite

theorem contained_copy :
    Contained mem [(d, n), (src, n)] (copyChecked mem d src n >>= fun mem => .ok (k mem)) := by
  unfold copyChecked
  split_ifs with hfits
  · exact contained_trap "memory.copy oob"
  have hsrc : src + n ≤ mem.length := by omega
  have hlength : (slice mem src n).length = n := length_slice hsrc
  have hwrite : Contained mem [(d, (slice mem src n).length)]
      (writeAt mem d (slice mem src n) >>= fun mem => .ok (k mem)) :=
    contained_write hk (by omega)
  rw [hlength] at hwrite
  rw [readAt, if_pos hsrc]
  refine ⟨hwrite.unbroken, fun range hrange => ?_, fun c hc => ?_⟩
  · rcases mem_pair.mp hrange with rfl | rfl
    · exact hwrite.inside _ (by simp)
    · exact .inl hsrc
  · refine (hwrite.unchanged c hc).imp_right fun h i hi => h i fun range hrange => hi range ?_
    rw [mem_singleton.mp hrange]
    simp

omit hk

/-! ## Operations -/

variable {n : Nat} {c : Cpu}

theorem exec_i32Load (h : c.stack = base :: stack) :
    c.exec fl n (.i32Load off) = (loadChecked c.mem (addrOf base + off.toNat) 4 >>= fun m =>
      .ok (c.push stack (ofI32 (BitVec.ofNat 32 (leNat m))))) := by
  simp only [Cpu.exec, h]
  rfl

theorem exec_load (h : c.stack = base :: stack) :
    c.exec fl n (.load code off) = (loadChecked c.mem (addrOf base + off.toNat) (loadWidth code) >>=
      fun m => .ok (c.push stack (loadValue code m))) := by
  simp only [Cpu.exec, h]
  rfl

theorem exec_i32Store (h : c.stack = v :: base :: stack) : c.exec fl n (.i32Store off) =
      (storeChecked c.mem (addrOf base + off.toNat) (le 4 (i32v v).toNat) >>= fun mem =>
        .ok { c with stack, mem }) := by
  simp only [Cpu.exec, h]
  rfl

theorem exec_store (h : c.stack = v :: base :: stack) :
    c.exec fl n (.store code off) =
      (storeChecked c.mem (addrOf base + off.toNat) (le (storeWidth code) v.toNat) >>= fun mem =>
        .ok { c with stack, mem }) := by
  simp only [Cpu.exec, h]
  rfl

theorem exec_memoryFill {count : Val} (h : c.stack = count :: v :: d :: stack) :
    c.exec fl n .memoryFill =
      (fillChecked c.mem (addrOf d) (addrOf count) (UInt8.ofNat v.toNat) >>= fun mem =>
        .ok { c with stack, mem }) := by
  simp only [Cpu.exec, h]
  rfl

theorem exec_memoryCopy {count : Val} (h : c.stack = count :: src :: d :: stack) :
    c.exec fl n .memoryCopy =
      (copyChecked c.mem (addrOf d) (addrOf src) (addrOf count) >>= fun mem =>
        .ok { c with stack, mem }) := by
  simp only [Cpu.exec, h]
  rfl

theorem contained_storeOp (hk : ∀ mem, (k mem).mem = mem) :
    Contained c.mem [(addr, width)]
      (storeChecked c.mem addr (le width value) >>= fun mem => .ok (k mem)) := by
  have hstore : Contained c.mem [(addr, (le width value).length)]
      (storeChecked c.mem addr (le width value) >>= fun mem => .ok (k mem)) := contained_store hk
  rwa [length_le] at hstore

theorem contained_exec (h : accesses op c.stack ≠ []) :
    Contained c.mem (accesses op c.stack) (c.exec fl n op) := by
  generalize hstack : c.stack = stack at h
  unfold accesses at h ⊢
  split at h
  · rw [exec_i32Load hstack]
    exact contained_load fun _ => rfl
  · rw [exec_i32Store hstack]
    exact contained_storeOp fun _ => rfl
  · rw [exec_load hstack]
    exact contained_load fun _ => rfl
  · rw [exec_store hstack]
    exact contained_storeOp fun _ => rfl
  · rw [exec_memoryFill hstack]
    exact contained_fill fun _ => rfl
  · rw [exec_memoryCopy hstack]
    exact contained_copy fun _ => rfl
  · exact absurd rfl h

theorem pop_bind_ok {α : Type} {k : Val × List Val → Except Fault α} {a : α}
    (h : (pop stack >>= k) = .ok a) : ∃ v rest, stack = v :: rest ∧ k (v, rest) = .ok a := by
  cases stack with
  | nil => cases h
  | cons v rest => exact ⟨v, rest, rfl, h⟩

theorem mem_setLocal {i : Nat} (h : c.setLocal i v = .ok c') : c'.mem = c.mem := by
  unfold Cpu.setLocal at h
  split_ifs at h
  · cases h
    rfl
  · cases h

theorem length_mem_of_accesses (haccess : accesses op c.stack ≠ []) (h : c.exec fl n op = .ok c') :
    c'.mem.length = c.mem.length :=
  ((contained_exec haccess).unchanged c' h).1

theorem length_mem_exec (h : c.exec fl n op = .ok c') :
    c'.mem.length = c.mem.length ∨ c'.mem.length ≤ maxMemPages * page := by
  have hkeep : c'.mem = c.mem → c'.mem.length = c.mem.length ∨
      c'.mem.length ≤ maxMemPages * page := fun hmem => .inl (congrArg _ hmem)
  cases op with
  | unreachable => cases h
  | «if» elseAt endAt arity =>
    obtain ⟨v, stack, -, h⟩ := pop_bind_ok h
    dsimp only at h
    split_ifs at h <;> cases h <;> exact hkeep rfl
  | brIf depth =>
    obtain ⟨v, stack, -, h⟩ := pop_bind_ok h
    cases h
    apply hkeep
    split_ifs <;> rfl
  | select =>
    obtain ⟨v, stack, -, h⟩ := pop_bind_ok h
    obtain ⟨b, stack, -, h⟩ := pop_bind_ok h
    obtain ⟨a, stack, -, h⟩ := pop_bind_ok h
    cases h
    exact hkeep rfl
  | localGet i =>
    simp only [Cpu.exec] at h
    split at h <;> cases h
    exact hkeep rfl
  | localSet i =>
    obtain ⟨v, stack, -, h⟩ := pop_bind_ok h
    exact hkeep (mem_setLocal (c := { c with stack }) h)
  | localTee i =>
    obtain ⟨v, stack, -, h⟩ := pop_bind_ok h
    exact hkeep (mem_setLocal (c := c) h)
  | globalSet i =>
    obtain ⟨v, stack, -, h⟩ := pop_bind_ok h
    cases h
    exact hkeep rfl
  | brTable labels default =>
    obtain ⟨v, stack, -, h⟩ := pop_bind_ok h
    cases h
    exact hkeep rfl
  | i32Load off | load code off =>
    obtain ⟨base, stack, hstack, -⟩ := pop_bind_ok h
    exact .inl (length_mem_of_accesses (by simp [hstack, accesses]) h)
  | i32Store off | store code off =>
    obtain ⟨v, stack, hstack, h'⟩ := pop_bind_ok h
    obtain ⟨base, stack, rfl, -⟩ := pop_bind_ok h'
    exact .inl (length_mem_of_accesses (by simp [hstack, accesses]) h)
  | memoryFill | memoryCopy =>
    obtain ⟨count, stack, hstack, hrest⟩ := pop_bind_ok h
    obtain ⟨v, stack, rfl, hrest'⟩ := pop_bind_ok hrest
    obtain ⟨d, stack, rfl, -⟩ := pop_bind_ok hrest'
    exact .inl (length_mem_of_accesses (by simp [hstack, accesses]) h)
  | memoryGrow =>
    obtain ⟨delta, stack, -, h⟩ := pop_bind_ok h
    cases h
    exact (length_memoryGrow c.mem (addrOf delta)).imp_left (congrArg _)
  | num code =>
    simp only [Cpu.exec] at h
    split at h <;> cases h
    exact hkeep rfl
  | _ =>
    cases h
    exact hkeep rfl

/-! ## Runs -/

section Runs

variable {σ : Type} {m : Module} {host : Host σ} {s s' : State σ}

def State.next (s : State σ) (m : Module) : Option Op :=
  match s.frames with
  | [] => none
  | f :: _ => m.funcs[f.codeIdx]?.bind fun func => func.code[f.ip]?

def State.cpu (s : State σ) (f : Frame) : Cpu := ⟨{ f with ip := f.ip + 1 }, s.stack, s.mem, s.globals⟩

theorem step_of_accesses (fl : FloatOps) (host : Host σ) (hop : s.next m = some op)
    (h : accesses op s.stack ≠ []) :
    ∃ f frames n, Contained s.mem (accesses op s.stack) ((s.cpu f).exec fl n op) ∧
      m.step fl host s =
        match (s.cpu f).exec fl n op with
        | .error .panic => .panicked
        | .error (.error e) => .stopped s (.error e)
        | .ok c =>
          .running { s with stack := c.stack, frames := c.frame :: frames, mem := c.mem,
                            globals := c.globals } := by
  unfold State.next at hop
  split at hop
  · cases hop
  next f frames hframes =>
    obtain ⟨func, hfunc, hcode⟩ := Option.bind_eq_some_iff.mp hop
    refine ⟨f, frames, func.code.length, contained_exec (c := s.cpu f) h, ?_⟩
    have hcall : ∀ g, op ≠ .call g := by
      rintro g rfl
      exact h rfl
    simp only [Module.step, hframes, hfunc, hcode]
    cases op with
    | call g => exact absurd rfl (hcall g)
    | _ => rfl

def Turn.left : Turn σ → Option (State σ)
  | .running s => some s
  | .stopped s _ => some s
  | .panicked => none

def WithinLimit (mem : Bytes) : Prop := mem.length ≤ maxMemPages * page

theorem WithinLimit.of_length_eq (h : WithinLimit mem) (hlength : mem'.length = mem.length) :
    WithinLimit mem' := by
  unfold WithinLimit at *
  omega

theorem withinLimit_call (hs : WithinLimit s.mem) (h : (m.call host s f frames g).left = some s') :
    WithinLimit s'.mem := by
  unfold Module.call at h
  dsimp only at h
  split_ifs at h
  · cases h
    exact hs
  split at h
  next imp _ =>
    have hlength := host.length_mem s.host imp.module imp.name
      (s.stack.take (m.fnArity g)).reverse s.mem
    split at h <;> cases h <;> exact hs.of_length_eq hlength
  next =>
    split at h <;> cases h <;> exact hs

theorem withinLimit_step (hs : WithinLimit s.mem) (h : (m.step fl host s).left = some s') :
    WithinLimit s'.mem := by
  unfold Module.step at h
  split at h
  · cases h
  split at h
  · cases h
  split at h
  · unfold Module.finish at h
    dsimp only at h
    split at h <;> cases h <;> exact hs
  · exact withinLimit_call hs h
  · split at h
    · cases h
    · cases h
      exact hs
    next c hexec =>
      cases h
      exact (length_mem_exec hexec).elim (fun hlength => hs.of_length_eq hlength) id

theorem withinLimit_runFrom (hs : WithinLimit s.mem)
    (h : (m.runFrom fl host fuel s).left = some s') : WithinLimit s'.mem := by
  induction fuel generalizing s with
  | zero =>
    cases h
    exact hs
  | succ fuel ih =>
    simp only [Module.runFrom] at h
    split at h
    next s₁ hstep =>
      have hleft : (m.step fl host s).left = some s₁ := by rw [hstep]; rfl
      exact ih (withinLimit_step hs hleft) h
    · exact withinLimit_step hs h

/-! ## Instances -/

inductive Instance.Reached (m : Module) (fl : FloatOps) (host : Host σ) (init : σ) :
    Instance σ → Prop
  | new : Reached m fl host init (Instance.new m init)
  | setFuel {inst : Instance σ} (steps : Nat) :
      Reached m fl host init inst → Reached m fl host init (inst.setFuel steps)
  | writeMem {inst inst' : Instance σ} {off : Nat} {data : Bytes} :
      Reached m fl host init inst → inst.writeMem off data = .ok inst' →
      Reached m fl host init inst'
  | invoke {inst inst' : Instance σ} {name : Str} {args : List Val}
      {r : Except WasmError (List Val)} :
      Reached m fl host init inst → inst.invoke m fl host name args = some (inst', r) →
      Reached m fl host init inst'

inductive State.Reached (m : Module) (fl : FloatOps) (host : Host σ) (init : σ) : State σ → Prop
  | start {inst : Instance σ} {s : State σ} {codeIdx : Nat} {args : List Val} :
      Instance.Reached m fl host init inst → inst.start m codeIdx args = .ok s →
      Reached m fl host init s
  | step {s s' : State σ} :
      Reached m fl host init s → m.step fl host s = .running s' → Reached m fl host init s'

theorem Instance.length_placeData (mem : Bytes) (segment : UInt32 × Bytes) :
    (placeData mem segment).length = mem.length := by
  unfold placeData
  split
  · exact length_writeAt ‹_›
  · rfl

theorem Instance.length_new (m : Module) (init : σ) :
    (Instance.new m init).mem.length = m.memMinPages.toNat * page := by
  have hplace : ∀ (data : List (UInt32 × Bytes)) (mem : Bytes),
      (data.foldl placeData mem).length = mem.length := by
    intro data
    induction data with
    | nil => simp
    | cons segment data ih => simp [ih, length_placeData]
  rw [Instance.new, hplace, length_replicate]

theorem Instance.withinLimit_start {inst : Instance σ} {codeIdx : Nat} {args : List Val}
    (hinst : WithinLimit inst.mem) (h : inst.start m codeIdx args = .ok s) : WithinLimit s.mem := by
  unfold Instance.start at h
  split at h <;> cases h
  exact hinst

theorem Instance.withinLimit_invoke {inst inst' : Instance σ} {name : Str} {args : List Val}
    {r : Except WasmError (List Val)} (hinst : WithinLimit inst.mem)
    (h : inst.invoke m fl host name args = some (inst', r)) : WithinLimit inst'.mem := by
  unfold Instance.invoke at h
  split at h
  · cases h
    exact hinst
  split at h
  next imp _ =>
    cases h
    exact hinst.of_length_eq (host.length_mem inst.host imp.module imp.name args inst.mem)
  next =>
    split at h
    · cases h
    · cases h
      exact hinst
    next s hstart =>
      split at h <;> cases h
      next s' hrun =>
        have hleft : (m.runFrom fl host inst.fuel s).left = some s' := by rw [hrun]; rfl
        exact withinLimit_runFrom (withinLimit_start hinst hstart) hleft

theorem Instance.withinLimit (hm : m.memMinPages.toNat ≤ maxMemPages)
    (h : Instance.Reached m fl host init inst) : WithinLimit inst.mem := by
  induction h with
  | new =>
    unfold WithinLimit
    rw [length_new]
    exact Nat.mul_le_mul_right page hm
  | setFuel steps _ ih => exact ih
  | writeMem _ hwrite ih =>
    unfold Instance.writeMem at hwrite
    split_ifs at hwrite
    · cases hwrite
    rename_i inst _ off data _ _
    cases hmem : writeAt inst.mem off data with
    | error e => simp [hmem, Except.map] at hwrite
    | ok mem =>
      rw [hmem] at hwrite
      cases hwrite
      exact ih.of_length_eq (length_writeAt hmem)
  | invoke _ hinvoke ih => exact withinLimit_invoke ih hinvoke

theorem State.withinLimit {init : σ} (hm : m.memMinPages.toNat ≤ maxMemPages)
    (h : State.Reached m fl host init s) : WithinLimit s.mem := by
  induction h with
  | start hinst hstart => exact Instance.withinLimit_start (Instance.withinLimit hm hinst) hstart
  | step _ hstep ih => exact withinLimit_step ih (by rw [hstep]; rfl)

/-- The memory of a state is within the limit, and the next turn keeps its accesses in it. -/
structure Sandboxed (m : Module) (fl : FloatOps) (host : Host σ) (s : State σ) : Prop where
  limit : WithinLimit s.mem
  unbroken : ∀ op, s.next m = some op → accesses op s.stack ≠ [] → m.step fl host s ≠ .panicked
  inside : ∀ op, s.next m = some op → ∀ range ∈ accesses op s.stack,
    range.1 + range.2 ≤ s.mem.length ∨ ∃ why, m.step fl host s = .stopped s (.error (.trap why))
  outside : ∀ op s', s.next m = some op → accesses op s.stack ≠ [] →
    m.step fl host s = .running s' →
    ∀ i, (∀ range ∈ accesses op s.stack, i < range.1 ∨ range.1 + range.2 ≤ i) →
      s'.mem[i]? = s.mem[i]?
  kept : ∀ op s' r, s.next m = some op → accesses op s.stack ≠ [] →
    m.step fl host s = .stopped s' r → s'.mem = s.mem

theorem sandboxed_of_withinLimit (h : WithinLimit s.mem) : Sandboxed m fl host s where
  limit := h
  unbroken op hop haccess := by
    obtain ⟨f, frames, n, hexec, hstep⟩ := step_of_accesses fl host hop haccess
    rw [hstep]
    split
    · exact absurd ‹_› hexec.unbroken
    · simp
    · simp
  inside op hop range hrange := by
    have haccess : accesses op s.stack ≠ [] := ne_nil_of_mem hrange
    obtain ⟨f, frames, n, hexec, hstep⟩ := step_of_accesses fl host hop haccess
    refine (hexec.inside range hrange).imp_right fun ⟨why, htrap⟩ => ⟨why, ?_⟩
    rw [hstep, htrap]
  outside op s' hop haccess hrun i hi := by
    obtain ⟨f, frames, n, hexec, hstep⟩ := step_of_accesses fl host hop haccess
    rw [hstep] at hrun
    split at hrun <;> cases hrun
    exact (hexec.unchanged _ ‹_›).2 i hi
  kept op s' r hop haccess hstop := by
    obtain ⟨f, frames, n, -, hstep⟩ := step_of_accesses fl host hop haccess
    rw [hstep] at hstop
    split at hstop <;> cases hstop
    rfl

/-- The memory stays in the sandbox through all invocations exactly if the module asks for no more
pages than the limit. -/
theorem sandboxed_iff (m : Module) (fl : FloatOps) (host : Host σ) (init : σ) :
    ((∀ inst, Instance.Reached m fl host init inst → WithinLimit inst.mem) ∧
      ∀ s, State.Reached m fl host init s → Sandboxed m fl host s) ↔
    m.memMinPages.toNat ≤ maxMemPages := by
  constructor
  · intro h
    have hnew : WithinLimit (Instance.new m init).mem := h.1 _ .new
    unfold WithinLimit at hnew
    rw [Instance.length_new] at hnew
    exact Nat.le_of_mul_le_mul_right hnew (by decide)
  · intro hm
    exact ⟨fun inst => Instance.withinLimit hm,
      fun s hs => sandboxed_of_withinLimit (State.withinLimit hm hs)⟩

def largeMemory : Bytes :=
  [0x00, 0x61, 0x73, 0x6d, 0x01, 0x00, 0x00, 0x00, 0x05, 0x04, 0x01, 0x00, 0x81, 0x02]

/-- The module is accepted, and its instance starts above the limit. -/
theorem largeMemory_exceeds :
    ∃ m, Module.parse largeMemory = .ok m ∧ ¬ WithinLimit (Instance.new m ()).mem := by
  refine ⟨⟨[], [], [], [], 257, [], []⟩, rfl, ?_⟩
  unfold WithinLimit
  rw [Instance.length_new]
  decide

end Runs

end EuroOS.Wasm
