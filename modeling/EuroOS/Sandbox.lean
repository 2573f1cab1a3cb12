import EuroOS.CallMachine
import EuroOS.Eurofs.FsPath
import EuroOS.TextFields

/-!
# Containers

A container has limits on what it may use, a root that its paths stay below, and
a layer of its own over a shared image.
-/

namespace EuroOS

open List

/-! ## Limits -/

/-- A limit of zero is none. -/
structure ResourceLimits where
  maxMemBytes : BitVec 64
  maxPids : BitVec 32
  maxCpuMs : BitVec 64
  maxWallMs : BitVec 64

structure Usage where
  memBytes : BitVec 64 := 0
  pids : BitVec 32 := 0
  cpuMs : BitVec 64 := 0
  wallMs : BitVec 64 := 0

inductive LimitBreach where
  | memory
  | pids
  | cpu
  | wall
  deriving DecidableEq

section

variable {w : Nat}

def exceeds (limit used : BitVec w) : Bool := limit ≠ 0 ∧ limit < used

def saturatingSub (a b : BitVec w) : BitVec w := if b ≤ a then a - b else 0

end

namespace Usage

def checkAlloc (limits : ResourceLimits) (mem : BitVec 64) (pids : BitVec 32) (u : Usage) :
    Except LimitBreach Unit :=
  if exceeds limits.maxMemBytes (u.memBytes + mem) then .error .memory
  else if exceeds limits.maxPids (u.pids + pids) then .error .pids
  else .ok ()

def charge (mem : BitVec 64) (pids : BitVec 32) (u : Usage) : Usage :=
  { u with memBytes := u.memBytes + mem, pids := u.pids + pids }

def release (mem : BitVec 64) (pids : BitVec 32) (u : Usage) : Usage :=
  { u with memBytes := saturatingSub u.memBytes mem, pids := saturatingSub u.pids pids }

def tick (limits : ResourceLimits) (cpu wall : BitVec 64) (u : Usage) :
    Usage × Except LimitBreach Unit :=
  let u := { u with cpuMs := u.cpuMs + cpu, wallMs := u.wallMs + wall }
  (u, if exceeds limits.maxCpuMs u.cpuMs then .error .cpu
    else if exceeds limits.maxWallMs u.wallMs then .error .wall
    else .ok ())

end Usage

inductive LimitCall where
  | checkAlloc (mem : BitVec 64) (pids : BitVec 32)
  | charge (mem : BitVec 64) (pids : BitVec 32)
  | release (mem : BitVec 64) (pids : BitVec 32)
  | tick (cpu wall : BitVec 64)

namespace ResourceLimits

variable (limits : ResourceLimits)

def machine : CallMachine Usage LimitCall (Except LimitBreach Unit) where
  step u call :=
    match call with
    | .checkAlloc mem pids => (u, u.checkAlloc limits mem pids)
    | .charge mem pids => (u.charge mem pids, .ok ())
    | .release mem pids => (u.release mem pids, .ok ())
    | .tick cpu wall => u.tick limits cpu wall

end ResourceLimits

namespace LimitCall

/-- What a call should add to the memory, the processes and the CPU time in use. -/
def change : LimitCall → Int × Int × Int
  | checkAlloc .. => 0
  | charge mem pids => (mem.toNat, pids.toNat, 0)
  | release mem pids => (-mem.toNat, -pids.toNat, 0)
  | tick cpu _ => (0, 0, cpu.toNat)

end LimitCall

section

variable {w : Nat} {limit used amount : BitVec w} {total : Int}

def Recorded (limit used : BitVec w) (total : Int) : Prop :=
  exceeds limit used = false ∧ (used.toNat : Int) = total

/-- There is room for an amount, in the limit and in the counter. -/
def Room (limit used amount : BitVec w) : Prop :=
  used.toNat + amount.toNat < 2 ^ w ∧
    (limit = 0 ∨ used.toNat + amount.toNat ≤ limit.toNat)

theorem exceeds_eq_false : exceeds limit used = false ↔ limit = 0 ∨ used.toNat ≤ limit.toNat := by
  simp [exceeds, BitVec.lt_def, or_iff_not_imp_left]

theorem recorded_add_iff (h : Recorded limit used total) :
    Recorded limit (used + amount) (total + amount.toNat) ↔ Room limit used amount := by
  obtain ⟨-, rfl⟩ := h
  have hcut : (used + amount).toNat = used.toNat + amount.toNat ↔
      used.toNat + amount.toNat < 2 ^ w := by
    rw [BitVec.toNat_add]
    refine ⟨fun h => h ▸ Nat.mod_lt _ (Nat.two_pow_pos w), Nat.mod_eq_of_lt⟩
  unfold Recorded Room
  rw [exceeds_eq_false, ← hcut]
  constructor
  · rintro ⟨hlimit, hsum⟩
    have hexact : (used + amount).toNat = used.toNat + amount.toNat := by exact_mod_cast hsum
    exact ⟨hexact, hexact ▸ hlimit⟩
  · rintro ⟨hexact, hlimit⟩
    exact ⟨hexact ▸ hlimit, by exact_mod_cast hexact⟩

theorem recorded_sub_iff (h : Recorded limit used total) :
    Recorded limit (saturatingSub used amount) (total - amount.toNat) ↔ amount ≤ used := by
  obtain ⟨hlimit, rfl⟩ := h
  rw [exceeds_eq_false] at hlimit
  unfold Recorded saturatingSub
  rw [exceeds_eq_false]
  split_ifs with hle
  · have hexact := BitVec.toNat_sub_of_le hle
    have hnat := BitVec.le_def.mp hle
    simp only [hle, iff_true]
    exact ⟨hlimit.imp_right fun h => by omega, by omega⟩
  · have hnat : used.toNat < amount.toNat := by simpa [BitVec.le_def] using hle
    simp only [hle, iff_false, not_and]
    intro _ hsum
    omega

/-- A check answers for the charge of the same amount unless the sum is cut. -/
theorem room_of_check (hfits : used.toNat + amount.toNat < 2 ^ w)
    (hcheck : exceeds limit (used + amount) = false) : Room limit used amount := by
  rw [exceeds_eq_false, BitVec.toNat_add, Nat.mod_eq_of_lt hfits] at hcheck
  exact ⟨hfits, hcheck⟩

end

namespace ResourceLimits

variable (limits : ResourceLimits)

/-- After these calls the usage is within its limits and is the sum of what was charged less what
was released. -/
def Kept (calls : List LimitCall) (u : Usage) : Prop :=
  let total := (calls.map LimitCall.change).sum
  Recorded limits.maxMemBytes u.memBytes total.1 ∧ Recorded limits.maxPids u.pids total.2.1 ∧
    Recorded limits.maxCpuMs u.cpuMs total.2.2

def Sound (u : Usage) : LimitCall → Prop
  | .checkAlloc .. => True
  | .charge mem pids => Room limits.maxMemBytes u.memBytes mem ∧ Room limits.maxPids u.pids pids
  | .release mem pids => mem ≤ u.memBytes ∧ pids ≤ u.pids
  | .tick cpu _ => Room limits.maxCpuMs u.cpuMs cpu

variable {limits} in
theorem kept_step_iff (h : limits.Kept calls u) (call : LimitCall) :
    limits.Kept (calls ++ [call]) (limits.machine.step u call).1 ↔ limits.Sound u call := by
  have hsum : ((calls ++ [call]).map LimitCall.change).sum =
      (calls.map LimitCall.change).sum + call.change := by simp
  obtain ⟨hmem, hpids, hcpu⟩ := h
  simp only [Kept, hsum, Prod.fst_add, Prod.snd_add]
  cases call with
  | checkAlloc mem pids => simp [machine, LimitCall.change, Sound, hmem, hpids, hcpu]
  | charge mem pids =>
    simp [machine, Usage.charge, LimitCall.change, Sound, recorded_add_iff hmem,
      recorded_add_iff hpids, hcpu]
  | release mem pids =>
    simp [machine, Usage.release, LimitCall.change, Sound, ← sub_eq_add_neg,
      recorded_sub_iff hmem, recorded_sub_iff hpids, hcpu]
  | tick cpu wall =>
    simp [machine, Usage.tick, LimitCall.change, Sound, recorded_add_iff hcpu, hmem, hpids]

/-- The usage is kept right in a whole run exactly if every charge and every tick finds room and no
release gives back more than is in use.  An allocation that was checked finds room unless a counter
would be cut. -/
theorem kept_iff_sound (calls : List LimitCall) :
    ((∀ earlier, earlier <+: calls → limits.Kept earlier (limits.machine.run {} earlier)) ↔
        limits.machine.Allowed limits.Sound {} calls) ∧
      ∀ u mem pids, Usage.checkAlloc limits mem pids u = .ok () →
        u.memBytes.toNat + mem.toNat < 2 ^ 64 → u.pids.toNat + pids.toNat < 2 ^ 32 →
          limits.Sound u (.charge mem pids) := by
  refine ⟨CallMachine.forall_prefix_iff ?_ (fun earlier call h => ?_) calls, ?_⟩
  · simp [Kept, Recorded, exceeds_eq_false]
  · rw [CallMachine.run_append]
    exact kept_step_iff h call
  · intro u mem pids hcheck hmem hpids
    unfold Usage.checkAlloc at hcheck
    split_ifs at hcheck with hmem' hpids'
    exact ⟨room_of_check hmem (by simpa using hmem'), room_of_check hpids (by simpa using hpids')⟩

def smallLimits : ResourceLimits := ⟨1024, 0, 0, 0⟩

def hugeSecond : List LimitCall :=
  [.checkAlloc 1 0, .charge 1 0, .checkAlloc (.allOnes 64) 0, .charge (.allOnes 64) 0]

/-- After one byte, the largest amount passes the check, and the memory in use is then zero. -/
theorem checked_charge_wraps :
    smallLimits.machine.results {} hugeSecond = [.ok (), .ok (), .ok (), .ok ()] ∧
      (smallLimits.machine.run {} hugeSecond).memBytes = 0 ∧
      (hugeSecond.map LimitCall.change).sum.1 = 2 ^ 64 := by decide +kernel

end ResourceLimits

/-! ## Paths -/

/-- One component of a path below a root that `..` does not leave. -/
def climb (stack : List Str) (comp : Str) : List Str :=
  if comp = [] ∨ comp = ['.'] then stack
  else if comp = ['.', '.'] then stack.dropLast
  else stack ++ [comp]

def climbAll (path : Str) : List Str := (path.splitOn '/').foldl climb []

structure Container where
  root : Str

namespace Container

def resolve (c : Container) (requested : Str) : Str :=
  c.root ++ (climbAll requested).flatMap ('/' :: ·)

def contains (c : Container) (hostPath : Str) : Bool :=
  hostPath = c.root ∨
    (c.root.length < hostPath.length ∧ c.root <+: hostPath ∧ hostPath[c.root.length]? = some '/')

end Container

structure PlainComponent (comp : Str) : Prop where
  nonempty : comp ≠ []
  dot : comp ≠ ['.']
  dots : comp ≠ ['.', '.']
  slash : '/' ∉ comp

theorem climb_of_plain (h : PlainComponent comp) (stack : List Str) :
    climb stack comp = stack ++ [comp] := by simp [climb, h.nonempty, h.dot, h.dots]

theorem plain_of_mem_climbAll (h : comp ∈ climbAll path) : PlainComponent comp := by
  have hslash : ∀ piece ∈ path.splitOn '/', '/' ∉ piece :=
    fun piece hpiece hmem => (mem_of_mem_splitOn hpiece hmem).2 rfl
  unfold climbAll at h
  generalize path.splitOn '/' = pieces at h hslash
  induction pieces using List.reverseRecOn with
  | nil => simp at h
  | append_singleton pieces piece ih =>
    rw [forall_mem_append, forall_mem_singleton] at hslash
    rw [foldl_concat] at h
    unfold climb at h
    split_ifs at h with hskip hup
    · exact ih h hslash.1
    · exact ih (dropLast_subset _ h) hslash.1
    obtain h | h := mem_append.mp h
    · exact ih h hslash.1
    obtain rfl := mem_singleton.mp h
    rw [not_or] at hskip
    exact ⟨hskip.1, hskip.2, hup, hslash.2⟩

theorem foldl_climb_of_plain (h : ∀ comp ∈ comps, PlainComponent comp) (stack : List Str) :
    comps.foldl climb stack = stack ++ comps := by
  induction comps generalizing stack with
  | nil => simp
  | cons comp comps ih =>
    rw [forall_mem_cons] at h
    rw [foldl_cons, climb_of_plain h.1, ih h.2, append_assoc, singleton_append]

/-! Lexical normalisation keeps the `..` that a relative path begins with. -/

/-- The number of leading `..` and the components after them. -/
def lexicalStep (absolute : Bool) : Nat × List Str → Str → Nat × List Str
  | (ups, stack), comp =>
    (if comp = ['.', '.'] ∧ stack = [] ∧ absolute = false then ups + 1 else ups, climb stack comp)

def lexicalParts (path : Str) : Nat × List Str :=
  (path.splitOn '/').foldl (lexicalStep (path.head? = some '/')) (0, [])

def lexical (path : Str) : Str :=
  let comps := List.replicate (lexicalParts path).1 ['.', '.'] ++ (lexicalParts path).2
  if path.head? = some '/' then '/' :: ['/'].intercalate comps
  else if comps = [] then ['.'] else ['/'].intercalate comps

theorem foldl_lexicalStep (absolute : Bool) (pieces : List Str) (start : Nat × List Str) :
    (pieces.foldl (lexicalStep absolute) start).2 = pieces.foldl climb start.2 := by
  induction pieces generalizing start with
  | nil => rfl
  | cons piece pieces ih => exact ih _

theorem climbAll_intercalate (h : ∀ comp ∈ stack, PlainComponent comp) :
    climbAll (['/'].intercalate (List.replicate ups ['.', '.'] ++ stack)) = stack := by
  have hups : ∀ n, (List.replicate n ['.', '.']).foldl climb [] = [] := by
    intro n
    induction n with
    | zero => rfl
    | succ n ih => simpa [replicate_succ, climb] using ih
  by_cases hnil : List.replicate ups ['.', '.'] ++ stack = []
  · rw [hnil, (append_eq_nil_iff.mp hnil).2]
    rfl
  rw [climbAll, splitOn_intercalate _ _ hnil, foldl_append, hups,
    foldl_climb_of_plain h, nil_append]
  intro comp hcomp
  obtain hcomp | hcomp := mem_append.mp hcomp
  · rw [eq_of_mem_replicate hcomp]
    decide
  · exact (h comp hcomp).slash

theorem climbAll_lexical (path : Str) : climbAll (lexical path) = climbAll path := by
  have hstack : (lexicalParts path).2 = climbAll path := foldl_lexicalStep ..
  have hplain : ∀ comp ∈ (lexicalParts path).2, PlainComponent comp :=
    fun comp hcomp => plain_of_mem_climbAll (hstack ▸ hcomp)
  rw [← hstack]
  unfold lexical
  dsimp only
  split_ifs with habsolute hnil
  · rw [climbAll, ← nil_append ('/' :: _), splitOn_append_cons_self, foldl_append]
    exact climbAll_intercalate hplain
  · rw [(append_eq_nil_iff.mp hnil).2]
    rfl
  · exact climbAll_intercalate hplain

theorem splitOn_injective {a b : Str} (h : a.splitOn '/' = b.splitOn '/') : a = b := by
  simpa only [intercalate_splitOn] using congrArg ['/'].intercalate h

theorem contains_iff_components (c : Container) (h : Str) :
    c.contains h ↔ c.root.splitOn '/' <+: h.splitOn '/' := by
  unfold Container.contains
  rw [decide_eq_true_iff]
  constructor
  · rintro (rfl | ⟨-, ⟨rest, rfl⟩, hslash⟩)
    · exact prefix_rfl
    · rw [getElem?_append_right le_rfl, Nat.sub_self, ← head?_eq_getElem?,
        head?_eq_some_iff] at hslash
      obtain ⟨below, rfl⟩ := hslash
      exact ⟨_, (splitOn_append_cons_self ..).symm⟩
  · rintro ⟨extra, hextra⟩
    by_cases hnil : extra = []
    · rw [hnil, append_nil] at hextra
      exact .inl (splitOn_injective hextra.symm)
    have hslash : ∀ piece ∈ extra, '/' ∉ piece := by
      intro piece hpiece hmem
      exact (mem_of_mem_splitOn (hextra ▸ mem_append_right _ hpiece) hmem).2 rfl
    have hbelow : h = c.root ++ '/' :: ['/'].intercalate extra := by
      refine splitOn_injective (hextra.symm.trans ?_)
      rw [splitOn_append_cons_self, splitOn_intercalate _ hslash hnil]
    rw [hbelow]
    right
    simp

/-- Whatever is asked for is below the root, and a path counts as below the root exactly if its
components begin with those of the root. -/
theorem resolve_confined (c : Container) (p : Str) :
    (∃ comps : List Str, c.resolve p = c.root ++ comps.flatMap ('/' :: ·) ∧
      ∀ comp ∈ comps, PlainComponent comp) ∧
    c.contains (c.resolve p) ∧ c.resolve (lexical p) = c.resolve p ∧
    ∀ h, c.contains h ↔ c.root.splitOn '/' <+: h.splitOn '/' := by
  refine ⟨⟨climbAll p, rfl, fun comp => plain_of_mem_climbAll⟩, ?_, ?_, contains_iff_components c⟩
  · rw [contains_iff_components, Container.resolve]
    cases climbAll p with
    | nil => simp
    | cons comp comps =>
      rw [flatMap_cons, cons_append, splitOn_append_cons_self]
      exact prefix_append ..
  · unfold Container.resolve
    rw [climbAll_lexical]

/-! ## Layers -/

inductive Layer where
  | upper
  | lower
  | whiteout
  | absent
  deriving DecidableEq

structure Overlay where
  upper : Finset Str := ∅
  whiteouts : Finset Str := ∅

inductive OverlayCall where
  | onWrite (path : Str)
  | onDelete (path : Str)
  deriving DecidableEq

namespace Overlay

def norm (path : Str) : Str :=
  let trimmed := trimEndSlash path
  if trimmed = [] then ['/'] else if trimmed.head? = some '/' then trimmed else '/' :: trimmed

def resolveRead (o : Overlay) (path : Str) (inLower : Bool) : Layer :=
  if norm path ∈ o.whiteouts then .whiteout
  else if norm path ∈ o.upper then .upper
  else if inLower then .lower
  else .absent

def onWrite (o : Overlay) (path : Str) : Overlay where
  whiteouts := o.whiteouts.erase (norm path)
  upper := insert (norm path) o.upper

def onDelete (o : Overlay) (path : Str) : Overlay where
  upper := o.upper.erase (norm path)
  whiteouts := insert (norm path) o.whiteouts

def machine : CallMachine Overlay OverlayCall Unit where
  step o call :=
    match call with
    | .onWrite path => (o.onWrite path, ())
    | .onDelete path => (o.onDelete path, ())

end Overlay

namespace OverlayCall

def path : OverlayCall → Str
  | onWrite path => path
  | onDelete path => path

def layer : OverlayCall → Layer
  | onWrite _ => .upper
  | onDelete _ => .whiteout

/-- A call for the path itself, or the deletion of a directory that it lies in. -/
def Concerns (p : Str) : OverlayCall → Prop
  | onWrite q => climbAll q = climbAll p
  | onDelete q => climbAll q <+: climbAll p

instance (p : Str) : DecidablePred (Concerns p)
  | onWrite q => inferInstanceAs (Decidable (climbAll q = climbAll p))
  | onDelete q => inferInstanceAs (Decidable (climbAll q <+: climbAll p))

end OverlayCall

/-- What a union mount answers: the last call that concerns the path decides. -/
def unionRead (p : Str) (inLower : Bool) (calls : List OverlayCall) : Layer :=
  calls.foldl (fun layer call => if call.Concerns p then call.layer else layer)
    (if inLower then .lower else .absent)

def lastLayer (cond : OverlayCall → Prop) [DecidablePred cond] (calls : List OverlayCall) :
    Option Layer :=
  ((calls.filter cond).getLast?).map OverlayCall.layer

namespace Overlay

theorem resolveRead_step (o : Overlay) (call : OverlayCall) (p : Str) (inLower : Bool) :
    (machine.step o call).1.resolveRead p inLower =
      if norm call.path = norm p then call.layer else o.resolveRead p inLower := by
  cases call with
  | onWrite q =>
    by_cases h : norm p = norm q <;>
      simp [machine, onWrite, resolveRead, OverlayCall.path, OverlayCall.layer, h, eq_comm]
  | onDelete q =>
    by_cases h : norm p = norm q <;>
      simp [machine, onDelete, resolveRead, OverlayCall.path, OverlayCall.layer, h, eq_comm]

theorem resolveRead_run (calls : List OverlayCall) (p : Str) (inLower : Bool) :
    (machine.run {} calls).resolveRead p inLower =
      (lastLayer (fun call => norm call.path = norm p) calls).getD
        (if inLower then .lower else .absent) := by
  induction calls using List.reverseRecOn with
  | nil => cases inLower <;> simp [resolveRead, lastLayer]
  | append_singleton calls call ih =>
    rw [CallMachine.run_append, CallMachine.run_cons, CallMachine.run_nil, resolveRead_step, ih]
    unfold lastLayer
    rw [filter_append]
    split_ifs with h <;> simp [h]

theorem unionRead_eq (calls : List OverlayCall) (p : Str) (inLower : Bool) :
    unionRead p inLower calls =
      (lastLayer (OverlayCall.Concerns p) calls).getD (if inLower then .lower else .absent) := by
  induction calls using List.reverseRecOn with
  | nil => rfl
  | append_singleton calls call ih =>
    unfold unionRead lastLayer at ih ⊢
    rw [foldl_concat, ih, filter_append]
    split_ifs with h <;> simp [h]

theorem lastLayer_ne (cond : OverlayCall → Prop) [DecidablePred cond] (calls : List OverlayCall)
    (inLower : Bool) : lastLayer cond calls ≠ some (if inLower then .lower else .absent) := by
  intro h
  obtain ⟨call, -, hlayer⟩ := Option.map_eq_some_iff.mp h
  cases call <;> cases inLower <;> cases hlayer

/-- An overlay answers as a union mount exactly if the last call with the same spelling decides as
the last call that concerns the path does. -/
theorem resolveRead_eq_unionRead_iff (calls : List OverlayCall) (p : Str) (inLower : Bool) :
    (machine.run {} calls).resolveRead p inLower = unionRead p inLower calls ↔
      lastLayer (fun call => norm call.path = norm p) calls =
        lastLayer (OverlayCall.Concerns p) calls := by
  rw [resolveRead_run, unionRead_eq]
  have hcode := lastLayer_ne (fun call => norm call.path = norm p) calls inLower
  have hunion := lastLayer_ne (OverlayCall.Concerns p) calls inLower
  generalize lastLayer (fun call => norm call.path = norm p) calls = code at hcode ⊢
  generalize lastLayer (OverlayCall.Concerns p) calls = union at hunion ⊢
  cases code <;> cases union <;> simp_all [eq_comm]

theorem deleted_directory_shows_file :
    (machine.run {} [.onDelete "/a".toList]).resolveRead "/a/b".toList true = .lower ∧
      unionRead "/a/b".toList true [.onDelete "/a".toList] = .whiteout := by decide +kernel

end Overlay

end EuroOS
