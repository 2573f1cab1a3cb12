import EuroOS.CallMachine

/-!
# Fault-driven swapping

A page that is swapped out keeps its page table entry, which is no longer
present and carries the number of its swap slot instead of a frame.  The page
tables are a partial map from address space and 4 KiB page to entries.  Page
table frames, the cache of translations and the statistics of the manager are
left out, and the manager is initialised.
-/

namespace EuroOS

abbrev Pte := BitVec 64

namespace Pte

def present : Pte := 1#64 <<< 0
def writable : Pte := 1#64 <<< 1
def user : Pte := 1#64 <<< 2
def accessed : Pte := 1#64 <<< 5
def dirty : Pte := 1#64 <<< 6
def swapped : Pte := 1#64 <<< 9
def userMark : Pte := 1#64 <<< 10
def noExecute : Pte := 1#64 <<< 63
def physMask : Pte := 0x000FFFFFFFFFF000#64

def has (e flag : Pte) : Bool := e &&& flag != 0

def frame (e : Pte) : BitVec 64 := e &&& physMask

def isSwapped (e : Pte) : Bool := !e.has present && e.has swapped

def slot (e : Pte) : Nat := (e >>> 12).toNat

def slotRead (e : Pte) : Nat := ((e >>> 12) &&& 0xFFFFF#64).toNat

def swappedOut (slot : Nat) (isUser : Bool) : Pte :=
  (BitVec.ofNat 64 slot <<< 12) ||| swapped ||| if isUser then userMark else 0

def swappedIn (frame : BitVec 64) (isUser : Bool) : Pte :=
  (frame &&& physMask) ||| present ||| writable ||| if isUser then user else 0

theorem has_bit (e : Pte) (hi : i < 64) : e.has (1#64 <<< i) = e.getLsbD i := by
  rw [has, ← BitVec.twoPow_eq, BitVec.and_twoPow]
  cases e.getLsbD i with
  | false => simp
  | true =>
    have : BitVec.twoPow 64 i ≠ 0#64 := by
      intro hzero
      have := congrArg (BitVec.getLsbD · i) hzero
      simp [hi] at this
    simpa using this

theorem getLsbD_physMask (i : Nat) : physMask.getLsbD i = (decide (12 ≤ i) && decide (i < 52)) := by
  have hmask : physMask = (BitVec.ofNat 64 (2 ^ 40 - 1)) <<< 12 := by decide
  rw [hmask, BitVec.getLsbD_shiftLeft, BitVec.getLsbD_ofNat, Nat.testBit_two_pow_sub_one]
  by_cases hlow : i < 12
  · simp [hlow]
  by_cases hhigh : i < 52
  · have : i < 64 ∧ i - 12 < 64 ∧ i - 12 < 40 := by omega
    simp [hlow, hhigh, this, Nat.not_lt.mp hlow]
  · have : ¬ i - 12 < 40 := by omega
    simp [hhigh, this]

theorem getLsbD_ite (b : Bool) (e : Pte) (i : Nat) :
    BitVec.getLsbD (if b then e else 0) i = (b && e.getLsbD i) := by cases b <;> simp

section bits

variable (e : Pte)

theorem has_present : e.has present = e.getLsbD 0 := e.has_bit (by norm_num)
theorem has_writable : e.has writable = e.getLsbD 1 := e.has_bit (by norm_num)
theorem has_user : e.has user = e.getLsbD 2 := e.has_bit (by norm_num)
theorem has_accessed : e.has accessed = e.getLsbD 5 := e.has_bit (by norm_num)
theorem has_swapped : e.has swapped = e.getLsbD 9 := e.has_bit (by norm_num)
theorem has_userMark : e.has userMark = e.getLsbD 10 := e.has_bit (by norm_num)
theorem has_noExecute : e.has noExecute = e.getLsbD 63 := e.has_bit (by norm_num)

end bits

theorem getLsbD_swappedOut (slot : Nat) (isUser : Bool) (i : Nat) :
    (swappedOut slot isUser).getLsbD i =
      ((decide (i < 64) && !decide (i < 12) && (BitVec.ofNat 64 slot).getLsbD (i - 12)) ||
        decide (i = 9) || (isUser && decide (i = 10))) := by
  have hswapped : swapped = BitVec.twoPow 64 9 := rfl
  have hmark : userMark = BitVec.twoPow 64 10 := rfl
  simp only [swappedOut, BitVec.getLsbD_or, BitVec.getLsbD_shiftLeft, getLsbD_ite, hswapped, hmark,
    BitVec.getLsbD_twoPow]
  have h9 : (decide (9 < 64) && decide (9 = i)) = decide (i = 9) := by simp [eq_comm]
  have h10 : (decide (10 < 64) && decide (10 = i)) = decide (i = 10) := by simp [eq_comm]
  rw [h9, h10]

variable (frame : BitVec 64)

theorem getLsbD_swappedIn (isUser : Bool) (i : Nat) :
    (swappedIn frame isUser).getLsbD i =
      ((frame.getLsbD i && (decide (12 ≤ i) && decide (i < 52))) || decide (i = 0) ||
        decide (i = 1) || (isUser && decide (i = 2))) := by
  have hpresent : present = BitVec.twoPow 64 0 := rfl
  have hwritable : writable = BitVec.twoPow 64 1 := rfl
  have huser : user = BitVec.twoPow 64 2 := rfl
  simp only [swappedIn, BitVec.getLsbD_or, BitVec.getLsbD_and, getLsbD_physMask, getLsbD_ite,
    hpresent, hwritable, huser, BitVec.getLsbD_twoPow]
  simp [eq_comm]

@[simp] theorem isSwapped_swappedOut (slot : Nat) (isUser : Bool) :
    (swappedOut slot isUser).isSwapped = true := by
  rw [isSwapped, has_present, has_swapped, getLsbD_swappedOut, getLsbD_swappedOut]
  simp

@[simp] theorem has_userMark_swappedOut (slot : Nat) (isUser : Bool) :
    (swappedOut slot isUser).has userMark = isUser := by
  rw [has_userMark, getLsbD_swappedOut]
  simp

theorem shiftRight_swappedOut {slot : Nat} (isUser : Bool) (hslot : slot < 2 ^ 52) :
    swappedOut slot isUser >>> 12 = BitVec.ofNat 64 slot := by
  apply BitVec.eq_of_getLsbD_eq
  intro i hi
  have h9 : 12 + i ≠ 9 := by omega
  have h10 : 12 + i ≠ 10 := by omega
  rw [BitVec.getLsbD_ushiftRight, getLsbD_swappedOut]
  by_cases hfits : 12 + i < 64
  · simp [hfits, h9, h10]
  -- the bits that the shift by twelve drops are clear in a slot number
  have hclear : slot.testBit i = false :=
    Nat.testBit_lt_two_pow (hslot.trans_le (Nat.pow_le_pow_right (by norm_num) (by omega)))
  simp [hfits, h9, h10, BitVec.getLsbD_ofNat, hclear]

theorem slot_swappedOut {slot : Nat} (isUser : Bool) (hslot : slot < 2 ^ 52) :
    (swappedOut slot isUser).slot = slot := by
  rw [Pte.slot, shiftRight_swappedOut isUser hslot, BitVec.toNat_ofNat]
  exact Nat.mod_eq_of_lt (hslot.trans (by norm_num))

theorem slotRead_eq (e : Pte) : e.slotRead = e.slot % 2 ^ 20 := by
  have hmask : (0xFFFFF#64).toNat = 2 ^ 20 - 1 := by norm_num
  rw [slotRead, BitVec.toNat_and, hmask, Nat.and_two_pow_sub_one_eq_mod, slot]

@[simp] theorem has_present_swappedIn (isUser : Bool) :
    (swappedIn frame isUser).has present = true := by
  rw [has_present, getLsbD_swappedIn]
  simp

@[simp] theorem has_writable_swappedIn (isUser : Bool) :
    (swappedIn frame isUser).has writable = true := by
  rw [has_writable, getLsbD_swappedIn]
  simp

@[simp] theorem has_user_swappedIn (isUser : Bool) :
    (swappedIn frame isUser).has user = isUser := by
  rw [has_user, getLsbD_swappedIn]
  simp

@[simp] theorem has_noExecute_swappedIn (isUser : Bool) :
    (swappedIn frame isUser).has noExecute = false := by
  rw [has_noExecute, getLsbD_swappedIn]
  simp

theorem frame_swappedIn (isUser : Bool) (hf : f &&& physMask = f) :
    (swappedIn f isUser).frame = f := by
  apply BitVec.eq_of_getLsbD_eq
  intro i hi
  have hbit := congrArg (BitVec.getLsbD · i) hf
  simp only [BitVec.getLsbD_and, getLsbD_physMask] at hbit
  rw [frame, BitVec.getLsbD_and, getLsbD_physMask, getLsbD_swappedIn, hbit]
  by_cases hlow : 12 ≤ i
  · have : i ≠ 0 ∧ i ≠ 1 ∧ i ≠ 2 := by omega
    by_cases hhigh : i < 52 <;> simp_all
  · simp_all

@[simp] theorem frame_and_physMask (e : Pte) : e.frame &&& physMask = e.frame := by
  rw [frame, BitVec.and_assoc, BitVec.and_self]

end Pte

/-! ## Swap slots -/

abbrev SwapArea := List Bool

namespace SwapArea

def new (slots : Nat) : SwapArea := List.replicate slots false

def alloc (area : SwapArea) : Option (SwapArea × Nat) :=
  (area.findIdx? (!·)).map fun slot => (area.set slot true, slot)

def free (area : SwapArea) (slot : Nat) : SwapArea := area.set slot false

def InUse (area : SwapArea) (slot : Nat) : Prop := area[slot]? = some true

end SwapArea

/-! ## The memory of the machine -/

abbrev Page (Sector : Type) := Fin 8 → Sector

structure SwapWorld (Sector : Type) where
  frames : BitVec 64 → Page Sector
  /-- The entry that the walk from a PML4 reaches for a page, if there is a table. -/
  ptes : Nat → Nat → Option Pte
  disk : Nat → Sector
  area : SwapArea
  pool : List (BitVec 64)
  baseLba : Nat
  hands : List (Nat × Nat)
  demand : List (BitVec 64)
  sharedFrames : List (BitVec 64)
  activePml4 : Nat

namespace SwapWorld

variable {Sector : Type}

/-- The page of a virtual address: the four table indices of the walk. -/
def pageOf (virt : Nat) : Nat := virt / 4096 % 2 ^ 36

def walkPteIn (w : SwapWorld Sector) (pml4 virt : Nat) : Option Pte := w.ptes pml4 (pageOf virt)

def setEntry (w : SwapWorld Sector) (pml4 page : Nat) (entry : Option Pte) : SwapWorld Sector :=
  { w with ptes := Function.update w.ptes pml4 (Function.update (w.ptes pml4) page entry) }

def setPte (w : SwapWorld Sector) (pml4 virt : Nat) (e : Pte) : SwapWorld Sector :=
  w.setEntry pml4 (pageOf virt) (some e)

def writeSectors (w : SwapWorld Sector) (lba : Nat) (page : Page Sector) : SwapWorld Sector :=
  { w with disk := fun l => if h : lba ≤ l ∧ l < lba + 8 then page ⟨l - lba, by omega⟩ else w.disk l }

def readSectors (w : SwapWorld Sector) (lba : Nat) : Page Sector := fun s => w.disk (lba + s)

def slotLba (w : SwapWorld Sector) (slot : Nat) : Nat := w.baseLba + slot * 8

def swapOutIn (w : SwapWorld Sector) (pml4 virt : Nat) :
    SwapWorld Sector × Option (BitVec 64) :=
  match w.walkPteIn pml4 virt with
  | none => (w, none)
  | some e =>
    if !e.has .present then (w, none)
    else
      match w.area.alloc with
      | none => (w, none) -- swap full
      | some (area, slot) =>
        let w := { w with area }.writeSectors (w.slotLba slot) (w.frames e.frame)
        (w.setPte pml4 virt (.swappedOut slot (e.has .user)), some e.frame)

def evictLoop (w : SwapWorld Sector) (pml4 base stop : Nat) :
    Nat → Nat → SwapWorld Sector × Option (BitVec 64)
  | 0, _ => (w, none)
  | budget + 1, position =>
    let virt := if stop ≤ position then base else position
    match w.walkPteIn pml4 virt with
    -- no table here: the whole 2 MiB region is skipped
    | none => w.evictLoop pml4 base stop budget ((virt + 2 ^ 21) / 2 ^ 21 * 2 ^ 21)
    | some e =>
      if e.has .present && e.has .user then
        if e.has .accessed then
          (w.setPte pml4 virt (e &&& ~~~Pte.accessed)).evictLoop pml4 base stop budget
            (virt + 4096)
        else
          match w.swapOutIn pml4 virt with
          | (w, some frame) =>
            ({ w with hands := w.hands.map fun h =>
                if h.1 = pml4 then (pml4, virt + 4096) else h }, some frame)
          | (w, none) => w.evictLoop pml4 base stop budget (virt + 4096)
      else w.evictLoop pml4 base stop budget (virt + 4096)

def evictDemand (w : SwapWorld Sector) (pml4 base stop : Nat) :
    SwapWorld Sector × Option (BitVec 64) :=
  if stop ≤ base then (w, none)
  else
    let (w, start) :=
      match w.hands.find? (·.1 = pml4) with
      | some (_, virt) => (w, virt)
      | none => ({ w with hands := w.hands ++ [(pml4, base)] }, base)
    w.evictLoop pml4 base stop (max ((stop - base) / 4096 * 3) 100000)
      (max start base / 4096 * 4096)

/-- What `swap_in_into` and `try_swap_in` do with the entry of a swapped-out page once they have
a frame. -/
def swapInEntry (w : SwapWorld Sector) (virt : Nat) (e : Pte) (frame : BitVec 64) :
    SwapWorld Sector :=
  let w := { w with
    frames := Function.update w.frames frame (w.readSectors (w.slotLba e.slotRead)) }
  let w := w.setPte w.activePml4 virt (.swappedIn frame (e.has .userMark))
  { w with area := w.area.free e.slotRead }

def popPool (w : SwapWorld Sector) : SwapWorld Sector × Option (BitVec 64) :=
  ({ w with pool := w.pool.tail }, w.pool.head?)

def demandAlloc (w : SwapWorld Sector) : SwapWorld Sector × Option (BitVec 64) :=
  ({ w with demand := w.demand.tail }, w.demand.head?)

def swapInInto (w : SwapWorld Sector) (virt : Nat) (frame : Option (BitVec 64)) :
    SwapWorld Sector × Bool :=
  match w.walkPteIn w.activePml4 virt with
  | none => (w, false)
  | some e =>
    if !e.isSwapped then (w, false)
    else
      match frame with
      | some f => (w.swapInEntry virt e f, true)
      | none =>
        match w.popPool with
        | (w, some f) => (w.swapInEntry virt e f, true)
        | (w, none) => (w, false)

def trySwapIn (w : SwapWorld Sector) (virt : Nat) : SwapWorld Sector × Bool :=
  match w.walkPteIn w.activePml4 virt with
  | none => (w, false)
  | some e =>
    if !e.isSwapped then (w, false)
    else
      match if e.has .userMark then w.demandAlloc else (w, none) with
      | (w, some f) => (w.swapInEntry virt e f, true)
      | (w, none) =>
        match w.popPool with
        | (w, some f) => (w.swapInEntry virt e f, true)
        | (w, none) => (w, false)

def freeEntry (keep : List (BitVec 64)) (w : SwapWorld Sector) (e : Pte) : SwapWorld Sector :=
  if e.has .present then
    if e.frame ∈ keep then w else { w with demand := e.frame :: w.demand }
  else if e.has .swapped then { w with area := w.area.free e.slotRead }
  else w

@[irreducible] def regionPages (idx : Nat) : List Nat := List.range' (idx * 2 ^ 27) (2 ^ 27)

def freeDemandRegionExcept (w : SwapWorld Sector) (pml4 idx : Nat) (keep : List (BitVec 64)) :
    SwapWorld Sector :=
  let freed := ((regionPages idx).filterMap (w.ptes pml4)).foldl (freeEntry keep) w
  { freed with ptes := Function.update w.ptes pml4 fun page =>
      if page / 2 ^ 27 = idx then none else w.ptes pml4 page }

def access (w : SwapWorld Sector) (virt : Nat) (write : Option (Page Sector)) : SwapWorld Sector :=
  match w.walkPteIn w.activePml4 virt with
  | none => w
  | some e =>
    if e.has .present then
      match write with
      | none => w.setPte w.activePml4 virt (e ||| .accessed)
      | some page =>
        if e.has .writable then
          { w with frames := Function.update w.frames e.frame page }.setPte w.activePml4 virt
            (e ||| Pte.accessed ||| Pte.dirty)
        else w -- a fault
    else w

end SwapWorld

end EuroOS
