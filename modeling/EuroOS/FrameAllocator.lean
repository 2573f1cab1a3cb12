import EuroOS.Bitmap
import EuroOS.CallMachine

/-!
# The physical frame allocator

One bit per 4 KiB frame, 64 frames to a word; a set bit is a frame in use.  Sums of
addresses and frame numbers are 64-bit and wrap, as in the release build.
-/

namespace EuroOS

open List

def pageSize : Nat := 4096

structure MemoryRegion where
  start : Nat
  len : Nat
  usable : Bool
  deriving DecidableEq

inductive FrameError
  | outOfMemory
  | doubleFree
  | outOfBounds
  deriving DecidableEq

structure FrameAllocator where
  bitmap : Bitmap
  totalFrames : Nat
  freeFrames : Nat
  usableTotal : Nat
  hint : Nat
  doubleFrees : Nat
  trace : Option (List (Nat × Nat))
  highWater : Nat
  deriving DecidableEq

namespace FrameAllocator

def new (totalFrames : Nat) : FrameAllocator where
  bitmap := List.replicate ((totalFrames + 63) / 64) (BitVec.allOnes 64)
  totalFrames := totalFrames
  freeFrames := 0
  usableTotal := 0
  hint := 0
  doubleFrees := 0
  trace := none
  highWater := 0

def setRange (a : FrameAllocator) (start len : Nat) (used : Bool) : FrameAllocator :=
  let first := start / pageSize
  let count := len / pageSize
  { a with
    bitmap := (List.range' first (min (first + count) a.totalFrames - first)).foldl
      (fun m f => if used then m.setBit f else m.clearBit f) a.bitmap }

def recount (a : FrameAllocator) : FrameAllocator :=
  { a with freeFrames := (List.range a.totalFrames).countP fun f => !a.bitmap.test f }

def highest (regions : List MemoryRegion) : Nat :=
  ((regions.filter (·.usable)).map fun r => (r.start + r.len) % 2 ^ 64).foldl max 0

def fromRegions (regions : List MemoryRegion) (reserveBelow : Nat) : FrameAllocator :=
  let a := new (highest regions / pageSize)
  let a := (regions.filter (·.usable)).foldl (fun a r => a.setRange r.start r.len false) a
  let a := (regions.filter (!·.usable)).foldl (fun a r => a.setRange r.start r.len true) a
  let a := (a.setRange 0 reserveBelow true).recount
  { a with usableTotal := a.freeFrames }

def noteAlloc (a : FrameAllocator) (base count : Nat) : FrameAllocator :=
  { a with trace := a.trace.map fun t => t ++ [(base, count)] }

def noteHighWater (a : FrameAllocator) : FrameAllocator :=
  { a with highWater := max a.highWater (a.usableTotal - a.freeFrames) }

def searchOrder (a : FrameAllocator) : List Nat :=
  List.range' a.hint (a.bitmap.length - a.hint) ++ List.range a.hint

def allocateInner (a : FrameAllocator) : FrameAllocator × Except FrameError Nat :=
  let word w := a.bitmap.getD w 0
  let frame w := w * 64 + trailingOnes (word w)
  match a.searchOrder.find? fun w => word w ≠ BitVec.allOnes 64 ∧ frame w < a.totalFrames with
  | none => (a, .error .outOfMemory)
  | some w =>
    let a := noteHighWater
      { a with bitmap := a.bitmap.setBit (frame w), freeFrames := a.freeFrames - 1 }
    ({ a with hint := w }, .ok (frame w * pageSize))

def allocate (a : FrameAllocator) : FrameAllocator × Except FrameError Nat :=
  match a.allocateInner with
  | (a, .error e) => (a, .error e)
  | (a, .ok base) => (a.noteAlloc base 1, .ok base)

def firstUsedFrom (a : FrameAllocator) (stop : Nat) : Nat → Nat → Option Nat
  | 0, _ => none
  | fuel + 1, f =>
    if stop ≤ f then none
    else
      let word := wordWindow (a.bitmap.getD (f / 64) 0) (f % 64) (min 64 (stop - f / 64 * 64))
      if word ≠ 0 then some (f + trailingZeros word)
      else firstUsedFrom a stop fuel ((f / 64 + 1) * 64)

def firstUsedIn (a : FrameAllocator) (start len : Nat) : Option Nat :=
  let stop := (start + len) % 2 ^ 64
  a.firstUsedFrom stop (stop - start) start

def markRun (a : FrameAllocator) (f count : Nat) : Option FrameAllocator :=
  if a.bitmap.length * 64 < f + count then none
  else some
    ((noteHighWater
      { a with
        bitmap := (List.range' f count).foldl (fun m f => m.setBit f) a.bitmap
        freeFrames := a.freeFrames - count }).noteAlloc (f * pageSize) count)

inductive Answer
  | run (base : Nat)
  | failed (e : FrameError)
  | panicked
  deriving DecidableEq

def searchRun (a : FrameAllocator) (count : Nat) (next : Nat → Nat) :
    Nat → Nat → FrameAllocator × Answer
  | 0, _ => (a, .panicked)
  | fuel + 1, f =>
    if a.totalFrames < (f + count) % 2 ^ 64 then (a, .failed .outOfMemory)
    else
      match a.firstUsedIn f count with
      | some p => searchRun a count next fuel (next p)
      | none =>
        match a.markRun f count with
        | none => (a, .panicked)
        | some a' => (a', .run (f * pageSize))

def allocateContiguous (a : FrameAllocator) (count : Nat) : FrameAllocator × Answer :=
  if count = 0 then (a, .failed .outOfBounds)
  else a.searchRun count (fun p => p + 1) (a.totalFrames + 1) 0

def roundUp (align x : Nat) : Nat := (x + align - 1) / align * align % 2 ^ 64

def allocateAligned (a : FrameAllocator) (count align : Nat) : FrameAllocator × Answer :=
  if count = 0 ∨ align = 0 then (a, .failed .outOfBounds)
  else a.searchRun count (fun p => roundUp align (p + 1)) (a.totalFrames + 1) 0

def free (a : FrameAllocator) (phys : Nat) : FrameAllocator × Except FrameError Unit :=
  let frame := phys / pageSize
  if a.totalFrames ≤ frame then (a, .error .outOfBounds)
  else if a.bitmap.test frame = false then
    ({ a with doubleFrees := a.doubleFrees + 1 }, .error .doubleFree)
  else
    ({ a with
      bitmap := a.bitmap.clearBit frame
      freeFrames := a.freeFrames + 1
      hint := if frame / 64 < a.hint then frame / 64 else a.hint }, .ok ())

/-! ## The set of free frames -/

def freeSet (a : FrameAllocator) : Finset Nat :=
  (Finset.range a.totalFrames).filter fun f => a.bitmap.test f = false

/-- The bitmap has a bit for every frame and marks the rest of its last word as in
use; the counter counts the free frames. -/
structure WellFormed (a : FrameAllocator) : Prop where
  length : a.bitmap.length = (a.totalFrames + 63) / 64
  tail : ∀ f, a.totalFrames ≤ f → f < a.bitmap.length * 64 → a.bitmap.test f = true
  counter : a.freeFrames = a.freeSet.card
  hint_le : a.hint ≤ a.bitmap.length
  total_le : a.totalFrames ≤ 2 ^ 52

variable {a : FrameAllocator}

variable {f count : Nat} {b : FrameAllocator}

theorem mem_freeSet : f ∈ a.freeSet ↔ f < a.totalFrames ∧ a.bitmap.test f = false := by
  simp [freeSet]

theorem countP_range (n : Nat) (p : Nat → Bool) :
    (List.range n).countP p = ((Finset.range n).filter fun f => p f = true).card := by
  rw [Finset.card_def, Finset.filter_val, Finset.range_val, Multiset.range, Multiset.filter_coe,
    Multiset.coe_card, countP_eq_length_filter]
  simp

theorem WellFormed.bit_lt (h : a.WellFormed) (hf : f < a.totalFrames) :
    f / 64 < a.bitmap.length := by
  rw [h.length]
  omega

theorem freeSet_of_bitmap (htotal : b.totalFrames = a.totalFrames)
    (hbits : ∀ f, f < a.totalFrames → b.bitmap.test f = (decide (f ∈ taken) || a.bitmap.test f)) :
    b.freeSet = a.freeSet \ taken := by
  ext f
  simp only [Finset.mem_sdiff, mem_freeSet, htotal]
  constructor
  · rintro ⟨hf, hbit⟩
    rw [hbits f hf, Bool.or_eq_false_iff, decide_eq_false_iff_not] at hbit
    exact ⟨⟨hf, hbit.2⟩, hbit.1⟩
  · rintro ⟨⟨hf, hbit⟩, htaken⟩
    exact ⟨hf, by simp [hbits f hf, hbit, htaken]⟩

structure Takes (a : FrameAllocator) (taken : Finset Nat) (b : FrameAllocator) : Prop where
  wellFormed : b.WellFormed
  freeSet : b.freeSet = a.freeSet \ taken
  total : b.totalFrames = a.totalFrames

theorem WellFormed.take (h : a.WellFormed) (htaken : taken ⊆ a.freeSet)
    (htotal : b.totalFrames = a.totalFrames) (hlength : b.bitmap.length = a.bitmap.length)
    (hbits : ∀ f, b.bitmap.test f = (decide (f ∈ taken) || a.bitmap.test f))
    (hfree : b.freeFrames = a.freeFrames - taken.card) (hhint : b.hint ≤ a.bitmap.length) :
    a.Takes taken b := by
  have hset := freeSet_of_bitmap htotal fun f _ => hbits f
  refine ⟨⟨by rw [hlength, htotal, h.length], ?_, ?_, by rwa [hlength], htotal ▸ h.total_le⟩,
    hset, htotal⟩
  · intro f hf hlt
    rw [htotal] at hf
    rw [hlength] at hlt
    simp [hbits, h.tail f hf hlt]
  · rw [hset, Finset.card_sdiff_of_subset htaken, hfree, h.counter]

/-! ## Searching a window -/

theorem firstUsedFrom_spec (stop fuel f : Nat) (hfuel : stop ≤ fuel + f) :
    match a.firstUsedFrom stop fuel f with
    | none => ∀ g, f ≤ g → g < stop → a.bitmap.test g = false
    | some p => f ≤ p ∧ p < stop ∧ a.bitmap.test p = true := by
  induction fuel generalizing f with
  | zero =>
    simp only [firstUsedFrom]
    intro g hg hlt
    omega
  | succ fuel ih =>
    unfold firstUsedFrom
    by_cases hstop : stop ≤ f
    · simp only [hstop, if_true]
      intro g hg hlt
      omega
    rw [if_neg hstop]
    dsimp only
    -- the bits of the window are the frames from `f` to the end of the word or of the run
    have hwindow (j : Nat) :
        (wordWindow (a.bitmap.getD (f / 64) 0) (f % 64) (min 64 (stop - f / 64 * 64))).getLsbD j =
          (decide (f + j < min ((f / 64 + 1) * 64) stop) && a.bitmap.test (f + j)) := by
      rw [getLsbD_wordWindow (by omega) (by omega)]
      by_cases hj : f % 64 + j < min 64 (stop - f / 64 * 64)
      · have hin : f + j < min ((f / 64 + 1) * 64) stop := by omega
        have hdiv : (f + j) / 64 = f / 64 := by omega
        have hmod : (f + j) % 64 = f % 64 + j := by omega
        simp [hj, hin, Bitmap.test, hdiv, hmod]
      · have hin : ¬ f + j < min ((f / 64 + 1) * 64) stop := by omega
        simp [hj, hin]
    split_ifs with hword
    · have hspec := trailingZeros_spec hword
      have hbit := hspec.2.1
      rw [hwindow, Bool.and_eq_true, decide_eq_true_eq] at hbit
      exact ⟨by omega, by omega, hbit.2⟩
    rw [not_not] at hword
    have hnone (g : Nat) (hg : f ≤ g) (hlt : g < min ((f / 64 + 1) * 64) stop) :
        a.bitmap.test g = false := by
      have hzero := hwindow (g - f)
      rw [hword, show f + (g - f) = g by omega] at hzero
      simpa [hlt] using hzero.symm
    have hrest := ih (f := (f / 64 + 1) * 64) (by omega)
    split at hrest
    · intro g hg hlt
      by_cases hnear : g < (f / 64 + 1) * 64
      · exact hnone g hg (by omega)
      · exact hrest g (by omega) hlt
    · exact ⟨by omega, hrest.2⟩

theorem firstUsedIn_none (hfits : start + len < 2 ^ 64) (h : a.firstUsedIn start len = none) :
    ∀ g, start ≤ g → g < start + len → a.bitmap.test g = false := by
  have hspec := a.firstUsedFrom_spec (start + len) len start (by omega)
  simp only [firstUsedIn, Nat.mod_eq_of_lt hfits, Nat.add_sub_cancel_left] at h
  rwa [h] at hspec

theorem firstUsedIn_some (hfits : start + len < 2 ^ 64) (h : a.firstUsedIn start len = some p) :
    start ≤ p ∧ p < start + len ∧ a.bitmap.test p = true := by
  have hspec := a.firstUsedFrom_spec (start + len) len start (by omega)
  simp only [firstUsedIn, Nat.mod_eq_of_lt hfits, Nat.add_sub_cancel_left] at h
  rwa [h] at hspec

/-! ## Handing out runs of frames -/

def runOf (f count : Nat) : Finset Nat := Finset.Ico f (f + count)

/-- A run that a request for `count` frames at a multiple of `align` can be given. -/
def Suitable (a : FrameAllocator) (count align f : Nat) : Prop :=
  0 < count ∧ 0 < align ∧ align ∣ f ∧ runOf f count ⊆ a.freeSet

theorem Suitable.fits (h : a.Suitable count align f) : f + count ≤ a.totalFrames := by
  have hpos := h.1
  have hlast : f + count - 1 ∈ a.freeSet := h.2.2.2 (by simp [runOf]; omega)
  have := (mem_freeSet.mp hlast).1
  omega

theorem markRun_spec (h : a.WellFormed) (hrun : runOf f count ⊆ a.freeSet)
    (hfits : f + count ≤ a.totalFrames) :
    ∃ b, a.markRun f count = some b ∧ a.Takes (runOf f count) b := by
  have hbound : ¬ a.bitmap.length * 64 < f + count := by
    have := h.length
    omega
  refine ⟨_, if_neg hbound, ?_⟩
  refine h.take hrun rfl (by simp [noteAlloc, noteHighWater]) (fun g => ?_) ?_ h.hint_le
  · have hmem : g ∈ runOf f count ↔ g ∈ List.range' f count := by simp [runOf, mem_range'_1]
    simp only [noteAlloc, noteHighWater, hmem]
    refine Bitmap.test_foldl_setBit (fun i hi => h.bit_lt ?_) g
    rw [mem_range'_1] at hi
    omega
  · simp [noteAlloc, noteHighWater, runOf]

def ceilMul (align x : Nat) : Nat := (x + align - 1) / align * align

theorem ceilMul_spec (hpos : 0 < align) (x : Nat) :
    align ∣ ceilMul align x ∧ x ≤ ceilMul align x ∧ ceilMul align x ≤ x + align - 1 ∧
      ∀ g, align ∣ g → x ≤ g → ceilMul align x ≤ g := by
  refine ⟨Nat.dvd_mul_left _ _, ?_, Nat.div_mul_le_self _ _, ?_⟩
  · have := Nat.lt_div_mul_add hpos (a := x + align - 1)
    unfold ceilMul
    omega
  · rintro g ⟨k, rfl⟩ hle
    have hlt : (x + align - 1) / align < k + 1 := by
      rw [Nat.div_lt_iff_lt_mul hpos, Nat.succ_mul]
      rw [Nat.mul_comm] at hle
      omega
    rw [ceilMul, Nat.mul_comm align k]
    exact Nat.mul_le_mul_right _ (by omega)

/-- What a request for `count` frames at a multiple of `align` may do: hand out a free
run and take it from the free set, or fail because there is no such run. -/
def Answered (a : FrameAllocator) (count align : Nat) (b : FrameAllocator) : Answer → Prop
  | .run base => ∃ f, base = f * pageSize ∧ a.Suitable count align f ∧
      a.Takes (runOf f count) b
  | .failed _ => b = a ∧ ∀ f, ¬ a.Suitable count align f
  | .panicked => False

variable (h : a.WellFormed)
include h

theorem searchRun_spec {next : Nat → Nat} (hcount : 0 < count) (halign : 0 < align)
    (hsmall : count ≤ a.totalFrames → align + count < 2 ^ 64)
    (hnext : ∀ p, p < a.totalFrames → p + align < 2 ^ 64 → next p = ceilMul align (p + 1))
    (hfuel : a.totalFrames ≤ fuel + f) (hdvd : align ∣ f) (hf : f + count < 2 ^ 64)
    (hbefore : ∀ g < f, ¬ a.Suitable count align g)
    (hsearch : a.searchRun count next (fuel + 1) f = (b, answer)) :
    a.Answered count align b answer := by
  induction fuel generalizing f with
  | zero =>
    have hlt : a.totalFrames < (f + count) % 2 ^ 64 := by
      rw [Nat.mod_eq_of_lt hf]
      omega
    simp only [searchRun, hlt, if_true, Prod.mk.injEq] at hsearch
    obtain ⟨rfl, rfl⟩ := hsearch
    refine ⟨rfl, fun g hg => ?_⟩
    have := hg.fits
    exact hbefore g (by omega) hg
  | succ fuel ih =>
    unfold searchRun at hsearch
    rw [Nat.mod_eq_of_lt hf] at hsearch
    by_cases hend : a.totalFrames < f + count
    · rw [if_pos hend, Prod.mk.injEq] at hsearch
      obtain ⟨rfl, rfl⟩ := hsearch
      refine ⟨rfl, fun g hg => ?_⟩
      have := hg.fits
      exact hbefore g (by omega) hg
    rw [if_neg hend] at hsearch
    cases hused : a.firstUsedIn f count with
    | none =>
      have hrun : runOf f count ⊆ a.freeSet := by
        intro g hg
        simp only [runOf, Finset.mem_Ico] at hg
        exact mem_freeSet.mpr ⟨by omega, firstUsedIn_none hf hused g hg.1 hg.2⟩
      obtain ⟨b', hmark, htakes⟩ := markRun_spec h hrun (by omega)
      simp only [hused, hmark, Prod.mk.injEq] at hsearch
      obtain ⟨rfl, rfl⟩ := hsearch
      exact ⟨f, rfl, ⟨hcount, halign, hdvd, hrun⟩, htakes⟩
    | some p =>
      obtain ⟨hfp, hlt, hbit⟩ := firstUsedIn_some hf hused
      have hwide := h.total_le
      have hceil := ceilMul_spec halign (p + 1)
      have hsum : p + align < 2 ^ 64 := by
        rcases Nat.eq_zero_or_pos f with hzero | hpos
        · omega
        · have := Nat.le_of_dvd hpos hdvd
          omega
      simp only [hused, hnext p (by omega) hsum] at hsearch
      refine ih (by omega) hceil.1 ?_ ?_ hsearch
      · -- a multiple beyond the frames is the alignment itself, which still fits
        by_cases hbig : align ≤ p + 1
        · omega
        · have : ceilMul align (p + 1) ≤ align := hceil.2.2.2 align (dvd_refl _) (by omega)
          omega
      · intro g hg hsuit
        by_cases hgf : g < f
        · exact hbefore g hgf hsuit
        -- the window at `g` would contain the frame `p`, which is in use
        have hgp : g ≤ p := by
          by_contra hgp
          have := hceil.2.2.2 g hsuit.2.2.1 (by omega)
          omega
        have hmem : p ∈ a.freeSet := hsuit.2.2.2 (by simp [runOf]; omega)
        simp [mem_freeSet, hbit] at hmem

theorem allocateContiguous_spec (hcount : count < 2 ^ 64) :
    a.Answered count 1 (a.allocateContiguous count).1 (a.allocateContiguous count).2 := by
  unfold allocateContiguous
  split_ifs with hzero
  · exact ⟨rfl, fun f hf => by have := hf.1; omega⟩
  have hwide := h.total_le
  refine searchRun_spec h (by omega) (by omega) (by omega) (fun p _ _ => by simp [ceilMul])
    (Nat.le_refl _) (one_dvd _) (by omega) (fun g hg => by omega) rfl

theorem allocateAligned_spec (hcount : count < 2 ^ 64)
    (hsmall : count ≤ a.totalFrames → align + count < 2 ^ 64) :
    a.Answered count align (a.allocateAligned count align).1 (a.allocateAligned count align).2 := by
  unfold allocateAligned
  split_ifs with hzero
  · exact ⟨rfl, fun f hf => by have := hf.1; have := hf.2.1; omega⟩
  refine searchRun_spec h (by omega) (by omega) hsmall (fun p _ hlt => ?_)
    (Nat.le_refl _) (dvd_zero _) (by omega) (fun g hg => by omega) rfl
  have hceil := (ceilMul_spec (show 0 < align by omega) (p + 1)).2.2.1
  have hfits : ceilMul align (p + 1) < 2 ^ 64 := by omega
  simpa [roundUp, ceilMul] using Nat.mod_eq_of_lt hfits

theorem mem_searchOrder : w ∈ a.searchOrder ↔ w < a.bitmap.length := by
  have := h.hint_le
  simp only [searchOrder, mem_append, mem_range'_1, mem_range]
  omega

/-- The first zero bit of a word that is not full belongs to a frame, since the bits
beyond the last frame are set. -/
theorem WellFormed.first_zero (hw : w < a.bitmap.length)
    (hfull : a.bitmap.getD w 0 ≠ BitVec.allOnes 64) :
    w * 64 + trailingOnes (a.bitmap.getD w 0) ∈ a.freeSet := by
  obtain ⟨hlt, hbit⟩ := trailingOnes_spec hfull
  have htest : a.bitmap.test (w * 64 + trailingOnes (a.bitmap.getD w 0)) = false := by
    have hdiv : (w * 64 + trailingOnes (a.bitmap.getD w 0)) / 64 = w := by omega
    have hmod : (w * 64 + trailingOnes (a.bitmap.getD w 0)) % 64 =
        trailingOnes (a.bitmap.getD w 0) := by omega
    rw [Bitmap.test, hdiv, hmod, hbit]
  refine mem_freeSet.mpr ⟨?_, htest⟩
  by_contra hge
  have hset := h.tail _ (Nat.not_lt.mp hge) (by omega)
  rw [htest] at hset
  exact Bool.false_ne_true hset

theorem allocateInner_cases :
    (a.allocateInner = (a, .error .outOfMemory) ∧ a.freeSet = ∅) ∨
    ∃ f ∈ a.freeSet, ∃ w < a.bitmap.length, a.allocateInner =
      ({ noteHighWater
          { a with bitmap := a.bitmap.setBit f, freeFrames := a.freeFrames - 1 } with
        hint := w }, .ok (f * pageSize)) := by
  unfold allocateInner
  dsimp only
  split
  · rename_i hfind
    refine .inl ⟨rfl, Finset.eq_empty_of_forall_notMem fun f hf => ?_⟩
    obtain ⟨hlt, hbit⟩ := mem_freeSet.mp hf
    have hw := h.bit_lt hlt
    have hfull : a.bitmap.getD (f / 64) 0 ≠ BitVec.allOnes 64 := by
      intro hfull
      rw [Bitmap.test, hfull, BitVec.getLsbD_allOnes] at hbit
      simp at hbit
      omega
    have hzero := (mem_freeSet.mp (h.first_zero hw hfull)).1
    have hnot := find?_eq_none.mp hfind _ ((mem_searchOrder h).mpr hw)
    rw [decide_eq_true_eq] at hnot
    exact hnot ⟨hfull, hzero⟩
  · rename_i w hfind
    have hw := (mem_searchOrder h).mp (mem_of_find?_eq_some hfind)
    have hword := find?_some hfind
    rw [decide_eq_true_eq] at hword
    exact .inr ⟨_, h.first_zero hw hword.1, w, hw, rfl⟩

theorem allocate_spec :
    (a.allocate = (a, .error .outOfMemory) ∧ a.freeSet = ∅) ∨
    ∃ f ∈ a.freeSet, ∃ b, a.allocate = (b, .ok (f * pageSize)) ∧ a.Takes (runOf f 1) b := by
  obtain ⟨hfail, hempty⟩ | ⟨f, hf, w, hw, hok⟩ := allocateInner_cases h
  · exact .inl ⟨by rw [allocate, hfail], hempty⟩
  refine .inr ⟨f, hf, _, by rw [allocate, hok], ?_⟩
  refine h.take (by simpa [runOf] using hf) rfl (by simp [noteAlloc, noteHighWater])
    (fun g => ?_) (by simp [noteAlloc, noteHighWater, runOf]) hw.le
  have hbit := Bitmap.test_setBit (h.bit_lt (mem_freeSet.mp hf).1) g
  simpa [noteAlloc, noteHighWater, runOf, eq_comm] using hbit

theorem free_spec (hf : f < a.totalFrames) (hused : f ∉ a.freeSet) (hphys : phys / pageSize = f) :
    (a.free phys).2 = .ok () ∧ (a.free phys).1.WellFormed ∧
      (a.free phys).1.freeSet = insert f a.freeSet ∧
      (a.free phys).1.totalFrames = a.totalFrames := by
  have hbit : a.bitmap.test f = true := by
    by_contra hbit
    exact hused (mem_freeSet.mpr ⟨hf, by simpa using hbit⟩)
  have hfree : a.free phys = ({ a with
      bitmap := a.bitmap.clearBit f
      freeFrames := a.freeFrames + 1
      hint := if f / 64 < a.hint then f / 64 else a.hint }, .ok ()) := by
    simp [free, hphys, Nat.not_le.mpr hf, hbit]
  have hset : (a.free phys).1.freeSet = insert f a.freeSet := by
    ext g
    rw [hfree]
    simp only [Finset.mem_insert, mem_freeSet, Bitmap.test_clearBit]
    by_cases hg : f = g
    · subst hg
      simp [hf]
    · simp [hg, Ne.symm hg]
  refine ⟨by rw [hfree], ⟨?_, ?_, ?_, ?_, ?_⟩, hset, by rw [hfree]⟩
  · rw [hfree]
    simpa using h.length
  · intro g hg hlt
    rw [hfree] at hg hlt ⊢
    have hne : f ≠ g := by
      dsimp only at hg
      omega
    simpa [Bitmap.test_clearBit, hne] using h.tail g hg (by simpa using hlt)
  · rw [hset, Finset.card_insert_of_notMem hused, ← h.counter, hfree]
  · rw [hfree]
    dsimp only
    rw [Bitmap.length_clearBit]
    split_ifs with hlt
    · exact hlt.le.trans h.hint_le
    · exact h.hint_le
  · rw [hfree]
    exact h.total_le

omit h

/-! ## Building the allocator from the memory map -/

def Covers (r : MemoryRegion) (f : Nat) : Prop :=
  r.start / pageSize ≤ f ∧ f < r.start / pageSize + r.len / pageSize

instance (r : MemoryRegion) (f : Nat) : Decidable (Covers r f) :=
  inferInstanceAs (Decidable (_ ∧ _))

theorem mem_setRange (hf : f < total) :
    f ∈ List.range' (start / pageSize)
        (min (start / pageSize + len / pageSize) total - start / pageSize) ↔
      start / pageSize ≤ f ∧ f < start / pageSize + len / pageSize := by
  rw [mem_range'_1]
  omega

theorem setRange_free (a : FrameAllocator) (start len : Nat) :
    (a.setRange start len false).bitmap = (List.range' (start / pageSize)
      (min (start / pageSize + len / pageSize) a.totalFrames - start / pageSize)).foldl
        Bitmap.clearBit a.bitmap := rfl

theorem setRange_used (a : FrameAllocator) (start len : Nat) :
    (a.setRange start len true).bitmap = (List.range' (start / pageSize)
      (min (start / pageSize + len / pageSize) a.totalFrames - start / pageSize)).foldl
        Bitmap.setBit a.bitmap := rfl

structure SameShape (a b : FrameAllocator) : Prop where
  total : b.totalFrames = a.totalFrames
  length : b.bitmap.length = a.bitmap.length
  hint : b.hint = a.hint
  beyond : ∀ f, a.totalFrames ≤ f → b.bitmap.test f = a.bitmap.test f

theorem SameShape.refl (a : FrameAllocator) : SameShape a a := ⟨rfl, rfl, rfl, fun _ _ => rfl⟩

theorem SameShape.trans {a c : FrameAllocator} (h : SameShape a b) (h' : SameShape b c) :
    SameShape a c where
  total := h'.total.trans h.total
  length := h'.length.trans h.length
  hint := h'.hint.trans h.hint
  beyond f hf := (h'.beyond f (h.total ▸ hf)).trans (h.beyond f hf)

def HasBits (a : FrameAllocator) : Prop := a.totalFrames ≤ a.bitmap.length * 64

theorem SameShape.hasBits {a : FrameAllocator} (h : SameShape a b) (ha : a.HasBits) :
    b.HasBits := by
  unfold HasBits at *
  rwa [h.total, h.length]

theorem setRange_spec (ha : a.HasBits) (start len : Nat) (used : Bool) :
    SameShape a (a.setRange start len used) ∧ ∀ f, f < a.totalFrames →
      (a.setRange start len used).bitmap.test f =
        if start / pageSize ≤ f ∧ f < start / pageSize + len / pageSize then used
        else a.bitmap.test f := by
  have hin (f : Nat) (hf : f ∈ List.range' (start / pageSize)
      (min (start / pageSize + len / pageSize) a.totalFrames - start / pageSize)) :
      f < a.totalFrames := by
    rw [mem_range'_1] at hf
    omega
  have hword (f : Nat) (hf : f < a.totalFrames) : f / 64 < a.bitmap.length := by
    unfold HasBits at ha
    omega
  cases used with
  | true =>
    have htest := Bitmap.test_foldl_setBit fun f hf => hword f (hin f hf)
    refine ⟨⟨rfl, by simp [setRange_used], rfl, fun f hf => ?_⟩, fun f hf => ?_⟩
    · have hout := fun hmem => Nat.not_lt.mpr hf (hin f hmem)
      rw [setRange_used, htest, decide_eq_false hout, Bool.false_or]
    · rw [setRange_used, htest]
      simp only [mem_setRange hf]
      split_ifs with hc <;> simp [hc]
  | false =>
    refine ⟨⟨rfl, by simp [setRange_free], rfl, fun f hf => ?_⟩, fun f hf => ?_⟩
    · have hout := fun hmem => Nat.not_lt.mpr hf (hin f hmem)
      rw [setRange_free, Bitmap.test_foldl_clearBit, decide_eq_false hout]
      simp
    · rw [setRange_free, Bitmap.test_foldl_clearBit]
      simp only [mem_setRange hf]
      split_ifs with hc <;> simp [hc]

theorem foldl_setRange_spec (ha : a.HasBits) (regions : List MemoryRegion) (used : Bool) :
    SameShape a (regions.foldl (fun a r => a.setRange r.start r.len used) a) ∧
      ∀ f, f < a.totalFrames →
        (regions.foldl (fun a r => a.setRange r.start r.len used) a).bitmap.test f =
          if ∃ r ∈ regions, Covers r f then used else a.bitmap.test f := by
  induction regions generalizing a with
  | nil => exact ⟨SameShape.refl a, fun f _ => by simp⟩
  | cons r regions ih =>
    obtain ⟨hshape, hbits⟩ := setRange_spec ha r.start r.len used
    obtain ⟨hrest, hrestBits⟩ := ih (hshape.hasBits ha)
    refine ⟨hshape.trans hrest, fun f hf => ?_⟩
    rw [foldl_cons, hrestBits f (by rwa [hshape.total]), hbits f hf]
    by_cases hr : Covers r f
    · have hr' := hr
      unfold Covers at hr'
      simp [hr, hr']
    · have hr' := hr
      unfold Covers at hr'
      simp [hr, hr']

theorem le_foldl_max {l : List Nat} {n x : Nat} (h : x ∈ l ∨ x ≤ n) : x ≤ l.foldl max n := by
  induction l generalizing n with
  | nil => simpa using h
  | cons y l ih =>
    refine ih ?_
    rcases h with h | h
    · rcases mem_cons.mp h with rfl | h
      · exact .inr (le_max_right _ _)
      · exact .inl h
    · exact .inr (h.trans (le_max_left _ _))

theorem foldl_max_lt {l : List Nat} {n bound : Nat} (hn : n < bound) (hl : ∀ x ∈ l, x < bound) :
    l.foldl max n < bound := by
  induction l generalizing n with
  | nil => simpa using hn
  | cons y l ih =>
    exact ih (max_lt hn (hl y (by simp))) fun x hx => hl x (by simp [hx])

theorem highest_lt (regions : List MemoryRegion) : highest regions < 2 ^ 64 := by
  refine foldl_max_lt (by omega) fun x hx => ?_
  obtain ⟨r, -, rfl⟩ := mem_map.mp hx
  exact Nat.mod_lt _ (by omega)

theorem le_highest {regions : List MemoryRegion} {r : MemoryRegion} (hr : r ∈ regions)
    (husable : r.usable = true) (hfits : r.start + r.len < 2 ^ 64) :
    r.start + r.len ≤ highest regions := by
  refine le_foldl_max (.inl (mem_map.mpr ⟨r, ?_, Nat.mod_eq_of_lt hfits⟩))
  simp [hr, husable]

theorem test_new {totalFrames : Nat} (hf : f < (totalFrames + 63) / 64 * 64) :
    (new totalFrames).bitmap.test f = true := by
  have hword : f / 64 < (totalFrames + 63) / 64 := by omega
  simp only [new, Bitmap.test, getD_eq_getElem?_getD, getElem?_replicate, hword,
    if_true, Option.getD_some, BitVec.getLsbD_allOnes]
  exact decide_eq_true (Nat.mod_lt _ (by omega))

theorem fromRegions_spec (regions : List MemoryRegion) (reserveBelow : Nat) :
    (fromRegions regions reserveBelow).WellFormed ∧
    ∀ f, f ∈ (fromRegions regions reserveBelow).freeSet ↔
      f < highest regions / pageSize ∧ (∃ r ∈ regions, r.usable = true ∧ Covers r f) ∧
      (¬ ∃ r ∈ regions, r.usable = false ∧ Covers r f) ∧ reserveBelow / pageSize ≤ f := by
  have hbits₀ : (new (highest regions / pageSize)).HasBits := by
    simp only [HasBits, new, length_replicate]
    omega
  obtain ⟨hshape₁, htest₁⟩ := foldl_setRange_spec hbits₀ (regions.filter (·.usable)) false
  obtain ⟨hshape₂, htest₂⟩ := foldl_setRange_spec (hshape₁.hasBits hbits₀)
    (regions.filter (!·.usable)) true
  obtain ⟨hshape₃, htest₃⟩ := setRange_spec (hshape₂.hasBits (hshape₁.hasBits hbits₀))
    0 reserveBelow true
  have hshape := (hshape₁.trans hshape₂).trans hshape₃
  generalize hb₁ : (regions.filter (·.usable)).foldl (fun a r => a.setRange r.start r.len false)
    (new (highest regions / pageSize)) = b₁ at *
  generalize hb₂ : (regions.filter (!·.usable)).foldl (fun a r => a.setRange r.start r.len true)
    b₁ = b₂ at *
  generalize hb₃ : b₂.setRange 0 reserveBelow true = b₃ at *
  have hfinal : fromRegions regions reserveBelow =
      { b₃.recount with usableTotal := b₃.recount.freeFrames } := by
    simp only [fromRegions, hb₁, hb₂, hb₃]
  have htotal : b₃.totalFrames = highest regions / pageSize := hshape.total
  have hset : (fromRegions regions reserveBelow).freeSet = b₃.freeSet := by
    rw [hfinal]
    rfl
  constructor
  · rw [hfinal]
    refine ⟨?_, fun f hf hlt => ?_, ?_, ?_, ?_⟩
    · simp only [recount, hshape.length, htotal]
      simp [new]
    · simp only [recount, hshape.length] at hf hlt ⊢
      rw [hshape.beyond f (by rwa [htotal] at hf)]
      exact test_new (by simpa [new] using hlt)
    · simp only [recount, countP_range, freeSet]
      simp
    · simp only [recount, hshape.hint]
      simp [new]
    · have := highest_lt regions
      simp only [recount, htotal, pageSize]
      omega
  · intro f
    rw [hset, mem_freeSet, htotal]
    refine and_congr_right fun hf => ?_
    have hf₁ : f < b₁.totalFrames := by rw [hshape₁.total]; exact hf
    have hf₂ : f < b₂.totalFrames := by rw [hshape₂.total]; exact hf₁
    have hnew : (new (highest regions / pageSize)).bitmap.test f = true := test_new (by omega)
    rw [htest₃ f hf₂, htest₂ f hf₁, htest₁ f hf, hnew]
    simp only [mem_filter, Nat.zero_div, Nat.zero_le, true_and, Nat.zero_add,
      Bool.not_eq_true', and_assoc]
    split_ifs with h₁ h₂ h₃ <;> simp_all

end FrameAllocator

end EuroOS
