import EuroOS.Swap

/-!
# What the swap manager does to the page tables

Four things can happen to the page tables in a call of the swap manager: entries
are refreshed, a page is evicted, a page returns, or the entries of a region are
torn down.  There is one lemma for each function that says which of them it does.
-/

namespace EuroOS

open List

/-- Two present entries of one page that differ in the bits of the hardware only. -/
structure Pte.SameMapping (e e' : Pte) : Prop where
  present : e.has .present = true
  present' : e'.has .present = true
  frame : e'.frame = e.frame
  user : e'.has .user = e.has .user
  writable : e'.has .writable = e.has .writable
  noExecute : e'.has .noExecute = e.has .noExecute

namespace Pte

variable {e : Pte}

theorem SameMapping.refl (h : e.has .present = true) : SameMapping e e :=
  ⟨h, h, rfl, rfl, rfl, rfl⟩

theorem SameMapping.trans (h : SameMapping e e') (h' : SameMapping e' e'') : SameMapping e e'' :=
  ⟨h.present, h'.present', h'.frame.trans h.frame, h'.user.trans h.user,
    h'.writable.trans h.writable, h'.noExecute.trans h.noExecute⟩

theorem sameMapping_of_bits (hpresent : e.has .present = true)
    (h : ∀ i, i ≠ 5 → i ≠ 6 → e'.getLsbD i = e.getLsbD i) : SameMapping e e' := by
  refine ⟨hpresent, ?_, ?_, ?_, ?_, ?_⟩
  · rw [has_present] at hpresent ⊢
    rw [h 0 (by norm_num) (by norm_num), hpresent]
  · apply BitVec.eq_of_getLsbD_eq
    intro i hi
    rw [Pte.frame, Pte.frame, BitVec.getLsbD_and, BitVec.getLsbD_and, getLsbD_physMask]
    by_cases hlow : 12 ≤ i
    · rw [h i (by omega) (by omega)]
    · simp [hlow]
  · rw [has_user, has_user, h 2 (by norm_num) (by norm_num)]
  · rw [has_writable, has_writable, h 1 (by norm_num) (by norm_num)]
  · rw [has_noExecute, has_noExecute, h 63 (by norm_num) (by norm_num)]

theorem getLsbD_accessed (i : Nat) : accessed.getLsbD i = decide (i = 5) := by
  have : accessed = BitVec.twoPow 64 5 := rfl
  rw [this, BitVec.getLsbD_twoPow]
  simp [eq_comm]

theorem getLsbD_dirty (i : Nat) : dirty.getLsbD i = decide (i = 6) := by
  have : dirty = BitVec.twoPow 64 6 := rfl
  rw [this, BitVec.getLsbD_twoPow]
  simp [eq_comm]

theorem sameMapping_clear_accessed (h : e.has .present = true) :
    SameMapping e (e &&& ~~~accessed) := by
  refine sameMapping_of_bits h fun i h5 _ => ?_
  rw [BitVec.getLsbD_and, BitVec.getLsbD_not, getLsbD_accessed]
  by_cases hi : i < 64
  · simp [h5, hi]
  · simp [BitVec.getLsbD_of_ge e i (by omega)]

theorem sameMapping_set_accessed (h : e.has .present = true) : SameMapping e (e ||| accessed) := by
  refine sameMapping_of_bits h fun i h5 _ => ?_
  rw [BitVec.getLsbD_or, getLsbD_accessed]
  simp [h5]

theorem sameMapping_set_dirty (h : e.has .present = true) :
    SameMapping e (e ||| accessed ||| dirty) := by
  refine sameMapping_of_bits h fun i h5 h6 => ?_
  rw [BitVec.getLsbD_or, BitVec.getLsbD_or, getLsbD_accessed, getLsbD_dirty]
  simp [h5, h6]

theorem not_present_of_isSwapped (h : e.isSwapped = true) : e.has .present = false := by
  simp only [isSwapped, Bool.and_eq_true, Bool.not_eq_true'] at h
  exact h.1

theorem not_isSwapped_of_present (h : e.has .present = true) : e.isSwapped = false := by
  simp [isSwapped, h]

end Pte

/-- The entry of a page before and after a call that does not swap it. -/
def SameEntry (before after : Option Pte) : Prop :=
  after = before ∨ ∃ e e', before = some e ∧ after = some e' ∧ e.SameMapping e'

theorem SameEntry.refl (entry : Option Pte) : SameEntry entry entry := .inl rfl

variable {a : Option Pte} {e : Pte}

theorem SameEntry.trans (h : SameEntry a b) (h' : SameEntry b c) : SameEntry a c := by
  obtain rfl | ⟨e, e', rfl, rfl, hsame⟩ := h
  · exact h'
  obtain rfl | ⟨e₁, e₂, heq, rfl, hsame'⟩ := h'
  · exact .inr ⟨e, e', rfl, rfl, hsame⟩
  · exact .inr ⟨e, e₂, rfl, rfl, hsame.trans (Option.some.inj heq ▸ hsame')⟩

theorem SameEntry.swapped (h : SameEntry a (some e)) (he : e.isSwapped = true) : a = some e := by
  obtain h | ⟨e₁, e₂, rfl, heq, hsame⟩ := h
  · exact h.symm
  · have hpresent : e.has .present = true := by rw [Option.some.inj heq]; exact hsame.present'
    simp [Pte.not_isSwapped_of_present hpresent] at he

theorem SameEntry.eq_of_swapped (h : SameEntry (some e) a) (he : e.isSwapped = true) :
    a = some e := by
  obtain h | ⟨e₁, e₂, heq, rfl, hsame⟩ := h
  · exact h
  · have hpresent : e.has .present = true := by rw [Option.some.inj heq]; exact hsame.present
    simp [Pte.not_isSwapped_of_present hpresent] at he

theorem SameEntry.present (h : SameEntry a (some e)) (he : e.has .present = true) :
    ∃ e₀, a = some e₀ ∧ e₀.SameMapping e := by
  obtain h | ⟨e₁, e₂, rfl, heq, hsame⟩ := h
  · exact ⟨e, h.symm, .refl he⟩
  · exact ⟨e₁, rfl, Option.some.inj heq ▸ hsame⟩

namespace SwapWorld

variable {Sector : Type} {w w' : SwapWorld Sector} {pml4 page : Nat}

/-! ## What a call can do to the page tables -/

def Free (w : SwapWorld Sector) (f : BitVec 64) : Prop := f ∈ w.pool ∨ f ∈ w.demand

structure Fixed (w w' : SwapWorld Sector) : Prop where
  baseLba : w'.baseLba = w.baseLba
  sharedFrames : w'.sharedFrames = w.sharedFrames

/-- Pages are accessed or lose their accessed bit, and free frames may be taken. -/
structure Refreshed (w w' : SwapWorld Sector) : Prop extends Fixed w w' where
  entries : ∀ pml4 page, SameEntry (w.ptes pml4 page) (w'.ptes pml4 page)
  area : w'.area = w.area
  disk : w'.disk = w.disk
  free : ∀ f, w'.Free f → w.Free f

structure Evicted (w w' : SwapWorld Sector) (pml4 page : Nat) (e : Pte) (slot : Nat) : Prop
    extends Fixed w w' where
  entry : w.ptes pml4 page = some e
  present : e.has .present = true
  entry' : w'.ptes pml4 page = some (.swappedOut slot (e.has .user))
  others : ∀ pml4' page', ¬ (pml4' = pml4 ∧ page' = page) →
    SameEntry (w.ptes pml4' page') (w'.ptes pml4' page')
  slot_free : w.area[slot]? = some false
  area : w'.area = w.area.set slot true
  stored : w'.readSectors (w.slotLba slot) = w.frames e.frame
  disk : ∀ slot', slot' ≠ slot → w'.readSectors (w.slotLba slot') = w.readSectors (w.slotLba slot')
  free : ∀ f, w'.Free f → w.Free f ∨ f = e.frame

structure Returned (w w' : SwapWorld Sector) (pml4 page : Nat) (e : Pte) (f : BitVec 64) : Prop
    extends Fixed w w' where
  entry : w.ptes pml4 page = some e
  swapped : e.isSwapped = true
  entry' : w'.ptes pml4 page = some (.swappedIn f (e.has .userMark))
  others : ∀ pml4' page', ¬ (pml4' = pml4 ∧ page' = page) → w'.ptes pml4' page' = w.ptes pml4' page'
  frame_free : w.Free f
  content : w'.frames f = w.readSectors (w.slotLba e.slotRead)
  area : w'.area = w.area.free e.slotRead
  disk : w'.disk = w.disk
  free : ∀ f, w'.Free f → w.Free f

/-- The entries of a region are removed and the slots of the swapped-out ones released. -/
structure TornDown (w w' : SwapWorld Sector) (pml4 idx : Nat) : Prop extends Fixed w w' where
  removed : ∀ page, page / 2 ^ 27 = idx → w'.ptes pml4 page = none
  others : ∀ pml4' page, ¬ (pml4' = pml4 ∧ page / 2 ^ 27 = idx) →
    w'.ptes pml4' page = w.ptes pml4' page
  length : w'.area.length = w.area.length
  /-- A slot is in use afterwards if it was and no swapped-out entry of the region reads it. -/
  inUse : ∀ slot, w'.area.InUse slot ↔ w.area.InUse slot ∧
    ∀ page e, page / 2 ^ 27 = idx → w.ptes pml4 page = some e → e.isSwapped = true →
      e.slotRead ≠ slot
  disk : w'.disk = w.disk
  free : ∀ f, w'.Free f → w.Free f ∨ f &&& Pte.physMask = f

theorem Fixed.refl (w : SwapWorld Sector) : Fixed w w := ⟨rfl, rfl⟩

variable {w'' w₁ : SwapWorld Sector} {slot : Nat} {e : Pte}

theorem Fixed.trans (h : Fixed w w') (h' : Fixed w' w'') : Fixed w w'' :=
  ⟨h'.baseLba.trans h.baseLba, h'.sharedFrames.trans h.sharedFrames⟩

theorem Refreshed.refl (w : SwapWorld Sector) : Refreshed w w where
  toFixed := .refl w
  entries := fun _ _ => .refl _
  area := rfl
  disk := rfl
  free := fun _ h => h

theorem Refreshed.of_ptes_eq (hfixed : Fixed w w') (hptes : w'.ptes = w.ptes)
    (harea : w'.area = w.area) (hdisk : w'.disk = w.disk) (hfree : ∀ f, w'.Free f → w.Free f) :
    Refreshed w w' where
  toFixed := hfixed
  entries := fun _ _ => .inl (by rw [hptes])
  area := harea
  disk := hdisk
  free := hfree

theorem Refreshed.trans (h : Refreshed w w') (h' : Refreshed w' w'') : Refreshed w w'' where
  toFixed := h.toFixed.trans h'.toFixed
  entries := fun pml4 page => (h.entries pml4 page).trans (h'.entries pml4 page)
  area := h'.area.trans h.area
  disk := h'.disk.trans h.disk
  free := fun f hf => h.free f (h'.free f hf)

/-! ## The functions -/

theorem ptes_setEntry (w : SwapWorld Sector) (pml4 page : Nat) (entry : Option Pte)
    (pml4' page' : Nat) :
    (w.setEntry pml4 page entry).ptes pml4' page' =
      if pml4' = pml4 ∧ page' = page then entry else w.ptes pml4' page' := by
  by_cases hspace : pml4' = pml4
  · subst hspace
    by_cases hpage : page' = page <;> simp [setEntry, hpage]
  · simp [setEntry, hspace]

theorem refreshed_setPte (he : w.walkPteIn pml4 virt = some e) (hsame : e.SameMapping e') :
    Refreshed w (w.setPte pml4 virt e') where
  toFixed := ⟨rfl, rfl⟩
  entries := by
    intro pml4' page'
    rw [setPte, ptes_setEntry]
    by_cases h : pml4' = pml4 ∧ page' = pageOf virt
    · obtain ⟨rfl, rfl⟩ := h
      simp only [and_self, if_true]
      exact .inr ⟨e, e', he, rfl, hsame⟩
    · simp only [if_neg h]
      exact .refl _
  area := rfl
  disk := rfl
  free := fun _ h => h

theorem alloc_cases {area area' : SwapArea} (h : area.alloc = some (area', slot)) :
    area[slot]? = some false ∧ area' = area.set slot true := by
  simp only [SwapArea.alloc, Option.map_eq_some_iff, Prod.mk.injEq] at h
  obtain ⟨found, hfound, rfl, rfl⟩ := h
  obtain ⟨hlt, hfree, -⟩ := findIdx?_eq_some_iff_getElem.mp hfound
  refine ⟨?_, rfl⟩
  rw [getElem?_eq_getElem hlt]
  simpa using hfree

theorem readSectors_congr (h : w'.disk = w.disk) (lba : Nat) :
    w'.readSectors lba = w.readSectors lba := by
  unfold readSectors
  rw [h]

theorem readSectors_writeSectors_self (w : SwapWorld Sector) (lba : Nat) (content : Page Sector) :
    (w.writeSectors lba content).readSectors lba = content := by
  funext s
  simp [readSectors, writeSectors]

theorem readSectors_writeSectors_other (w : SwapWorld Sector) {slot' : Nat}
    (content : Page Sector) (h : slot' ≠ slot) :
    (w.writeSectors (w.slotLba slot) content).readSectors (w.slotLba slot') =
      w.readSectors (w.slotLba slot') := by
  funext s
  have hapart : ¬ (w.slotLba slot ≤ w.slotLba slot' + s ∧ w.slotLba slot' + s < w.slotLba slot + 8) := by
    have := s.isLt
    simp only [slotLba]
    omega
  simp only [readSectors, writeSectors, dif_neg hapart]

theorem swapOutIn_cases (h : w.swapOutIn pml4 virt = (w', r)) :
    (w' = w ∧ r = none) ∨ ∃ e slot, r = some e.frame ∧ Evicted w w' pml4 (pageOf virt) e slot := by
  unfold swapOutIn at h
  cases hwalk : w.walkPteIn pml4 virt with
  | none =>
    simp only [hwalk, Prod.mk.injEq] at h
    exact .inl ⟨h.1.symm, h.2.symm⟩
  | some e =>
    by_cases hpresent : e.has .present = true
    · cases halloc : w.area.alloc with
      | none =>
        simp [hwalk, hpresent, halloc] at h
        exact .inl ⟨h.1.symm, h.2.symm⟩
      | some found =>
        obtain ⟨area, slot⟩ := found
        obtain ⟨hslot, harea⟩ := alloc_cases halloc
        simp only [hwalk, hpresent, halloc, Bool.not_true, Bool.false_eq_true, if_false,
          Prod.mk.injEq] at h
        obtain ⟨rfl, rfl⟩ := h
        refine .inr ⟨e, slot, rfl, ⟨rfl, rfl⟩, hwalk, hpresent, ?_, ?_, hslot, harea, ?_, ?_,
          fun f hf => .inl hf⟩
        · rw [setPte, ptes_setEntry, if_pos ⟨rfl, rfl⟩]
        · intro pml4' page' hother
          rw [setPte, ptes_setEntry, if_neg hother]
          exact .refl _
        · exact readSectors_writeSectors_self _ _ _
        · intro slot' hne
          exact readSectors_writeSectors_other { w with area } _ hne
    · simp [hwalk, hpresent] at h
      exact .inl ⟨h.1.symm, h.2.symm⟩

theorem Evicted.of_refreshed (hfresh : Refreshed w w₁) (hframes : w₁.frames = w.frames)
    (h : Evicted w₁ w' pml4 page e slot) :
    ∃ e₀, e₀.SameMapping e ∧ Evicted w w' pml4 page e₀ slot := by
  have hsame := hfresh.entries pml4 page
  rw [h.entry] at hsame
  obtain ⟨e₀, hentry, hmap⟩ := hsame.present h.present
  have hlba (slot : Nat) : w₁.slotLba slot = w.slotLba slot := by simp [slotLba, hfresh.baseLba]
  refine ⟨e₀, hmap, hfresh.toFixed.trans h.toFixed, hentry, hmap.present, ?_, ?_, ?_, ?_, ?_, ?_, ?_⟩
  · rw [h.entry', hmap.user]
  · exact fun pml4' page' hother => (hfresh.entries pml4' page').trans (h.others _ _ hother)
  · rw [← hfresh.area, h.slot_free]
  · rw [h.area, hfresh.area]
  · rw [← hlba, h.stored, hframes, hmap.frame]
  · intro slot' hne
    rw [← hlba, h.disk slot' hne, readSectors_congr hfresh.disk]
  · intro f hf
    rw [← hmap.frame]
    exact (h.free f hf).imp_left (hfresh.free f)

theorem Evicted.hand_out (h : Evicted w w' pml4 page e slot) (hfixed : Fixed w' w'')
    (hptes : w''.ptes = w'.ptes) (harea : w''.area = w'.area) (hdisk : w''.disk = w'.disk)
    (hfree : ∀ f, w''.Free f → w'.Free f ∨ f = e.frame) : Evicted w w'' pml4 page e slot where
  __ := h
  toFixed := h.toFixed.trans hfixed
  entry' := by rw [hptes, h.entry']
  others := by rw [hptes]; exact h.others
  area := harea.trans h.area
  stored := by rw [readSectors_congr hdisk, h.stored]
  disk := by
    intro slot' hne
    rw [readSectors_congr hdisk, h.disk slot' hne]
  free := fun f hf => (hfree f hf).elim (h.free f) .inr

theorem evictLoop_cases (hrange : base < stop) (hposition : base / 4096 * 4096 ≤ position)
    (h : w.evictLoop pml4 base stop budget position = (w', r)) :
    (r = none ∧ Refreshed w w') ∨
      ∃ virt e slot, base / 4096 * 4096 ≤ virt ∧ virt < stop ∧ e.has .user = true ∧
        r = some e.frame ∧ Evicted w w' pml4 (pageOf virt) e slot := by
  induction budget generalizing w position with
  | zero =>
    simp only [evictLoop, Prod.mk.injEq] at h
    exact .inl ⟨h.2.symm, h.1 ▸ .refl _⟩
  | succ budget ih =>
    rw [evictLoop] at h
    set virt := if stop ≤ position then base else position with hvirt
    have hvirt_lt : virt < stop := by rw [hvirt]; split_ifs <;> omega
    have hvirt_ge : base / 4096 * 4096 ≤ virt := by rw [hvirt]; split_ifs <;> omega
    cases hwalk : w.walkPteIn pml4 virt with
    | none =>
      simp only [hwalk] at h
      exact ih (by omega) h
    | some e =>
      simp only [hwalk] at h
      by_cases hcandidate : (e.has .present && e.has .user) = true
      · obtain ⟨hpresent, huser⟩ := Bool.and_eq_true_iff.mp hcandidate
        rw [if_pos hcandidate] at h
        by_cases haccessed : e.has .accessed = true
        · rw [if_pos haccessed] at h
          -- the second chance, after which the sweep goes on
          have hfresh := refreshed_setPte hwalk (Pte.sameMapping_clear_accessed hpresent)
          obtain ⟨hr, hrest⟩ | ⟨virt', e', slot, hge, hlt, huser', hr, hout⟩ := ih (by omega) h
          · exact .inl ⟨hr, hfresh.trans hrest⟩
          · obtain ⟨e₀, hmap, hout₀⟩ := hout.of_refreshed hfresh rfl
            exact .inr ⟨virt', e₀, slot, hge, hlt, hmap.user ▸ huser', hmap.frame ▸ hr, hout₀⟩
        · rw [if_neg haccessed] at h
          cases hout : w.swapOutIn pml4 virt with
          | mk w₁ r₁ =>
            obtain ⟨rfl, rfl⟩ | ⟨e', slot, rfl, hevicted⟩ := swapOutIn_cases hout
            · simp only [hout] at h
              exact ih (by omega) h
            simp only [hout, Prod.mk.injEq] at h
            obtain ⟨rfl, rfl⟩ := h
            have he : e = e' := by simpa [walkPteIn, hevicted.entry] using hwalk.symm
            refine .inr ⟨virt, e', slot, hvirt_ge, hvirt_lt, he ▸ huser, rfl, ?_⟩
            exact hevicted.hand_out ⟨rfl, rfl⟩ rfl rfl rfl fun f hf => .inl hf
      · rw [if_neg hcandidate] at h
        exact ih (by omega) h

theorem evictDemand_cases (h : w.evictDemand pml4 base stop = (w', r)) :
    (r = none ∧ Refreshed w w') ∨
      ∃ virt e slot, base / 4096 * 4096 ≤ virt ∧ virt < stop ∧ e.has .user = true ∧
        r = some e.frame ∧ Evicted w w' pml4 (pageOf virt) e slot := by
  unfold evictDemand at h
  by_cases hrange : stop ≤ base
  · simp only [if_pos hrange, Prod.mk.injEq] at h
    exact .inl ⟨h.2.symm, h.1 ▸ .refl _⟩
  rw [if_neg hrange] at h
  cases hhand : w.hands.find? (·.1 = pml4) with
  | some hand =>
    simp only [hhand] at h
    exact evictLoop_cases (by omega) (Nat.mul_le_mul_right _ (Nat.div_le_div_right (by omega))) h
  | none =>
    simp only [hhand] at h
    have hnew : Refreshed w { w with hands := w.hands ++ [(pml4, base)] } :=
      .of_ptes_eq ⟨rfl, rfl⟩ rfl rfl rfl fun f hf => hf
    obtain ⟨hr, hfresh⟩ | ⟨virt, e, slot, hge, hlt, huser, hr, hout⟩ :=
      evictLoop_cases (by omega) (Nat.mul_le_mul_right _ (Nat.div_le_div_right (by omega))) h
    · exact .inl ⟨hr, hnew.trans hfresh⟩
    · obtain ⟨e₀, hmap, hout₀⟩ := hout.of_refreshed hnew rfl
      exact .inr ⟨virt, e₀, slot, hge, hlt, hmap.user ▸ huser, hmap.frame ▸ hr, hout₀⟩

theorem swapInEntry_returned (hentry : w.walkPteIn w.activePml4 virt = some e)
    (hswapped : e.isSwapped = true) (hfree : w.Free f) (hpools : ∀ f, w₁.Free f → w.Free f)
    (hw₁ : w₁ = { w with pool := w₁.pool, demand := w₁.demand }) :
    Returned w (w₁.swapInEntry virt e f) w.activePml4 (pageOf virt) e f := by
  have hactive : w₁.activePml4 = w.activePml4 := by rw [hw₁]
  have hptes : w₁.ptes = w.ptes := by rw [hw₁]
  refine ⟨⟨by rw [hw₁]; rfl, by rw [hw₁]; rfl⟩, hentry, hswapped, ?_, ?_, hfree, ?_, ?_, ?_, ?_⟩
  · simp [swapInEntry, setPte, ptes_setEntry, hactive]
  · intro pml4' page' hother
    simp only [swapInEntry, setPte, ptes_setEntry, hactive, if_neg hother, hptes]
  · simp only [swapInEntry, setPte, setEntry, Function.update_self]
    rw [hw₁]
    rfl
  · rw [hw₁]
    rfl
  · rw [hw₁]
    rfl
  · exact hpools

theorem free_tail_pool (h : ({ w with pool := w.pool.tail } : SwapWorld Sector).Free f) :
    w.Free f := h.imp_left mem_of_mem_tail

theorem free_tail_demand (h : ({ w with demand := w.demand.tail } : SwapWorld Sector).Free f) :
    w.Free f :=
  h.imp_right mem_of_mem_tail

theorem popPool_swapIn_cases (hentry : w.walkPteIn w.activePml4 virt = some e)
    (hswapped : e.isSwapped = true) (hpools : ∀ f, w₁.Free f → w.Free f)
    (hw₁ : w₁ = { w with pool := w₁.pool, demand := w₁.demand })
    (h : (match w₁.popPool with
      | (w, some f) => (w.swapInEntry virt e f, true)
      | (w, none) => (w, false)) = (w', done)) :
    Refreshed w w' ∨ ∃ e f, Returned w w' w.activePml4 (pageOf virt) e f := by
  cases hpool : w₁.pool.head? with
  | none =>
    simp only [popPool, hpool, Prod.mk.injEq] at h
    refine .inl (.of_ptes_eq ⟨?_, ?_⟩ ?_ ?_ ?_ ?_) <;> rw [← h.1]
    · rw [hw₁]
    · rw [hw₁]
    · rw [hw₁]
    · rw [hw₁]
    · rw [hw₁]
    · exact fun f hf => hpools f (free_tail_pool hf)
  | some f =>
    simp only [popPool, hpool, Prod.mk.injEq] at h
    rw [← h.1]
    refine .inr ⟨e, f, swapInEntry_returned hentry hswapped
      (hpools f (.inl (mem_of_mem_head? hpool))) (fun _ hf => hpools _ (free_tail_pool hf)) ?_⟩
    rw [hw₁]

theorem swapInInto_demandAlloc_cases
    (h : w.demandAlloc.1.swapInInto virt w.demandAlloc.2 = (w', done)) :
    Refreshed w w' ∨ ∃ e f, Returned w w' w.activePml4 (pageOf virt) e f := by
  unfold swapInInto demandAlloc at h
  have htaken : Refreshed w { w with demand := w.demand.tail } :=
    .of_ptes_eq ⟨rfl, rfl⟩ rfl rfl rfl fun f => free_tail_demand
  simp only [walkPteIn] at h
  cases hwalk : w.ptes w.activePml4 (pageOf virt) with
  | none =>
    simp only [hwalk, Prod.mk.injEq] at h
    exact .inl (h.1 ▸ htaken)
  | some e =>
    by_cases hswapped : e.isSwapped = true
    · simp only [hwalk, hswapped, Bool.not_true, Bool.false_eq_true, if_false] at h
      cases hdemand : w.demand.head? with
      | some f =>
        simp only [hdemand, Prod.mk.injEq] at h
        rw [← h.1]
        exact .inr ⟨e, f, swapInEntry_returned hwalk hswapped
          (.inr (mem_of_mem_head? hdemand)) (fun _ => free_tail_demand) rfl⟩
      | none =>
        simp only [hdemand] at h
        exact popPool_swapIn_cases hwalk hswapped (fun _ => free_tail_demand) rfl h
    · simp only [hwalk, hswapped, Bool.not_false, if_true, Prod.mk.injEq] at h
      exact .inl (h.1 ▸ htaken)

theorem trySwapIn_cases (h : w.trySwapIn virt = (w', done)) :
    Refreshed w w' ∨ ∃ e f, Returned w w' w.activePml4 (pageOf virt) e f := by
  unfold trySwapIn at h
  cases hwalk : w.walkPteIn w.activePml4 virt with
  | none =>
    simp only [hwalk, Prod.mk.injEq] at h
    exact .inl (h.1 ▸ .refl _)
  | some e =>
    by_cases hswapped : e.isSwapped = true
    · simp only [hwalk, hswapped, Bool.not_true, Bool.false_eq_true, if_false] at h
      by_cases hmark : e.has .userMark = true
      · cases hdemand : w.demand.head? with
        | none =>
          simp only [hmark, demandAlloc, hdemand, if_true] at h
          exact popPool_swapIn_cases hwalk hswapped (fun _ => free_tail_demand) rfl h
        | some f =>
          simp only [hmark, demandAlloc, hdemand, if_true, Prod.mk.injEq] at h
          rw [← h.1]
          exact .inr ⟨e, f, swapInEntry_returned hwalk hswapped
            (.inr (mem_of_mem_head? hdemand)) (fun _ => free_tail_demand) rfl⟩
      · simp only [hmark, Bool.false_eq_true, if_false] at h
        exact popPool_swapIn_cases hwalk hswapped (fun _ hf => hf) rfl h
    · simp [hwalk, hswapped] at h
      exact .inl (h.1 ▸ .refl _)

theorem access_refreshed (w : SwapWorld Sector) (virt : Nat) (write : Option (Page Sector)) :
    Refreshed w (w.access virt write) := by
  unfold access
  cases hwalk : w.walkPteIn w.activePml4 virt with
  | none => exact .refl w
  | some e =>
    by_cases hpresent : e.has .present = true
    · cases write with
      | none =>
        simp only [hpresent, if_true]
        exact refreshed_setPte hwalk (Pte.sameMapping_set_accessed hpresent)
      | some content =>
        by_cases hwritable : e.has .writable = true
        · simp only [hpresent, hwritable, if_true]
          have hwritten :
              Refreshed w { w with frames := Function.update w.frames e.frame content } :=
            .of_ptes_eq ⟨rfl, rfl⟩ rfl rfl rfl fun f hf => hf
          exact hwritten.trans
            (refreshed_setPte hwalk (Pte.sameMapping_set_dirty hpresent))
        · simp only [hpresent, hwritable, if_true, if_false, Bool.false_eq_true]
          exact .refl w
    · simp only [hpresent, if_false, Bool.false_eq_true]
      exact .refl w

/-! ## Teardown -/

theorem length_free (area : SwapArea) (slot : Nat) : (area.free slot).length = area.length := by
  simp [SwapArea.free]

theorem inUse_free (area : SwapArea) (slot slot' : Nat) :
    (area.free slot).InUse slot' ↔ area.InUse slot' ∧ slot ≠ slot' := by
  unfold SwapArea.InUse SwapArea.free
  by_cases h : slot = slot'
  · subst h
    by_cases hlt : slot < area.length <;> simp [hlt]
  · simp [getElem?_set_ne h, h]

structure FreedEntries (entries : List Pte) (w w' : SwapWorld Sector) : Prop extends Fixed w w' where
  disk : w'.disk = w.disk
  length : w'.area.length = w.area.length
  inUse : ∀ slot, w'.area.InUse slot ↔
    w.area.InUse slot ∧ ∀ e ∈ entries, e.isSwapped = true → e.slotRead ≠ slot
  free : ∀ f, w'.Free f → w.Free f ∨ f &&& Pte.physMask = f

theorem freeEntry_spec (keep : List (BitVec 64)) (w : SwapWorld Sector) (e : Pte) :
    FreedEntries [e] w (freeEntry keep w e) := by
  unfold freeEntry
  by_cases hpresent : e.has .present = true
  · have hnot := Pte.not_isSwapped_of_present hpresent
    by_cases hkeep : e.frame ∈ keep
    · simp only [hpresent, hkeep, if_true]
      exact ⟨.refl w, rfl, rfl, by simp [hnot], fun f hf => .inl hf⟩
    simp only [hpresent, hkeep, if_true, if_false]
    refine ⟨⟨rfl, rfl⟩, rfl, rfl, by simp [hnot], fun f hf => ?_⟩
    rcases hf with hf | hf
    · exact .inl (.inl hf)
    rcases mem_cons.mp hf with rfl | hf
    · exact .inr (by simp)
    · exact .inl (.inr hf)
  · by_cases hswapped : e.has .swapped = true
    · have hyes : e.isSwapped = true := by simp [Pte.isSwapped, hpresent, hswapped]
      simp only [hpresent, hswapped, if_true, if_false, Bool.false_eq_true]
      exact ⟨⟨rfl, rfl⟩, rfl, length_free _ _, by simp [inUse_free, hyes], fun f hf => .inl hf⟩
    · have hnot : e.isSwapped = false := by simp [Pte.isSwapped, hswapped]
      simp only [hpresent, hswapped, if_false, Bool.false_eq_true]
      exact ⟨.refl w, rfl, rfl, by simp [hnot], fun f hf => .inl hf⟩

theorem foldl_freeEntry_spec (keep : List (BitVec 64)) (entries : List Pte)
    (w : SwapWorld Sector) : FreedEntries entries w (entries.foldl (freeEntry keep) w) := by
  induction entries generalizing w with
  | nil => exact ⟨.refl w, rfl, rfl, by simp, fun f hf => .inl hf⟩
  | cons e entries ih =>
    have hfirst := freeEntry_spec keep w e
    have hrest := ih (freeEntry keep w e)
    rw [foldl_cons]
    refine ⟨hfirst.toFixed.trans hrest.toFixed, hrest.disk.trans hfirst.disk,
      hrest.length.trans hfirst.length, ?_, ?_⟩
    · intro slot
      rw [hrest.inUse, hfirst.inUse]
      simp [and_assoc]
    · exact fun f hf => (hrest.free f hf).elim (hfirst.free f) .inr

theorem mem_regionPages : page ∈ regionPages idx ↔ page / 2 ^ 27 = idx := by
  rw [regionPages, mem_range'_1]
  omega

theorem freeDemandRegionExcept_tornDown (w : SwapWorld Sector) (pml4 idx : Nat)
    (keep : List (BitVec 64)) : TornDown w (w.freeDemandRegionExcept pml4 idx keep) pml4 idx := by
  have hfreed := foldl_freeEntry_spec keep ((regionPages idx).filterMap (w.ptes pml4)) w
  unfold freeDemandRegionExcept
  generalize ((regionPages idx).filterMap (w.ptes pml4)).foldl (freeEntry keep) w = freed at hfreed
  refine ⟨⟨hfreed.baseLba, hfreed.sharedFrames⟩, ?_, ?_, hfreed.length, ?_, hfreed.disk, hfreed.free⟩
  · intro page hpage
    simp only [Function.update_self, if_pos hpage]
  · intro pml4' page hother
    by_cases hspace : pml4' = pml4
    · subst hspace
      have hpage : ¬ page / 2 ^ 27 = idx := fun h => hother ⟨rfl, h⟩
      simp only [Function.update_self, if_neg hpage]
    · simp only [Function.update_of_ne hspace]
  · intro slot
    refine (hfreed.inUse slot).trans (and_congr_right fun _ => ?_)
    simp only [mem_filterMap, mem_regionPages]
    exact ⟨fun h page e hpage he => h e ⟨page, hpage, he⟩, fun h e ⟨page, hpage, he⟩ => h page e hpage he⟩

end SwapWorld

end EuroOS
