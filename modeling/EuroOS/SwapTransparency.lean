import EuroOS.SwapSteps

/-!
# Swapping is transparent

Beside the world we keep what every swapped-out page showed when it was swapped
out.  Every swapped-out entry names a slot of its own that holds that content,
as long as the area has at most `2 ^ 20` slots and only plain pages are evicted.
-/

namespace EuroOS

open Option

/-- What a page shows to its address space: its content and its access rights. -/
structure PageView (Sector : Type) where
  content : Page Sector
  isUser : Bool
  isWritable : Bool
  noExecute : Bool

def SwapWorld.view {Sector : Type} (w : SwapWorld Sector) (e : Pte) : PageView Sector :=
  ⟨w.frames e.frame, e.has .user, e.has .writable, e.has .noExecute⟩

structure SwapState (Sector : Type) where
  world : SwapWorld Sector
  saved : Nat → Nat → Option (PageView Sector)

inductive SwapCall (Sector : Type)
  | swapOutIn (pml4 virt : Nat)
  | evictDemand (pml4 base stop : Nat)
  | swapInInto (virt : Nat)
  | trySwapIn (virt : Nat)
  | freeDemandRegionExcept (pml4 idx : Nat) (keep : List (BitVec 64))
  | access (virt : Nat) (write : Option (Page Sector))
  | switchTo (pml4 : Nat)

namespace SwapState

variable {Sector : Type}

/-- A call, and the frame that it returns to its caller.  The caller keeps the frame of a swap-out
in the reserve and the frame of an eviction in the demand pool. -/
def perform (w : SwapWorld Sector) :
    SwapCall Sector → SwapWorld Sector × Option (BitVec 64)
  | .swapOutIn pml4 virt =>
    match w.swapOutIn pml4 virt with
    | (w, some frame) => ({ w with pool := frame :: w.pool }, some frame)
    | (w, none) => (w, none)
  | .evictDemand pml4 base stop =>
    match w.evictDemand pml4 base stop with
    | (w, some frame) => ({ w with demand := frame :: w.demand }, some frame)
    | (w, none) => (w, none)
  | .swapInInto virt =>
    -- the demand fault handler takes the frame first
    ((w.demandAlloc.1.swapInInto virt w.demandAlloc.2).1, none)
  | .trySwapIn virt => ((w.trySwapIn virt).1, none)
  | .freeDemandRegionExcept pml4 idx keep => (w.freeDemandRegionExcept pml4 idx keep, none)
  | .access virt write => (w.access virt write, none)
  | .switchTo pml4 => ({ w with activePml4 := pml4 }, none)

/-- The view of a page is recorded when its entry stops being present and dropped when the entry
is no longer swapped out. -/
def record (s : SwapState Sector) (w' : SwapWorld Sector) (pml4 page : Nat) :
    Option (PageView Sector) :=
  match s.world.ptes pml4 page, w'.ptes pml4 page with
  | some e, some e' =>
    if e'.isSwapped then
      if e.has .present then some (s.world.view e) else s.saved pml4 page
    else none
  | _, _ => none

def machine : CallMachine (SwapState Sector) (SwapCall Sector) (Option (BitVec 64)) where
  step s call :=
    let (w', reply) := perform s.world call
    (⟨w', s.record w'⟩, reply)

end SwapState

namespace SwapWorld

variable {Sector : Type} {w' : SwapWorld Sector} {pml4 page : Nat}

/-- A page that the swap entry can describe, in a frame that nothing else refers to. -/
structure Plain (w : SwapWorld Sector) (pml4 page : Nat) (e : Pte) : Prop where
  writable : e.has .writable = true
  executable : e.has .noExecute = false
  alone : ∀ pml4' page' e', w.ptes pml4' page' = some e' → e'.has .present = true →
    e'.frame = e.frame → pml4' = pml4 ∧ page' = page
  unshared : e.frame ∉ w.sharedFrames

/-- Only plain pages may be swapped out: of an eviction, all user pages in its range. -/
def MayCall (w : SwapWorld Sector) : SwapCall Sector → Prop
  | .swapOutIn pml4 virt =>
    ∀ e, w.walkPteIn pml4 virt = some e → e.has .present = true → w.Plain pml4 (pageOf virt) e
  | .evictDemand pml4 base stop =>
    ∀ virt e, base / 4096 * 4096 ≤ virt → virt < stop → w.walkPteIn pml4 virt = some e →
      e.has .present = true → e.has .user = true → w.Plain pml4 (pageOf virt) e
  | _ => True

structure Initial (w : SwapWorld Sector) : Prop where
  area : w.area = SwapArea.new w.area.length
  unmarked : ∀ pml4 page e, w.ptes pml4 page = some e → e.isSwapped = false
  aligned : ∀ f, w.Free f → f &&& Pte.physMask = f

theorem perform_cases (hmay : w.MayCall call) (h : SwapState.perform w call = (w', reply)) :
    (∃ pml4 page e slot, reply = some e.frame ∧ w.Plain pml4 page e ∧
        Evicted w w' pml4 page e slot) ∨
      (reply = none ∧ (Refreshed w w' ∨ (∃ pml4 page e f, Returned w w' pml4 page e f) ∨
        ∃ pml4 idx, TornDown w w' pml4 idx)) := by
  cases call with
  | swapOutIn pml4 virt =>
    simp only [SwapState.perform] at h
    cases hout : w.swapOutIn pml4 virt with
    | mk w₁ r =>
      obtain ⟨rfl, rfl⟩ | ⟨e, slot, rfl, hevicted⟩ := swapOutIn_cases hout
      · simp only [hout, Prod.mk.injEq] at h
        exact .inr ⟨h.2.symm, .inl (h.1 ▸ .refl _)⟩
      simp only [hout, Prod.mk.injEq] at h
      obtain ⟨rfl, rfl⟩ := h
      refine .inl ⟨pml4, _, e, slot, rfl, hmay e hevicted.entry hevicted.present, ?_⟩
      refine hevicted.hand_out ⟨rfl, rfl⟩ rfl rfl rfl fun f hf => ?_
      rcases hf with hf | hf
      · exact (List.mem_cons.mp hf).symm.imp_left .inl
      · exact .inl (.inr hf)
  | evictDemand pml4 base stop =>
    simp only [SwapState.perform] at h
    cases hout : w.evictDemand pml4 base stop with
    | mk w₁ r =>
      obtain ⟨rfl, hfresh⟩ | ⟨virt, e, slot, hge, hlt, huser, rfl, hevicted⟩ :=
        evictDemand_cases hout
      · simp only [hout, Prod.mk.injEq] at h
        exact .inr ⟨h.2.symm, .inl (h.1 ▸ hfresh)⟩
      simp only [hout, Prod.mk.injEq] at h
      obtain ⟨rfl, rfl⟩ := h
      refine .inl ⟨pml4, _, e, slot, rfl,
        hmay virt e hge hlt hevicted.entry hevicted.present huser, ?_⟩
      refine hevicted.hand_out ⟨rfl, rfl⟩ rfl rfl rfl fun f hf => ?_
      rcases hf with hf | hf
      · exact .inl (.inl hf)
      · exact (List.mem_cons.mp hf).symm.imp_left .inr
  | swapInInto virt =>
    cases h
    exact .inr ⟨rfl, (swapInInto_demandAlloc_cases rfl).imp_right fun h => .inl ⟨_, _, h⟩⟩
  | trySwapIn virt =>
    cases h
    exact .inr ⟨rfl, (trySwapIn_cases rfl).imp_right fun h => .inl ⟨_, _, h⟩⟩
  | freeDemandRegionExcept pml4 idx keep =>
    cases h
    exact .inr ⟨rfl, .inr (.inr ⟨pml4, idx, freeDemandRegionExcept_tornDown w pml4 idx keep⟩)⟩
  | access virt write =>
    cases h
    exact .inr ⟨rfl, .inl (access_refreshed w virt write)⟩
  | switchTo pml4 =>
    cases h
    exact .inr ⟨rfl, .inl (.of_ptes_eq ⟨rfl, rfl⟩ rfl rfl rfl fun f hf => hf)⟩

def SlotsDistinct (w : SwapWorld Sector) : Prop :=
  ∀ pml4 page e pml4' page' e', w.ptes pml4 page = some e → e.isSwapped = true →
    w.ptes pml4' page' = some e' → e'.isSwapped = true → e.slot = e'.slot →
    pml4 = pml4' ∧ page = page'

end SwapWorld

namespace SwapState

variable {Sector : Type} {s : SwapState Sector} {w' : SwapWorld Sector} {pml4 page : Nat} {e : Pte}

/-! ## The invariant -/

def Stored (s : SwapState Sector) (pml4 page : Nat) (e : Pte) : Prop :=
  ∃ v, s.saved pml4 page = some v ∧ e.has .userMark = v.isUser ∧ v.isWritable = true ∧
    v.noExecute = false ∧ s.world.area.InUse e.slot ∧
    s.world.readSectors (s.world.slotLba e.slot) = v.content

structure Invariant (s : SwapState Sector) : Prop where
  slots : s.world.area.length ≤ 2 ^ 20
  aligned : ∀ f, s.world.Free f → f &&& Pte.physMask = f
  stored : ∀ pml4 page e, s.world.ptes pml4 page = some e → e.isSwapped = true →
    s.Stored pml4 page e
  distinct : s.world.SlotsDistinct

theorem Invariant.slotRead_eq (h : s.Invariant) (he : s.world.ptes pml4 page = some e)
    (hswapped : e.isSwapped = true) : e.slotRead = e.slot := by
  obtain ⟨v, -, -, -, -, hused, -⟩ := h.stored pml4 page e he hswapped
  have hlt : e.slot < s.world.area.length := by
    by_contra hge
    simp [SwapArea.InUse, List.getElem?_eq_none (Nat.not_lt.mp hge)] at hused
  rw [Pte.slotRead_eq]
  exact Nat.mod_eq_of_lt (hlt.trans_le h.slots)

theorem record_swapped (he : s.world.ptes pml4 page = some e) (hswapped : e.isSwapped = true)
    (he' : w'.ptes pml4 page = some e) : s.record w' pml4 page = s.saved pml4 page := by
  have hpresent : e.has .present = false := by
    simp only [Pte.isSwapped, Bool.and_eq_true, Bool.not_eq_true'] at hswapped
    exact hswapped.1
  simp [record, he, he', hswapped, hpresent]

theorem Stored.keep (h : s.Stored pml4 page e) (he : s.world.ptes pml4 page = some e)
    (hswapped : e.isSwapped = true) (he' : w'.ptes pml4 page = some e)
    (hbase : w'.baseLba = s.world.baseLba)
    (hused : s.world.area.InUse e.slot → w'.area.InUse e.slot)
    (hdisk : s.world.area.InUse e.slot → w'.readSectors (s.world.slotLba e.slot) =
      s.world.readSectors (s.world.slotLba e.slot)) :
    Stored ⟨w', s.record w'⟩ pml4 page e := by
  obtain ⟨v, hsaved, huser, hwritable, hexec, hinUse, hcontent⟩ := h
  refine ⟨v, ?_, huser, hwritable, hexec, hused hinUse, ?_⟩
  · rw [← hsaved]
    exact record_swapped he hswapped he'
  · rw [← hcontent, ← hdisk hinUse]
    simp only [SwapWorld.slotLba, hbase]

theorem Invariant.refreshed (h : s.Invariant) (hfresh : s.world.Refreshed w') :
    Invariant ⟨w', s.record w'⟩ where
  slots := by simpa [hfresh.area] using h.slots
  aligned := fun f hf => h.aligned f (hfresh.free f hf)
  stored := by
    intro pml4 page e he' hswapped
    have he := SameEntry.swapped (he' ▸ hfresh.entries pml4 page) hswapped
    exact (h.stored pml4 page e he hswapped).keep he hswapped he' hfresh.baseLba
      (by rw [hfresh.area]; exact id) fun _ => SwapWorld.readSectors_congr hfresh.disk _
  distinct := by
    intro pml4 page e pml4' page' e' he hswapped he' hswapped'
    exact h.distinct pml4 page e pml4' page' e'
      (SameEntry.swapped (he ▸ hfresh.entries pml4 page) hswapped) hswapped
      (SameEntry.swapped (he' ▸ hfresh.entries pml4' page') hswapped') hswapped'

theorem inUse_set (area : SwapArea) (h : slot ≠ slot') :
    SwapArea.InUse (area.set slot true) slot' ↔ area.InUse slot' := by
  simp [SwapArea.InUse, List.getElem?_set_ne h]

section evicted

theorem slot_lt_of_evicted (h : s.Invariant) (hout : s.world.Evicted w' pml4 page e slot) :
    slot < 2 ^ 20 := by
  obtain ⟨hlt, -⟩ := List.getElem?_eq_some_iff.mp hout.slot_free
  exact hlt.trans_le h.slots

theorem swapped_after_evicted (h : s.Invariant) (hout : s.world.Evicted w' pml4 page e slot)
    (he' : w'.ptes pml4' page' = some e') (hswapped : e'.isSwapped = true) :
    (pml4' = pml4 ∧ page' = page ∧ e' = .swappedOut slot (e.has .user) ∧ e'.slot = slot) ∨
      (¬ (pml4' = pml4 ∧ page' = page) ∧ s.world.ptes pml4' page' = some e' ∧ slot ≠ e'.slot) := by
  by_cases hsame : pml4' = pml4 ∧ page' = page
  · obtain ⟨rfl, rfl⟩ := hsame
    have heq : e' = .swappedOut slot (e.has .user) := some.inj (he' ▸ hout.entry')
    refine .inl ⟨rfl, rfl, heq, ?_⟩
    rw [heq]
    exact Pte.slot_swappedOut _ ((slot_lt_of_evicted h hout).trans (by norm_num))
  · have he := SameEntry.swapped (he' ▸ hout.others pml4' page' hsame) hswapped
    refine .inr ⟨hsame, he, fun heq => ?_⟩
    obtain ⟨v, -, -, -, -, hused, -⟩ := h.stored pml4' page' e' he hswapped
    simp [SwapArea.InUse, ← heq, hout.slot_free] at hused

theorem Invariant.evicted (h : s.Invariant) (hplain : s.world.Plain pml4 page e)
    (hout : s.world.Evicted w' pml4 page e slot) : Invariant ⟨w', s.record w'⟩ where
  slots := by simpa [hout.area] using h.slots
  aligned := by
    intro f hf
    rcases hout.free f hf with hf | rfl
    · exact h.aligned f hf
    · simp
  stored := by
    intro pml4' page' e' he' hswapped
    obtain ⟨rfl, rfl, rfl, hslot⟩ | ⟨-, he, hne⟩ := swapped_after_evicted h hout he' hswapped
    · refine ⟨s.world.view e, ?_, by simp [SwapWorld.view], hplain.writable, hplain.executable,
        ?_, ?_⟩
      · simp [record, hout.entry, hout.entry', hout.present]
      · obtain ⟨hlt, -⟩ := List.getElem?_eq_some_iff.mp hout.slot_free
        rw [hslot]
        simp [SwapArea.InUse, hout.area, hlt]
      · rw [hslot]
        simpa only [SwapWorld.slotLba, hout.baseLba, SwapWorld.view] using hout.stored
    · refine (h.stored pml4' page' e' he hswapped).keep he hswapped he' hout.baseLba ?_ fun _ =>
        hout.disk _ hne.symm
      rw [hout.area]
      exact (inUse_set _ hne).mpr
  distinct := by
    intro pml4₁ page₁ e₁ pml4₂ page₂ e₂ he₁ hswapped₁ he₂ hswapped₂ hslots
    obtain ⟨rfl, rfl, -, hslot₁⟩ | ⟨-, he₁, hne₁⟩ := swapped_after_evicted h hout he₁ hswapped₁
    · obtain ⟨rfl, rfl, -, -⟩ | ⟨-, -, hne₂⟩ := swapped_after_evicted h hout he₂ hswapped₂
      · exact ⟨rfl, rfl⟩
      · exact absurd (hslot₁.symm.trans hslots) hne₂
    · obtain ⟨rfl, rfl, -, hslot₂⟩ | ⟨-, he₂, -⟩ := swapped_after_evicted h hout he₂ hswapped₂
      · exact absurd (hslot₂.symm.trans hslots.symm) hne₁
      · exact h.distinct _ _ _ _ _ _ he₁ hswapped₁ he₂ hswapped₂ hslots

end evicted

section returned

theorem swapped_after_returned (h : s.Invariant) (hin : s.world.Returned w' pml4 page e f)
    (he' : w'.ptes pml4' page' = some e') (hswapped : e'.isSwapped = true) :
    s.world.ptes pml4' page' = some e' ∧ e.slotRead ≠ e'.slot := by
  by_cases hsame : pml4' = pml4 ∧ page' = page
  · obtain ⟨rfl, rfl⟩ := hsame
    have heq : e' = .swappedIn f (e.has .userMark) := some.inj (he' ▸ hin.entry')
    rw [heq, Pte.not_isSwapped_of_present (by simp)] at hswapped
    exact absurd hswapped (by simp)
  · have he : s.world.ptes pml4' page' = some e' := hin.others pml4' page' hsame ▸ he'
    refine ⟨he, fun heq => hsame ?_⟩
    rw [h.slotRead_eq hin.entry hin.swapped] at heq
    exact h.distinct _ _ _ _ _ _ he hswapped hin.entry hin.swapped heq.symm

theorem Invariant.returned (h : s.Invariant) (hin : s.world.Returned w' pml4 page e f) :
    Invariant ⟨w', s.record w'⟩ where
  slots := by simpa [hin.area, SwapWorld.length_free] using h.slots
  aligned := fun f hf => h.aligned f (hin.free f hf)
  stored := by
    intro pml4' page' e' he' hswapped
    obtain ⟨he, hne⟩ := swapped_after_returned h hin he' hswapped
    refine (h.stored pml4' page' e' he hswapped).keep he hswapped he' hin.baseLba ?_ fun _ =>
      SwapWorld.readSectors_congr hin.disk _
    intro hused
    rw [hin.area, SwapWorld.inUse_free]
    exact ⟨hused, hne⟩
  distinct := by
    intro pml4₁ page₁ e₁ pml4₂ page₂ e₂ he₁ hswapped₁ he₂ hswapped₂
    exact h.distinct _ _ _ _ _ _ (swapped_after_returned h hin he₁ hswapped₁).1 hswapped₁
      (swapped_after_returned h hin he₂ hswapped₂).1 hswapped₂

theorem view_returned (h : s.Invariant) (hin : s.world.Returned w' pml4 page e f) :
    s.saved pml4 page = some (w'.view (.swappedIn f (e.has .userMark))) := by
  obtain ⟨v, hsaved, huser, hwritable, hexec, -, hcontent⟩ :=
    h.stored pml4 page e hin.entry hin.swapped
  have hframe := Pte.frame_swappedIn v.isUser (h.aligned f hin.frame_free)
  rw [hsaved]
  simp only [SwapWorld.view, hframe, hin.content, h.slotRead_eq hin.entry hin.swapped, hcontent,
    Pte.has_user_swappedIn, Pte.has_writable_swappedIn, Pte.has_noExecute_swappedIn, huser,
    ← hwritable, ← hexec]

end returned

section tornDown

theorem swapped_after_tornDown (h : s.Invariant) (hdown : s.world.TornDown w' pml4 idx)
    (he' : w'.ptes pml4' page' = some e') (hswapped : e'.isSwapped = true) :
    s.world.ptes pml4' page' = some e' ∧
      ∀ page e, page / 2 ^ 27 = idx → s.world.ptes pml4 page = some e → e.isSwapped = true →
        e.slotRead ≠ e'.slot := by
  have hother : ¬ (pml4' = pml4 ∧ page' / 2 ^ 27 = idx) := by
    rintro ⟨rfl, hpage⟩
    simp [hdown.removed page' hpage] at he'
  have he : s.world.ptes pml4' page' = some e' := hdown.others pml4' page' hother ▸ he'
  refine ⟨he, fun page e hpage hentry hswapped' heq => hother ?_⟩
  rw [h.slotRead_eq hentry hswapped'] at heq
  obtain ⟨rfl, rfl⟩ := h.distinct _ _ _ _ _ _ he hswapped hentry hswapped' heq.symm
  exact ⟨rfl, hpage⟩

theorem Invariant.tornDown (h : s.Invariant) (hdown : s.world.TornDown w' pml4 idx) :
    Invariant ⟨w', s.record w'⟩ where
  slots := by simpa [hdown.length] using h.slots
  aligned := fun f hf => (hdown.free f hf).elim (h.aligned f) id
  stored := by
    intro pml4' page' e' he' hswapped
    obtain ⟨he, hne⟩ := swapped_after_tornDown h hdown he' hswapped
    exact (h.stored pml4' page' e' he hswapped).keep he hswapped he' hdown.baseLba
      (fun hused => (hdown.inUse _).mpr ⟨hused, hne⟩) fun _ =>
      SwapWorld.readSectors_congr hdown.disk _
  distinct := by
    intro pml4₁ page₁ e₁ pml4₂ page₂ e₂ he₁ hswapped₁ he₂ hswapped₂
    exact h.distinct _ _ _ _ _ _ (swapped_after_tornDown h hdown he₁ hswapped₁).1 hswapped₁
      (swapped_after_tornDown h hdown he₂ hswapped₂).1 hswapped₂

end tornDown

theorem Invariant.step (h : s.Invariant) (hmay : s.world.MayCall call) :
    (machine.step s call).1.Invariant := by
  obtain ⟨pml4, page, e, slot, -, hplain, hout⟩ | ⟨-, hfresh | ⟨pml4, page, e, f, hin⟩ |
      ⟨pml4, idx, hdown⟩⟩ := SwapWorld.perform_cases hmay rfl
  · exact h.evicted hplain hout
  · exact h.refreshed hfresh
  · exact h.returned hin
  · exact h.tornDown hdown

theorem invariant_initial {w : SwapWorld Sector} (h : w.Initial) (hslots : w.area.length ≤ 2 ^ 20) :
    Invariant ⟨w, fun _ _ => none⟩ where
  slots := hslots
  aligned := h.aligned
  stored := by
    intro pml4 page e he hswapped
    simp [h.unmarked pml4 page e he] at hswapped
  distinct := by
    intro pml4 page e pml4' page' e' he hswapped
    simp [h.unmarked pml4 page e he] at hswapped

/-! ## Transparency -/

structure Transparent (s s' : SwapState Sector) (reply : Option (BitVec 64)) : Prop where
  /-- A page that comes back looks as it did when it was swapped out. -/
  restored : ∀ pml4 page e e', s.world.ptes pml4 page = some e → e.isSwapped = true →
    s'.world.ptes pml4 page = some e' → e'.has .present = true →
    s.saved pml4 page = some (s'.world.view e')
  distinct : s'.world.SlotsDistinct
  /-- A slot is released with the entry that names it. -/
  released : ∀ slot, s.world.area.InUse slot → ¬ s'.world.area.InUse slot →
    ∃ pml4 page e, s.world.ptes pml4 page = some e ∧ e.isSwapped = true ∧ e.slot = slot ∧
      ∀ e', s'.world.ptes pml4 page = some e' → e'.isSwapped = false
  /-- A frame that is returned is not referred to any more. -/
  unmapped : ∀ f, reply = some f → f ∉ s'.world.sharedFrames ∧
    ∀ pml4 page e, s'.world.ptes pml4 page = some e → e.has .present = true → e.frame ≠ f

theorem Evicted.transparent (hplain : s.world.Plain pml4 page e)
    (hout : s.world.Evicted w' pml4 page e slot) (hdistinct : w'.SlotsDistinct) :
    Transparent s ⟨w', s.record w'⟩ (some e.frame) := by
  refine ⟨?_, hdistinct, ?_, ?_⟩
  · intro pml4' page' e₁ e' he hswapped he' hpresent
    by_cases hsame : pml4' = pml4 ∧ page' = page
    · obtain ⟨rfl, rfl⟩ := hsame
      rw [hout.entry] at he
      rw [← some.inj he, Pte.not_isSwapped_of_present hout.present] at hswapped
      exact absurd hswapped (by simp)
    · have := (he ▸ hout.others pml4' page' hsame).eq_of_swapped hswapped
      simp [some.inj (he' ▸ this), Pte.not_present_of_isSwapped hswapped] at hpresent
  · intro slot' hused hfreed
    have hne : slot ≠ slot' := by
      rintro rfl
      simp [SwapArea.InUse, hout.slot_free] at hused
    rw [hout.area, inUse_set _ hne] at hfreed
    exact absurd hused hfreed
  · rintro f hf
    obtain rfl := some.inj hf
    refine ⟨hout.sharedFrames ▸ hplain.unshared, ?_⟩
    intro pml4' page' e' he' hpresent hframe
    by_cases hsame : pml4' = pml4 ∧ page' = page
    · obtain ⟨rfl, rfl⟩ := hsame
      rw [hout.entry'] at he'
      simp [← some.inj he', Pte.not_present_of_isSwapped] at hpresent
    · obtain ⟨e₀, he₀, hmap⟩ := (he' ▸ hout.others pml4' page' hsame).present hpresent
      exact hsame (hplain.alone pml4' page' e₀ he₀ hmap.present (hmap.frame ▸ hframe))

theorem Invariant.transparent (h : s.Invariant) (hmay : s.world.MayCall call) :
    Transparent s (machine.step s call).1 (machine.step s call).2 := by
  have hafter := h.step hmay
  rcases hperform : perform s.world call with ⟨w', reply⟩
  have hstep : machine.step s call = (⟨w', s.record w'⟩, reply) := by simp only [machine, hperform]
  rw [hstep] at hafter ⊢
  obtain ⟨pml4, page, e, slot, rfl, hplain, hout⟩ | ⟨rfl, hfresh | ⟨pml4, page, e, f, hin⟩ |
      ⟨pml4, idx, hdown⟩⟩ := SwapWorld.perform_cases hmay hperform
  · exact Evicted.transparent hplain hout hafter.distinct
  · refine ⟨?_, hafter.distinct, ?_, by simp⟩
    · intro pml4 page e e' he hswapped he' hpresent
      have := (he ▸ hfresh.entries pml4 page).eq_of_swapped hswapped
      simp [some.inj (he' ▸ this), Pte.not_present_of_isSwapped hswapped] at hpresent
    · intro slot hused hfreed
      exact absurd (hfresh.area ▸ hused) hfreed
  · refine ⟨?_, hafter.distinct, ?_, by simp⟩
    · intro pml4' page' e₁ e' he hswapped he' hpresent
      by_cases hsame : pml4' = pml4 ∧ page' = page
      · obtain ⟨rfl, rfl⟩ := hsame
        rw [hin.entry'] at he'
        exact some.inj he' ▸ view_returned h hin
      · rw [hin.others pml4' page' hsame, he] at he'
        simp [← some.inj he', Pte.not_present_of_isSwapped hswapped] at hpresent
    · intro slot hused hfreed
      rw [hin.area, SwapWorld.inUse_free, h.slotRead_eq hin.entry hin.swapped] at hfreed
      refine ⟨pml4, page, e, hin.entry, hin.swapped, by_contra fun hne => hfreed ⟨hused, hne⟩, ?_⟩
      intro e' he'
      rw [hin.entry'] at he'
      exact some.inj he' ▸ Pte.not_isSwapped_of_present (by simp)
  · refine ⟨?_, hafter.distinct, ?_, by simp⟩
    · intro pml4' page' e₁ e' he hswapped he' hpresent
      by_cases hregion : pml4' = pml4 ∧ page' / 2 ^ 27 = idx
      · obtain ⟨rfl, hpage⟩ := hregion
        simp [hdown.removed page' hpage] at he'
      · rw [hdown.others pml4' page' hregion, he] at he'
        simp [← some.inj he', Pte.not_present_of_isSwapped hswapped] at hpresent
    · intro slot hused hfreed
      rw [hdown.inUse] at hfreed
      push Not at hfreed
      obtain ⟨page, e, hpage, he, hswapped, hslot⟩ := hfreed hused
      refine ⟨pml4, page, e, he, hswapped, (h.slotRead_eq he hswapped).symm.trans hslot, ?_⟩
      simp [hdown.removed page hpage]

/-- In a run on an area of at most `2 ^ 20` slots that swaps out plain pages only, every call is
transparent. -/
theorem transparent_of_plain {w : SwapWorld Sector} (hinit : w.Initial)
    (hslots : w.area.length ≤ 2 ^ 20) {calls : List (SwapCall Sector)}
    (hplain : machine.Allowed (fun s call => s.world.MayCall call) ⟨w, fun _ _ => none⟩ calls)
    {earlier : List (SwapCall Sector)} {call : SwapCall Sector}
    (hearlier : earlier ++ [call] <+: calls) :
    Transparent (machine.run ⟨w, fun _ _ => none⟩ earlier)
      (machine.step (machine.run ⟨w, fun _ _ => none⟩ earlier) call).1
      (machine.step (machine.run ⟨w, fun _ _ => none⟩ earlier) call).2 := by
  obtain ⟨later, rfl⟩ := hearlier
  rw [List.append_assoc, CallMachine.allowed_append] at hplain
  obtain ⟨hbefore, hthen⟩ := hplain
  have hinv := CallMachine.run_invariant Invariant (fun s call h hmay => h.step hmay)
    (invariant_initial hinit hslots) hbefore
  exact hinv.transparent hthen.1

/-- One address space per entry, each with one page, four slots and a free frame in each pool. -/
def twoPages (e e' : Pte) : SwapWorld Nat where
  frames := fun f s => f.toNat + s
  ptes := fun pml4 page =>
    if pml4 = 1 ∧ page = 5 then some e else if pml4 = 2 ∧ page = 7 then some e' else none
  disk := fun _ => 0
  area := .new 4
  pool := [0x9000]
  baseLba := 2048
  hands := []
  demand := [0xA000]
  sharedFrames := []
  activePml4 := 1

theorem initial_twoPages (h : e.isSwapped = false) (h' : e'.isSwapped = false) :
    (twoPages e e').Initial where
  area := by simp [twoPages, SwapArea.new]
  unmarked := by
    intro pml4 page e₁ he₁
    simp only [twoPages] at he₁
    split_ifs at he₁
    · exact some.inj he₁ ▸ h
    · exact some.inj he₁ ▸ h'
  aligned := by
    intro f hf
    have : f = 0x9000 ∨ f = 0xA000 := by simpa [SwapWorld.Free, twoPages] using hf
    rcases this with rfl | rfl <;> decide

def privatePages : SwapWorld Nat := twoPages 0x1007 0x3007

theorem mayCall_privatePages : privatePages.MayCall (.swapOutIn 1 0x5000) := by
  intro e he hpresent
  have : e = 0x1007 := by
    simpa [SwapWorld.walkPteIn, SwapWorld.pageOf, privatePages, twoPages, eq_comm] using he
  subst this
  refine ⟨by decide, by decide, ?_, by simp [privatePages, twoPages]⟩
  intro pml4' page' e' he' hpresent' hframe
  simp only [privatePages, twoPages] at he'
  split_ifs at he' with hfirst hsecond
  · exact hfirst
  · rw [← some.inj he'] at hframe
    exact absurd hframe (by decide)

theorem transparent_of_plain_privatePages :
    Transparent (machine.run ⟨privatePages, fun _ _ => none⟩ [.swapOutIn 1 0x5000])
      (machine.step (machine.run ⟨privatePages, fun _ _ => none⟩ [.swapOutIn 1 0x5000])
        (.trySwapIn 0x5000)).1
      (machine.step (machine.run ⟨privatePages, fun _ _ => none⟩ [.swapOutIn 1 0x5000])
        (.trySwapIn 0x5000)).2 := by
  refine transparent_of_plain (initial_twoPages (by decide) (by decide)) (by decide) ?_
    (List.prefix_refl _)
  exact ⟨mayCall_privatePages, trivial, trivial⟩

def sharedPage : SwapWorld Nat := twoPages 0x3005 0x3005

/-- The frame of a shared page is handed out while the other entry maps it; a read-only page comes
back writable; and slots from `2 ^ 20` on are read back as other slots. -/
theorem shared_readOnly_page_not_transparent :
    sharedPage.Initial ∧
      ¬ Transparent ⟨sharedPage, fun _ _ => none⟩
        (machine.step ⟨sharedPage, fun _ _ => none⟩ (.swapOutIn 1 0x5000)).1
        (machine.step ⟨sharedPage, fun _ _ => none⟩ (.swapOutIn 1 0x5000)).2 ∧
      ¬ Transparent (machine.run ⟨sharedPage, fun _ _ => none⟩ [.swapOutIn 1 0x5000])
        (machine.step (machine.run ⟨sharedPage, fun _ _ => none⟩ [.swapOutIn 1 0x5000])
          (.trySwapIn 0x5000)).1
        (machine.step (machine.run ⟨sharedPage, fun _ _ => none⟩ [.swapOutIn 1 0x5000])
          (.trySwapIn 0x5000)).2 ∧
      (Pte.swappedOut (2 ^ 20) true).slot = 2 ^ 20 ∧ (Pte.swappedOut (2 ^ 20) true).slotRead = 0 := by
  refine ⟨initial_twoPages (by decide) (by decide), ?_, ?_, by decide, by decide⟩
  · intro h
    exact (h.unmapped 0x3000 (by decide)).2 2 7 0x3005 (by decide) (by decide) (by decide)
  · intro h
    have hview := h.restored 1 5 (.swappedOut 0 true) (.swappedIn 0xA000 true) (by decide)
      (by decide) (by decide) (by decide)
    have hwritable := congrArg (Option.map PageView.isWritable) hview
    exact absurd hwritable (by decide)

end SwapState

end EuroOS
