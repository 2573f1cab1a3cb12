import EuroOS.FrameAllocator

/-!
# Runs of the frame allocator

The allocator together with the frames its clients hold.  Every run that starts from
a memory map hands out only free frames, keeps the frames of different clients apart
and fails only when the request cannot be met.
-/

namespace EuroOS

open FrameAllocator

structure FrameSystem where
  alloc : FrameAllocator
  out : Finset Nat

inductive FrameCall
  | allocate
  | allocateContiguous (count : UInt64)
  | allocateAligned (count align : UInt64)
  | free (phys : UInt64)
  deriving DecidableEq

inductive FrameResult
  | answer (a : Answer)
  | freed (r : Except FrameError Unit)
  deriving DecidableEq

namespace FrameCall

def request : FrameCall → Option (Nat × Nat)
  | allocate => some (1, 1)
  | allocateContiguous count => some (count.toNat, 1)
  | allocateAligned count align => some (count.toNat, align.toNat)
  | free _ => none

end FrameCall

def Answer.frames (count : Nat) : Answer → Finset Nat
  | .run base => runOf (base / pageSize) count
  | _ => ∅

def frameMachine : CallMachine FrameSystem FrameCall FrameResult where
  step s
    | .allocate =>
      let answer : Answer :=
        match s.alloc.allocate.2 with
        | .ok base => .run base
        | .error e => .failed e
      (⟨s.alloc.allocate.1, s.out ∪ Answer.frames 1 answer⟩, .answer answer)
    | .allocateContiguous count =>
      let r := s.alloc.allocateContiguous count.toNat
      (⟨r.1, s.out ∪ Answer.frames count.toNat r.2⟩, .answer r.2)
    | .allocateAligned count align =>
      let r := s.alloc.allocateAligned count.toNat align.toNat
      (⟨r.1, s.out ∪ Answer.frames count.toNat r.2⟩, .answer r.2)
    | .free phys =>
      let r := s.alloc.free phys.toNat
      (⟨r.1, s.out.erase (phys.toNat / pageSize)⟩, .freed r.2)

/-- Clients give back what they hold, and an alignment does not reach beyond the
64-bit frame numbers. -/
def FrameAllowed (s : FrameSystem) : FrameCall → Prop
  | .free phys => phys.toNat / pageSize ∈ s.out
  | .allocateAligned count align =>
    count.toNat ≤ s.alloc.totalFrames → align.toNat + count.toNat < 2 ^ 64
  | _ => True

instance (s : FrameSystem) (call : FrameCall) : Decidable (FrameAllowed s call) :=
  match call with
  | .free phys => inferInstanceAs (Decidable (phys.toNat / pageSize ∈ s.out))
  | .allocateAligned count align =>
    inferInstanceAs (Decidable (count.toNat ≤ s.alloc.totalFrames →
      align.toNat + count.toNat < 2 ^ 64))
  | .allocate => isTrue trivial
  | .allocateContiguous _ => isTrue trivial

/-- One call behaves: a run that is handed out was free, belongs to nobody, and is
aligned as asked; a request fails only if no run would do; the counter counts. -/
structure FrameSound (s : FrameSystem) (call : FrameCall) (s' : FrameSystem)
    (result : FrameResult) : Prop where
  run : ∀ count align base, call.request = some (count, align) →
    result = .answer (.run base) → ∃ f, base = f * pageSize ∧ 0 < count ∧ align ∣ f ∧
      runOf f count ⊆ s.alloc.freeSet ∧ Disjoint (runOf f count) s.out
  failed : ∀ count align e, call.request = some (count, align) →
    result = .answer (.failed e) → ∀ f, ¬ s.alloc.Suitable count align f
  answered : result ≠ .answer .panicked
  freed : ∀ r, result = .freed r → r = .ok ()
  counter : s'.alloc.freeFrames = s'.alloc.freeSet.card

/-- The free frames and the ones handed out are together the frames of the memory map. -/
structure FrameSystem.Consistent (frames : Finset Nat) (s : FrameSystem) : Prop where
  wellFormed : s.alloc.WellFormed
  all : s.alloc.freeSet ∪ s.out = frames
  apart : Disjoint s.alloc.freeSet s.out
  out_lt : ∀ f ∈ s.out, f < s.alloc.totalFrames

variable {frames : Finset Nat} {s : FrameSystem}

theorem FrameSystem.Consistent.takes (h : s.Consistent frames) (hb : s.alloc.Takes taken b)
    (htaken : taken ⊆ s.alloc.freeSet) : FrameSystem.Consistent frames ⟨b, s.out ∪ taken⟩ where
  wellFormed := hb.wellFormed
  all := by
    rw [hb.freeSet, ← h.all]
    ext f
    have := @htaken f
    simp only [Finset.mem_union, Finset.mem_sdiff]
    tauto
  apart := by
    rw [hb.freeSet, Finset.disjoint_union_right]
    exact ⟨h.apart.mono_left Finset.sdiff_subset, Finset.sdiff_disjoint⟩
  out_lt f hf := by
    rw [hb.total]
    rcases Finset.mem_union.mp hf with hf | hf
    · exact h.out_lt f hf
    · exact (mem_freeSet.mp (htaken hf)).1

theorem FrameSystem.Consistent.answered (h : s.Consistent frames)
    (hrequest : call.request = some (count, align))
    (hanswer : s.alloc.Answered count align b answer) :
    FrameSound s call ⟨b, s.out ∪ Answer.frames count answer⟩ (.answer answer) ∧
      FrameSystem.Consistent frames ⟨b, s.out ∪ Answer.frames count answer⟩ := by
  cases answer with
  | run base =>
    obtain ⟨f, rfl, hsuit, htakes⟩ := hanswer
    have hframes : Answer.frames count (.run (f * pageSize)) = runOf f count := by
      simp [Answer.frames, pageSize]
    rw [hframes]
    refine ⟨⟨?_, ?_, by simp, by simp, htakes.wellFormed.counter⟩, h.takes htakes hsuit.2.2.2⟩
    · intro count' align' base hcall hresult
      obtain ⟨rfl, rfl⟩ : count = count' ∧ align = align' := by simpa [hrequest] using hcall
      obtain rfl : f * pageSize = base := by simpa using hresult
      exact ⟨f, rfl, hsuit.1, hsuit.2.2.1, hsuit.2.2.2, h.apart.mono_left hsuit.2.2.2⟩
    · intro count' align' e _ hresult
      simp at hresult
  | failed e =>
    obtain ⟨rfl, hnone⟩ := hanswer
    refine ⟨⟨?_, ?_, by simp, by simp, h.wellFormed.counter⟩, by simpa [Answer.frames] using h⟩
    · intro count' align' base _ hresult
      simp at hresult
    · intro count' align' e' hcall _
      obtain ⟨rfl, rfl⟩ : count = count' ∧ align = align' := by simpa [hrequest] using hcall
      exact hnone
  | panicked => exact hanswer.elim

theorem FrameSystem.Consistent.step (h : s.Consistent frames) (hcall : FrameAllowed s call) :
    FrameSound s call (frameMachine.step s call).1 (frameMachine.step s call).2 ∧
      (frameMachine.step s call).1.Consistent frames := by
  cases call with
  | allocate =>
    have hanswered : s.alloc.Answered 1 1 s.alloc.allocate.1
        (match s.alloc.allocate.2 with
          | .ok base => .run base
          | .error e => .failed e) := by
      obtain ⟨heq, hempty⟩ | ⟨f, hf, b, heq, htakes⟩ := allocate_spec h.wellFormed
      · simp only [heq]
        refine ⟨rfl, fun f hf => ?_⟩
        have := hf.2.2.2 (show f ∈ runOf f 1 by simp [runOf])
        simp [hempty] at this
      · simp only [heq]
        exact ⟨f, rfl, ⟨by omega, by omega, one_dvd _, by simpa [runOf] using hf⟩, htakes⟩
    exact h.answered rfl hanswered
  | allocateContiguous count =>
    exact h.answered rfl (allocateContiguous_spec h.wellFormed count.toNat_lt)
  | allocateAligned count align =>
    exact h.answered rfl (allocateAligned_spec h.wellFormed count.toNat_lt hcall)
  | free phys =>
    have hused : phys.toNat / pageSize ∉ s.alloc.freeSet :=
      Finset.disjoint_right.mp h.apart hcall
    obtain ⟨hok, hwf, hset, htotal⟩ := free_spec h.wellFormed (h.out_lt _ hcall) hused rfl
    refine ⟨⟨?_, ?_, by simp [frameMachine], ?_, hwf.counter⟩, ⟨hwf, ?_, ?_, ?_⟩⟩
    · intro count align base hrequest
      simp [FrameCall.request] at hrequest
    · intro count align e hrequest
      simp [FrameCall.request] at hrequest
    · intro r hr
      have hr' : (s.alloc.free phys.toNat).2 = r := by simpa [frameMachine] using hr
      rw [← hr', hok]
    · simp only [frameMachine, hset, ← h.all]
      ext f
      simp only [Finset.mem_union, Finset.mem_insert, Finset.mem_erase]
      by_cases hf : f = phys.toNat / pageSize
      · simp [hf, show phys.toNat / pageSize ∈ s.out from hcall]
      · simp [hf]
    · simp only [frameMachine, hset, Finset.disjoint_insert_left]
      exact ⟨by simp, h.apart.mono_right (Finset.erase_subset _ _)⟩
    · intro f hf
      simp only [frameMachine, htotal]
      exact h.out_lt f (Finset.mem_of_mem_erase hf)

theorem FrameSystem.Consistent.run (h : s.Consistent frames)
    (hcalls : frameMachine.Allowed FrameAllowed s calls) :
    (frameMachine.run s calls).Consistent frames :=
  CallMachine.run_invariant (FrameSystem.Consistent frames) (fun _ _ h hcall => (h.step hcall).2)
    h hcalls

/-! ## Runs from a memory map -/

def MemoryRegion.HasFrame (r : MemoryRegion) (f : Nat) : Prop :=
  r.start ≤ f * pageSize ∧ (f + 1) * pageSize ≤ r.start + r.len

def UsableFrame (regions : List MemoryRegion) (f : Nat) : Prop :=
  (∃ r ∈ regions, r.usable = true ∧ r.HasFrame f) ∧
    ¬ ∃ r ∈ regions, r.usable = false ∧ r.HasFrame f

/-- `reserveBelow` is a frame boundary, or the frame it cuts is not usable anyway. -/
def ReserveWhole (regions : List MemoryRegion) (reserveBelow : Nat) : Prop :=
  pageSize ∣ reserveBelow ∨ ¬ UsableFrame regions (reserveBelow / pageSize)

theorem covers_iff (hstart : pageSize ∣ r.start) (hlen : pageSize ∣ r.len) (f : Nat) :
    Covers r f ↔ r.HasFrame f := by
  obtain ⟨a, ha⟩ := hstart
  obtain ⟨b, hb⟩ := hlen
  unfold Covers MemoryRegion.HasFrame
  rw [ha, hb]
  simp only [pageSize]
  omega

theorem mem_fromRegions (haligned : ∀ r ∈ regions, pageSize ∣ r.start ∧ pageSize ∣ r.len)
    (hfits : ∀ r ∈ regions, r.usable = true → r.start + r.len < 2 ^ 64) (f : Nat) :
    f ∈ (fromRegions regions reserveBelow).freeSet ↔
      UsableFrame regions f ∧ reserveBelow / pageSize ≤ f := by
  rw [(fromRegions_spec regions reserveBelow).2 f]
  have hcovers (used : Bool) : (∃ r ∈ regions, r.usable = used ∧ Covers r f) ↔
      ∃ r ∈ regions, r.usable = used ∧ r.HasFrame f := by
    refine exists_congr fun r => and_congr_right fun hr => and_congr_right fun _ => ?_
    exact covers_iff (haligned r hr).1 (haligned r hr).2 f
  rw [hcovers, hcovers, UsableFrame, and_assoc]
  refine ⟨fun h => h.2, fun h => ⟨?_, h⟩⟩
  obtain ⟨r, hr, husable, hframe⟩ := h.1
  have := le_highest hr husable (hfits r hr husable)
  have hlast := hframe.2
  simp only [pageSize] at *
  omega

theorem fromRegions_exact_iff (haligned : ∀ r ∈ regions, pageSize ∣ r.start ∧ pageSize ∣ r.len)
    (hfits : ∀ r ∈ regions, r.usable = true → r.start + r.len < 2 ^ 64) :
    (∀ f, f ∈ (fromRegions regions reserveBelow).freeSet ↔
      UsableFrame regions f ∧ reserveBelow ≤ f * pageSize) ↔
      ReserveWhole regions reserveBelow := by
  simp only [mem_fromRegions haligned hfits]
  constructor
  · intro h
    by_contra hwhole
    simp only [ReserveWhole, not_or, not_not] at hwhole
    have hle := ((h (reserveBelow / pageSize)).mp ⟨hwhole.2, le_rfl⟩).2
    exact hwhole.1 ⟨reserveBelow / pageSize, by simp only [pageSize] at *; omega⟩
  · intro hwhole f
    refine and_congr_right fun husable => ?_
    rcases hwhole with ⟨k, rfl⟩ | hcut
    · simp only [pageSize]
      omega
    have hne : f ≠ reserveBelow / pageSize := fun he => hcut (he ▸ husable)
    simp only [pageSize] at *
    omega

def frameSystem (regions : List MemoryRegion) (reserveBelow : Nat) : FrameSystem where
  alloc := fromRegions regions reserveBelow
  out := ∅

theorem consistent_frameSystem (regions : List MemoryRegion) (reserveBelow : Nat) :
    (frameSystem regions reserveBelow).Consistent (fromRegions regions reserveBelow).freeSet where
  wellFormed := (fromRegions_spec regions reserveBelow).1
  all := by simp [frameSystem]
  apart := by simp [frameSystem]
  out_lt f hf := by simp [frameSystem] at hf

/-- The memory map determines the free frames up to the frame that `reserveBelow`
cuts in two; from then on every call behaves, and the free frames and the ones handed
out stay the frames of the map. -/
theorem frame_allocator_sound (regions : List MemoryRegion) (reserveBelow : Nat)
    (haligned : ∀ r ∈ regions, pageSize ∣ r.start ∧ pageSize ∣ r.len)
    (hfits : ∀ r ∈ regions, r.usable = true → r.start + r.len < 2 ^ 64) :
    ((∀ f, f ∈ (fromRegions regions reserveBelow).freeSet ↔
        UsableFrame regions f ∧ reserveBelow ≤ f * pageSize) ↔
      ReserveWhole regions reserveBelow) ∧
    ∀ calls, frameMachine.Allowed FrameAllowed (frameSystem regions reserveBelow) calls →
      ∀ earlier call, earlier ++ [call] <+: calls →
        ∀ s, frameMachine.run (frameSystem regions reserveBelow) earlier = s →
          FrameSound s call (frameMachine.step s call).1 (frameMachine.step s call).2 ∧
          s.alloc.freeSet ∪ s.out = (fromRegions regions reserveBelow).freeSet ∧
          Disjoint s.alloc.freeSet s.out := by
  refine ⟨fromRegions_exact_iff haligned hfits, ?_⟩
  rintro calls hcalls earlier call ⟨later, rfl⟩ s rfl
  rw [List.append_assoc, CallMachine.allowed_append] at hcalls
  have hconsistent := (consistent_frameSystem regions reserveBelow).run hcalls.1
  exact ⟨(hconsistent.step hcalls.2.1).1, hconsistent.all, hconsistent.apart⟩

/-- Eight frames with a hole at frame 2 and the first one reserved: an aligned pair, a
single frame, and the pair given back. -/
theorem frame_allocator_sound_eight :
    let regions : List MemoryRegion := [⟨0, 0x8000, true⟩, ⟨0x2000, 0x1000, false⟩]
    let calls : List FrameCall := [.allocateAligned 2 4, .allocate, .free 0x4000, .free 0x5000]
    (∀ f, f ∈ (fromRegions regions 0x1000).freeSet ↔
      UsableFrame regions f ∧ 0x1000 ≤ f * pageSize) ∧
    frameMachine.results (frameSystem regions 0x1000) calls =
      [.answer (.run 0x4000), .answer (.run 0x1000), .freed (.ok ()), .freed (.ok ())] ∧
    (frameMachine.run (frameSystem regions 0x1000) [.allocateAligned 2 4, .allocate]).out =
      {1, 4, 5} ∧
    ∀ s, frameMachine.run (frameSystem regions 0x1000) [.allocateAligned 2 4, .allocate] = s →
      Disjoint s.alloc.freeSet s.out := by
  have h := frame_allocator_sound [⟨0, 0x8000, true⟩, ⟨0x2000, 0x1000, false⟩] 0x1000
    (by decide) (by decide)
  refine ⟨h.1.mpr (.inl (by decide)), by decide +kernel, by decide +kernel, fun s hs => ?_⟩
  exact (h.2 [.allocateAligned 2 4, .allocate, .free 0x4000, .free 0x5000] (by decide +kernel)
    [.allocateAligned 2 4, .allocate] (.free 0x4000) ⟨[.free 0x5000], rfl⟩ s hs).2.2

/-- A reserve that ends inside a frame leaves that frame free; an alignment at the end
of the 64-bit numbers makes the search index beyond the bitmap. -/
theorem cut_reserve_and_huge_alignment :
    (1 ∈ (fromRegions [⟨0, 0x4000, true⟩] 0x1001).freeSet ∧ ¬ 0x1001 ≤ 1 * pageSize) ∧
    (frameMachine.step (frameSystem [⟨0x1000, 0x1000, true⟩] 0)
      (.allocateAligned 1 0xffffffffffffffff)).2 = .answer .panicked := by decide +kernel

end EuroOS
