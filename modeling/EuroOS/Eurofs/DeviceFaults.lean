import EuroOS.Eurofs.RebuildRefinement

/-!
# Devices whose requests may fail

What the block layer does on a device that refuses reads and writes: a refused
write changes nothing, and a sequence of writes stops at the first refusal.  The
blocks themselves are looked at through `calm`, the same device without faults.
-/

namespace EuroOS

open Std (ExtTreeMap)

/-- Which reads and which writes fail, by the number of requests seen and block. -/
structure Faults where
  reads : Nat → Nat → Bool
  writes : Nat → Nat → Bool

namespace Faults

def none : Faults := ⟨fun _ _ => false, fun _ _ => false⟩

def DataReadable (f : Faults) : Prop := ∀ t b, reservedBlocks ≤ b → f.reads t b = false

end Faults

namespace Device

def withFaults (dev : Device) (f : Faults) : Device :=
  { dev with readFails := f.reads, writeFails := f.writes }

def calm (dev : Device) : Device := dev.withFaults .none

theorem calm_faultFree (dev : Device) : dev.calm.FaultFree := ⟨fun _ _ => rfl, fun _ _ => rfl⟩

theorem FaultFree.calm_eq {dev : Device} (h : dev.FaultFree) : dev.calm = dev := by
  have hreads : dev.readFails = fun _ _ => false := funext fun t => funext fun b => h.1 t b
  have hwrites : dev.writeFails = fun _ _ => false := funext fun t => funext fun b => h.2 t b
  obtain ⟨count, block, log, readFails, writeFails, discarded⟩ := dev
  simp only at hreads hwrites
  rw [hreads, hwrites]
  rfl

/-- The two devices differ in the blocks of `P` and in their log at most. -/
structure DiffersIn (P : Nat → Prop) (dev dev' : Device) : Prop where
  count : dev'.blockCount = dev.blockCount
  reads : dev'.readFails = dev.readFails
  writes : dev'.writeFails = dev.writeFails
  block : ∀ b, ¬P b → dev'.block b = dev.block b

namespace DiffersIn

variable {dev : Device}

theorem refl (P : Nat → Prop) (dev : Device) : DiffersIn P dev dev := ⟨rfl, rfl, rfl, fun _ _ => rfl⟩

theorem trans (h : DiffersIn P dev dev') (h' : DiffersIn P dev' dev'') : DiffersIn P dev dev'' :=
  ⟨h'.count.trans h.count, h'.reads.trans h.reads, h'.writes.trans h.writes,
    fun b hb => (h'.block b hb).trans (h.block b hb)⟩

theorem mono (h : DiffersIn P dev dev') (hsub : ∀ b, P b → Q b) : DiffersIn Q dev dev' :=
  ⟨h.count, h.reads, h.writes, fun b hb => h.block b fun hp => hb (hsub b hp)⟩

theorem size_eq (h : DiffersIn P dev dev') : dev'.size = dev.size :=
  congrArg UInt64.toNat h.count

end DiffersIn

variable {dev : Device} {b : Nat}

theorem writeBlock_cases (dev : Device) (b : Nat) (content : Block) :
    dev.writeBlock b content = (true, dev.store b content) ∨
      ∃ dev', dev.writeBlock b content = (false, dev') ∧ DiffersIn (fun _ => False) dev dev' := by
  unfold writeBlock
  split
  · exact .inl rfl
  · exact .inr ⟨_, rfl, rfl, rfl, rfl, fun _ _ => rfl⟩

theorem store_differsIn : DiffersIn (· = b) dev (dev.store b content) :=
  ⟨rfl, rfl, rfl, fun _ hne => store_block_of_ne hne⟩

theorem discardAll_differsIn (blocks : List Nat) :
    DiffersIn (· ∈ blocks) dev (dev.discardAll blocks) := by
  induction blocks generalizing dev with
  | nil => exact .refl _ _
  | cons b blocks ih =>
    have hfirst : DiffersIn (· ∈ b :: blocks) dev (dev.discard b) := by
      unfold discard
      split
      · refine ⟨rfl, rfl, rfl, fun i hi => if_neg fun heq => hi ?_⟩
        rw [heq]
        exact List.mem_cons_self
      · exact .refl _ _
    exact hfirst.trans ((@ih (dev.discard b)).mono fun i hi => List.mem_cons_of_mem b hi)

def Serves (dev : Device) (b : Nat) : Prop := dev.readBlock b = some (dev.block b)

theorem serves_of_reads (hb : b < dev.size) (hread : dev.readFails dev.log.length b = false) :
    dev.Serves b := if_pos ⟨hb, hread⟩

end Device

namespace EuroFs

def withFaults (fs : EuroFs) (f : Faults) : EuroFs := { fs with dev := fs.dev.withFaults f }

theorem writeBlocks_cases (writes : List (Nat × Block)) (fs : EuroFs) :
    ∃ res dev', writeBlocks writes fs = (res, { fs with dev := dev' }) ∧
      Device.DiffersIn (fun b => ∃ w ∈ writes, w.1 = b) fs.dev dev' ∧
      ((res = .ok () ∧ dev' = fs.dev.storeAll writes) ∨ res = .error (.err .ioError)) := by
  induction writes generalizing fs with
  | nil => exact ⟨.ok (), fs.dev, rfl, .refl _ _, .inl ⟨rfl, rfl⟩⟩
  | cons w writes ih =>
    rcases fs.dev.writeBlock_cases w.1 w.2 with hok | ⟨dev', hfail, hsame⟩
    · have hone : writeBlock w.1 w.2 fs = (.ok (), { fs with dev := fs.dev.store w.1 w.2 }) := by
        rw [writeBlock, hok]
      obtain ⟨res, dev', heq, hdiff, hres⟩ := ih { fs with dev := fs.dev.store w.1 w.2 }
      refine ⟨res, dev', ?_, ?_, hres⟩
      · rw [writeBlocks, Action.bind_of_ok hone]
        exact heq
      · have hfirst : Device.DiffersIn (fun b => ∃ w' ∈ w :: writes, w'.1 = b) fs.dev
            (fs.dev.store w.1 w.2) :=
          Device.store_differsIn.mono fun b hb => ⟨w, List.mem_cons_self, hb.symm⟩
        refine hfirst.trans (hdiff.mono ?_)
        rintro b ⟨w', hw', hb⟩
        exact ⟨w', List.mem_cons_of_mem w hw', hb⟩
    · have hone : writeBlock w.1 w.2 fs = (.error (.err .ioError), { fs with dev := dev' }) := by
        rw [writeBlock, hfail]
      refine ⟨.error (.err .ioError), dev', ?_, ?_, .inr rfl⟩
      · rw [writeBlocks, Action.bind_of_error hone]
      · exact hsame.mono fun _ hfalse => hfalse.elim

end EuroFs

end EuroOS
