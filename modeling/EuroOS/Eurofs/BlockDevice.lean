import EuroOS.Eurofs.FsFormat

/-!
# Block devices

A device is an array of blocks.  Reads and writes outside it fail, and a device
may fail others: which ones is given by the two fault functions, asked with the
number of requests seen so far.  What a discarded block reads as is left open as
well.  The device remembers every request that changed it, newest first.
-/

namespace EuroOS

inductive Event
  | write (b : Nat) (content : Block)
  | discard (b : Nat)
  | refused (b : Nat)
  deriving DecidableEq

structure Device where
  blockCount : UInt64
  block : Nat → Block
  log : List Event
  readFails : Nat → Nat → Bool
  writeFails : Nat → Nat → Bool
  discarded : Nat → Nat → Block → Block

namespace Device

def size (dev : Device) : Nat := dev.blockCount.toNat

def FaultFree (dev : Device) : Prop :=
  (∀ t b, dev.readFails t b = false) ∧ ∀ t b, dev.writeFails t b = false

def readBlock (dev : Device) (b : Nat) : Option Block :=
  if b < dev.size ∧ dev.readFails dev.log.length b = false then some (dev.block b) else none

def store (dev : Device) (b : Nat) (content : Block) : Device :=
  { dev with
    block := fun i => if i = b then content else dev.block i
    log := .write b content :: dev.log }

def writeBlock (dev : Device) (b : Nat) (content : Block) : Bool × Device :=
  if b < dev.size ∧ dev.writeFails dev.log.length b = false then (true, dev.store b content)
  else (false, { dev with log := .refused b :: dev.log })

def discard (dev : Device) (b : Nat) : Device :=
  if b < dev.size then
    { dev with
      block := fun i => if i = b then dev.discarded dev.log.length b (dev.block b)
        else dev.block i
      log := .discard b :: dev.log }
  else dev

def storeAll (dev : Device) (writes : List (Nat × Block)) : Device :=
  writes.foldl (fun dev w => dev.store w.1 w.2) dev

def discardAll (dev : Device) (blocks : List Nat) : Device :=
  blocks.foldl discard dev

variable {dev : Device} {b : Nat} {content : Block}

theorem lt_of_size (dev : Device) : dev.size < 2 ^ 64 := dev.blockCount.toNat_lt

theorem FaultFree.readBlock (h : dev.FaultFree) (hb : b < dev.size) :
    dev.readBlock b = some (dev.block b) :=
  if_pos ⟨hb, h.1 _ _⟩

theorem FaultFree.writeBlock (h : dev.FaultFree) (hb : b < dev.size) :
    dev.writeBlock b content = (true, dev.store b content) :=
  if_pos ⟨hb, h.2 _ _⟩

theorem readBlock_of_le (hb : dev.size ≤ b) : dev.readBlock b = none :=
  if_neg fun h => Nat.not_lt.mpr hb h.1

@[simp] theorem store_blockCount : (dev.store b content).blockCount = dev.blockCount := rfl

@[simp] theorem store_size : (dev.store b content).size = dev.size := rfl

theorem store_block (i : Nat) :
    (dev.store b content).block i = if i = b then content else dev.block i := rfl

@[simp] theorem store_block_self : (dev.store b content).block b = content := if_pos rfl

theorem store_block_of_ne (h : i ≠ b) : (dev.store b content).block i = dev.block i :=
  if_neg h

theorem FaultFree.store (h : dev.FaultFree) : (dev.store b content).FaultFree := h

@[simp] theorem discard_size : (dev.discard b).size = dev.size := by
  unfold discard
  split <;> rfl

theorem discard_block_of_ne (h : i ≠ b) : (dev.discard b).block i = dev.block i := by
  unfold discard
  split
  · exact if_neg h
  · rfl

theorem FaultFree.discard (h : dev.FaultFree) : (dev.discard b).FaultFree := by
  unfold Device.discard
  split
  · exact h
  · exact h

/-! ## Sequences of requests -/

theorem storeAll_run (f : Nat → Block) (start : Nat) (hi : i < count) :
    (dev.storeAll ((List.range count).map fun k => (start + k, f k))).block (start + i) = f i := by
  induction count with
  | zero => omega
  | succ count ih =>
    rw [List.range_succ, List.map_append, storeAll, List.foldl_append]
    change ((dev.storeAll _).store (start + count) (f count)).block (start + i) = f i
    rw [store_block]
    by_cases hlast : i = count
    · rw [hlast, if_pos rfl]
    · rw [if_neg (by omega)]
      exact ih (by omega)

theorem discardAll_size (blocks : List Nat) : (dev.discardAll blocks).size = dev.size := by
  induction blocks generalizing dev with
  | nil => rfl
  | cons b blocks ih => exact ih.trans discard_size

theorem FaultFree.discardAll (h : dev.FaultFree) (blocks : List Nat) :
    (dev.discardAll blocks).FaultFree := by
  induction blocks generalizing dev with
  | nil => exact h
  | cons b blocks ih => exact ih h.discard

theorem discardAll_block_of_notMem (h : i ∉ blocks) :
    (dev.discardAll blocks).block i = dev.block i := by
  induction blocks generalizing dev with
  | nil => rfl
  | cons b blocks ih =>
    rw [List.mem_cons, not_or] at h
    exact (ih h.2).trans (discard_block_of_ne h.1)

end Device

end EuroOS
