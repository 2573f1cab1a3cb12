import EuroOS.Eurofs.BlockDevice

/-!
# The superblock and its two slots

The superblock is 512 packed little-endian bytes with a checksum over the fields
in front of the checksum.  It is kept in two slots; a commit overwrites the slot
of the older generation and `readFrom` picks the newest valid one.
-/

namespace EuroOS

abbrev superblockBlock : Nat := 1
abbrev superblockBackupBlock : Nat := 2
abbrev reservedBlocks : Nat := 16

def eurofsMagic : Buf 8 := Buf.ofBytes (Str.bytes "EUROFS01".toList)

structure EuroFsSuperblock where
  magic : Buf 8
  versionMajor : UInt16
  versionMinor : UInt16
  uuid : Buf 16
  blockSize : UInt32
  totalBlocks : UInt64
  freeBlocks : UInt64
  reservedBlocks : UInt64
  createdAt : UInt64
  lastMounted : UInt64
  lastWritten : UInt64
  checkpointId : UInt64
  checkpointBlock : UInt64
  objectMapRoot : UInt64
  /-- Reused field: the number of object map blocks. -/
  extentTreeRoot : UInt64
  rootDirOid : UInt64
  encryption : UInt8
  kdfParams : Buf 64
  wrappedKey : Buf 48
  checksum : UInt64
  padding : Buf 271
  deriving DecidableEq

namespace EuroFsSuperblock

def checkedBytes (sb : EuroFsSuperblock) : Bytes :=
  sb.magic.bytes ++ (le 2 sb.versionMajor.toNat ++ (le 2 sb.versionMinor.toNat ++
    (sb.uuid.bytes ++ (le 4 sb.blockSize.toNat ++ (le 8 sb.totalBlocks.toNat ++
      (le 8 sb.freeBlocks.toNat ++ (le 8 sb.reservedBlocks.toNat ++
        (le 8 sb.createdAt.toNat ++ (le 8 sb.lastMounted.toNat ++
          (le 8 sb.lastWritten.toNat ++ (le 8 sb.checkpointId.toNat ++
            (le 8 sb.checkpointBlock.toNat ++ (le 8 sb.objectMapRoot.toNat ++
              (le 8 sb.extentTreeRoot.toNat ++ (le 8 sb.rootDirOid.toNat ++
                (le 1 sb.encryption.toNat ++ (sb.kdfParams.bytes ++
                  sb.wrappedKey.bytes)))))))))))))))))

def toBytes (sb : EuroFsSuperblock) : Bytes :=
  sb.checkedBytes ++ (le 8 sb.checksum.toNat ++ sb.padding.bytes)

def fromBytes (b : Bytes) : EuroFsSuperblock where
  magic := Buf.ofBytes (slice b 0 8)
  versionMajor := UInt16.ofNat (rd 2 b 8)
  versionMinor := UInt16.ofNat (rd 2 b 10)
  uuid := Buf.ofBytes (slice b 12 16)
  blockSize := UInt32.ofNat (rd 4 b 28)
  totalBlocks := UInt64.ofNat (rd 8 b 32)
  freeBlocks := UInt64.ofNat (rd 8 b 40)
  reservedBlocks := UInt64.ofNat (rd 8 b 48)
  createdAt := UInt64.ofNat (rd 8 b 56)
  lastMounted := UInt64.ofNat (rd 8 b 64)
  lastWritten := UInt64.ofNat (rd 8 b 72)
  checkpointId := UInt64.ofNat (rd 8 b 80)
  checkpointBlock := UInt64.ofNat (rd 8 b 88)
  objectMapRoot := UInt64.ofNat (rd 8 b 96)
  extentTreeRoot := UInt64.ofNat (rd 8 b 104)
  rootDirOid := UInt64.ofNat (rd 8 b 112)
  encryption := UInt8.ofNat (rd 1 b 120)
  kdfParams := Buf.ofBytes (slice b 121 64)
  wrappedKey := Buf.ofBytes (slice b 185 48)
  checksum := UInt64.ofNat (rd 8 b 233)
  padding := Buf.ofBytes (slice b 241 271)

def toBlock (sb : EuroFsSuperblock) : Block := Buf.ofBytes sb.toBytes

variable (sb : EuroFsSuperblock)

theorem length_checkedBytes : sb.checkedBytes.length = 233 := by
  simp [checkedBytes, Buf.length_bytes]

theorem length_toBytes : sb.toBytes.length = 512 := by
  simp [toBytes, length_checkedBytes, Buf.length_bytes]

theorem slice_buf (b : Buf n) (rest : Bytes) : slice (b.bytes ++ rest) 0 n = b.bytes := by
  have h := slice_zero_length_append b.bytes rest
  rwa [b.length_bytes] at h

theorem fromBytes_toBytes (rest : Bytes) :
    fromBytes (sb.toBytes ++ rest) = sb := by
  simp only [fromBytes, toBytes, checkedBytes, List.append_assoc, rd_append_right,
    slice_append_right, length_le, Buf.length_bytes, Nat.reduceLeDiff, Nat.reduceSub,
    rd_le_uint64, rd_le_uint32, rd_le_uint16, rd_le_uint8, slice_buf, Buf.ofBytes_bytes,
    UInt64.ofNat_toNat, UInt32.ofNat_toNat, UInt16.ofNat_toNat, UInt8.ofNat_toNat]

theorem fromBytes_toBlock : fromBytes sb.toBlock.bytes = sb := by
  have hlen : sb.toBytes.length ≤ bs := by
    rw [length_toBytes]
    norm_num
  rw [toBlock, Buf.bytes_ofBytes hlen, padTo, fromBytes_toBytes]

/-! ## Validity -/

section Slots

variable [TwoxHash]

def computeChecksum (sb : EuroFsSuperblock) : UInt64 := xxh3_64 sb.checkedBytes

def sealed (sb : EuroFsSuperblock) : EuroFsSuperblock :=
  { sb with checksum := sb.computeChecksum }

def newEmpty (totalBlocks : UInt64) (uuid : Buf 16) (createdAt : UInt64) :
    EuroFsSuperblock :=
  sealed {
    magic := eurofsMagic
    versionMajor := 0
    versionMinor := 1
    uuid := uuid
    blockSize := 4096
    totalBlocks := totalBlocks
    freeBlocks := if totalBlocks < 16 then 0 else totalBlocks - 16
    reservedBlocks := 16
    createdAt := createdAt
    lastMounted := 0
    lastWritten := createdAt
    checkpointId := 1
    checkpointBlock := 3
    objectMapRoot := 11
    extentTreeRoot := 12
    rootDirOid := 1
    encryption := 0
    kdfParams := Buf.ofBytes []
    wrappedKey := Buf.ofBytes []
    checksum := 0
    padding := Buf.ofBytes [] }

def isPowerOfTwo (n : Nat) : Bool := (List.range 32).any fun k => n = 2 ^ k

def IsValid (sb : EuroFsSuperblock) : Prop :=
  sb.magic = eurofsMagic ∧ sb.versionMajor = 0 ∧ 512 ≤ sb.blockSize ∧
    isPowerOfTwo sb.blockSize.toNat = true ∧ sb.checksum = sb.computeChecksum

instance (sb : EuroFsSuperblock) : Decidable sb.IsValid :=
  inferInstanceAs (Decidable (_ ∧ _ ∧ _ ∧ _ ∧ _))

def readSlot (dev : Device) (loc : Nat) : Option EuroFsSuperblock :=
  match dev.readBlock loc with
  | none => none
  | some block =>
    let sb := fromBytes block.bytes
    if sb.IsValid then some sb else none

def targetSlots (ga gb : Option UInt64) : List Nat :=
  match ga, gb with
  | none, none => [superblockBlock, superblockBackupBlock]
  | none, some _ => [superblockBlock]
  | some _, none => [superblockBackupBlock]
  | some a, some b => if a ≤ b then [superblockBlock] else [superblockBackupBlock]

def writeSlots (block : Block) : List Nat → Device → Bool × Device
  | [], dev => (true, dev)
  | loc :: rest, dev =>
    match dev.writeBlock loc block with
    | (true, dev') => writeSlots block rest dev'
    | (false, dev') => (false, dev')

def writeTo (sb : EuroFsSuperblock) (dev : Device) : Bool × Device :=
  let ga := (readSlot dev superblockBlock).map checkpointId
  let gb := (readSlot dev superblockBackupBlock).map checkpointId
  writeSlots sb.toBlock (targetSlots ga gb) dev

def degradedSlots (dev : Device) : Nat :=
  (if (readSlot dev superblockBlock).isSome then 0 else 1) +
    (if (readSlot dev superblockBackupBlock).isSome then 0 else 1)

def healSlots (dev : Device) : Device :=
  match readSlot dev superblockBlock, readSlot dev superblockBackupBlock with
  | some valid, none => (dev.writeBlock superblockBackupBlock valid.toBlock).2
  | none, some valid => (dev.writeBlock superblockBlock valid.toBlock).2
  | _, _ => dev

/-- The valid superblock of the highest generation; the first slot wins a tie. -/
def readFrom (dev : Device) : Option EuroFsSuperblock :=
  match readSlot dev superblockBlock, readSlot dev superblockBackupBlock with
  | none, b => b
  | some a, none => some a
  | some a, some b => if a.checkpointId < b.checkpointId then some b else some a

variable {sb : EuroFsSuperblock} {dev : Device}

@[simp] theorem checkedBytes_sealed (sb : EuroFsSuperblock) :
    sb.sealed.checkedBytes = sb.checkedBytes := rfl

def HeaderOk (sb : EuroFsSuperblock) : Prop :=
  sb.magic = eurofsMagic ∧ sb.versionMajor = 0 ∧ sb.blockSize = 4096

theorem HeaderOk.sealed_isValid (h : sb.HeaderOk) : sb.sealed.IsValid := by
  obtain ⟨hmagic, hmajor, hsize⟩ := h
  refine ⟨hmagic, hmajor, ?_, ?_, rfl⟩
  · change 512 ≤ sb.blockSize
    rw [hsize]
    decide
  · change isPowerOfTwo sb.blockSize.toNat = true
    rw [hsize]
    decide

theorem readSlot_eq (hfree : dev.FaultFree) (hloc : loc < dev.size) :
    readSlot dev loc =
      if (fromBytes (dev.block loc).bytes).IsValid then some (fromBytes (dev.block loc).bytes)
      else none := by rw [readSlot, hfree.readBlock hloc]

theorem readSlot_congr (hfree : dev.FaultFree) (hfree' : dev'.FaultFree)
    (hsize : dev'.size = dev.size) (hblock : dev'.block loc = dev.block loc) :
    readSlot dev' loc = readSlot dev loc := by
  by_cases hloc : loc < dev.size
  · rw [readSlot_eq hfree hloc, readSlot_eq hfree' (hsize ▸ hloc), hblock]
  · rw [readSlot, readSlot, Device.readBlock_of_le (Nat.not_lt.mp hloc),
      Device.readBlock_of_le (hsize ▸ Nat.not_lt.mp hloc)]

theorem readSlot_toBlock (hfree : dev.FaultFree) (hloc : loc < dev.size)
    (hblock : dev.block loc = sb.toBlock) (hvalid : sb.IsValid) : readSlot dev loc = some sb := by
  rw [readSlot_eq hfree hloc, hblock, fromBytes_toBlock, if_pos hvalid]

/-! ## The slots between commits -/

/-- One slot holds the superblock, the other an older one or a copy of it. -/
def SlotsHold (dev : Device) (sb : EuroFsSuperblock) : Prop :=
  ∃ slot other : Nat, ∃ old : EuroFsSuperblock,
    (slot = superblockBlock ∧ other = superblockBackupBlock ∨
      slot = superblockBackupBlock ∧ other = superblockBlock) ∧
    readSlot dev slot = some sb ∧ readSlot dev other = some old ∧
    (old.checkpointId < sb.checkpointId ∨ old = sb)

theorem SlotsHold.readFrom (h : SlotsHold dev sb) : readFrom dev = some sb := by
  obtain ⟨slot, other, old, hslots, hsb, hold, horder⟩ := h
  rcases hslots with ⟨rfl, rfl⟩ | ⟨rfl, rfl⟩
  · rw [EuroFsSuperblock.readFrom, hsb, hold]
    rcases horder with hlt | rfl
    · exact if_neg (UInt64.lt_asymm hlt)
    · simp
  · rw [EuroFsSuperblock.readFrom, hsb, hold]
    rcases horder with hlt | rfl
    · exact if_pos hlt
    · simp

theorem SlotsHold.degradedSlots (h : SlotsHold dev sb) : degradedSlots dev = 0 := by
  obtain ⟨slot, other, old, hslots, hsb, hold, -⟩ := h
  rcases hslots with ⟨rfl, rfl⟩ | ⟨rfl, rfl⟩
  · simp [EuroFsSuperblock.degradedSlots, hsb, hold]
  · simp [EuroFsSuperblock.degradedSlots, hsb, hold]

theorem SlotsHold.congr (h : SlotsHold dev sb) (hfree : dev.FaultFree) (hfree' : dev'.FaultFree)
    (hsize : dev'.size = dev.size) (ha : dev'.block superblockBlock = dev.block superblockBlock)
    (hb : dev'.block superblockBackupBlock = dev.block superblockBackupBlock) :
    SlotsHold dev' sb := by
  obtain ⟨slot, other, old, hslots, hsb, hold, horder⟩ := h
  refine ⟨slot, other, old, hslots, ?_, ?_, horder⟩
  · rw [← hsb]
    rcases hslots with ⟨rfl, -⟩ | ⟨rfl, -⟩
    · exact readSlot_congr hfree hfree' hsize ha
    · exact readSlot_congr hfree hfree' hsize hb
  · rw [← hold]
    rcases hslots with ⟨-, rfl⟩ | ⟨-, rfl⟩
    · exact readSlot_congr hfree hfree' hsize hb
    · exact readSlot_congr hfree hfree' hsize ha

end Slots

end EuroFsSuperblock

end EuroOS
