import EuroOS.Eurofs.MountRefinement
import EuroOS.Eurofs.Xxh3

/-!
# Formatting a device

`format` writes the inode of an empty root directory, an object map with that
one object, and a superblock, in the slot that a commit on the old contents
would choose.  The snapshot and quota tables are not touched.
-/

namespace EuroOS

open List EuroFsSuperblock EuroFs Action
open Std (ExtTreeMap)

abbrev Xxh3.twoxHash : TwoxHash := ⟨Xxh3.hash64⟩

/-! ## Where the first blocks go -/

variable {used : List Bool} {k : Nat}

theorem firstFree_eq (hlt : k < used.length) (hfree : ¬Used used k)
    (hbefore : ∀ j < k, Used used j) : firstFree used = some k := by
  rw [firstFree, findIdx?_eq_some_iff_getElem]
  refine ⟨hlt, ?_, ?_⟩
  · unfold Used at hfree
    rw [getElem?_eq_getElem hlt, Option.some.injEq] at hfree
    simpa using hfree
  · intro j hj
    have hused := hbefore j hj
    unfold Used at hused
    rw [getElem?_eq_getElem (hj.trans hlt), Option.some.injEq] at hused
    simp [hused]

theorem freeRunFrom_one (hlt : k < used.length) (hfree : ¬Used used k)
    (hbefore : ∀ j < k, Used used j) (hi : i ≤ k) (hfuel : k - i < fuel) :
    freeRunFrom used 1 fuel i = some k := by
  induction fuel generalizing i with
  | zero => omega
  | succ fuel ih =>
    have hfit : i + 1 ≤ used.length := by omega
    rw [freeRunFrom, if_pos hfit]
    by_cases heq : i = k
    · subst heq
      have hscan : (List.range 1).find? (fun j => used.getD (i + j) false) = none := by
        rw [find?_eq_none]
        intro j hj
        have hzero : j = 0 := by simpa using hj
        unfold Used at hfree
        rw [getElem?_eq_getElem hlt, Option.some.injEq] at hfree
        simp [hzero, getD_eq_getElem?_getD, getElem?_eq_getElem hlt, hfree]
      rw [hscan]
    · have hused := hbefore i (by omega)
      have hscan : (List.range 1).find? (fun j => used.getD (i + j) false) = some 0 := by
        unfold Used at hused
        simp [range_succ, getD_eq_getElem?_getD, hused]
      rw [hscan]
      exact ih (by omega) (by omega)

theorem freeRun_one (hlt : k < used.length) (hfree : ¬Used used k)
    (hbefore : ∀ j < k, Used used j) : freeRun used 1 = some k :=
  freeRunFrom_one hlt hfree hbefore (Nat.zero_le k) (by omega)

/-! ## The formatted volume -/

abbrev rootBlock : Nat := 16
abbrev firstMapBlock : Nat := 17

section Formatted

variable [TwoxHash] (dev : Device) (uuid : Buf 16) (now : UInt64)

def rootObj : Obj := ⟨rootBlock, Inode.new rootOid rootOid typeDir now, []⟩

def rootTable : Table := (∅ : Table).insert rootOid (rootObj now)

def rootMap : Objmap := (∅ : Objmap).insert rootOid rootBlock

def formatUsed (n : Nat) : List Bool :=
  markRange ((markRange (List.replicate n false) 0 reservedBlocks).set rootBlock true)
    firstMapBlock 1

def formatSb : EuroFsSuperblock :=
  sealed { newEmpty dev.blockCount uuid now with
    objectMapRoot := UInt64.ofNat firstMapBlock
    extentTreeRoot := UInt64.ofNat 1
    checkpointId := 2
    lastWritten := now
    freeBlocks := UInt64.ofNat (freeCount (formatUsed dev.size)) }

def formatBlocks : Device :=
  (dev.store rootBlock (Inode.new rootOid rootOid typeDir now).encode).store firstMapBlock
    (chunk rootMap.encode 0)

def formatDev : Device := ((formatSb dev uuid now).writeTo (formatBlocks dev now)).2

def formatFs : EuroFs :=
  { blank dev (formatSb dev uuid now) now with
    used := formatUsed dev.size
    dev := formatDev dev uuid now
    objmap := rootMap }

def laid (sb : EuroFsSuperblock) (used : List Bool) (dev : Device) (objmap : Objmap) : EuroFs :=
  { blank dev sb now with used, objmap }

def formatVol : Vol where
  toFsState := (formatFs dev uuid now).toFsState
  objs := rootTable now
  durable := formatSb dev uuid now
  maps := (∅ : BTreeMap Nat Table).insert firstMapBlock (rootTable now)
  savedSnapshots := []

variable {dev uuid now}

omit [TwoxHash] in
theorem rootMap_eq : rootMap = Vol.objmapOf (rootTable now) := by
  refine ExtTreeMap.ext_getElem? fun k => ?_
  simp only [rootMap, rootTable, Vol.objmapOf, ExtTreeMap.getElem?_insert, ExtTreeMap.getElem?_map]
  split
  · rfl
  · simp

omit [TwoxHash] in
theorem rootMap_blocksNeeded : rootMap.blocksNeeded = 1 := by decide +kernel

omit [TwoxHash] in
theorem rootTable_get (h : (rootTable now)[oid]? = some obj) :
    oid = rootOid ∧ obj = rootObj now := by
  rw [rootTable, ExtTreeMap.getElem?_insert] at h
  split at h
  · rename_i heq
    rw [Option.some.injEq] at h
    exact ⟨(Std.LawfulEqCmp.eq_of_compare heq).symm, h.symm⟩
  · simp at h

/-! ## Running the format -/

omit [TwoxHash] in
theorem length_formatUsed (n : Nat) : (formatUsed n).length = n := by
  rw [formatUsed, length_markRange, length_set, length_markRange, length_replicate]

variable {n b : Nat}

omit [TwoxHash] in
theorem used_formatUsed (hn : firstMapBlock < n) : Used (formatUsed n) b ↔ b ≤ firstMapBlock := by
  have hreserved : ∀ b, Used (markRange (List.replicate n false) 0 reservedBlocks) b ↔
      b < n ∧ b < reservedBlocks := fun b => Vol.used_reservedOnly
  rw [formatUsed, used_markRange, used_set, hreserved, length_set, length_markRange,
    length_replicate]
  constructor
  · rintro ((⟨-, hb⟩ | ⟨rfl, -⟩) | ⟨-, hb, -⟩)
    · exact (hb.trans (by decide)).le
    · decide
    · omega
  · intro hb
    by_cases hsmall : b < reservedBlocks
    · exact .inl (.inl ⟨by omega, hsmall⟩)
    by_cases hroot : b = rootBlock
    · exact .inl (.inr ⟨hroot, by omega⟩)
    right
    refine ⟨?_, by omega, by omega⟩
    have hle : rootBlock ≤ b := Nat.not_lt.mp hsmall
    exact Nat.lt_of_le_of_ne hle (Ne.symm hroot)

omit [TwoxHash] in
theorem alloc_rootBlock (hn : firstMapBlock < n) :
    firstFree (markRange (List.replicate n false) 0 reservedBlocks) = some rootBlock := by
  have hlen : rootBlock < n := Nat.lt_of_succ_lt hn
  apply firstFree_eq
  · rw [length_markRange, length_replicate]
    exact hlen
  · rw [Vol.used_reservedOnly]
    exact fun h => Nat.lt_irrefl _ h.2
  · intro j hj
    exact Vol.used_reservedOnly.mpr ⟨hj.trans hlen, hj⟩

omit [TwoxHash] in
theorem alloc_firstMapBlock (hn : firstMapBlock < n) :
    freeRun ((markRange (List.replicate n false) 0 reservedBlocks).set rootBlock true) 1 =
      some firstMapBlock := by
  have hlen : rootBlock < n := Nat.lt_of_succ_lt hn
  apply freeRun_one
  · rw [length_set, length_markRange, length_replicate]
    exact hn
  · rw [used_set, Vol.used_reservedOnly]
    rintro (⟨-, h⟩ | ⟨h, -⟩)
    · exact absurd h (by decide)
    · exact absurd h (by decide)
  · intro j hj
    rw [used_set, Vol.used_reservedOnly, length_markRange, length_replicate]
    by_cases hroot : j = rootBlock
    · exact .inr ⟨hroot, hlen⟩
    · exact .inl ⟨by omega, Nat.lt_of_le_of_ne (Nat.lt_succ_iff.mp hj) hroot⟩

variable (hfree : dev.FaultFree)
include hfree

omit [TwoxHash] in
theorem writeSlots_ok (hsize : superblockBackupBlock < dev.size) (block : Block)
    (hslots : ∀ slot ∈ slots, slot ≤ superblockBackupBlock) :
    (writeSlots block slots dev).1 = true := by
  induction slots generalizing dev with
  | nil => rfl
  | cons slot slots ih =>
    have hslot : slot < dev.size := (hslots slot (by simp)).trans_lt hsize
    rw [writeSlots, hfree.writeBlock hslot]
    exact ih hfree.store hsize fun s hs => hslots s (by simp [hs])

omit hfree in
omit [TwoxHash] in
theorem targetSlots_le (h : slot ∈ targetSlots ga gb) : slot ≤ superblockBackupBlock := by
  have hone : superblockBlock ≤ superblockBackupBlock := by decide
  have hcases : slot = superblockBlock ∨ slot = superblockBackupBlock := by
    unfold targetSlots at h
    split at h
    · simpa using h
    · exact .inl (mem_singleton.mp h)
    · exact .inr (mem_singleton.mp h)
    · split at h
      · exact .inl (mem_singleton.mp h)
      · exact .inr (mem_singleton.mp h)
  rcases hcases with rfl | rfl
  · exact hone
  · exact le_rfl

theorem writeTo_ok (hsize : superblockBackupBlock < dev.size)
    (sb : EuroFsSuperblock) : sb.writeTo dev = (true, (sb.writeTo dev).2) :=
  Prod.ext (writeSlots_ok hfree hsize _ fun _ hslot => targetSlots_le hslot) rfl

theorem format_eq (hsize : firstMapBlock < dev.size) :
    EuroFs.format dev uuid now = finish (rebuildAllocatorTrim true (formatFs dev uuid now)) := by
  generalize hsb : newEmpty dev.blockCount uuid now = sb
  -- The free map and the device once the root directory is written.
  generalize hused : (markRange (List.replicate dev.size false) 0 reservedBlocks).set
    rootBlock true = used
  generalize hdev : dev.store rootBlock (Inode.new rootOid rootOid typeDir now).encode = dev'
  have halloc : ofState FsState.allocBlock
      (setUsed (markRange (List.replicate dev.size false) 0 reservedBlocks) (blank dev sb now)) =
      (.ok rootBlock, laid now sb used dev ∅) := by
    rw [ofState, FsState.allocBlock, setUsed]
    simp only [alloc_rootBlock hsize, hused]
    rfl
  have hput : writeBlock rootBlock (Inode.new rootOid rootOid typeDir now).encode
      (laid now sb used dev ∅) = (.ok (), laid now sb used dev' ∅) := by
    rw [writeBlock]
    simp only [laid, blank, hfree.writeBlock (Nat.lt_of_succ_lt hsize), hdev]
  have hmap : writeObjmap (laid now sb used dev' rootMap) =
      (.ok (firstMapBlock, 1), laid now sb (formatUsed dev.size) (formatBlocks dev now) rootMap) := by
    have hrun : ofState (FsState.allocContiguous 1) (laid now sb used dev' rootMap) =
        (.ok firstMapBlock, laid now sb (formatUsed dev.size) dev' rootMap) := by
      rw [ofState, FsState.allocContiguous, if_neg Nat.one_ne_zero]
      simp only [laid, ← hused, alloc_firstMapBlock hsize, formatUsed]
    have hwrite := @writeBlocks_eq
      ((List.range 1).map fun i => (firstMapBlock + i, chunk rootMap.encode i))
      (laid now sb (formatUsed dev.size) dev' rootMap) (hdev ▸ hfree.store)
      (by simpa [laid, blank, ← hdev] using hsize)
    rw [writeObjmap, get_bind, show (laid now sb used dev' rootMap).objmap = rootMap from rfl,
      rootMap_blocksNeeded, bind_of_ok hrun, bind_of_ok hwrite, formatBlocks, hdev]
    rfl
  have hsuper : (formatSb dev uuid now).writeTo (formatBlocks dev now) =
      (true, formatDev dev uuid now) :=
    writeTo_ok hfree.store.store (Nat.lt_trans (by decide) hsize) _
  rw [EuroFs.format, hsb, formatVolume, modify_bind]
  refine congrArg finish ?_
  refine (bind_of_ok halloc _).trans ?_
  rw [bind_of_ok hput, modify_bind, commit]
  generalize hlaid : laid now sb (formatUsed dev.size) (formatBlocks dev now) rootMap = fs at hmap
  have hnext : read (fun fs : EuroFs => checkedSucc fs.sb.checkpointId) fs = (.ok 2, fs) := by
    rw [read_apply, ← hlaid, ← hsb]
    rfl
  have hset : setSb (fun _ => fs.nextSb firstMapBlock 1 2) fs =
      laid now (formatSb dev uuid now) (formatUsed dev.size) (formatBlocks dev now) rootMap := by
    simp only [← hlaid, laid, setSb, nextSb, formatSb, hsb, blank]
  have hwrite : writeSuperblock (laid now (formatSb dev uuid now) (formatUsed dev.size)
      (formatBlocks dev now) rootMap) = (.ok (), formatFs dev uuid now) := by
    rw [writeSuperblock]
    simp only [laid, blank, hsuper]
    rfl
  refine (bind_of_ok hmap _).trans ?_
  simp only
  rw [bind_of_ok hnext, modify_bind, hset, bind_of_ok hwrite]

/-! ## The device after a format -/

omit [TwoxHash] in
theorem writeSlots_dev (block : Block) (slots : List Nat) :
    (writeSlots block slots dev).2.FaultFree ∧
      (writeSlots block slots dev).2.size = dev.size ∧
      ∀ b ∉ slots, (writeSlots block slots dev).2.block b = dev.block b := by
  induction slots generalizing dev with
  | nil => exact ⟨hfree, rfl, fun _ _ => rfl⟩
  | cons slot slots ih =>
    by_cases hslot : slot < dev.size
    · obtain ⟨hfree', hsize', hblock'⟩ := ih (show (dev.store slot block).FaultFree from hfree.store)
      rw [writeSlots, hfree.writeBlock hslot]
      refine ⟨hfree', hsize', fun b hb => ?_⟩
      rw [mem_cons, not_or] at hb
      exact (hblock' b hb.2).trans (Device.store_block_of_ne hb.1)
    · have hfail : dev.writeBlock slot block =
          (false, { dev with log := .refused slot :: dev.log }) :=
        if_neg fun h => hslot h.1
      rw [writeSlots, hfail]
      exact ⟨hfree, rfl, fun _ _ => rfl⟩

theorem formatBlocks_faultFree : (formatBlocks dev now).FaultFree :=
  hfree.store.store

theorem formatDev_faultFree : (formatDev dev uuid now).FaultFree :=
  (writeSlots_dev hfree.store.store _ _).1

theorem formatDev_size : (formatDev dev uuid now).size = dev.size :=
  (writeSlots_dev hfree.store.store _ _).2.1

theorem formatDev_block (hb : superblockBackupBlock < b) :
    (formatDev dev uuid now).block b = (formatBlocks dev now).block b := by
  refine (writeSlots_dev hfree.store.store _ _).2.2 b fun hmem => ?_
  exact Nat.not_lt.mpr (targetSlots_le hmem) hb

theorem formatDev_rootBlock :
    (formatDev dev uuid now).block rootBlock = (Inode.new rootOid rootOid typeDir now).encode := by
  rw [formatDev_block hfree (by decide), formatBlocks, Device.store_block_of_ne (by decide),
    Device.store_block, if_pos rfl]

theorem formatDev_mapBlock :
    (formatDev dev uuid now).block firstMapBlock = chunk rootMap.encode 0 := by
  rw [formatDev_block hfree (by decide), formatBlocks, Device.store_block, if_pos rfl]

theorem formatDev_table (hb : superblockBackupBlock < b)
    (hsmall : b < reservedBlocks) : (formatDev dev uuid now).block b = dev.block b := by
  have hroot : b ≠ rootBlock := hsmall.ne
  have hmap : b ≠ firstMapBlock := (hsmall.trans (by decide)).ne
  rw [formatDev_block hfree hb, formatBlocks, Device.store_block_of_ne hmap,
    Device.store_block_of_ne hroot]

theorem rootObj_stored : Stored (formatDev dev uuid now) rootOid (rootObj now) where
  oid_eq := rfl
  encodable := ⟨by simp [rootObj, Inode.new], by simp [rootObj, Inode.new],
    by simp [rootObj, Inode.new], by simp [rootObj, Inode.new]⟩
  inode := formatDev_rootBlock hfree
  size_eq := rfl
  checksum := .inl rfl
  content := .inl ⟨rfl, rfl⟩

theorem rootTable_stored :
    ∀ oid obj, (rootTable now)[oid]? = some obj → Stored (formatDev dev uuid now) oid obj := by
  intro oid obj hobj
  obtain ⟨rfl, rfl⟩ := rootTable_get hobj
  exact rootObj_stored hfree

omit hfree in
omit [TwoxHash] in
theorem rootTable_owns (h : TableOwns (rootTable now) b) : b = rootBlock := by
  obtain ⟨oid, obj, hobj, hb⟩ := h
  obtain ⟨rfl, rfl⟩ := rootTable_get hobj
  rcases hb with rfl | ⟨e, he, -⟩
  · rfl
  · simp [rootObj, Inode.new] at he

theorem rootMap_stored : MapStored (formatDev dev uuid now) firstMapBlock 1 (rootTable now) where
  blocks_eq := by rw [← rootMap_eq, rootMap_blocksNeeded]
  block := by
    intro i hi
    have hzero : i = 0 := by omega
    subst hzero
    rw [← rootMap_eq]
    exact formatDev_mapBlock hfree
  stored := rootTable_stored hfree

omit hfree in
omit [TwoxHash] in
theorem rootMap_owns (h : MapOwns firstMapBlock 1 (rootTable now) b) :
    b = rootBlock ∨ b = firstMapBlock := by
  rcases h with ⟨hle, hlt⟩ | htable
  · exact .inr (by omega)
  · exact .inl (rootTable_owns htable)

theorem formatFs_readable (hsize : firstMapBlock < dev.size) :
    Readable (formatFs dev uuid now) (formatVol dev uuid now) := by
  have hdev : (formatFs dev uuid now).dev = formatDev dev uuid now := rfl
  have hused : (formatVol dev uuid now).used = formatUsed dev.size := by
    simp only [formatVol, formatFs]
  have hlen : (formatVol dev uuid now).used.length = dev.size := by rw [hused, length_formatUsed]
  have hsnaps : (formatVol dev uuid now).snapshots = [] := rfl
  have hcache : (formatFs dev uuid now).extentsCache = ∅ := rfl
  have hobjs : (formatVol dev uuid now).objs = rootTable now := rfl
  have hmap : (formatFs dev uuid now).objmap = rootMap := rfl
  constructor
  · rfl
  · rw [hdev]
    exact formatDev_faultFree hfree
  · rw [hlen, hdev, formatDev_size hfree]
  · rw [hmap, hobjs]
    exact rootMap_eq
  · rw [hobjs, hdev]
    exact rootTable_stored hfree
  · intro b hb
    rw [hobjs] at hb
    rw [hdev, formatDev_size hfree, rootTable_owns hb]
    exact Nat.lt_of_succ_lt hsize
  · simp [hsnaps]
  · simp [hsnaps]
  · simp [hcache]

theorem format_ok (hsize : firstMapBlock < dev.size) :
    ∃ fs, EuroFs.format dev uuid now = .ok fs ∧ fs.dev = formatDev dev uuid now := by
  have hreadable : Readable (formatFs dev uuid now) (formatVol dev uuid now) :=
    formatFs_readable hfree hsize
  obtain ⟨hints, -, heq⟩ := rebuildAllocatorTrim_bind hreadable.rebuildable true
  rw [format_eq hfree hsize, heq]
  exact ⟨_, rfl, rfl⟩

/-! ## Devices without an older volume -/

/-- A working device that carries no superblock a format would lose against and
no snapshot or quota entries. -/
structure Pristine (dev : Device) : Prop where
  faultFree : dev.FaultFree
  slots : ∀ loc sb, loc = superblockBlock ∨ loc = superblockBackupBlock →
    readSlot dev loc = some sb → sb.checkpointId < 2
  snapTable : (decodeSnapshots (dev.block snapshotTableBlock).bytes).getD [] = []
  quotaTable : (decodeQuota (dev.block quotaTableBlock).bytes).getD ∅ = ∅

def Device.zeroed (blockCount : UInt64) : Device where
  blockCount := blockCount
  block := fun _ => Buf.ofBytes []
  log := []
  readFails := fun _ _ => false
  writeFails := fun _ _ => false
  discarded := fun _ _ _ => Buf.ofBytes []

omit hfree in
omit [TwoxHash] in
theorem Device.zeroed_faultFree (blockCount : UInt64) : (Device.zeroed blockCount).FaultFree :=
  ⟨fun _ _ => rfl, fun _ _ => rfl⟩

theorem readSlot_zero (hloc : loc < dev.size) (hzero : dev.block loc = Buf.ofBytes []) :
    readSlot dev loc = none := by
  have hmagic : (fromBytes (Buf.ofBytes [] : Block).bytes).magic ≠
      eurofsMagic := by decide +kernel
  rw [readSlot_eq hfree hloc, hzero]
  exact if_neg fun hvalid => hmagic hvalid.1

omit hfree in
theorem Device.zeroed_pristine (blockCount : UInt64) : Pristine (Device.zeroed blockCount) where
  faultFree := Device.zeroed_faultFree blockCount
  slots := by
    intro loc sb _ hread
    by_cases hloc : loc < (Device.zeroed blockCount).size
    · rw [readSlot_zero (Device.zeroed_faultFree blockCount) hloc rfl] at hread
      cases hread
    · rw [readSlot, Device.readBlock_of_le (Nat.not_lt.mp hloc)] at hread
      cases hread
  snapTable := by
    have hnone : decodeSnapshots (Buf.ofBytes [] : Block).bytes = none := by decide +kernel
    exact congrArg (Option.getD · []) hnone
  quotaTable := by
    have hnone : decodeQuota (Buf.ofBytes [] : Block).bytes = none := by
      rw [decodeQuota, if_pos (by decide +kernel)]
    exact congrArg (Option.getD · ∅) hnone

omit hfree in
theorem formatSb_valid : (formatSb dev uuid now).IsValid :=
  EuroFsSuperblock.HeaderOk.sealed_isValid ⟨rfl, rfl, rfl⟩

theorem readSlot_formatBlocks (hloc : loc = superblockBlock ∨ loc = superblockBackupBlock) :
    readSlot (formatBlocks dev now) loc = readSlot dev loc := by
  have hne : loc ≠ rootBlock ∧ loc ≠ firstMapBlock := by rcases hloc with rfl | rfl <;> decide
  refine readSlot_congr hfree hfree.store.store rfl ?_
  rw [formatBlocks, Device.store_block_of_ne hne.2, Device.store_block_of_ne hne.1]

/-- The two slots after the superblock `new` was written over slots `a` and `b`. -/
def slotsAfter (new : EuroFsSuperblock) :
    Option EuroFsSuperblock → Option EuroFsSuperblock →
      Option EuroFsSuperblock × Option EuroFsSuperblock
  | none, none => (some new, some new)
  | none, some b => (some new, some b)
  | some a, none => (some a, some new)
  | some a, some b =>
    if a.checkpointId ≤ b.checkpointId then (some new, some b) else (some a, some new)

theorem readSlot_writeSlots (hvalid : new.IsValid) (hslots : ∀ slot ∈ slots, slot < dev.size)
    (hloc : loc < dev.size) :
    readSlot (writeSlots new.toBlock slots dev).2 loc =
      if loc ∈ slots then some new else readSlot dev loc := by
  induction slots generalizing dev with
  | nil => rfl
  | cons slot slots ih =>
    rw [writeSlots, hfree.writeBlock (hslots slot (by simp))]
    refine (ih hfree.store (fun s hs => hslots s (by simp [hs])) hloc).trans ?_
    by_cases hmem : loc ∈ slots
    · simp [hmem]
    by_cases heq : loc = slot
    · subst heq
      simpa [hmem] using readSlot_toBlock hfree.store hloc Device.store_block_self hvalid
    · simpa [hmem, heq] using
        readSlot_congr hfree hfree.store rfl (Device.store_block_of_ne heq)

theorem readSlot_writeTo (hsize : superblockBackupBlock < dev.size) (hvalid : new.IsValid) :
    (readSlot (new.writeTo dev).2 superblockBlock,
      readSlot (new.writeTo dev).2 superblockBackupBlock) =
      slotsAfter new (readSlot dev superblockBlock)
        (readSlot dev superblockBackupBlock) := by
  have hslots : ∀ slot ∈ targetSlots ((readSlot dev superblockBlock).map checkpointId)
      ((readSlot dev superblockBackupBlock).map checkpointId), slot < dev.size :=
    fun slot hslot => (targetSlots_le hslot).trans_lt hsize
  rw [writeTo, readSlot_writeSlots hfree hvalid hslots (Nat.lt_of_succ_lt hsize),
    readSlot_writeSlots hfree hvalid hslots hsize]
  cases readSlot dev superblockBlock with
  | none => cases readSlot dev superblockBackupBlock <;> simp [targetSlots, slotsAfter]
  | some a =>
    cases readSlot dev superblockBackupBlock with
    | none => simp [targetSlots, slotsAfter]
    | some b =>
      by_cases hle : a.checkpointId ≤ b.checkpointId <;> simp [targetSlots, slotsAfter, hle]

theorem readSlot_formatDev (hsize : firstMapBlock < dev.size) :
    (readSlot (formatDev dev uuid now) superblockBlock,
      readSlot (formatDev dev uuid now) superblockBackupBlock) =
      slotsAfter (formatSb dev uuid now) (readSlot dev superblockBlock)
        (readSlot dev superblockBackupBlock) := by
  have hbackup : superblockBackupBlock < (formatBlocks dev now).size :=
    Nat.lt_trans (by decide) hsize
  rw [formatDev, readSlot_writeTo (formatBlocks_faultFree hfree) hbackup formatSb_valid,
    readSlot_formatBlocks hfree (.inl rfl), readSlot_formatBlocks hfree (.inr rfl)]

omit hfree

theorem Pristine.slotsHold (h : Pristine dev) (hsize : firstMapBlock < dev.size) :
    EuroFsSuperblock.SlotsHold (formatDev dev uuid now) (formatSb dev uuid now) := by
  obtain ⟨hA, hB⟩ := Prod.ext_iff.mp
    (show _ = slotsAfter (formatSb dev uuid now) _ _ from readSlot_formatDev h.faultFree hsize)
  simp only at hA hB
  cases ha : readSlot dev superblockBlock with
  | none =>
    rw [ha] at hA hB
    cases hb : readSlot dev superblockBackupBlock with
    | none =>
      rw [hb] at hA hB
      exact ⟨_, _, _, .inl ⟨rfl, rfl⟩, hA, hB, .inr rfl⟩
    | some b =>
      rw [hb] at hA hB
      exact ⟨_, _, _, .inl ⟨rfl, rfl⟩, hA, hB, .inl (h.slots _ b (.inr rfl) hb)⟩
  | some a =>
    rw [ha] at hA hB
    cases hb : readSlot dev superblockBackupBlock with
    | none =>
      rw [hb] at hA hB
      exact ⟨_, _, _, .inr ⟨rfl, rfl⟩, hB, hA, .inl (h.slots _ a (.inl rfl) ha)⟩
    | some b =>
      rw [hb] at hA hB
      simp only [slotsAfter] at hA hB
      by_cases hle : a.checkpointId ≤ b.checkpointId
      · rw [if_pos hle] at hA hB
        exact ⟨_, _, _, .inl ⟨rfl, rfl⟩, hA, hB, .inl (h.slots _ b (.inr rfl) hb)⟩
      · rw [if_neg hle] at hA hB
        exact ⟨_, _, _, .inr ⟨rfl, rfl⟩, hB, hA, .inl (h.slots _ a (.inl rfl) ha)⟩

theorem formatVol_mapAt :
    (formatVol dev uuid now).mapAt (formatVol dev uuid now).durable.objectMapRoot =
      rootTable now := by
  have hroot : (formatVol dev uuid now).durable.objectMapRoot.toNat = firstMapBlock := rfl
  have hmaps : (formatVol dev uuid now).maps =
      (∅ : BTreeMap Nat Table).insert firstMapBlock (rootTable now) := rfl
  rw [Vol.mapAt, hroot, hmaps, ExtTreeMap.getElem?_insert_self, Option.getD_some]

theorem formatVol_protects (h : (formatVol dev uuid now).Protects b) :
    b = rootBlock ∨ b = firstMapBlock := by
  rcases h with hlive | hdurable | ⟨snap, hsnap, -⟩
  · exact .inl (rootTable_owns hlive)
  · rw [Vol.durableOwns, formatVol_mapAt] at hdurable
    exact rootMap_owns hdurable
  · exact absurd hsnap not_mem_nil

theorem formatVol_sound (hsize : firstMapBlock < dev.size) : (formatVol dev uuid now).Sound := by
  have hused : (formatVol dev uuid now).used = formatUsed dev.size := by
    simp only [formatVol, formatFs]
  constructor
  · intro b hb
    rw [hused, used_formatUsed hsize]
    exact (hb.trans (by decide)).le
  · intro b hb
    rw [hused, used_formatUsed hsize]
    rcases formatVol_protects hb with rfl | rfl
    · decide
    · decide
  · exact Nat.zero_le _
  · have hnone : (∅ : BTreeMap UInt32 UInt64).toList = [] := by simp
    refine ⟨?_, ?_⟩
    · change (∅ : BTreeMap UInt32 UInt64).toList.length ≤ _
      rw [hnone]
      exact Nat.zero_le _
    · intro entry hentry
      change entry ∈ (∅ : BTreeMap UInt32 UInt64).toList at hentry
      rw [hnone] at hentry
      exact absurd hentry not_mem_nil
  · rfl
  · rfl
  · exact ⟨⟨rfl, rfl, rfl⟩, ⟨rfl, rfl, rfl⟩⟩

theorem Pristine.refines (h : Pristine dev) (hsize : firstMapBlock < dev.size) :
    Refines (formatFs dev uuid now) (formatVol dev uuid now) := by
  have hdev : (formatFs dev uuid now).dev = formatDev dev uuid now := rfl
  exact
    { formatFs_readable h.faultFree hsize with
      sound := formatVol_sound hsize
      durableMap := by
        rw [formatVol_mapAt]
        exact rootMap_stored h.faultFree
      slots := h.slotsHold hsize
      snapTable := by
        rw [hdev, formatDev_table h.faultFree (by decide) (by decide)]
        exact h.snapTable
      quotaTable := by
        rw [hdev, formatDev_table h.faultFree (by decide) (by decide)]
        exact h.quotaTable }

theorem formatVol_committed : (formatVol dev uuid now).Committed :=
  ⟨rfl, rfl, formatVol_mapAt⟩

theorem Pristine.format (h : Pristine dev) (hsize : firstMapBlock < dev.size) :
    ∃ fs, EuroFs.format dev uuid now = .ok fs ∧ Refines fs (formatVol dev uuid now).trimmed := by
  have href : Refines (formatFs dev uuid now) (formatVol dev uuid now) := h.refines hsize
  obtain ⟨fs, blocks, heq, hfinal, -⟩ := href.rebuildAllocatorTrim formatVol_committed
  refine ⟨fs, ?_, hfinal⟩
  rw [format_eq h.faultFree hsize, heq]
  rfl

theorem commit_full (hfull : ∀ b < fs.used.length, Used fs.used b) :
    commit fs = (.error (.err .noSpace), fs) := by
  have halloc : ofState (FsState.allocContiguous fs.objmap.blocksNeeded) fs =
      (.error (.err .noSpace), fs) := by
    rcases FsState.allocContiguous_cases (Objmap.blocksNeeded_pos fs.objmap) fs.toFsState with
      herr | ⟨start, used, -, -, -, hfit, hnew⟩
    · rw [ofState, herr]
    have hpos := Objmap.blocksNeeded_pos fs.objmap
    have hlt : start < fs.used.length := by omega
    exact absurd (hfull start hlt) (hnew start le_rfl (by omega)).1
  rw [commit]
  refine bind_of_error ?_ _
  rw [writeObjmap, get_bind]
  exact bind_of_error halloc _

theorem size_of_format (hfree : dev.FaultFree) (h : EuroFs.format dev uuid now = .ok fs) :
    firstMapBlock < dev.size := by
  by_contra hsmall
  rw [EuroFs.format, formatVolume, modify_bind] at h
  generalize hfs : setUsed _ _ = fs₀ at h
  have hdev : fs₀.dev = dev := by rw [← hfs]; rfl
  have hused : fs₀.used = markRange (List.replicate dev.size false) 0 reservedBlocks := by
    rw [← hfs]
    simp only [setUsed, blank]
  have hlen : fs₀.used.length = dev.size := by rw [hused, length_markRange, length_replicate]
  rcases FsState.allocBlock_cases fs₀.toFsState with
    herr | ⟨blk, used, hok, hlen', hmono, hlt, hnot, hblk⟩
  · have halloc : ofState FsState.allocBlock fs₀ = (.error (.err .noSpace), fs₀) := by
      rw [ofState, herr]
    rw [bind_of_error halloc] at h
    simp [finish] at h
  have halloc : ofState FsState.allocBlock fs₀ = (.ok blk, { fs₀ with used := used }) := by
    rw [ofState, hok]
  have hput : writeBlock blk (Inode.new rootOid rootOid typeDir now).encode
      { fs₀ with used := used } = (.ok (), { fs₀ with
        used := used
        dev := fs₀.dev.store blk (Inode.new rootOid rootOid typeDir now).encode }) := by
    rw [writeBlock]
    simp only
    rw [hdev, hfree.writeBlock (by omega)]
  -- the blocks below sixteen are reserved, so the root has taken the last one
  have hfull : ∀ b < used.length, Used used b := by
    intro b hb
    by_cases hsmallb : b < reservedBlocks
    · refine hmono b ?_
      rw [hused]
      exact Vol.used_reservedOnly.mpr ⟨by omega, hsmallb⟩
    rw [hused] at hnot
    have hblk16 : ¬blk < reservedBlocks := fun hlow =>
      hnot (Vol.used_reservedOnly.mpr ⟨by omega, hlow⟩)
    have heq : b = blk := by
      have hmap : firstMapBlock = reservedBlocks + 1 := rfl
      omega
    rw [heq]
    exact hblk
  rw [bind_of_ok halloc, bind_of_ok hput, modify_bind, commit_full hfull] at h
  simp [finish] at h

end Formatted

end EuroOS
