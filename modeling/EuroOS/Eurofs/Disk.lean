import EuroOS.Eurofs.DiskState

/-!
# The mounted volume at block level

Block input and output, the object map, the copy-on-write writer, commit, and
the snapshot and quota tables.  Everything above this layer reads inodes and
their data, writes objects and commits.
-/

namespace EuroOS

open Std (ExtTreeMap)

structure EuroFs extends FsState where
  dev : Device
  objmap : Objmap
  /-- OID → data extents, a hint for the allocator rebuild. -/
  extentsCache : BTreeMap Oid (List (Nat × Nat))

abbrev Disk := Action EuroFs

namespace EuroFs

def ofState {α : Type} (x : Action FsState α) : Disk α := fun fs =>
  match x fs.toFsState with
  | (result, s) => (result, { fs with toFsState := s })

def setUsed (used : List Bool) (fs : EuroFs) : EuroFs := { fs with used := used }

def setSb (f : EuroFsSuperblock → EuroFsSuperblock) (fs : EuroFs) : EuroFs :=
  { fs with sb := f fs.sb }

/-! ## Block input and output -/

def readBlock (fs : EuroFs) (blk : Nat) : Except Fail Block :=
  match fs.dev.readBlock blk with
  | some block => .ok block
  | none => .error (.err .ioError)

def writeBlock (blk : Nat) (data : Block) : Disk Unit := fun fs =>
  match fs.dev.writeBlock blk data with
  | (true, dev) => (.ok (), { fs with dev := dev })
  | (false, dev) => (.error (.err .ioError), { fs with dev := dev })

def writeBlocks : List (Nat × Block) → Disk Unit
  | [] => pure ()
  | (blk, data) :: rest => do
      writeBlock blk data
      writeBlocks rest

def readRun (fs : EuroFs) (start : Nat) : Nat → Except Fail Bytes
  | 0 => .ok []
  | count + 1 => do
      let front ← fs.readRun start count
      let last ← fs.readBlock (start + count)
      .ok (front ++ last.bytes)

def readExtents (fs : EuroFs) : List (Nat × Nat) → Except Fail Bytes
  | [] => .ok []
  | (phys, cnt) :: rest => do
      let first ← fs.readRun phys cnt
      let more ← fs.readExtents rest
      .ok (first ++ more)

section Volume

variable [TwoxHash]

def readInodeAt (fs : EuroFs) (blk : Nat) : Except Fail Inode := do
  let block ← fs.readBlock blk
  Inode.decode block.bytes

def readInode (fs : EuroFs) (oid : Oid) : Except Fail Inode :=
  match fs.objmap[oid]? with
  | none => .error (.err .notFound)
  | some blk => fs.readInodeAt blk

/-- The check at the end of `read_data`: zero stands for no checksum. -/
def verified (inode : Inode) (data : Bytes) : Except Fail Bytes :=
  if inode.dataChecksum ≠ 0 ∧ xxh3_64 data ≠ inode.dataChecksum then
    .error (.err .corruption)
  else .ok data

def readData (fs : EuroFs) (inode : Inode) : Except Fail Bytes :=
  if inode.extents = [] then verified inode inode.inlineData
  -- no buffer of more than `isize::MAX` bytes can be reserved
  else if 2 ^ 63 ≤ inode.size then .error (.err .noSpace)
  else do
    let data ← fs.readExtents inode.extents
    verified inode (data.take inode.size)

/-! ## The allocator rebuild -/

def extentsOf (oid : Oid) (blk : Nat) : Disk (List (Nat × Nat)) := fun fs =>
  match fs.extentsCache[oid]? with
  | some extents => (.ok extents, fs)
  | none =>
    match fs.readInodeAt blk with
    | .error e => (.error e, fs)
    | .ok inode =>
      (.ok inode.extents, { fs with extentsCache := fs.extentsCache.insert oid inode.extents })

def markObjects : List (Oid × Nat) → Disk Unit
  | [] => pure ()
  | (oid, blk) :: rest => do
      Action.modify fun fs => setUsed (fs.used.set blk true) fs
      let extents ← extentsOf oid blk
      Action.modify fun fs => setUsed (markExtents fs.used extents) fs
      markObjects rest

/-- Mark the inodes a frozen object map lists; unreadable ones are skipped. -/
def markFrozen (fs : EuroFs) : List Nat → List Bool → Except Fail (List Bool)
  | [], used => .ok used
  | blk :: rest, used =>
    match fs.readInodeAt blk with
    | .error (.stop reason) => .error (.stop reason)
    | .error (.err _) => fs.markFrozen rest (used.set blk true)
    | .ok inode => fs.markFrozen rest (markExtents (used.set blk true) inode.extents)

def markStateBlocks (objmapRoot mapBlocks : Nat) : Disk Unit := do
  Action.modify fun fs => setUsed (markRange fs.used objmapRoot mapBlocks) fs
  let fs ← Action.get
  match fs.readRun objmapRoot mapBlocks with
  | .error _ => pure ()
  | .ok data =>
    if data.length < 8 then pure ()
    else do
      let used ← Action.read fun fs => fs.markFrozen ((Objmap.entries data).map Prod.snd) fs.used
      Action.modify (setUsed used)

def markSnapshots : List SnapshotEntry → Disk Unit
  | [] => pure ()
  | snap :: rest => do
      markStateBlocks snap.objmapRoot.toNat snap.mapBlocks.toNat
      markSnapshots rest

/-- Discard the blocks freed by the previous commit that are still free, and
remember the ones freed by this one. -/
def trim (prev : List Bool) (fs : EuroFs) : EuroFs :=
  { fs with
    dev := fs.dev.discardAll (fs.pendingTrim.filter fun b =>
      b < fs.used.length && !fs.used.getD b false)
    pendingTrim := (List.range fs.used.length).filter fun i =>
      prev.getD i false && !fs.used.getD i false }

def rebuildAllocatorTrim (emitTrim : Bool) : Disk Unit := do
  let start ← Action.get
  Action.modify (setUsed (markRange (List.replicate start.used.length false) 0 reservedBlocks))
  Action.modify fun fs => setUsed
    (markRange fs.used fs.sb.objectMapRoot.toNat fs.sb.extentTreeRoot.toNat) fs
  markObjects start.objmap.toList
  markSnapshots start.snapshots
  Action.modify fun fs => setSb
    (fun sb => { sb with freeBlocks := UInt64.ofNat (freeCount fs.used) }) fs
  if emitTrim then Action.modify (trim start.used) else pure ()

def rebuildAllocator : Disk Unit := rebuildAllocatorTrim false

def loadObjmap : Disk Unit := do
  let data ← Action.read fun fs =>
    fs.readRun fs.sb.objectMapRoot.toNat (max fs.sb.extentTreeRoot.toNat 1)
  Action.modify fun fs => { fs with objmap := Objmap.decode data }

/-- Write the object map to fresh blocks; the first block and their number. -/
def writeObjmap : Disk (Nat × Nat) := do
  let fs ← Action.get
  let blocks := fs.objmap.blocksNeeded
  let root ← ofState (FsState.allocContiguous blocks)
  writeBlocks ((List.range blocks).map fun i => (root + i, chunk fs.objmap.encode i))
  pure (root, blocks)

def successorOid (objmap : Objmap) : Except Fail Oid :=
  checkedSucc (objmap.keys.max?.getD rootOid)

def nextSb (fs : EuroFs) (root blocks : Nat) (checkpointId : UInt64) : EuroFsSuperblock :=
  EuroFsSuperblock.sealed { fs.sb with
    objectMapRoot := UInt64.ofNat root
    extentTreeRoot := UInt64.ofNat blocks
    checkpointId := checkpointId
    lastWritten := fs.now
    freeBlocks := UInt64.ofNat (freeCount fs.used) }

def writeSuperblock : Disk Unit := fun fs =>
  match fs.sb.writeTo fs.dev with
  | (true, dev) => (.ok (), { fs with dev := dev })
  | (false, dev) => (.error (.err .ioError), { fs with dev := dev })

def commit : Disk Unit := do
  let (root, blocks) ← writeObjmap
  let checkpointId ← Action.read fun fs => checkedSucc fs.sb.checkpointId
  Action.modify fun fs => setSb (fun _ => fs.nextSb root blocks checkpointId) fs
  writeSuperblock
  rebuildAllocatorTrim true

/-! ## Snapshot and quota tables -/

def loadSnapshots : Disk Unit := fun fs =>
  match fs.dev.readBlock snapshotTableBlock with
  | none => (.ok (), fs)
  | some block =>
    match decodeSnapshots block.bytes with
    | none => (.ok (), fs)
    | some snapshots =>
      match checkedSucc ((snapshots.map SnapshotEntry.id).foldl max 0) with
      | .error e => (.error e, { fs with snapshots := snapshots })
      | .ok next => (.ok (), { fs with snapshots := snapshots, nextSnapId := next })

def saveSnapshots : Disk Unit := do
  let fs ← Action.get
  writeBlock snapshotTableBlock (encodeSnapshots fs.snapshots)

def loadQuota : Disk Unit := fun fs =>
  match fs.dev.readBlock quotaTableBlock with
  | none => (.ok (), fs)
  | some block =>
    match decodeQuota block.bytes with
    | none => (.ok (), fs)
    | some limits => (.ok (), { fs with quotaLimits := limits })

def saveQuota : Disk Unit := do
  let fs ← Action.get
  writeBlock quotaTableBlock (encodeQuota fs.quotaLimits)

def countUsage (fs : EuroFs) : List Oid → FsState → Except Fail FsState
  | [], s => .ok s
  | oid :: rest, s =>
    match fs.readInode oid with
    | .error (.stop reason) => .error (.stop reason)
    | .error (.err _) => fs.countUsage rest s
    | .ok inode => fs.countUsage rest (s.usageAdd inode.uid (dataBlocksOf inode))

def rebuildUsage : Disk Unit := do
  let s ← Action.read fun fs => fs.countUsage fs.objmap.keys { fs.toFsState with usage := ∅ }
  Action.modify fun fs => { fs with toFsState := s }

/-! ## Writing objects -/

def forgetObject (oid : Oid) (fs : EuroFs) : EuroFs :=
  { fs with
    objmap := fs.objmap.erase oid
    extentsCache := fs.extentsCache.erase oid }

def previousVersion (fs : EuroFs) (inode : Inode) : Except Fail (Nat × UInt32) :=
  match fs.objmap[inode.oid]? with
  | none => .ok (0, inode.uid)
  | some _ => do
      let old ← fs.readInode inode.oid
      .ok (dataBlocksOf old, old.uid)

def writeData (data : Bytes) : Disk (List (Nat × Nat)) := do
  let extents ← ofState (FsState.allocData data.length)
  writeBlocks (extents.flatMap fun extent =>
    (List.range extent.2).map fun i => (extent.1 + i, chunk data i))
  pure extents

def withContent (inode : Inode) (data : Bytes) (extents : List (Nat × Nat)) : Inode :=
  { inode with
    size := data.length
    dataChecksum := xxh3_64 data
    extents := extents
    inlineData := if data.length ≤ inlineCap then data else [] }

/-- Put the inode into a fresh block, enter it into the object map and settle
the quota counters. -/
def linkObject (inode : Inode) (data : Bytes) (extents : List (Nat × Nat))
    (previous : Nat × UInt32) : Disk Unit := do
  let blk ← ofState FsState.allocBlock
  writeBlock blk (withContent inode data extents).encode
  Action.modify fun fs =>
    { fs with
      toFsState := fs.toFsState.charge previous inode.uid (blocksFor data.length)
      objmap := fs.objmap.insert inode.oid blk
      extentsCache := fs.extentsCache.insert inode.oid extents }

def writeObject (inode : Inode) (data : Bytes) : Disk Unit := do
  let previous ← Action.read fun fs => fs.previousVersion inode
  let fs ← Action.get
  if fs.quotaAdmits inode.uid previous.2 previous.1 (blocksFor data.length) = false then
    Action.fail .quotaExceeded
  else do
    let extents ← writeData data
    linkObject inode data extents previous

/-! ## Format and mount -/

def blank (dev : Device) (sb : EuroFsSuperblock) (now : UInt64) : EuroFs where
  sb := sb
  used := List.replicate dev.size false
  nextOid := rootOid + 1
  now := now
  snapshots := []
  nextSnapId := 1
  pendingTrim := []
  pathCache := ∅
  ctxUid := 0
  quotaLimits := ∅
  usage := ∅
  dev := dev
  objmap := ∅
  extentsCache := ∅

def formatVolume (now : UInt64) : Disk Unit := do
  Action.modify fun fs => setUsed (markRange fs.used 0 reservedBlocks) fs
  let blk ← ofState FsState.allocBlock
  writeBlock blk (Inode.new rootOid rootOid typeDir now).encode
  Action.modify fun fs => { fs with objmap := fs.objmap.insert rootOid blk }
  commit

def finish (outcome : Except Fail Unit × EuroFs) : Except Fail EuroFs :=
  match outcome with
  | (.ok (), fs) => .ok fs
  | (.error e, _) => .error e

def format (dev : Device) (uuid : Buf 16) (now : UInt64) : Except Fail EuroFs :=
  finish (formatVolume now (blank dev (.newEmpty dev.blockCount uuid now) now))

def mountVolume : Disk Unit := do
  loadObjmap
  loadSnapshots
  rebuildAllocator
  loadQuota
  rebuildUsage
  let next ← Action.read fun fs => successorOid fs.objmap
  Action.modify fun fs => { fs with nextOid := next }
  Action.modify fun fs =>
    if EuroFsSuperblock.degradedSlots fs.dev = 1 then
      { fs with dev := EuroFsSuperblock.healSlots fs.dev }
    else fs

def mount (dev : Device) (now : UInt64) : Except Fail EuroFs :=
  match EuroFsSuperblock.readFrom dev with
  | none => .error (.err .corruption)
  | some sb => finish (mountVolume (blank dev sb now))

/-! ## Snapshots and limits -/

def snapshotCreate (label : Str) (flags : UInt32) : Disk UInt64 := do
  let fs ← Action.get
  if fs.snapshots.length ≥ maxSnapshots then Action.fail .noSpace
  else do
    commit
    let fs ← Action.get
    let next ← Action.read fun _ => checkedSucc fs.nextSnapId
    let entry := fs.snapshotEntry label flags
    Action.modify fun fs =>
      { fs with nextSnapId := next, snapshots := fs.snapshots ++ [entry] }
    saveSnapshots
    pure fs.nextSnapId

def snapshotRollback (id : UInt64) : Disk Unit := do
  let fs ← Action.get
  match fs.snapshots.find? fun s => s.id = id with
  | none => Action.fail .notFound
  | some snap => do
      Action.modify (setSb fun sb =>
        { sb with objectMapRoot := snap.objmapRoot, extentTreeRoot := snap.mapBlocks })
      loadObjmap
      let next ← Action.read fun fs => successorOid fs.objmap
      Action.modify fun fs => { fs with nextOid := next, pathCache := ∅, extentsCache := ∅ }
      rebuildUsage
      commit

def snapshotDelete (id : UInt64) : Disk Unit := do
  let fs ← Action.get
  let kept := fs.snapshots.filter fun s => s.id ≠ id
  Action.modify fun fs => { fs with snapshots := kept }
  if kept.length = fs.snapshots.length then Action.fail .notFound
  else do
    saveSnapshots
    commit

def quotaSet (uid : UInt32) (limitBlocks : UInt64) : Disk Unit := do
  let fs ← Action.get
  if uid = 0 then Action.fail .permissionDenied
  else if limitBlocks = 0 then do
    Action.modify fun fs => { fs with quotaLimits := fs.quotaLimits.erase uid }
    saveQuota
  else if fs.quotaLimits.size ≥ maxQuotaEntries ∧ fs.quotaLimits[uid]? = none then
    Action.fail .noSpace
  else do
    Action.modify fun fs => { fs with quotaLimits := fs.quotaLimits.insert uid limitBlocks }
    saveQuota

end Volume

end EuroFs

end EuroOS
