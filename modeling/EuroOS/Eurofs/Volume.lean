import EuroOS.Eurofs.FsProgram

/-!
# The abstract volume

What a mounted volume is for: a map from object numbers to objects with their
inode and content, the object maps frozen by commits, and the in-memory state of
the block-level volume.  There are no blocks to read here; the allocator's
bitmap is kept because it decides which writes find room.
-/

namespace EuroOS

open Std (ExtTreeMap)

structure Obj where
  blk : Nat
  ino : Inode
  data : Bytes
  deriving DecidableEq

abbrev Table := BTreeMap Oid Obj

structure Vol extends FsState where
  objs : Table
  durable : EuroFsSuperblock
  maps : BTreeMap Nat Table
  /-- The snapshot table on disk. -/
  savedSnapshots : List SnapshotEntry

namespace Vol

def objmapOf (table : Table) : Objmap := table.map fun _ obj => obj.blk

/-! ## Allocation -/

def markObj (used : List Bool) (obj : Obj) : List Bool :=
  markExtents (used.set obj.blk true) obj.ino.extents

def markTable (used : List Bool) (table : Table) : List Bool :=
  table.toList.foldl (fun u entry => markObj u entry.2) used

def mapAt (v : Vol) (root : UInt64) : Table := v.maps[root.toNat]?.getD ∅

def markSnapshot (v : Vol) (used : List Bool) (snap : SnapshotEntry) : List Bool :=
  markTable (markRange used snap.objmapRoot.toNat snap.mapBlocks.toNat) (v.mapAt snap.objmapRoot)

def reachable (v : Vol) : List Bool :=
  v.snapshots.foldl v.markSnapshot
    (markTable
      (markRange (markRange (List.replicate v.used.length false) 0 reservedBlocks)
        v.sb.objectMapRoot.toNat v.sb.extentTreeRoot.toNat)
      v.objs)

def rebuilt (v : Vol) : Vol :=
  { v with
    used := v.reachable
    sb := { v.sb with freeBlocks := UInt64.ofNat (freeCount v.reachable) } }

def trimmed (v : Vol) : Vol :=
  { v.rebuilt with
    pendingTrim := (List.range v.reachable.length).filter fun i =>
      v.used.getD i false && !v.reachable.getD i false }

section Write

variable [TwoxHash]

def forgetObject (oid : Oid) (v : Vol) : Vol := { v with objs := v.objs.erase oid }

def nextSb (v : Vol) (root blocks : Nat) (checkpointId : UInt64) : EuroFsSuperblock :=
  EuroFsSuperblock.sealed { v.sb with
    objectMapRoot := UInt64.ofNat root
    extentTreeRoot := UInt64.ofNat blocks
    checkpointId := checkpointId
    lastWritten := v.now
    freeBlocks := UInt64.ofNat (freeCount v.used) }

def countUsage (table : Table) (s : FsState) : FsState :=
  table.toList.foldl (fun s entry => s.usageAdd entry.2.ino.uid (dataBlocksOf entry.2.ino)) s

def rebuildUsage (v : Vol) : Vol :=
  { v with toFsState := countUsage v.objs { v.toFsState with usage := ∅ } }

def remount (now : UInt64) : Action Vol Unit := do
  let v ← Action.get
  let nextSnapId ← Action.read fun _ =>
    checkedSucc ((v.savedSnapshots.map SnapshotEntry.id).foldl max 0)
  let next ← Action.read fun _ =>
    EuroFs.successorOid (objmapOf (v.mapAt v.durable.objectMapRoot))
  Action.modify fun v => rebuildUsage (rebuilt { v with
    sb := v.durable
    nextOid := next
    now := now
    snapshots := v.savedSnapshots
    nextSnapId := nextSnapId
    pendingTrim := []
    pathCache := ∅
    ctxUid := 0
    objs := v.mapAt v.durable.objectMapRoot })

end Write

def MoreUsed (used used' : List Bool) : Prop :=
  used'.length = used.length ∧ ∀ b, Used used b → Used used' b

theorem MoreUsed.refl (used : List Bool) : MoreUsed used used := ⟨rfl, fun _ hb => hb⟩

end Vol

end EuroOS
