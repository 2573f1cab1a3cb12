import EuroOS.Eurofs.SnapshotRefinement

/-!
# Mounting

`mount` reads the superblock, the object map, the two tables and the inodes of
the live objects.  On a device that holds an abstract volume it finds exactly
the committed state of that volume.
-/

namespace EuroOS

open Action
open Std (ExtTreeMap)

variable [TwoxHash] {fs : EuroFs}

namespace EuroFs

/-! ## The parts of a mount -/

omit [TwoxHash] in
theorem checkedSucc_zero : checkedSucc 0 = .ok 1 := rfl

omit [TwoxHash] in
theorem loadSnapshots_eq (hfree : fs.dev.FaultFree) (hsize : snapshotTableBlock < fs.dev.size)
    (hblank : fs.snapshots = [] ∧ fs.nextSnapId = 1)
    (hsnaps : (decodeSnapshots (fs.dev.block snapshotTableBlock).bytes).getD [] = snaps)
    (hnext : checkedSucc ((snaps.map SnapshotEntry.id).foldl max 0) = .ok next) :
    loadSnapshots fs = (.ok (), { fs with snapshots := snaps, nextSnapId := next }) := by
  rw [loadSnapshots, hfree.readBlock hsize]
  cases hdecode : decodeSnapshots (fs.dev.block snapshotTableBlock).bytes with
  | none =>
    rw [hdecode, Option.getD_none] at hsnaps
    subst hsnaps
    have hone : next = 1 := (Except.ok.inj (checkedSucc_zero.symm.trans hnext)).symm
    have hsame : ({ fs with snapshots := [], nextSnapId := 1 } : EuroFs) = fs := by
      rw [← hblank.1, ← hblank.2]
    rw [hone, hsame]
    simp only [hdecode]
  | some entries =>
    rw [hdecode, Option.getD_some] at hsnaps
    subst hsnaps
    simp only [hdecode, hnext]

omit [TwoxHash] in
theorem loadSnapshots_halted (hfree : fs.dev.FaultFree) (hsize : snapshotTableBlock < fs.dev.size)
    {snaps : List SnapshotEntry}
    (hsnaps : (decodeSnapshots (fs.dev.block snapshotTableBlock).bytes).getD [] = snaps)
    {e : Fail} (hnext : checkedSucc ((snaps.map SnapshotEntry.id).foldl max 0) = .error e) :
    ∃ fs', loadSnapshots fs = (.error e, fs') := by
  rw [loadSnapshots, hfree.readBlock hsize]
  cases hdecode : decodeSnapshots (fs.dev.block snapshotTableBlock).bytes with
  | none =>
    rw [hdecode, Option.getD_none] at hsnaps
    subst hsnaps
    cases checkedSucc_zero.symm.trans hnext
  | some entries =>
    rw [hdecode, Option.getD_some] at hsnaps
    subst hsnaps
    simp only [hdecode, hnext]
    exact ⟨_, rfl⟩

omit [TwoxHash] in
theorem loadQuota_eq (hfree : fs.dev.FaultFree) (hsize : quotaTableBlock < fs.dev.size)
    (hblank : fs.quotaLimits = ∅)
    (hlimits : (decodeQuota (fs.dev.block quotaTableBlock).bytes).getD ∅ = limits) :
    loadQuota fs = (.ok (), { fs with quotaLimits := limits }) := by
  rw [loadQuota, hfree.readBlock hsize]
  cases hdecode : decodeQuota (fs.dev.block quotaTableBlock).bytes with
  | none =>
    rw [hdecode, Option.getD_none] at hlimits
    subst hlimits
    have hsame : ({ fs with quotaLimits := ∅ } : EuroFs) = fs := by rw [← hblank]
    rw [hsame]
    simp only [hdecode]
  | some entries =>
    rw [hdecode, Option.getD_some] at hlimits
    subst hlimits
    simp only [hdecode]

/-- A device on which a mount finds a superblock, its object map with all
objects, and a list of snapshots. -/
structure Mountable (dev : Device) (sb : EuroFsSuperblock) (table : Table)
    (snaps : List SnapshotEntry) : Prop where
  faultFree : dev.FaultFree
  reserved : reservedBlocks ≤ dev.size
  superblock : EuroFsSuperblock.readFrom dev = some sb
  map : MapStored dev sb.objectMapRoot.toNat sb.extentTreeRoot.toNat table
  fit : ∀ b, MapOwns sb.objectMapRoot.toNat sb.extentTreeRoot.toNat table b → b < dev.size
  snaps : (decodeSnapshots (dev.block snapshotTableBlock).bytes).getD [] = snaps

def loaded (dev : Device) (sb : EuroFsSuperblock) (now : UInt64) (table : Table)
    (snaps : List SnapshotEntry) (nextSnapId : UInt64) : EuroFs :=
  { blank dev sb now with
    objmap := Vol.objmapOf table
    snapshots := snaps
    nextSnapId := nextSnapId }

def healed (dev : Device) : Device :=
  if EuroFsSuperblock.degradedSlots dev = 1 then EuroFsSuperblock.healSlots dev else dev

variable {dev : Device} {sb : EuroFsSuperblock} {table : Table} {snaps : List SnapshotEntry}

theorem Mountable.readInode (h : Mountable dev sb table snaps) (hdev : fs.dev = dev)
    (hobjmap : fs.objmap = Vol.objmapOf table) (hobj : table[oid]? = some obj) :
    fs.readInode oid = .ok obj.ino := by
  subst hdev
  rw [EuroFs.readInode, hobjmap, Vol.objmapOf, ExtTreeMap.getElem?_map, hobj]
  exact (h.map.stored oid obj hobj).readInodeAt h.faultFree (h.fit _ (.inr ⟨oid, obj, hobj, .inl rfl⟩))

theorem Mountable.mount (h : Mountable dev sb table snaps) (now : UInt64) {nextSnapId : UInt64}
    (hsnap : checkedSucc ((snaps.map SnapshotEntry.id).foldl max 0) = .ok nextSnapId)
    {used : List Bool} {free : UInt64} {hints : BTreeMap Oid (List (Nat × Nat))}
    (hrebuild : rebuildAllocator (loaded dev sb now table snaps nextSnapId) =
      (.ok (), { loaded dev sb now table snaps nextSnapId with
        used := used
        sb := { sb with freeBlocks := free }
        extentsCache := hints })) :
    mount dev now = successorOid (Vol.objmapOf table) >>= fun next =>
      .ok { loaded dev sb now table snaps nextSnapId with
        used := used
        sb := { sb with freeBlocks := free }
        quotaLimits := (decodeQuota (dev.block quotaTableBlock).bytes).getD ∅
        usage := (Vol.countUsage table (loaded dev sb now table snaps nextSnapId).toFsState).usage
        nextOid := next
        extentsCache := hints
        dev := healed dev } := by
  have hsize8 : snapshotTableBlock < dev.size := lt_of_lt_of_le (by decide) h.reserved
  have hsize9 : quotaTableBlock < dev.size := lt_of_lt_of_le (by decide) h.reserved
  have hload : loadObjmap (blank dev sb now) =
      (.ok (), { blank dev sb now with objmap := Vol.objmapOf table }) :=
    Refines.loadObjmap_eq h.map h.faultFree h.fit rfl rfl
  have hsnaps : loadSnapshots { blank dev sb now with objmap := Vol.objmapOf table } =
      (.ok (), loaded dev sb now table snaps nextSnapId) :=
    loadSnapshots_eq h.faultFree hsize8 ⟨rfl, rfl⟩ h.snaps hsnap
  have hquota : loadQuota { loaded dev sb now table snaps nextSnapId with
      used := used
      sb := { sb with freeBlocks := free }
      extentsCache := hints } =
      (.ok (), { loaded dev sb now table snaps nextSnapId with
        used := used
        sb := { sb with freeBlocks := free }
        extentsCache := hints
        quotaLimits := (decodeQuota (dev.block quotaTableBlock).bytes).getD ∅ }) :=
    loadQuota_eq h.faultFree hsize9 rfl rfl
  have husage := @Refines.rebuildUsage_eq _
    { loaded dev sb now table snaps nextSnapId with
      used := used
      sb := { sb with freeBlocks := free }
      extentsCache := hints
      quotaLimits := (decodeQuota (dev.block quotaTableBlock).bytes).getD ∅ } table rfl
    (fun oid obj hobj => h.readInode rfl rfl hobj)
    (loaded dev sb now table snaps nextSnapId).toFsState rfl
  rw [EuroFs.mount, h.superblock]
  simp only
  rw [mountVolume, bind_of_ok hload, bind_of_ok hsnaps, bind_of_ok hrebuild,
    bind_of_ok hquota, bind_of_ok husage]
  cases hoid : successorOid (Vol.objmapOf table) with
  | error e => exact congrArg finish (bind_of_error (e := e) (congrArg (·, _) hoid) _)
  | ok next =>
    refine (congrArg finish (bind_of_ok (a := next) (congrArg (·, _) hoid) _)).trans ?_
    rw [modify_bind, modify_apply, finish, healed]
    by_cases hdegraded : EuroFsSuperblock.degradedSlots dev = 1
    · rw [if_pos hdegraded]
      exact congrArg Except.ok (if_pos hdegraded)
    · rw [if_neg hdegraded]
      exact congrArg Except.ok (if_neg hdegraded)

end EuroFs

namespace Refines

theorem mountable (h : Refines fs v) :
    EuroFs.Mountable fs.dev v.durable (v.mapAt v.durable.objectMapRoot) v.savedSnapshots where
  faultFree := h.faultFree
  reserved := by
    have hlast : reservedBlocks - 1 < fs.dev.size := h.reserved_lt_size (by norm_num)
    omega
  superblock := h.slots.readFrom
  map := h.durableMap
  fit := fun b hb => h.lt_size_of_protects (.inr (.inl hb))
  snaps := h.snapTable

theorem healed_eq (h : Refines fs v) : EuroFs.healed fs.dev = fs.dev := by
  rw [EuroFs.healed, h.slots.degradedSlots]
  exact if_neg Nat.zero_ne_one

/-- The volume that a mount has loaded, in front of the allocator rebuild. -/
def found (v : Vol) (now : UInt64) (nextSnapId next : UInt64) : Vol :=
  { v with
    sb := v.durable
    nextOid := next
    now := now
    snapshots := v.savedSnapshots
    nextSnapId := nextSnapId
    pendingTrim := []
    pathCache := ∅
    ctxUid := 0
    objs := v.mapAt v.durable.objectMapRoot }

theorem refines_found (h : Refines fs v) (now nextSnapId next : UInt64) :
    Refines
      { fs with
        toFsState := (found v now nextSnapId next).toFsState
        objmap := Vol.objmapOf (v.mapAt v.durable.objectMapRoot)
        extentsCache := ∅ }
      (found v now nextSnapId next) :=
  h.withTable h.durableMap.stored (fun b hb => h.sound.covered b (.inr (.inl (.inr hb)))) rfl
    h.sound.saved rfl h.sound.generation.symm h.sound.header.2

theorem rebuild_loaded (h : Refines fs v) (now nextSnapId next : UInt64) :
    ∃ hints, HintsHold hints (v.mapAt v.durable.objectMapRoot) ∧
      EuroFs.rebuildAllocator (EuroFs.loaded fs.dev v.durable now
          (v.mapAt v.durable.objectMapRoot) v.savedSnapshots nextSnapId) =
        (.ok (), { EuroFs.loaded fs.dev v.durable now (v.mapAt v.durable.objectMapRoot)
            v.savedSnapshots nextSnapId with
          used := (found v now nextSnapId next).reachable
          sb := { v.durable with
            freeBlocks := UInt64.ofNat (freeCount (found v now nextSnapId next).reachable) }
          extentsCache := hints }) := by
  have hfound := h.refines_found now nextSnapId next
  generalize hfs : EuroFs.loaded fs.dev v.durable now (v.mapAt v.durable.objectMapRoot)
    v.savedSnapshots nextSnapId = loaded
  have hlen : loaded.used.length = v.used.length := by
    rw [← hfs, h.size_eq]
    exact List.length_replicate
  have hreadable : Readable loaded
      { v with toFsState := loaded.toFsState, objs := v.mapAt v.durable.objectMapRoot } := by
    subst hfs
    exact
      { state := rfl
        faultFree := h.faultFree
        size_eq := List.length_replicate
        objmap := rfl
        objs := h.durableMap.stored
        objs_lt := fun b hb => h.lt_size_of_protects (.inr (.inl (.inr hb)))
        frozen := hfound.frozen
        frozen_lt := fun snap hsnap b hb =>
          hfound.lt_size_of_protects (.inr (.inr ⟨snap, hsnap, hb⟩))
        hints := by
          intro oid extents obj hcache
          simp [EuroFs.loaded, EuroFs.blank] at hcache }
  have hreach : Vol.reachable
      { v with toFsState := loaded.toFsState, objs := v.mapAt v.durable.objectMapRoot } =
      (found v now nextSnapId next).reachable := by
    rw [Vol.reachable, Vol.reachable, hlen]
    subst hfs
    rfl
  obtain ⟨hints, hhints, heq⟩ := EuroFs.rebuildAllocatorTrim_bind hreadable.rebuildable false
  refine ⟨hints, hhints, ?_⟩
  rw [EuroFs.rebuildAllocator, heq, Vol.rebuilt, hreach]
  subst hfs
  rfl

theorem remount (h : Refines fs v) (now : UInt64) :
    ((Vol.remount now v).1 = .error (.stop .halted) ∧ ∃ e, EuroFs.mount fs.dev now = .error e) ∨
      ∃ fs', (Vol.remount now v).1 = .ok () ∧ EuroFs.mount fs.dev now = .ok fs' ∧
        Refines fs' (Vol.remount now v).2 := by
  cases hsnap : checkedSucc ((v.savedSnapshots.map SnapshotEntry.id).foldl max 0) with
  | error e =>
    have hstop : e = .stop .halted := checkedSucc_error hsnap
    subst hstop
    have hload : EuroFs.loadObjmap (EuroFs.blank fs.dev v.durable now) = (.ok (), _) :=
      loadObjmap_eq h.durableMap h.faultFree h.mountable.fit rfl rfl
    obtain ⟨fs₁, hsnaps⟩ := @EuroFs.loadSnapshots_halted
      { EuroFs.blank fs.dev v.durable now with
        objmap := Vol.objmapOf (v.mapAt v.durable.objectMapRoot) } h.faultFree
      (h.reserved_lt_size (by norm_num)) _ h.snapTable _ hsnap
    have hvol : (Vol.remount now v).1 = .error (.stop .halted) := by
      simp only [Vol.remount, bind_apply, get_apply, read_apply, hsnap]
    refine .inl ⟨hvol, .stop .halted, ?_⟩
    rw [EuroFs.mount, h.slots.readFrom]
    simp only
    rw [EuroFs.mountVolume, bind_of_ok hload, bind_of_error hsnaps, EuroFs.finish]
  | ok nextSnapId =>
    cases hoid : EuroFs.successorOid (Vol.objmapOf (v.mapAt v.durable.objectMapRoot)) with
    | error e =>
      have hstop : e = .stop .halted := checkedSucc_error hoid
      subst hstop
      obtain ⟨hints, -, hrebuild⟩ := h.rebuild_loaded now nextSnapId 0
      have hvol : (Vol.remount now v).1 = .error (.stop .halted) := by
        simp only [Vol.remount, bind_apply, get_apply, read_apply, hsnap, hoid]
      refine .inl ⟨hvol, .stop .halted, ?_⟩
      rw [h.mountable.mount now hsnap hrebuild, hoid, error_bind]
    | ok next =>
      obtain ⟨hints, hhints, hrebuild⟩ := h.rebuild_loaded now nextSnapId next
      have hfound := h.refines_found now nextSnapId next
      have hrebuilt := hfound.rebuilt ⟨rfl, rfl, rfl⟩ hhints
      obtain ⟨usage, hcount⟩ := countUsage_state (v.mapAt v.durable.objectMapRoot)
        { (found v now nextSnapId next).rebuilt.toFsState with usage := ∅ }
      have hfinal := hrebuilt.withState
        { (found v now nextSnapId next).rebuilt.toFsState with usage := usage }
        rfl rfl (fun b hb => hb) rfl rfl
      have hvol : Vol.remount now v =
          (.ok (), { (found v now nextSnapId next).rebuilt with usage := usage }) := by
        simp only [Vol.remount, bind_apply, get_apply, read_apply, hsnap,
          hoid, modify_apply, Vol.rebuildUsage]
        exact congrArg (fun s => (Except.ok (),
          { (found v now nextSnapId next).rebuilt with toFsState := s })) hcount
      have hmount := h.mountable.mount now hsnap hrebuild
      have husage : (Vol.countUsage (v.mapAt v.durable.objectMapRoot) (EuroFs.loaded fs.dev
          v.durable now (v.mapAt v.durable.objectMapRoot) v.savedSnapshots
          nextSnapId).toFsState).usage = usage := by
        rw [@countUsage_of_usage _ (EuroFs.loaded fs.dev v.durable now
          (v.mapAt v.durable.objectMapRoot) v.savedSnapshots nextSnapId).toFsState
          { (found v now nextSnapId next).rebuilt.toFsState with usage := ∅ } rfl, hcount]
      rw [hoid, ok_bind, h.healed_eq, h.quotaTable, husage] at hmount
      rw [hvol]
      exact .inr ⟨_, rfl, hmount, hfinal⟩

end Refines

end EuroOS
