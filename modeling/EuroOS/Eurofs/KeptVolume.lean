import EuroOS.Eurofs.DeviceFaults
import EuroOS.Eurofs.MountRefinement

/-!
# What a volume keeps on a device with errors

On a device that refuses requests the tables on disk may fall behind the memory,
and a commit that did not reach the device still counts up the generation.
Neither touches what the allocator has to protect: with both put right, the
volume refines an abstract one.  `Kept` says so, and every part of the block layer
that only adds to the bitmap keeps it.
-/

namespace EuroOS

open Std (ExtTreeMap)

/-- The device without errors, with the two tables as they are in memory. -/
def Device.retabled (dev : Device) (s : FsState) : Device :=
  (dev.calm.store snapshotTableBlock (encodeSnapshots s.snapshots)).store quotaTableBlock
    (encodeQuota s.quotaLimits)

/-- The volume with its tables written and its generation set to that on disk. -/
def EuroFs.repaired (fs : EuroFs) (generation : UInt64) : EuroFs :=
  { fs with
    sb := { fs.sb with checkpointId := generation }
    dev := fs.dev.retabled fs.toFsState }

/-- The snapshot table on disk lists snapshots of the memory only, and the quota
table can be loaded. -/
structure TablesHold (dev : Device) (snaps : List SnapshotEntry) : Prop where
  saved : ∀ snap ∈ (decodeSnapshots (dev.block snapshotTableBlock).bytes).getD [],
    ∃ snap' ∈ snaps, snap.objmapRoot = snap'.objmapRoot ∧ snap.mapBlocks = snap'.mapBlocks
  count : ((decodeSnapshots (dev.block snapshotTableBlock).bytes).getD []).length ≤ maxSnapshots
  limits : QuotaEncodable ((decodeQuota (dev.block quotaTableBlock).bytes).getD ∅)

structure Keeps [TwoxHash] (fs : EuroFs) (v : Vol) : Prop where
  core : Refines (fs.repaired v.durable.checkpointId) v
  generation : v.durable.checkpointId ≤ fs.sb.checkpointId
  tables : TablesHold fs.dev fs.snapshots

def Kept [TwoxHash] (fs : EuroFs) : Prop := ∃ v, Keeps fs v

namespace Device

variable {dev dev' : Device} {s : FsState}

theorem retabled_faultFree (dev : Device) (s : FsState) : (dev.retabled s).FaultFree :=
  dev.calm_faultFree

theorem retabled_block (hsnaps : b ≠ snapshotTableBlock) (hquota : b ≠ quotaTableBlock) :
    (dev.retabled s).block b = dev.block b := by
  rw [retabled, store_block_of_ne hquota, store_block_of_ne hsnaps]
  rfl

theorem retabled_data (hb : reservedBlocks ≤ b) : (dev.retabled s).block b = dev.block b := by
  have hlast : quotaTableBlock < reservedBlocks ∧ snapshotTableBlock < reservedBlocks := by decide
  exact retabled_block (by omega) (by omega)

theorem retabled_snaps : (dev.retabled s).block snapshotTableBlock = encodeSnapshots s.snapshots := by
  rw [retabled, store_block_of_ne (by decide), store_block_self]

theorem retabled_quota : (dev.retabled s).block quotaTableBlock = encodeQuota s.quotaLimits :=
  store_block_self

theorem retabled_congr (hsnaps : s'.snapshots = s.snapshots)
    (hlimits : s'.quotaLimits = s.quotaLimits) (hb : dev'.block b = dev.block b) :
    (dev'.retabled s').block b = (dev.retabled s).block b := by
  by_cases hquota : b = quotaTableBlock
  · rw [hquota, retabled_quota, retabled_quota, hlimits]
  by_cases htable : b = snapshotTableBlock
  · rw [htable, retabled_snaps, retabled_snaps, hsnaps]
  · rw [retabled_block htable hquota, retabled_block htable hquota, hb]

end Device

theorem TablesHold.congr (h : TablesHold dev snaps)
    (hsnaps : dev'.block snapshotTableBlock = dev.block snapshotTableBlock)
    (hquota : dev'.block quotaTableBlock = dev.block quotaTableBlock) : TablesHold dev' snaps where
  saved := by
    rw [hsnaps]
    exact h.saved
  count := by
    rw [hsnaps]
    exact h.count
  limits := by
    rw [hquota]
    exact h.limits

section

variable [TwoxHash]

theorem Refines.kept (h : Refines fs v) : Kept fs := by
  have hstate : fs.toFsState = v.toFsState := h.state
  have hsb : fs.sb.checkpointId = v.durable.checkpointId := by
    rw [hstate]
    exact h.sound.generation
  have hlimits : QuotaEncodable fs.quotaLimits := hstate ▸ h.sound.limits
  have hcount : fs.snapshots.length ≤ maxSnapshots := hstate ▸ h.sound.snapCount
  have hsnaps : (decodeSnapshots ((fs.dev.retabled fs.toFsState).block
      snapshotTableBlock).bytes).getD [] = fs.snapshots.map SnapshotEntry.stored := by
    rw [Device.retabled_snaps, decodeSnapshots_encode hcount]
    rfl
  have hquota : (decodeQuota ((fs.dev.retabled fs.toFsState).block
      quotaTableBlock).bytes).getD ∅ = fs.quotaLimits := by
    rw [Device.retabled_quota, decodeQuota_encode hlimits]
    rfl
  have hcore := h.retabled (fs.dev.retabled_faultFree _) rfl
    (fun b => Device.retabled_block) fs.nextSnapId hcount
    (fun snap hsnap => h.pinned (hstate ▸ hsnap)) (by rw [List.map_map]; rfl) hsnaps hlimits hquota
  refine ⟨{ v with
    snapshots := fs.snapshots
    nextSnapId := fs.nextSnapId
    quotaLimits := fs.quotaLimits
    savedSnapshots := fs.snapshots.map SnapshotEntry.stored }, ?_, ?_, ?_⟩
  · rw [EuroFs.repaired, ← hsb]
    exact hcore
  · rw [hsb]
    exact UInt64.le_refl _
  · refine ⟨fun snap hsnap => ?_, ?_, ?_⟩
    · rw [h.snapTable] at hsnap
      obtain ⟨snap', hmem, -, hroot, hblocks⟩ := Refines.exists_unlabeled h.sound.saved hsnap
      exact ⟨snap', hstate ▸ hmem, hroot, hblocks⟩
    · rw [h.snapTable]
      have hlen := congrArg List.length h.sound.saved
      rw [List.length_map, List.length_map] at hlen
      rw [hlen]
      exact h.sound.snapCount
    · rw [h.quotaTable]
      exact h.sound.limits

namespace Keeps

variable (h : Keeps fs v)
include h

theorem state_eq :
    v.toFsState = { fs.toFsState with
      sb := { fs.sb with checkpointId := v.durable.checkpointId } } :=
  h.core.state.symm

theorem used_eq : v.used = fs.used := by rw [h.state_eq]

theorem size_eq : fs.used.length = fs.dev.size := by
  rw [← h.used_eq]
  exact h.core.size_eq

theorem reserved (hb : b < reservedBlocks) : Used fs.used b :=
  h.used_eq ▸ h.core.sound.reserved b hb

theorem header : fs.sb.HeaderOk := by
  have hheader := h.core.sound.header.1
  rw [h.state_eq] at hheader
  exact hheader

theorem withFaults (f : Faults) : Keeps (fs.withFaults f) v :=
  ⟨h.core, h.generation, h.tables.congr rfl rfl⟩

/-! ## Frames -/

theorem frame (s : FsState) (hdev : Device.DiffersIn (fun b => ¬Used fs.used b) fs.dev dev')
    (hmore : Vol.MoreUsed fs.used s.used) (hsnaps : s.snapshots = fs.snapshots)
    (hlimits : s.quotaLimits = fs.quotaLimits) (hgen : fs.sb.checkpointId ≤ s.sb.checkpointId)
    (hheader : s.sb.HeaderOk) :
    Keeps { fs with toFsState := s, dev := dev' }
      { v with toFsState :=
          { s with sb := { s.sb with checkpointId := v.durable.checkpointId } } } := by
  have hsame : ∀ b, Used fs.used b → dev'.block b = fs.dev.block b :=
    fun b hb => hdev.block b fun hnot => hnot hb
  have hcore := h.core.withDev (dev'.retabled_faultFree s) hdev.size_eq fun b hb =>
    Device.retabled_congr hsnaps hlimits (hsame b (h.used_eq ▸ hb))
  refine ⟨?_, UInt64.le_trans h.generation hgen, ?_⟩
  · refine hcore.withFields { s with sb := { s.sb with checkpointId := v.durable.checkpointId } }
      h.core.sound.generation.symm hheader ?_ ?_ ?_ ?_
    · rw [h.used_eq]
      exact hmore.1
    · rw [h.used_eq]
      exact hmore.2
    · rw [h.state_eq]
      exact hsnaps
    · rw [h.state_eq]
      exact hlimits
  · have htables : TablesHold dev' fs.snapshots :=
      h.tables.congr (hsame _ (h.reserved (by decide))) (hsame _ (h.reserved (by decide)))
    rw [← hsnaps] at htables
    exact htables

theorem withState (s : FsState) (hsb : s.sb = fs.sb) (hused : s.used = fs.used)
    (hsnaps : s.snapshots = fs.snapshots) (hlimits : s.quotaLimits = fs.quotaLimits) :
    Kept { fs with toFsState := s } := by
  refine ⟨_, h.frame s (.refl _ _) ⟨by rw [hused], fun b hb => ?_⟩ hsnaps hlimits ?_ ?_⟩
  · rwa [hused]
  · rw [hsb]
    exact UInt64.le_refl _
  · rw [hsb]
    exact h.header

theorem insertObj (hstored : Stored fs.dev oid obj)
    (hcover : ∀ b, obj.Owns b → reservedBlocks ≤ b ∧ Used fs.used b) :
    Keeps
      { fs with
        objmap := fs.objmap.insert oid obj.blk
        extentsCache := fs.extentsCache.insert oid obj.ino.extents }
      { v with objs := v.objs.insert oid obj } := by
  refine ⟨?_, h.generation, h.tables⟩
  refine h.core.insertObj ?_ ?_
  · exact hstored.congr fun b hb => Device.retabled_data (hcover b hb).1
  · rw [h.used_eq]
    exact hcover

theorem forgetObject (oid : Oid) : Keeps (fs.forgetObject oid) (v.forgetObject oid) :=
  ⟨h.core.forgetObject oid, h.generation, h.tables⟩

end Keeps

/-! ## Writing objects -/

/-- The content of an object is on its way to the map: inline, or in blocks of its
own that are in use. -/
structure ContentReady (fs : EuroFs) (data : Bytes) (extents : List (Nat × Nat)) : Prop where
  cover : ∀ e ∈ extents, ∀ b, e.1 ≤ b → b < e.1 + e.2 → reservedBlocks ≤ b ∧ Used fs.used b
  content : (data.length ≤ inlineCap ∧ extents = []) ∨
    ∃ start, extents = [(start, blocksFor data.length)] ∧ start < 2 ^ 64 ∧
      blocksFor data.length < 2 ^ 32 ∧ inlineCap < data.length ∧
      ∀ i < blocksFor data.length, fs.dev.block (start + i) = chunk data i

omit [TwoxHash] in
theorem ContentReady.frame (h : ContentReady fs data extents) (s : FsState)
    (hdev : Device.DiffersIn (fun b => ¬Used fs.used b) fs.dev dev')
    (hmore : Vol.MoreUsed fs.used s.used) :
    ContentReady { fs with toFsState := s, dev := dev' } data extents where
  cover := fun e he b hle hlt => ⟨(h.cover e he b hle hlt).1, hmore.2 b (h.cover e he b hle hlt).2⟩
  content := by
    rcases h.content with hinline | ⟨start, hstart, hsmall, hcount, hlong, hblocks⟩
    · exact .inl hinline
    refine .inr ⟨start, hstart, hsmall, hcount, hlong, fun i hi => ?_⟩
    have hused := (h.cover (start, blocksFor data.length) (by simp [hstart]) (start + i)
      (by simp) (by simpa using hi)).2
    exact (hdev.block _ fun hnot => hnot hused).trans (hblocks i hi)

theorem ContentReady.stored (h : ContentReady fs data extents)
    (hinode : fs.dev.block blk = (EuroFs.withContent inode data extents).encode) :
    Stored fs.dev inode.oid ⟨blk, EuroFs.withContent inode data extents, data⟩ := by
  refine ⟨rfl, Refines.withContent_encodable inode ?_, hinode, rfl, .inr rfl, ?_⟩
  · rcases h.content with hinline | ⟨start, hstart, hlt, hcount, hlen, -⟩
    · exact .inl hinline
    · exact .inr ⟨start, hstart, hlt, hcount, hlen⟩
  · rcases h.content with ⟨hinline, hnil⟩ | ⟨start, hstart, -, -, hlen, hblocks⟩
    · exact .inl ⟨hnil, if_pos hinline⟩
    · exact .inr ⟨start, hstart, hlen, hblocks⟩

namespace Kept

theorem frame (h : Kept fs) {used : List Bool} (hmore : Vol.MoreUsed fs.used used)
    {dev' : Device} (hdev : Device.DiffersIn (fun b => ¬Used fs.used b) fs.dev dev') :
    Kept { fs with used := used, dev := dev' } := by
  obtain ⟨v, hv⟩ := h
  exact ⟨_, hv.frame { fs.toFsState with used := used } hdev hmore rfl rfl
    (UInt64.le_refl _) hv.header⟩

theorem notReserved (h : Kept fs) (hb : ¬Used fs.used b) : reservedBlocks ≤ b := by
  obtain ⟨v, hv⟩ := h
  by_contra hsmall
  exact hb (hv.reserved (Nat.not_le.mp hsmall))

theorem writeData (data : Bytes) :
    Action.Ensures Kept (EuroFs.writeData data)
      (fun extents fs => Kept fs ∧ ContentReady fs data extents) Kept := by
  intro fs h
  rcases FsState.allocData_cases data.length fs.toFsState with
    herr | ⟨hinline, hok⟩ | ⟨start, used, hlong, hcount, hok, hlen, hmono, hfit, hnew⟩
  · have halloc : EuroFs.ofState (FsState.allocData data.length) fs = (.error (.err .noSpace), fs) := by
      rw [EuroFs.ofState, herr]
    rw [EuroFs.writeData, Action.bind_of_error halloc]
    exact h
  · have halloc : EuroFs.ofState (FsState.allocData data.length) fs = (.ok [], fs) := by
      rw [EuroFs.ofState, hok]
    rw [EuroFs.writeData, Action.bind_of_ok halloc]
    exact ⟨h, by simp, .inl ⟨hinline, rfl⟩⟩
  · have halloc : EuroFs.ofState (FsState.allocData data.length) fs =
        (.ok [(start, blocksFor data.length)], { fs with used := used }) := by
      rw [EuroFs.ofState, hok]
    obtain ⟨res, dev', hwrite, hdiff, hres⟩ := EuroFs.writeBlocks_cases
      (contentWrites data [(start, blocksFor data.length)]) { fs with used := used }
    have hfresh : Device.DiffersIn (fun b => ¬Used fs.used b) fs.dev dev' := by
      refine hdiff.mono ?_
      rintro b ⟨w, hw, rfl⟩
      exact (Refines.contentWrites_fresh (fun e he => by
        rw [List.mem_singleton.mp he]
        exact ⟨hfit, fun b hle hlt => (hnew b hle hlt).1⟩) w hw).2
    have hkept : Kept { fs with used := used, dev := dev' } := h.frame ⟨hlen, hmono⟩ hfresh
    rw [EuroFs.writeData, Action.bind_of_ok halloc, ← contentWrites, Action.bind_apply, hwrite]
    rcases hres with ⟨rfl, hdev⟩ | rfl
    · refine ⟨hkept, ?_, .inr ⟨start, rfl, ?_, hcount, hlong, fun i hi => ?_⟩⟩
      · intro e he b hle hlt
        rw [List.mem_singleton.mp he] at hle hlt
        exact ⟨h.notReserved (hnew b hle hlt).1, (hnew b hle hlt).2⟩
      · obtain ⟨v, hv⟩ := h
        have hsize := hv.size_eq
        have hdevice := fs.dev.lt_of_size
        omega
      · change dev'.block (start + i) = chunk data i
        rw [hdev, contentWrites, List.flatMap_singleton]
        exact Device.storeAll_run _ _ hi
    · exact hkept

theorem linkObject (inode : Inode) (data : Bytes) (extents : List (Nat × Nat))
    (previous : Nat × UInt32) :
    Action.Ensures (fun fs => Kept fs ∧ ContentReady fs data extents)
      (EuroFs.linkObject inode data extents previous) (fun _ => Kept) Kept := by
  intro fs ⟨h, hready⟩
  rcases FsState.allocBlock_cases fs.toFsState with herr | ⟨blk, used, hok, hlen, hmono, hlt, hnot, hmark⟩
  · have halloc : EuroFs.ofState FsState.allocBlock fs = (.error (.err .noSpace), fs) := by
      rw [EuroFs.ofState, herr]
    rw [EuroFs.linkObject, Action.bind_of_error halloc]
    exact h
  have halloc : EuroFs.ofState FsState.allocBlock fs = (.ok blk, { fs with used := used }) := by
    rw [EuroFs.ofState, hok]
  rw [EuroFs.linkObject, Action.bind_of_ok halloc, Action.bind_apply, EuroFs.writeBlock]
  rcases fs.dev.writeBlock_cases blk (EuroFs.withContent inode data extents).encode with
    hwrite | ⟨dev', hwrite, hsame⟩
  · have hdiff : Device.DiffersIn (fun b => ¬Used fs.used b) fs.dev
        (fs.dev.store blk (EuroFs.withContent inode data extents).encode) :=
      Device.store_differsIn.mono fun b hb => hb ▸ hnot
    have hready' := hready.frame { fs.toFsState with used := used } hdiff ⟨hlen, hmono⟩
    obtain ⟨v, hv⟩ := h.frame ⟨hlen, hmono⟩ hdiff
    have hlinked := hv.insertObj (hready'.stored (if_pos rfl)) (by
      rintro b (rfl | ⟨e, he, hle, hlt⟩)
      · exact ⟨h.notReserved hnot, hmark⟩
      · exact hready'.cover e he b hle hlt)
    obtain ⟨usage, husage⟩ := ({ fs.toFsState with used := used } : FsState).charge_eq previous
      inode.uid (blocksFor data.length)
    simp only [hwrite, Action.modify_apply, husage]
    exact hlinked.withState { fs.toFsState with used := used, usage := usage } rfl rfl rfl rfl
  · simp only [hwrite]
    exact h.frame ⟨hlen, hmono⟩ (hsame.mono fun _ hfalse => hfalse.elim)

theorem writeObject (inode : Inode) (data : Bytes) :
    Action.Ensures Kept (EuroFs.writeObject inode data) (fun _ => Kept) Kept := by
  refine .read_bind (fun _ _ h _ => h) fun previous => ?_
  refine .get_bind fun fs h => ?_
  split
  · rintro _ rfl
    exact h.1
  · refine .bind ((Kept.writeData data).strengthen fun s hs => hs ▸ h.1) fun extents => ?_
    exact Kept.linkObject inode data extents previous

end Kept

end

end EuroOS
