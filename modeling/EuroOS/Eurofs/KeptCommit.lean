import EuroOS.Eurofs.KeptVolume

/-!
# Commits on a device with errors

A commit writes the object map to fresh blocks and then the superblock.  Whatever
fails on the way, the old superblock is still the newest on disk or the new one
is, and both states are covered by the bitmap.  The rebuild that follows starts
from an empty bitmap and has to read its way through the volume.
-/

namespace EuroOS

open Action Device EuroFs
open Std (ExtTreeMap)

namespace EuroFsSuperblock

variable [TwoxHash] {dev : Device} {sb new : EuroFsSuperblock}

theorem SlotsHold.slot_le (h : SlotsHold dev sb)
    (hloc : loc = superblockBlock ∨ loc = superblockBackupBlock) :
    ∃ kept, readSlot dev loc = some kept ∧ kept.checkpointId ≤ sb.checkpointId := by
  obtain ⟨slot, other, old, hslots, hsb, hold, horder⟩ := h
  have hle : old.checkpointId ≤ sb.checkpointId := by
    rcases horder with hlt | rfl
    · exact UInt64.le_of_lt hlt
    · exact UInt64.le_refl _
  have hcases : loc = slot ∨ loc = other := by
    rcases hslots with ⟨rfl, rfl⟩ | ⟨rfl, rfl⟩
    · exact hloc
    · exact hloc.symm
  rcases hcases with rfl | rfl
  · exact ⟨sb, hsb, UInt64.le_refl _⟩
  · exact ⟨old, hold, hle⟩

omit [TwoxHash] in
theorem targetSlots_cases (ga gb : Option UInt64) :
    targetSlots ga gb = [superblockBlock] ∨ targetSlots ga gb = [superblockBackupBlock] ∨
      targetSlots ga gb = [superblockBlock, superblockBackupBlock] := by
  cases ga with
  | none =>
    cases gb with
    | none => exact .inr (.inr rfl)
    | some b => exact .inl rfl
  | some a =>
    cases gb with
    | none => exact .inr (.inl rfl)
    | some b =>
      rw [targetSlots]
      split
      · exact .inl rfl
      · exact .inr (.inl rfl)

theorem SlotsHold.overwrite (h : SlotsHold dev.calm sb) (hsize : superblockBackupBlock < dev.size)
    (hvalid : new.IsValid) (hnewer : sb.checkpointId < new.checkpointId) {slot : Nat}
    (hslot : slot = superblockBlock ∨ slot = superblockBackupBlock) {dev' : Device}
    (hcount : dev'.blockCount = dev.blockCount) (hnew : dev'.block slot = new.toBlock)
    (hsame : ∀ b, b ≠ slot → dev'.block b = dev.block b) : SlotsHold dev'.calm new := by
  have hsize' : dev'.calm.size = dev.calm.size := congrArg UInt64.toNat hcount
  have hlast : superblockBackupBlock < dev'.calm.size := hsize'.symm ▸ hsize
  have hread : readSlot dev'.calm slot = some new := by
    refine readSlot_toBlock dev'.calm_faultFree ?_ hnew hvalid
    have hone : superblockBlock < superblockBackupBlock := by decide
    rcases hslot with rfl | rfl
    · exact hone.trans hlast
    · exact hlast
  have hother : ∀ other, (other = superblockBlock ∨ other = superblockBackupBlock) →
      other ≠ slot → ∃ old, readSlot dev'.calm other = some old ∧
        (old.checkpointId < new.checkpointId ∨ old = new) := by
    intro other hloc hne
    obtain ⟨kept, hkept, hle⟩ := h.slot_le hloc
    refine ⟨kept, ?_, .inl (UInt64.lt_of_le_of_lt hle hnewer)⟩
    rw [← hkept]
    exact readSlot_congr dev.calm_faultFree dev'.calm_faultFree hsize' (hsame other hne)
  rcases hslot with rfl | rfl
  · obtain ⟨old, hold, horder⟩ := hother superblockBackupBlock (.inr rfl) (by decide)
    exact ⟨_, _, old, .inl ⟨rfl, rfl⟩, hread, hold, horder⟩
  · obtain ⟨old, hold, horder⟩ := hother superblockBlock (.inl rfl) (by decide)
    exact ⟨_, _, old, .inr ⟨rfl, rfl⟩, hread, hold, horder⟩

theorem SlotsHold.writeSlot_cases (h : SlotsHold dev.calm sb)
    (hsize : superblockBackupBlock < dev.size) (hvalid : new.IsValid)
    (hnewer : sb.checkpointId < new.checkpointId)
    (hslot : slot = superblockBlock ∨ slot = superblockBackupBlock) :
    ∃ ok dev', writeSlots new.toBlock [slot] dev = (ok, dev') ∧
      Device.DiffersIn (fun b => b = superblockBlock ∨ b = superblockBackupBlock) dev dev' ∧
      (SlotsHold dev'.calm new ∨ (ok = false ∧ Device.DiffersIn (fun _ => False) dev dev')) := by
  rcases dev.writeBlock_cases slot new.toBlock with hok | ⟨dev', hfail, hsame⟩
  · refine ⟨true, dev.store slot new.toBlock, by rw [writeSlots, hok]; rfl, ?_, .inl ?_⟩
    · exact store_differsIn.mono fun b hb => hb ▸ hslot
    · exact h.overwrite hsize hvalid hnewer hslot rfl (if_pos rfl) fun b hb => if_neg hb
  · refine ⟨false, dev', by rw [writeSlots, hfail], ?_, .inr ⟨rfl, hsame⟩⟩
    exact hsame.mono fun _ hfalse => hfalse.elim

theorem SlotsHold.writeTo_cases (h : SlotsHold dev.calm sb)
    (hsize : superblockBackupBlock < dev.size) (hvalid : new.IsValid)
    (hnewer : sb.checkpointId < new.checkpointId) :
    ∃ ok dev', new.writeTo dev = (ok, dev') ∧
      Device.DiffersIn (fun b => b = superblockBlock ∨ b = superblockBackupBlock) dev dev' ∧
      (SlotsHold dev'.calm new ∨ (ok = false ∧ Device.DiffersIn (fun _ => False) dev dev')) := by
  rcases targetSlots_cases ((readSlot dev superblockBlock).map checkpointId)
    ((readSlot dev superblockBackupBlock).map checkpointId) with hslots | hslots | hslots
  · rw [EuroFsSuperblock.writeTo, hslots]
    exact h.writeSlot_cases hsize hvalid hnewer (.inl rfl)
  · rw [EuroFsSuperblock.writeTo, hslots]
    exact h.writeSlot_cases hsize hvalid hnewer (.inr rfl)
  rw [EuroFsSuperblock.writeTo, hslots]
  rcases dev.writeBlock_cases superblockBlock new.toBlock with hok | ⟨dev', hfail, hsame⟩
  · have hfirst : Device.DiffersIn (fun b => b = superblockBlock ∨ b = superblockBackupBlock) dev
        (dev.store superblockBlock new.toBlock) := store_differsIn.mono fun b hb => .inl hb
    rcases (dev.store superblockBlock new.toBlock).writeBlock_cases superblockBackupBlock
      new.toBlock with hok' | ⟨dev', hfail, hsame⟩
    · refine ⟨true, (dev.store superblockBlock new.toBlock).store superblockBackupBlock new.toBlock,
        by simp only [writeSlots, hok, hok'], ?_, .inl ?_⟩
      · exact hfirst.trans (store_differsIn.mono fun b hb => .inr hb)
      · -- both slots hold the new superblock
        have hlast : superblockBackupBlock < dev.calm.size := hsize
        refine ⟨_, _, new, .inl ⟨rfl, rfl⟩, ?_, ?_, .inr rfl⟩
        · exact readSlot_toBlock (calm_faultFree _)
            ((show superblockBlock < superblockBackupBlock by decide).trans hlast) rfl hvalid
        · exact readSlot_toBlock (calm_faultFree _) hlast rfl hvalid
    · refine ⟨false, dev', by simp only [writeSlots, hok, hfail], ?_, .inl ?_⟩
      · exact hfirst.trans (hsame.mono fun _ hfalse => hfalse.elim)
      · refine h.overwrite hsize hvalid hnewer (.inl rfl) hsame.count ?_ fun b hb => ?_
        · rw [hsame.block _ id, store_block_self]
        · rw [hsame.block _ id, store_block_of_ne hb]
  · refine ⟨false, dev', by rw [writeSlots, hfail], ?_, .inr ⟨rfl, hsame⟩⟩
    exact hsame.mono fun _ hfalse => hfalse.elim

end EuroFsSuperblock

/-- The rebuild reads nothing that can fail: there is a hint for every object and no
snapshot, or the blocks behind the reserved ones can be read. -/
def EuroFs.RebuildReads (fs : EuroFs) : Prop :=
  (fs.snapshots = [] ∧ ∀ oid : Oid, oid ∈ fs.objmap → oid ∈ fs.extentsCache) ∨
    ∀ t b, reservedBlocks ≤ b → fs.dev.readFails t b = false

theorem EuroFs.RebuildReads.congr {fs fs' : EuroFs} (h : fs.RebuildReads)
    (hsnaps : fs'.snapshots = fs.snapshots) (hobjmap : fs'.objmap = fs.objmap)
    (hcache : fs'.extentsCache = fs.extentsCache) (hreads : fs'.dev.readFails = fs.dev.readFails) :
    fs'.RebuildReads := by
  unfold RebuildReads
  rw [hsnaps, hobjmap, hcache, hreads]
  exact h

section

variable [TwoxHash] {fs : EuroFs} {v : Vol}

namespace Keeps

/-! ## The rebuild -/

theorem readBlock_eq (h : Keeps fs v) (hb : reservedBlocks ≤ b)
    (hreads : ∀ t b, reservedBlocks ≤ b → fs.dev.readFails t b = false) :
    fs.readBlock b = (fs.repaired v.durable.checkpointId).readBlock b := by
  by_cases hlt : b < fs.dev.size
  · have hserves := serves_of_reads hlt (hreads _ b hb)
    unfold Device.Serves at hserves
    rw [EuroFs.readBlock, EuroFs.readBlock, hserves, h.core.faultFree.readBlock hlt]
    simp only [repaired]
    rw [retabled_data hb]
  · have hout : fs.dev.size ≤ b := Nat.not_lt.mp hlt
    have hout' : (fs.repaired v.durable.checkpointId).dev.size ≤ b := hout
    rw [EuroFs.readBlock, EuroFs.readBlock, readBlock_of_le hout, readBlock_of_le hout']

theorem readRun_eq (h : Keeps fs v) (hstart : reservedBlocks ≤ start)
    (hreads : ∀ t b, reservedBlocks ≤ b → fs.dev.readFails t b = false) (count : Nat) :
    fs.readRun start count = (fs.repaired v.durable.checkpointId).readRun start count := by
  induction count with
  | zero => rfl
  | succ count ih =>
    rw [readRun, readRun, ih, h.readBlock_eq (by omega) hreads]

theorem readInodeAt_eq (h : Keeps fs v) (hb : v.Protects b)
    (hreads : ∀ t b, reservedBlocks ≤ b → fs.dev.readFails t b = false) :
    fs.readInodeAt b = (fs.repaired v.durable.checkpointId).readInodeAt b := by
  rw [readInodeAt, readInodeAt, h.readBlock_eq (h.core.sound.covered b hb).1 hreads]

theorem rebuildable (h : Keeps fs v) (hreads : fs.RebuildReads) :
    Rebuildable fs { v with toFsState := fs.toFsState } := by
  have hcore := h.core.readable.rebuildable
  have hsnaps : fs.snapshots = v.snapshots := by rw [h.state_eq]
  refine ⟨rfl, h.core.objmap, h.core.hints, ?_, ?_, ?_⟩
  · intro oid obj hobj
    rcases hreads with ⟨-, hhints⟩ | hreads
    · have hmem : oid ∈ fs.objmap := by
        have hobjmap : fs.objmap = Vol.objmapOf v.objs := h.core.objmap
        rw [hobjmap, Vol.objmapOf, ExtTreeMap.mem_map]
        exact ExtTreeMap.mem_iff_isSome_getElem?.mpr (by rw [hobj]; rfl)
      exact .inl (ExtTreeMap.mem_iff_isSome_getElem?.mp (hhints oid hmem))
    · refine (hcore.objs oid obj hobj).imp_right fun hread => ?_
      rw [h.readInodeAt_eq (.inl ⟨oid, obj, hobj, .inl rfl⟩) hreads, hread]
  · intro snap hsnap
    have hmem : snap ∈ v.snapshots := hsnaps ▸ hsnap
    rcases hreads with ⟨hnone, -⟩ | hreads
    · rw [← hsnaps, hnone] at hmem
      cases hmem
    obtain ⟨data, hread, hrest⟩ := hcore.frozen snap hmem
    have hroot := (h.core.sound.covered _
      (.inr (.inr ⟨snap, hmem, Refines.owns_root (h.core.frozen snap hmem)⟩))).1
    exact ⟨data, (h.readRun_eq hroot hreads _).trans hread, hrest⟩
  · intro snap hsnap oid obj hobj
    have hmem : snap ∈ v.snapshots := hsnaps ▸ hsnap
    rcases hreads with ⟨hnone, -⟩ | hreads
    · rw [← hsnaps, hnone] at hmem
      cases hmem
    have hprotects : v.Protects obj.blk :=
      .inr (.inr ⟨snap, hmem, .inr ⟨oid, obj, hobj, .inl rfl⟩⟩)
    rw [h.readInodeAt_eq hprotects hreads]
    exact hcore.frozenObjs snap hmem oid obj hobj

theorem rebuildAllocatorTrim (h : Keeps fs v) (hcommitted : v.Committed)
    (hreads : fs.RebuildReads) :
    ∃ fs' v', EuroFs.rebuildAllocatorTrim true fs = (.ok (), fs') ∧ Keeps fs' v' ∧
      v'.Committed ∧ fs'.snapshots = fs.snapshots := by
  obtain ⟨hints, hhints, heq⟩ := rebuildAllocatorTrim_bind (h.rebuildable hreads) true
  obtain ⟨s, objs, durable, maps, saved⟩ := v
  have hstate := h.state_eq
  simp only at hstate
  subst hstate
  have hrebuilt : Keeps
      { fs with
        toFsState := (Vol.rebuilt ⟨fs.toFsState, objs, durable, maps, saved⟩).toFsState
        extentsCache := hints }
      (Vol.rebuilt ⟨{ fs.toFsState with sb := { fs.sb with checkpointId := durable.checkpointId } },
        objs, durable, maps, saved⟩) :=
    ⟨h.core.rebuilt hcommitted hhints, h.generation, h.tables⟩
  have hfree : ∀ b ∈ fs.pendingTrim.filter (fun b =>
      b < (Vol.reachable ⟨fs.toFsState, objs, durable, maps, saved⟩).length &&
        !(Vol.reachable ⟨fs.toFsState, objs, durable, maps, saved⟩).getD b false),
      ¬Used (Vol.reachable ⟨fs.toFsState, objs, durable, maps, saved⟩) b := by
    intro b hb hused
    rw [List.mem_filter] at hb
    unfold Used at hused
    simp [List.getD_eq_getElem?_getD, hused] at hb
  have hfinal := hrebuilt.frame (trim fs.used { fs with
      toFsState := (Vol.rebuilt ⟨fs.toFsState, objs, durable, maps, saved⟩).toFsState
      extentsCache := hints }).toFsState
    ((discardAll_differsIn _).mono hfree) (.refl _) rfl rfl (UInt64.le_refl _) h.header
  exact ⟨_, _, heq.trans rfl, hfinal, ⟨hcommitted.root, hcommitted.blocks, hcommitted.table⟩, rfl⟩

/-! ## Publishing -/

omit [TwoxHash] in
theorem newMap_repaired {root blocks : Nat} {generation : UInt64}
    (hmap : Refines.NewMap fs v root blocks) :
    Refines.NewMap (fs.repaired generation) v root blocks where
  __ := hmap
  block := by
    intro i hi
    have hdata := (hmap.used (root + i) (Nat.le_add_right _ _) (Nat.add_lt_add_left hi _)).1
    exact (retabled_data hdata).trans (hmap.block i hi)

/-- Writing the superblock of a new map: it becomes the committed one, or the write
fails and leaves the volume as it was. -/
theorem writeSuperblock (h : Keeps fs v) {root blocks : Nat} {checkpointId : UInt64}
    (hmap : Refines.NewMap fs v root blocks) (hnext : fs.sb.checkpointId < checkpointId) :
    ∃ res dev', EuroFs.writeSuperblock
        (setSb (fun _ => fs.nextSb root blocks checkpointId) fs) =
          (res, { fs with sb := fs.nextSb root blocks checkpointId, dev := dev' }) ∧
      dev'.readFails = fs.dev.readFails ∧
      ((∃ v', Keeps { fs with sb := fs.nextSb root blocks checkpointId, dev := dev' } v' ∧
          v'.Committed) ∨
        (res = .error (.err .ioError) ∧
          Kept { fs with sb := fs.nextSb root blocks checkpointId, dev := dev' })) := by
  have hvalid : (fs.nextSb root blocks checkpointId).IsValid :=
    EuroFsSuperblock.HeaderOk.sealed_isValid h.header
  have hlast : superblockBackupBlock < fs.dev.size := h.core.reserved_lt_size (by decide)
  have hslots : EuroFsSuperblock.SlotsHold fs.dev.calm v.durable :=
    h.core.slots.congr h.core.faultFree fs.dev.calm_faultFree rfl
      (retabled_block (by decide) (by decide)).symm
      (retabled_block (by decide) (by decide)).symm
  have hnewer : v.durable.checkpointId < checkpointId := UInt64.lt_of_le_of_lt h.generation hnext
  obtain ⟨ok, dev', hwrite, hdiff, hcases⟩ := hslots.writeTo_cases hlast hvalid hnewer
  have hres : ∃ res, (res = .ok () ∧ ok = true ∨ res = .error (.err .ioError) ∧ ok = false) ∧
      EuroFs.writeSuperblock (setSb (fun _ => fs.nextSb root blocks checkpointId) fs) =
        (res, { fs with sb := fs.nextSb root blocks checkpointId, dev := dev' }) := by
    rw [EuroFs.writeSuperblock, setSb]
    simp only [hwrite]
    cases ok with
    | true => exact ⟨.ok (), .inl ⟨rfl, rfl⟩, rfl⟩
    | false => exact ⟨.error (.err .ioError), .inr ⟨rfl, rfl⟩, rfl⟩
  obtain ⟨res, hok, hres⟩ := hres
  refine ⟨res, dev', hres, hdiff.reads, ?_⟩
  rcases hcases with hhold | ⟨hfalse, hsame⟩
  · -- the new superblock is the newest on disk, whatever the call reports
    left
    have hsb : v.nextSb root blocks checkpointId = fs.nextSb root blocks checkpointId := by
      rw [Vol.nextSb, h.state_eq]
      rfl
    have hnew : ∀ b, b ≠ superblockBlock → b ≠ superblockBackupBlock →
        (dev'.retabled fs.toFsState).block b = (fs.dev.retabled fs.toFsState).block b := by
      intro b hone htwo
      exact retabled_congr rfl rfl (hdiff.block b (by tauto))
    have hslots' : EuroFsSuperblock.SlotsHold (dev'.retabled fs.toFsState)
        (v.nextSb root blocks checkpointId) := by
      rw [hsb]
      exact hhold.congr dev'.calm_faultFree (dev'.retabled_faultFree _) rfl
        (retabled_block (by decide) (by decide))
        (retabled_block (by decide) (by decide))
    have hcore := h.core.publishAt (newMap_repaired hmap) (dev'.retabled_faultFree _)
      hdiff.size_eq hnew hslots'
    rw [hsb] at hcore
    refine ⟨v.published root blocks checkpointId, ⟨hcore, UInt64.le_refl _, ?_⟩,
      Refines.published_committed (hmap.root_lt h.core.size_eq).1⟩
    exact h.tables.congr (hdiff.block _ (by decide)) (hdiff.block _ (by decide))
  · right
    refine ⟨?_, _, h.frame { fs.toFsState with sb := fs.nextSb root blocks checkpointId }
      (hsame.mono fun _ hno => hno.elim) (.refl _) rfl rfl (UInt64.le_of_lt hnext) h.header⟩
    rcases hok with ⟨-, htrue⟩ | ⟨herr, -⟩
    · rw [hfalse] at htrue
      cases htrue
    · exact herr

end Keeps

namespace Kept

theorem writeObjmap (snaps : List SnapshotEntry) :
    Action.Ensures (fun fs => Kept fs ∧ fs.RebuildReads ∧ fs.snapshots = snaps) EuroFs.writeObjmap
      (fun out fs => ∃ v, Keeps fs v ∧ Refines.NewMap fs v out.1 out.2 ∧ fs.RebuildReads ∧
        fs.snapshots = snaps) Kept := by
  intro fs ⟨⟨v, h⟩, hreads, hsnaps⟩
  have hobjmap : fs.objmap = Vol.objmapOf v.objs := h.core.objmap
  have hpos := Objmap.blocksNeeded_pos fs.objmap
  rw [EuroFs.writeObjmap, get_bind]
  rcases FsState.allocContiguous_cases hpos fs.toFsState with
    herr | ⟨root, used, hok, hlen, hmono, hfit, hnew⟩
  · have halloc : EuroFs.ofState (FsState.allocContiguous fs.objmap.blocksNeeded) fs =
        (.error (.err .noSpace), fs) := by rw [EuroFs.ofState, herr]
    rw [bind_of_error halloc]
    exact ⟨v, h⟩
  have halloc : EuroFs.ofState (FsState.allocContiguous fs.objmap.blocksNeeded) fs =
      (.ok root, { fs with used := used }) := by rw [EuroFs.ofState, hok]
  obtain ⟨res, dev', hwrite, hdiff, hres⟩ := writeBlocks_cases
    ((List.range fs.objmap.blocksNeeded).map fun i => (root + i, chunk fs.objmap.encode i))
    { fs with used := used }
  have hfresh : Device.DiffersIn (fun b => ¬Used fs.used b) fs.dev dev' := by
    refine hdiff.mono ?_
    rintro b ⟨w, hw, rfl⟩
    simp only [List.mem_map, List.mem_range] at hw
    obtain ⟨i, hi, rfl⟩ := hw
    exact (hnew (root + i) (by omega) (by omega)).1
  have hkept := h.frame { fs.toFsState with used := used } hfresh ⟨hlen, hmono⟩ rfl rfl
    (UInt64.le_refl _) h.header
  rw [bind_of_ok halloc, bind_apply, hwrite]
  rcases hres with ⟨rfl, hdev⟩ | rfl
  · refine ⟨_, hkept, ?_, hreads.congr rfl rfl rfl hfresh.reads, hsnaps⟩
    exact
      { blocks_eq := by rw [hobjmap]
        fit := by
          change root + fs.objmap.blocksNeeded ≤ used.length
          rw [hlen]
          exact hfit
        used := fun b hle hlt =>
          ⟨Kept.notReserved ⟨v, h⟩ (hnew b hle hlt).1, (hnew b hle hlt).2⟩
        fresh := by
          -- the first block of a snapshot's map was in use before
          intro snap hsnap heq
          have hmem : snap ∈ v.snapshots := by
            rw [h.state_eq]
            exact hsnap
          have howns := Refines.owns_root (h.core.frozen snap hmem)
          have hold := (h.core.sound.covered _ (.inr (.inr ⟨snap, hmem, howns⟩))).2
          have hroot : snap.objmapRoot.toNat = root := heq
          rw [h.used_eq, hroot] at hold
          exact (hnew root le_rfl (Nat.lt_add_of_pos_right hpos)).1 hold
        block := by
          intro i hi
          change dev'.block (root + i) = chunk (Vol.objmapOf v.objs).encode i
          rw [hdev, ← hobjmap]
          exact storeAll_run _ _ hi }
  · exact ⟨_, hkept⟩

theorem commit (snaps : List SnapshotEntry) :
    Action.Ensures (fun fs => Kept fs ∧ fs.RebuildReads ∧ fs.snapshots = snaps) EuroFs.commit
      (fun _ fs => ∃ v, Keeps fs v ∧ v.Committed ∧ fs.snapshots = snaps) Kept := by
  refine .bind (writeObjmap snaps) fun out => ?_
  obtain ⟨root, blocks⟩ := out
  refine .read_bind (fun fs _ ⟨v, h, _⟩ _ => ⟨v, h⟩) fun checkpointId => ?_
  intro fs ⟨⟨v, h, hmap, hreads, hsnaps⟩, hnext⟩
  obtain ⟨res, dev', hwrite, hsame, hcases⟩ := h.writeSuperblock hmap (Refines.checkedSucc_lt hnext)
  rw [modify_bind, bind_apply, hwrite]
  have hreads' : RebuildReads
      { fs with sb := fs.nextSb root blocks checkpointId, dev := dev' } :=
    hreads.congr rfl rfl rfl hsame
  cases res with
  | ok u =>
    rcases hcases with ⟨v', hv', hcommitted⟩ | ⟨hfail, -⟩
    · obtain ⟨fs', v'', heq, hfinal, hcommitted', hsame'⟩ :=
        hv'.rebuildAllocatorTrim hcommitted hreads'
      simp only [heq]
      exact ⟨v'', hfinal, hcommitted', hsame'.trans hsnaps⟩
    · cases hfail
  | error e =>
    cases e with
    | err e =>
      rcases hcases with ⟨v', hv', -⟩ | ⟨-, hkept⟩
      · exact ⟨v', hv'⟩
      · exact hkept
    | stop reason => trivial

end Kept

end

end EuroOS
