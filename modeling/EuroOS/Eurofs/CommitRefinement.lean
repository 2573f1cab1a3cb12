import EuroOS.Eurofs.RebuildRefinement

/-!
# Commit, snapshots, limits and remounting refine their abstract versions
-/

namespace EuroOS

open Std (ExtTreeMap)

variable [TwoxHash] {v : Vol}

namespace Vol

structure Committed (v : Vol) : Prop where
  root : v.sb.objectMapRoot = v.durable.objectMapRoot
  blocks : v.sb.extentTreeRoot = v.durable.extentTreeRoot
  table : v.mapAt v.durable.objectMapRoot = v.objs

omit [TwoxHash] in
theorem Committed.used_reachable (h : v.Committed) (hlt : b < v.used.length) (hb : v.Protects b) :
    Used v.reachable b := by
  rw [Vol.used_reachable]
  refine ⟨hlt, ?_⟩
  rcases hb with hlive | hdurable | hfrozen
  · exact .inr (.inr (.inl hlive))
  · rcases hdurable with hmap | htable
    · rw [← h.root, ← h.blocks] at hmap
      exact .inr (.inl hmap)
    · rw [h.table] at htable
      exact .inr (.inr (.inl htable))
  · exact .inr (.inr (.inr hfrozen))

omit [TwoxHash] in
theorem Committed.rebuilt_sound (h : v.Committed) (hsound : v.Sound) : v.rebuilt.Sound where
  __ := hsound
  reserved := fun b hb =>
    Vol.used_reachable.mpr ⟨(hsound.reserved b hb).lt, .inl hb⟩
  covered := by
    intro b hb
    have hold : v.Protects b := hb
    obtain ⟨hle, hused⟩ := hsound.covered b hold
    exact ⟨hle, h.used_reachable hused.lt hold⟩

def published (v : Vol) (root blocks : Nat) (checkpointId : UInt64) : Vol :=
  { v with
    sb := v.nextSb root blocks checkpointId
    durable := v.nextSb root blocks checkpointId
    maps := v.maps.insert root v.objs }

end Vol

namespace Refines

theorem rebuilt (h : Refines fs v) (hcommitted : v.Committed)
    {hints : BTreeMap Oid (List (Nat × Nat))} (hhints : HintsHold hints v.objs) :
    Refines { fs with toFsState := v.rebuilt.toFsState, extentsCache := hints } v.rebuilt where
  __ := h
  sound := hcommitted.rebuilt_sound h.sound
  state := rfl
  size_eq := v.length_reachable.trans h.size_eq
  hints := hhints

theorem rebuildAllocatorTrim (h : Refines fs v) (hcommitted : v.Committed) :
    ∃ fs' blocks, EuroFs.rebuildAllocatorTrim true fs = (.ok (), fs') ∧
      Refines fs' v.trimmed ∧ fs'.dev = fs.dev.discardAll blocks ∧
      ∀ b ∈ blocks, ¬Used v.reachable b := by
  obtain ⟨hints, hhints, heq⟩ := EuroFs.rebuildAllocatorTrim_bind h.readable.rebuildable true
  have hrebuilt := h.rebuilt hcommitted hhints
  have hfree : ∀ b ∈ v.pendingTrim.filter (fun b =>
      b < v.reachable.length && !v.reachable.getD b false), ¬Used v.reachable b := by
    intro b hb hused
    rw [List.mem_filter] at hb
    unfold Used at hused
    simp [List.getD_eq_getElem?_getD, hused] at hb
  refine ⟨_, v.pendingTrim.filter fun b => b < v.reachable.length && !v.reachable.getD b false,
    heq.trans rfl, ?_, rfl, hfree⟩
  have hdev := hrebuilt.withDev (h.faultFree.discardAll _) (Device.discardAll_size _)
    fun b hb => Device.discardAll_block_of_notMem fun hmem => hfree b hmem hb
  exact hdev.withState v.trimmed.toFsState rfl rfl (fun b hb => hb) rfl rfl

/-! ## Publishing a new object map -/

omit [TwoxHash] in
theorem checkedSucc_lt (h : checkedSucc n = .ok next) : n < next := by
  rw [checkedSucc] at h
  split at h
  · rename_i hlt
    rw [Except.ok.injEq] at h
    rw [← h, UInt64.lt_iff_toNat_lt, UInt64.toNat_add]
    have hone : (1 : UInt64).toNat = 1 := rfl
    rw [hone, Nat.mod_eq_of_lt hlt]
    omega
  · cases h

theorem owns_root {table : Table} (h : MapStored dev root blocks table) :
    MapOwns root blocks table root := by
  have hpos : 0 < blocks := h.blocks_eq ▸ Objmap.blocksNeeded_pos _
  exact .inl ⟨le_rfl, by omega⟩

theorem published_mapAt (hne : r.toNat ≠ root) :
    (v.published root blocks checkpointId).mapAt r = v.mapAt r := by
  rw [Vol.mapAt, Vol.mapAt, Vol.published]
  simp only [ExtTreeMap.getElem?_insert]
  rw [if_neg]
  intro heq
  exact hne (Std.LawfulEqCmp.eq_of_compare heq).symm

theorem published_mapAt_self (hroot : root < 2 ^ 64) :
    (v.published root blocks checkpointId).mapAt (UInt64.ofNat root) = v.objs := by
  rw [Vol.mapAt, Vol.published]
  simp only [UInt64.toNat_ofNat_of_lt' hroot, ExtTreeMap.getElem?_insert_self, Option.getD_some]

theorem published_committed (hroot : root < 2 ^ 64) :
    (v.published root blocks checkpointId).Committed :=
  ⟨rfl, rfl, published_mapAt_self hroot⟩

/-- What a new object map at `root` must satisfy before it is made current. -/
structure NewMap (fs : EuroFs) (v : Vol) (root blocks : Nat) : Prop where
  blocks_eq : blocks = (Vol.objmapOf v.objs).blocksNeeded
  fit : root + blocks ≤ v.used.length
  used : ∀ b, root ≤ b → b < root + blocks → reservedBlocks ≤ b ∧ Used v.used b
  fresh : ∀ snap ∈ v.snapshots, snap.objmapRoot.toNat ≠ root
  block : ∀ i < blocks, fs.dev.block (root + i) = chunk (Vol.objmapOf v.objs).encode i

omit [TwoxHash] in
theorem NewMap.root_lt (h : NewMap fs v root blocks) (hsize : v.used.length = fs.dev.size) :
    root < 2 ^ 64 ∧ blocks < 2 ^ 64 := by
  have hdev := fs.dev.lt_of_size
  have hfit := h.fit
  omega

theorem NewMap.published_protects (h : NewMap fs v root blocks)
    (hlt : root < 2 ^ 64 ∧ blocks < 2 ^ 64)
    (hb : (v.published root blocks checkpointId).Protects b) :
    v.Protects b ∨ (root ≤ b ∧ b < root + blocks) := by
  rcases hb with hlive | hdurable | ⟨snap, hsnap, hfrozen⟩
  · exact .inl (.inl hlive)
  · rcases hdurable with hmap | htable
    · change (UInt64.ofNat root).toNat ≤ b ∧
        b < (UInt64.ofNat root).toNat + (UInt64.ofNat blocks).toNat at hmap
      rw [UInt64.toNat_ofNat_of_lt' hlt.1, UInt64.toNat_ofNat_of_lt' hlt.2] at hmap
      exact .inr hmap
    · have htable' : TableOwns ((v.published root blocks checkpointId).mapAt
          (UInt64.ofNat root)) b := htable
      rw [published_mapAt_self hlt.1] at htable'
      exact .inl (.inl htable')
  · rw [Vol.snapshotOwns, published_mapAt (h.fresh snap hsnap)] at hfrozen
    exact .inl (.inr (.inr ⟨snap, hsnap, hfrozen⟩))

theorem publishAt (h : Refines fs v) (hmap : NewMap fs v root blocks) (hfree : dev'.FaultFree)
    (hsize : dev'.size = fs.dev.size)
    (hsame : ∀ b, b ≠ superblockBlock → b ≠ superblockBackupBlock → dev'.block b = fs.dev.block b)
    (hhold : EuroFsSuperblock.SlotsHold dev' (v.nextSb root blocks checkpointId)) :
    Refines { fs with sb := v.nextSb root blocks checkpointId, dev := dev' }
      (v.published root blocks checkpointId) := by
  have hlt := hmap.root_lt h.size_eq
  have hdata : ∀ b, reservedBlocks ≤ b → dev'.block b = fs.dev.block b := by
    intro b hb
    have hslots : superblockBlock < reservedBlocks ∧ superblockBackupBlock < reservedBlocks := by
      decide
    exact hsame b (by omega) (by omega)
  have hprotects : ∀ b, v.Protects b → reservedBlocks ≤ b := fun b hb => (h.sound.covered b hb).1
  exact
    { h with
      sound :=
        { h.sound with
          covered := by
            intro b hb
            rcases hmap.published_protects hlt hb with hold | hnew
            · exact h.sound.covered b hold
            · exact hmap.used b hnew.1 hnew.2
          generation := rfl
          header := ⟨h.sound.header.1, h.sound.header.1⟩ }
      state := by rw [Vol.published, h.state]
      faultFree := hfree
      size_eq := h.size_eq.trans hsize.symm
      objs := fun oid obj hobj => (h.objs oid obj hobj).congr fun b hb =>
        hdata b (hprotects b (.inl ⟨oid, obj, hobj, hb⟩))
      durableMap := by
        change MapStored _ (UInt64.ofNat root).toNat (UInt64.ofNat blocks).toNat
          ((v.published root blocks checkpointId).mapAt (UInt64.ofNat root))
        rw [published_mapAt_self hlt.1, UInt64.toNat_ofNat_of_lt' hlt.1,
          UInt64.toNat_ofNat_of_lt' hlt.2]
        refine MapStored.congr ⟨hmap.blocks_eq, hmap.block, h.objs⟩ ?_
        rintro b (hb | hb)
        · exact hdata b (hmap.used b hb.1 hb.2).1
        · exact hdata b (hprotects b (.inl hb))
      frozen := by
        intro snap hsnap
        rw [published_mapAt (hmap.fresh snap hsnap)]
        exact (h.frozen snap hsnap).congr fun b hb =>
          hdata b (hprotects b (.inr (.inr ⟨snap, hsnap, hb⟩)))
      slots := hhold
      snapTable := by
        rw [hsame _ (by decide) (by decide)]
        exact h.snapTable
      quotaTable := by
        rw [hsame _ (by decide) (by decide)]
        exact h.quotaTable }

end Refines

end EuroOS
