import EuroOS.Eurofs.Stored

/-!
# The block-level volume refines the abstract one

`Refines` relates a mounted volume to the abstract volume that the blocks of its
device hold.  The allocator's bitmap covers every block of the live objects, of
the committed object map and of every snapshot, so copy-on-write never touches
one of them.
-/

namespace EuroOS

open Std (ExtTreeMap)

def SnapshotEntry.unlabeled (entry : SnapshotEntry) : SnapshotEntry := { entry with label := [] }

namespace Vol

def snapshotOwns (v : Vol) (snap : SnapshotEntry) (b : Nat) : Prop :=
  MapOwns snap.objmapRoot.toNat snap.mapBlocks.toNat (v.mapAt snap.objmapRoot) b

def durableOwns (v : Vol) (b : Nat) : Prop :=
  MapOwns v.durable.objectMapRoot.toNat v.durable.extentTreeRoot.toNat
    (v.mapAt v.durable.objectMapRoot) b

/-- The block belongs to a live object, to the committed state or to a snapshot. -/
def Protects (v : Vol) (b : Nat) : Prop :=
  TableOwns v.objs b ∨ v.durableOwns b ∨ ∃ snap ∈ v.snapshots, v.snapshotOwns snap b

structure Sound (v : Vol) : Prop where
  reserved : ∀ b < reservedBlocks, Used v.used b
  covered : ∀ b, v.Protects b → reservedBlocks ≤ b ∧ Used v.used b
  snapCount : v.snapshots.length ≤ maxSnapshots
  limits : QuotaEncodable v.quotaLimits
  saved : v.savedSnapshots.map SnapshotEntry.unlabeled =
    v.snapshots.map SnapshotEntry.unlabeled
  generation : v.sb.checkpointId = v.durable.checkpointId
  header : v.sb.HeaderOk ∧ v.durable.HeaderOk

end Vol

structure Refines [TwoxHash] (fs : EuroFs) (v : Vol) : Prop where
  sound : v.Sound
  state : fs.toFsState = v.toFsState
  faultFree : fs.dev.FaultFree
  size_eq : v.used.length = fs.dev.size
  objmap : fs.objmap = Vol.objmapOf v.objs
  objs : ∀ oid obj, v.objs[oid]? = some obj → Stored fs.dev oid obj
  durableMap : MapStored fs.dev v.durable.objectMapRoot.toNat v.durable.extentTreeRoot.toNat
    (v.mapAt v.durable.objectMapRoot)
  frozen : ∀ snap ∈ v.snapshots, MapStored fs.dev snap.objmapRoot.toNat snap.mapBlocks.toNat
    (v.mapAt snap.objmapRoot)
  hints : ∀ (oid : Oid) extents obj, fs.extentsCache[oid]? = some extents →
    v.objs[oid]? = some obj → obj.ino.extents = extents
  slots : EuroFsSuperblock.SlotsHold fs.dev v.durable
  snapTable : (decodeSnapshots (fs.dev.block snapshotTableBlock).bytes).getD [] =
    v.savedSnapshots
  quotaTable : (decodeQuota (fs.dev.block quotaTableBlock).bytes).getD ∅ = v.quotaLimits

namespace Refines

variable [TwoxHash] {fs : EuroFs} {v : Vol}

variable (h : Refines fs v)
include h

theorem lt_size_of_protects (hb : v.Protects b) : b < fs.dev.size := by
  rw [← h.size_eq]
  exact (h.sound.covered b hb).2.lt

theorem reserved_lt_size (hb : b < reservedBlocks) : b < fs.dev.size := by
  rw [← h.size_eq]
  exact (h.sound.reserved b hb).lt

/-! ## Frames -/

theorem withDev (hfree : dev'.FaultFree) (hsize : dev'.size = fs.dev.size)
    (hsame : ∀ b, Used v.used b → dev'.block b = fs.dev.block b) :
    Refines { fs with dev := dev' } v where
  __ := h
  faultFree := hfree
  size_eq := h.size_eq.trans hsize.symm
  objs := fun oid obj hobj => (h.objs oid obj hobj).congr fun b hb =>
    hsame b (h.sound.covered b (.inl ⟨oid, obj, hobj, hb⟩)).2
  durableMap := h.durableMap.congr fun b hb => hsame b (h.sound.covered b (.inr (.inl hb))).2
  frozen := fun snap hsnap => (h.frozen snap hsnap).congr fun b hb =>
    hsame b (h.sound.covered b (.inr (.inr ⟨snap, hsnap, hb⟩))).2
  slots := h.slots.congr h.faultFree hfree hsize
    (hsame _ (h.sound.reserved _ (by norm_num))) (hsame _ (h.sound.reserved _ (by norm_num)))
  snapTable := by
    change (decodeSnapshots (dev'.block snapshotTableBlock).bytes).getD [] = _
    rw [hsame _ (h.sound.reserved _ (by norm_num)), h.snapTable]
  quotaTable := by
    change (decodeQuota (dev'.block quotaTableBlock).bytes).getD ∅ = _
    rw [hsame _ (h.sound.reserved _ (by norm_num)), h.quotaTable]

theorem withFields (s : FsState) (hgen : s.sb.checkpointId = v.sb.checkpointId)
    (hheader : s.sb.HeaderOk) (hlen : s.used.length = v.used.length)
    (hused : ∀ b, Used v.used b → Used s.used b) (hsnaps : s.snapshots = v.snapshots)
    (hlimits : s.quotaLimits = v.quotaLimits) :
    Refines { fs with toFsState := s } { v with toFsState := s } where
  __ := h
  sound :=
    { reserved := fun b hb => hused b (h.sound.reserved b hb)
      covered := by
        intro b hb
        have hold : v.Protects b := by
          simpa only [Vol.Protects, Vol.snapshotOwns, Vol.durableOwns, Vol.mapAt, hsnaps] using hb
        exact ⟨(h.sound.covered b hold).1, hused b (h.sound.covered b hold).2⟩
      snapCount := by simpa only [hsnaps] using h.sound.snapCount
      limits := by simpa only [hlimits] using h.sound.limits
      saved := by simpa only [hsnaps] using h.sound.saved
      generation := hgen.trans h.sound.generation
      header := ⟨hheader, h.sound.header.2⟩ }
  state := rfl
  size_eq := hlen.trans h.size_eq
  frozen := by
    intro snap hsnap
    exact h.frozen snap (by simpa only [hsnaps] using hsnap)
  quotaTable := by simpa only [hlimits] using h.quotaTable

theorem withState (s : FsState) (hsb : s.sb = v.sb)
    (hlen : s.used.length = v.used.length) (hused : ∀ b, Used v.used b → Used s.used b)
    (hsnaps : s.snapshots = v.snapshots) (hlimits : s.quotaLimits = v.quotaLimits) :
    Refines { fs with toFsState := s } { v with toFsState := s } :=
  h.withFields s (by rw [hsb]) (hsb ▸ h.sound.header.1) hlen hused hsnaps hlimits

theorem insertObj (hstored : Stored fs.dev oid obj)
    (hcover : ∀ b, obj.Owns b → reservedBlocks ≤ b ∧ Used v.used b) :
    Refines
      { fs with
        objmap := fs.objmap.insert oid obj.blk
        extentsCache := fs.extentsCache.insert oid obj.ino.extents }
      { v with objs := v.objs.insert oid obj } where
  __ := h
  sound :=
    { h.sound with
      covered := by
        rintro b (⟨oid', obj', hobj', hb⟩ | hb)
        · rw [ExtTreeMap.getElem?_insert] at hobj'
          split at hobj'
          · rw [Option.some.injEq] at hobj'
            exact hcover b (hobj' ▸ hb)
          · exact h.sound.covered b (.inl ⟨oid', obj', hobj', hb⟩)
        · exact h.sound.covered b (.inr hb) }
  objmap := by
    refine ExtTreeMap.ext_getElem? fun k => ?_
    simp only [h.objmap, Vol.objmapOf, ExtTreeMap.getElem?_insert, ExtTreeMap.getElem?_map]
    split <;> rfl
  objs := by
    intro oid' obj' hobj'
    rw [ExtTreeMap.getElem?_insert] at hobj'
    split at hobj'
    · rename_i heq
      rw [Option.some.injEq] at hobj'
      rw [← hobj', ← Std.LawfulEqCmp.eq_of_compare heq]
      exact hstored
    · exact h.objs oid' obj' hobj'
  hints := by
    intro oid' extents obj' hcache hobj'
    simp only [ExtTreeMap.getElem?_insert] at hcache hobj'
    split at hcache
    · rename_i heq
      rw [if_pos heq, Option.some.injEq] at hobj'
      rw [← hobj']
      exact Option.some.inj hcache
    · rename_i hne
      rw [if_neg hne] at hobj'
      exact h.hints oid' extents obj' hcache hobj'

theorem forgetObject (oid : Oid) : Refines (fs.forgetObject oid) (v.forgetObject oid) := by
  have hsub : ∀ (oid' : Oid) (obj : Obj), (v.objs.erase oid)[oid']? = some obj →
      v.objs[oid']? = some obj := by
    intro oid' obj hobj
    rw [ExtTreeMap.getElem?_erase] at hobj
    split at hobj
    · simp at hobj
    · exact hobj
  exact
    { h with
      sound :=
        { h.sound with
          covered := by
            rintro b (⟨oid', obj, hobj, hb⟩ | hb)
            · exact h.sound.covered b (.inl ⟨oid', obj, hsub _ _ hobj, hb⟩)
            · exact h.sound.covered b (.inr hb) }
      objmap := by
        refine ExtTreeMap.ext_getElem? fun k => ?_
        simp only [EuroFs.forgetObject, Vol.forgetObject, h.objmap, Vol.objmapOf,
          ExtTreeMap.getElem?_erase, ExtTreeMap.getElem?_map]
        split <;> rfl
      objs := fun oid' obj hobj => h.objs oid' obj (hsub _ _ hobj)
      hints := by
        intro oid' extents obj hcache hobj
        change (fs.extentsCache.erase oid)[oid']? = some extents at hcache
        rw [ExtTreeMap.getElem?_erase] at hcache
        split at hcache
        · simp at hcache
        · exact h.hints oid' extents obj hcache (hsub _ _ hobj) }

end Refines

def FreshWrites (used : List Bool) (writes : List (Nat × Block)) : Prop :=
  ∀ w ∈ writes, w.1 < used.length ∧ ¬Used used w.1

theorem EuroFs.writeBlocks_eq (hfree : fs.dev.FaultFree) (hfit : ∀ w ∈ writes, w.1 < fs.dev.size) :
    EuroFs.writeBlocks writes fs = (.ok (), { fs with dev := fs.dev.storeAll writes }) := by
  induction writes generalizing fs with
  | nil => rfl
  | cons w writes ih =>
    have hone : EuroFs.writeBlock w.1 w.2 fs = (.ok (), { fs with dev := fs.dev.store w.1 w.2 }) := by
      rw [EuroFs.writeBlock, hfree.writeBlock (hfit w (by simp))]
    rw [EuroFs.writeBlocks, Action.bind_of_ok hone]
    exact ih hfree.store fun w' hw' => hfit w' (by simp [hw'])

def contentWrites (data : Bytes) (extents : List (Nat × Nat)) : List (Nat × Block) :=
  extents.flatMap fun extent => (List.range extent.2).map fun i => (extent.1 + i, chunk data i)

namespace Refines

variable [TwoxHash] {fs : EuroFs} {v : Vol}

theorem withContent_encodable (inode : Inode)
    (hcase : (data.length ≤ inlineCap ∧ extents = []) ∨ ∃ start, extents =
      [(start, blocksFor data.length)] ∧ start < 2 ^ 64 ∧ blocksFor data.length < 2 ^ 32 ∧
      inlineCap < data.length) :
    (EuroFs.withContent inode data extents).Encodable := by
  rcases hcase with ⟨hinline, rfl⟩ | ⟨start, rfl, hstart, hcount, hlen⟩
  · refine ⟨by simp [EuroFs.withContent], by simp [EuroFs.withContent], ?_, ?_⟩
    · simp [EuroFs.withContent, hinline]
    · exact hinline.trans_lt (by norm_num)
  refine ⟨by simp [EuroFs.withContent], ?_, ?_, ?_⟩
  · intro e he
    rw [List.mem_singleton.mp he]
    exact ⟨hstart, hcount⟩
  · simp [EuroFs.withContent, Nat.not_le.mpr hlen]
  · have hcover := length_le_blocksFor _ hlen
    have hbytes : blocksFor data.length * bs ≤ 2 ^ 32 * bs :=
      Nat.mul_le_mul_right _ hcount.le
    exact (hcover.trans hbytes).trans_lt (by norm_num)

omit [TwoxHash] in
theorem contentWrites_fresh
    (h : ∀ e ∈ extents, e.1 + e.2 ≤ used.length ∧ ∀ b, e.1 ≤ b → b < e.1 + e.2 → ¬Used used b) :
    FreshWrites used (contentWrites data extents) := by
  intro w hw
  simp only [contentWrites, List.mem_flatMap, List.mem_map, List.mem_range] at hw
  obtain ⟨e, he, i, hi, rfl⟩ := hw
  obtain ⟨hfit, hnot⟩ := h e he
  exact ⟨by omega, hnot _ (by omega) (by omega)⟩

end Refines

end EuroOS
