import EuroOS.Eurofs.Format

/-!
# Mounting a freshly formatted device

`format` goes through the same slot selection as every commit and leaves the
snapshot and quota tables alone.  Whether the next mount finds the new, empty
volume therefore depends on what the device held before.
-/

namespace EuroOS

open EuroFsSuperblock Action
open Std (ExtTreeMap)

variable [TwoxHash] {dev : Device} {fs fs' : EuroFs}

namespace EuroFs

/-! ## What the stages of a mount leave alone -/

/-- Only the bitmap, the free counter and the extents hint may differ. -/
structure SameVolume (fs fs' : EuroFs) : Prop where
  dev : fs'.dev = fs.dev
  objmap : fs'.objmap = fs.objmap
  snapshots : fs'.snapshots = fs.snapshots
  quotaLimits : fs'.quotaLimits = fs.quotaLimits
  uuid : fs'.sb.uuid = fs.sb.uuid

omit [TwoxHash] in
theorem SameVolume.refl (fs : EuroFs) : SameVolume fs fs := ⟨rfl, rfl, rfl, rfl, rfl⟩

omit [TwoxHash] in
theorem SameVolume.trans (h : SameVolume fs fs') (h' : SameVolume fs' fs'') :
    SameVolume fs fs'' where
  dev := h'.dev.trans h.dev
  objmap := h'.objmap.trans h.objmap
  snapshots := h'.snapshots.trans h.snapshots
  quotaLimits := h'.quotaLimits.trans h.quotaLimits
  uuid := h'.uuid.trans h.uuid

theorem extentsOf_same (oid : Oid) (blk : Nat) (fs : EuroFs) :
    SameVolume fs (extentsOf oid blk fs).2 := by
  rw [extentsOf]
  split
  · exact .refl fs
  split
  · exact .refl fs
  · exact ⟨rfl, rfl, rfl, rfl, rfl⟩

omit [TwoxHash] in
theorem SameVolume.bind {α β : Type} {x : Disk α} {f : α → Disk β}
    (hx : ∀ fs, SameVolume fs (x fs).2) (hf : ∀ a fs, SameVolume fs (f a fs).2) (fs : EuroFs) :
    SameVolume fs ((x >>= f) fs).2 :=
  bind_keeps (P := SameVolume) (fun _ _ _ => SameVolume.trans) hx hf fs

omit [TwoxHash] in
theorem setUsed_same (used : EuroFs → List Bool) (fs : EuroFs) :
    SameVolume fs (modify (fun fs => setUsed (used fs) fs) fs).2 :=
  ⟨rfl, rfl, rfl, rfl, rfl⟩

theorem markObjects_same (entries : List (Oid × Nat)) (fs : EuroFs) :
    SameVolume fs (markObjects entries fs).2 := by
  induction entries generalizing fs with
  | nil => exact .refl fs
  | cons entry entries ih =>
    apply SameVolume.bind
    · exact setUsed_same _
    · intro _
      apply SameVolume.bind
      · exact extentsOf_same _ _
      · intro extents
        exact SameVolume.bind (setUsed_same _) fun _ => ih

theorem markStateBlocks_same (root blocks : Nat) (fs : EuroFs) :
    SameVolume fs (markStateBlocks root blocks fs).2 := by
  apply SameVolume.bind
  · exact setUsed_same _
  · intro _
    apply SameVolume.bind
    · exact fun fs => .refl fs
    · intro start fs
      cases start.readRun root blocks with
      | error e => exact .refl fs
      | ok data =>
        simp only
        by_cases hshort : data.length < 8
        · rw [if_pos hshort]
          exact .refl fs
        · rw [if_neg hshort]
          exact SameVolume.bind (fun fs => .refl fs) (fun used => setUsed_same fun _ => used) fs

theorem markSnapshots_same (snaps : List SnapshotEntry) (fs : EuroFs) :
    SameVolume fs (markSnapshots snaps fs).2 := by
  induction snaps generalizing fs with
  | nil => exact .refl fs
  | cons snap snaps ih => exact SameVolume.bind (markStateBlocks_same _ _) (fun _ => ih) fs

theorem rebuildAllocator_same (fs : EuroFs) : SameVolume fs (rebuildAllocator fs).2 := by
  rw [rebuildAllocator, rebuildAllocatorTrim, get_bind]
  apply SameVolume.bind (setUsed_same _)
  intro _
  apply SameVolume.bind (setUsed_same _)
  intro _
  apply SameVolume.bind (markObjects_same _)
  intro _
  apply SameVolume.bind (markSnapshots_same _)
  intro _
  apply SameVolume.bind (fun fs => ⟨rfl, rfl, rfl, rfl, rfl⟩)
  intro _ fs
  exact .refl fs

/-! ## When the rebuild of a volume without snapshots succeeds -/

theorem markObjects_ok_iff (hnodup : (entries.map Prod.fst).Nodup) (fs : EuroFs)
    (hcache : ∀ entry ∈ entries, fs.extentsCache[entry.1]? = none) :
    (markObjects entries fs).1 = .ok () ↔
      ∀ entry ∈ entries, ∃ inode, fs.readInodeAt entry.2 = .ok inode := by
  induction entries generalizing fs with
  | nil => simp [markObjects]
  | cons entry entries ih =>
    have hnone : fs.extentsCache[entry.1]? = none := hcache entry (by simp)
    rw [List.map_cons, List.nodup_cons] at hnodup
    rw [markObjects, modify_bind]
    cases hread : fs.readInodeAt entry.2 with
    | error e =>
      have hfail : extentsOf entry.1 entry.2 (setUsed (fs.used.set entry.2 true) fs) =
          (.error e, setUsed (fs.used.set entry.2 true) fs) := by
        rw [extentsOf]
        have hsame : (setUsed (fs.used.set entry.2 true) fs).extentsCache[entry.1]? = none :=
          hnone
        have hread' : (setUsed (fs.used.set entry.2 true) fs).readInodeAt entry.2 =
            .error e := hread
        rw [hsame]
        simp only [hread']
      rw [bind_of_error hfail]
      simp [hread]
    | ok inode =>
      have hput : extentsOf entry.1 entry.2 (setUsed (fs.used.set entry.2 true) fs) =
          (.ok inode.extents, { setUsed (fs.used.set entry.2 true) fs with
            extentsCache := fs.extentsCache.insert entry.1 inode.extents }) := by
        rw [extentsOf]
        have hsame : (setUsed (fs.used.set entry.2 true) fs).extentsCache[entry.1]? = none :=
          hnone
        have hread' : (setUsed (fs.used.set entry.2 true) fs).readInodeAt entry.2 =
            .ok inode := hread
        rw [hsame]
        simp only [hread']
        rfl
      rw [bind_of_ok hput, modify_bind, ih hnodup.2]
      · constructor
        · intro hrest e he
          rcases List.mem_cons.mp he with rfl | he
          · exact ⟨inode, hread⟩
          · exact hrest e he
        · intro hall e he
          exact hall e (by simp [he])
      · intro e he
        have hne : ¬compare entry.1 e.1 = .eq := by
          intro heq
          have hkey := Std.LawfulEqCmp.eq_of_compare heq
          exact hnodup.1 (hkey ▸ List.mem_map_of_mem he)
        have hold := hcache e (by simp [he])
        change (fs.extentsCache.insert entry.1 inode.extents)[e.1]? = none
        rw [ExtTreeMap.getElem?_insert, if_neg hne, hold]

omit [TwoxHash] in
theorem setUsed_extentsCache (used : List Bool) (fs : EuroFs) :
    (setUsed used fs).extentsCache = fs.extentsCache := rfl

theorem setUsed_readInodeAt (used : List Bool) (fs : EuroFs) :
    (setUsed used fs).readInodeAt = fs.readInodeAt := rfl

theorem rebuildAllocator_ok_iff (hsnaps : fs.snapshots = []) (hcache : fs.extentsCache = ∅) :
    (rebuildAllocator fs).1 = .ok () ↔
      ∀ entry ∈ fs.objmap.toList, ∃ inode, fs.readInodeAt entry.2 = .ok inode := by
  rw [rebuildAllocator, rebuildAllocatorTrim, get_bind]
  generalize markRange (List.replicate fs.used.length false) 0 reservedBlocks = base
  rw [modify_bind, modify_bind, hsnaps]
  generalize markRange (setUsed base fs).used _ _ = base'
  have hcache' : (setUsed base' (setUsed base fs)).extentsCache = ∅ := by
    rw [setUsed_extentsCache, setUsed_extentsCache, hcache]
  have hread : (setUsed base' (setUsed base fs)).readInodeAt = fs.readInodeAt := by
    rw [setUsed_readInodeAt, setUsed_readInodeAt]
  generalize setUsed base' (setUsed base fs) = fs₂ at *
  have hnodup : (fs.objmap.toList.map Prod.fst).Nodup := by
    rw [ExtTreeMap.map_fst_toList_eq_keys]
    exact ExtTreeMap.nodup_keys
  have hiff := markObjects_ok_iff hnodup fs₂ fun entry _ => by rw [hcache']; simp
  rw [hread] at hiff
  rw [← hiff]
  cases hmark : markObjects fs.objmap.toList fs₂ with
  | mk result fs₃ =>
    cases result with
    | error e => rw [bind_of_error hmark]
    | ok u =>
      rw [bind_of_ok hmark]
      constructor
      · exact fun _ => rfl
      · exact fun _ => rfl

theorem countUsage_ok (hread : ∀ oid ∈ keys, ∀ reason, fs.readInode oid ≠ .error (.stop reason))
    (s : FsState) : ∃ usage, fs.countUsage keys s = .ok { s with usage := usage } := by
  induction keys generalizing s with
  | nil => exact ⟨s.usage, rfl⟩
  | cons oid keys ih =>
    have hrest : ∀ o ∈ keys, ∀ reason, fs.readInode o ≠ .error (.stop reason) :=
      fun o ho => hread o (by simp [ho])
    rw [countUsage]
    cases hinode : fs.readInode oid with
    | error e =>
      cases e with
      | err e => exact ih hrest s
      | stop reason => exact absurd hinode (hread oid (by simp) reason)
    | ok inode =>
      obtain ⟨usage, hadd⟩ := s.usageAdd_eq inode.uid (dataBlocksOf inode)
      obtain ⟨usage', heq⟩ := ih hrest { s with usage := usage }
      simp only [hadd]
      exact ⟨usage', heq⟩

theorem countUsage_frame (h : fs.countUsage keys s = .ok s') :
    ∃ usage, s' = { s with usage := usage } := by
  induction keys generalizing s with
  | nil =>
    rw [countUsage, Except.ok.injEq] at h
    exact ⟨s.usage, h.symm⟩
  | cons oid keys ih =>
    rw [countUsage] at h
    cases hinode : fs.readInode oid with
    | error e =>
      rw [hinode] at h
      cases e with
      | err e => exact ih h
      | stop reason => simp at h
    | ok inode =>
      rw [hinode] at h
      obtain ⟨usage, hadd⟩ := s.usageAdd_eq inode.uid (dataBlocksOf inode)
      simp only [hadd] at h
      obtain ⟨usage', rfl⟩ := ih h
      exact ⟨usage', rfl⟩

/-! ## Mounting a volume without snapshots -/

/-- The superblock's object map can be read with all its inodes, and the root it
lists is an empty directory. -/
def EmptyVolume (dev : Device) (sb : EuroFsSuperblock) : Prop :=
  ∃ data, (blank dev sb 0).readRun sb.objectMapRoot.toNat (max sb.extentTreeRoot.toNat 1) =
      .ok data ∧
    (∀ entry ∈ (Objmap.decode data).toList,
      ∃ inode, (blank dev sb 0).readInodeAt entry.2 = .ok inode) ∧
    (∃ next, successorOid (Objmap.decode data) = .ok next) ∧
    { blank dev sb 0 with objmap := Objmap.decode data }.reader.readDirEntries rootOid = .ok []

def MountsEmpty (dev : Device) (now : UInt64) (uuid : Buf 16) : Prop :=
  ∃ fs, mount dev now = .ok fs ∧ fs.sb.uuid = uuid ∧ fs.reader.readDirEntries rootOid = .ok [] ∧
    fs.snapshots = [] ∧ fs.quotaLimits = ∅

omit [TwoxHash] in
theorem readBlock_congr (hdev : fs'.dev = fs.dev) : fs'.readBlock = fs.readBlock := by
  funext blk
  rw [readBlock, readBlock, hdev]

theorem readInodeAt_congr (hdev : fs'.dev = fs.dev) : fs'.readInodeAt = fs.readInodeAt := by
  funext blk
  rw [readInodeAt, readInodeAt, readBlock_congr hdev]

theorem reader_congr (hdev : fs'.dev = fs.dev) (hmap : fs'.objmap = fs.objmap) :
    fs'.reader = fs.reader := by
  have hextents : ∀ extents, fs'.readExtents extents = fs.readExtents extents := by
    intro extents
    induction extents with
    | nil => rfl
    | cons extent extents ih => rw [readExtents, readExtents, readRun_congr hdev, ih]
  have hinode : fs'.readInode = fs.readInode := by
    funext oid
    simp only [readInode, readInodeAt, hmap, readBlock_congr hdev]
  have hdata : fs'.readData = fs.readData := by
    funext inode
    simp only [readData, hextents]
  rw [reader, reader, hinode, hdata, hmap]

omit [TwoxHash] in
theorem loadObjmap_inv (h : loadObjmap fs = (.ok u, fs')) :
    ∃ data, fs.readRun fs.sb.objectMapRoot.toNat (max fs.sb.extentTreeRoot.toNat 1) = .ok data ∧
      fs' = { fs with objmap := Objmap.decode data } := by
  obtain ⟨data, middle, hread, hset⟩ := bind_eq_ok h
  rw [read_apply, Prod.mk.injEq] at hread
  obtain ⟨hread, rfl⟩ := hread
  exact ⟨data, hread, (Prod.mk.inj hset).2.symm⟩

theorem rebuildUsage_inv (h : rebuildUsage fs = (.ok u, fs')) :
    ∃ usage, fs' = { fs with usage := usage } := by
  obtain ⟨s, middle, hread, hset⟩ := bind_eq_ok h
  rw [read_apply, Prod.mk.injEq] at hread
  obtain ⟨hread, rfl⟩ := hread
  obtain ⟨usage, rfl⟩ := countUsage_frame hread
  exact ⟨usage, (Prod.mk.inj hset).2.symm⟩

omit [TwoxHash] in
theorem loadSnapshots_inv (hfree : fs.dev.FaultFree) (hsize : snapshotTableBlock < fs.dev.size)
    (hblank : fs.snapshots = [] ∧ fs.nextSnapId = 1) (h : loadSnapshots fs = (.ok u, fs')) :
    ∃ next, fs' = { fs with
      snapshots := (decodeSnapshots (fs.dev.block snapshotTableBlock).bytes).getD []
      nextSnapId := next } := by
  generalize hsnaps : (decodeSnapshots (fs.dev.block snapshotTableBlock).bytes).getD [] = snaps
  cases hnext : checkedSucc ((snaps.map SnapshotEntry.id).foldl max 0) with
  | error e =>
    obtain ⟨fs₁, hstop⟩ := loadSnapshots_halted hfree hsize hsnaps hnext
    cases hstop.symm.trans h
  | ok next =>
    have heq := (loadSnapshots_eq hfree hsize hblank hsnaps hnext).symm.trans h
    exact ⟨next, (Prod.mk.inj heq).2.symm⟩

omit [TwoxHash] in
theorem finish_eq_ok (h : finish outcome = .ok fs) : outcome = (.ok (), fs) := by
  obtain ⟨result, fs'⟩ := outcome
  cases result with
  | ok u =>
    rw [finish, Except.ok.injEq] at h
    rw [h]
  | error e => cases h

section Mount

variable {sb : EuroFsSuperblock} {now : UInt64} {uuid : Buf 16} (hfree : dev.FaultFree)
  (hsize : reservedBlocks ≤ dev.size) (hdegraded : degradedSlots dev = 0)
include hfree hsize

omit [TwoxHash] in
theorem mountVolume_loaded
    (h : (loadObjmap >>= fun _ => loadSnapshots >>= rest) (blank dev sb now) = (.ok u, fs)) :
    ∃ data loaded, (blank dev sb 0).readRun sb.objectMapRoot.toNat
        (max sb.extentTreeRoot.toNat 1) = .ok data ∧
      rest () loaded = (.ok u, fs) ∧ loaded.dev = dev ∧ loaded.sb = sb ∧
      loaded.objmap = Objmap.decode data ∧ loaded.extentsCache = ∅ ∧ loaded.quotaLimits = ∅ ∧
      loaded.snapshots = (decodeSnapshots (dev.block snapshotTableBlock).bytes).getD [] := by
  have hsize8 : snapshotTableBlock < dev.size := lt_of_lt_of_le (by decide) hsize
  obtain ⟨_, fs₁, hload, h⟩ := bind_eq_ok h
  obtain ⟨data, hdata, rfl⟩ := loadObjmap_inv hload
  obtain ⟨_, fs₂, htable, h⟩ := bind_eq_ok h
  obtain ⟨nextSnapId, rfl⟩ := @loadSnapshots_inv
    { blank dev sb now with objmap := Objmap.decode data } _ _ hfree hsize8 ⟨rfl, rfl⟩ htable
  have hrun := @readRun_congr (blank dev sb now) (blank dev sb 0) rfl
  exact ⟨data, _, (hrun _ _).trans hdata, h, rfl, rfl, rfl, rfl, rfl, rfl⟩

include hdegraded

theorem mountVolume_empty_inv (h : mountVolume (blank dev sb now) = (.ok (), fs))
    (hroot : fs.reader.readDirEntries rootOid = .ok []) (hsnaps : fs.snapshots = []) :
    fs.sb.uuid = sb.uuid ∧ (decodeSnapshots (dev.block snapshotTableBlock).bytes).getD [] = [] ∧
      fs.quotaLimits = (decodeQuota (dev.block quotaTableBlock).bytes).getD ∅ ∧
      EmptyVolume dev sb := by
  have hsize9 : quotaTableBlock < dev.size := lt_of_lt_of_le (by decide) hsize
  obtain ⟨data, fs₂, hdata, h, hdev₂, hsb₂, hmap₂, hcache₂, hlimits₂, hsnaps₂⟩ :=
    mountVolume_loaded hfree hsize h
  obtain ⟨_, fs₃, hrebuild, h⟩ := bind_eq_ok h
  have hsame := rebuildAllocator_same fs₂
  rw [hrebuild] at hsame
  have hdev₃ : fs₃.dev = dev := hsame.dev.trans hdev₂
  have hquota := @loadQuota_eq fs₃ _ (hdev₃ ▸ hfree) (hdev₃ ▸ hsize9)
    (hsame.quotaLimits.trans hlimits₂) rfl
  rw [bind_of_ok hquota] at h
  obtain ⟨_, fs₅, husage, h⟩ := bind_eq_ok h
  obtain ⟨usage, rfl⟩ := rebuildUsage_inv husage
  obtain ⟨next, fs₆, hnext, h⟩ := bind_eq_ok h
  rw [read_apply, Prod.mk.injEq] at hnext
  obtain ⟨hnext, rfl⟩ := hnext
  rw [modify_bind, modify_apply, Prod.mk.injEq] at h
  have hfs := h.2
  rw [if_neg (by simp [hdev₃, hdegraded])] at hfs
  have hsnaps₂' : fs₂.snapshots = [] := by rw [← hsame.snapshots, ← hsnaps, ← hfs]
  have hreader : fs.reader =
      { blank dev sb 0 with objmap := Objmap.decode data }.reader := by
    apply reader_congr
    · rw [← hfs]
      exact hdev₃
    · rw [← hfs]
      exact hsame.objmap.trans hmap₂
  have hinodes := (rebuildAllocator_ok_iff hsnaps₂' hcache₂).mp (by rw [hrebuild])
  rw [hmap₂, @readInodeAt_congr _ (blank dev sb 0) _ hdev₂] at hinodes
  refine ⟨?_, hsnaps₂.symm.trans hsnaps₂', ?_, data, hdata, hinodes, ⟨next, ?_⟩, ?_⟩
  · rw [← hfs, ← hsb₂]
    exact hsame.uuid
  · rw [← hfs, ← hdev₃]
  · rw [← hmap₂, ← hsame.objmap]
    exact hnext
  · rw [← hreader, hroot]

theorem mountVolume_empty (hvolume : EmptyVolume dev sb)
    (hsnaps : (decodeSnapshots (dev.block snapshotTableBlock).bytes).getD [] = []) :
    ∃ fs, mountVolume (blank dev sb now) = (.ok (), fs) ∧ fs.sb.uuid = sb.uuid ∧
      fs.reader.readDirEntries rootOid = .ok [] ∧ fs.snapshots = [] ∧
      fs.quotaLimits = (decodeQuota (dev.block quotaTableBlock).bytes).getD ∅ := by
  have hsize8 : snapshotTableBlock < dev.size := lt_of_lt_of_le (by decide) hsize
  have hsize9 : quotaTableBlock < dev.size := lt_of_lt_of_le (by decide) hsize
  obtain ⟨data, hdata, hinodes, ⟨next, hnext⟩, hroot⟩ := hvolume
  have hload : loadObjmap (blank dev sb now) =
      (.ok (), { blank dev sb now with objmap := Objmap.decode data }) := by
    have hread := (@readRun_congr (blank dev sb 0) (blank dev sb now) rfl _ _).trans hdata
    exact bind_of_ok (congrArg (·, _) hread) _
  have htable : loadSnapshots { blank dev sb now with objmap := Objmap.decode data } =
      (.ok (), { blank dev sb now with objmap := Objmap.decode data }) :=
    loadSnapshots_eq hfree hsize8 ⟨rfl, rfl⟩ hsnaps checkedSucc_zero
  rw [mountVolume, bind_of_ok hload, bind_of_ok htable]
  generalize hfs₂ : ({ blank dev sb now with objmap := Objmap.decode data } : EuroFs) = fs₂
  have hdev₂ : fs₂.dev = dev := by rw [← hfs₂]; rfl
  have hmap₂ : fs₂.objmap = Objmap.decode data := by rw [← hfs₂]
  have hsnaps₂ : fs₂.snapshots = [] := by rw [← hfs₂]; rfl
  have hok : (rebuildAllocator fs₂).1 = .ok () := by
    apply (rebuildAllocator_ok_iff hsnaps₂ (by rw [← hfs₂]; rfl)).mpr
    rw [hmap₂, @readInodeAt_congr _ (blank dev sb 0) _ hdev₂]
    exact hinodes
  have hsame := rebuildAllocator_same fs₂
  cases hrebuild : rebuildAllocator fs₂ with
  | mk result fs₃ =>
    rw [hrebuild] at hok hsame
    subst hok
    have hdev₃ : fs₃.dev = dev := hsame.dev.trans hdev₂
    have hquota := @loadQuota_eq fs₃ _ (hdev₃ ▸ hfree) (hdev₃ ▸ hsize9)
      (hsame.quotaLimits.trans (by rw [← hfs₂]; rfl)) rfl
    rw [bind_of_ok hrebuild, bind_of_ok hquota]
    generalize hfs₄ : ({ fs₃ with quotaLimits := _ } : EuroFs) = fs₄
    have hdev₄ : fs₄.dev = dev := by rw [← hfs₄]; exact hdev₃
    have hmap₄ : fs₄.objmap = Objmap.decode data := by
      rw [← hfs₄]
      exact hsame.objmap.trans hmap₂
    have hread : ∀ oid ∈ fs₄.objmap.keys, ∀ reason,
        fs₄.readInode oid ≠ .error (.stop reason) := by
      intro oid _ reason
      rw [readInode]
      cases hblk : fs₄.objmap[oid]? with
      | none => simp
      | some blk =>
        rw [hmap₄] at hblk
        obtain ⟨inode, hinode⟩ :=
          hinodes (oid, blk) (ExtTreeMap.mem_toList_iff_getElem?_eq_some.mpr hblk)
        rw [← @readInodeAt_congr _ (blank dev sb 0) _ hdev₄] at hinode
        simp [hinode]
    obtain ⟨usage, hcount⟩ := countUsage_ok hread { fs₄.toFsState with usage := ∅ }
    have husage : rebuildUsage fs₄ = (.ok (), { fs₄ with usage := usage }) :=
      bind_of_ok (congrArg (·, _) hcount) _
    have hnext₄ : successorOid fs₄.objmap = .ok next := by rw [hmap₄, hnext]
    have hsucc : read (fun fs : EuroFs => successorOid fs.objmap)
        { fs₄ with usage := usage } = (.ok next, { fs₄ with usage := usage }) :=
      congrArg (·, _) hnext₄
    rw [bind_of_ok husage, bind_of_ok hsucc, modify_bind, modify_apply]
    rw [if_neg (by simp [hdev₄, hdegraded])]
    refine ⟨_, rfl, ?_, ?_, ?_, ?_⟩
    · change fs₄.sb.uuid = sb.uuid
      rw [← hfs₄]
      exact hsame.uuid.trans (by rw [← hfs₂]; rfl)
    · rw [← hroot]
      congr 1
      exact reader_congr hdev₄ hmap₄
    · change fs₄.snapshots = []
      rw [← hfs₄]
      exact hsame.snapshots.trans hsnaps₂
    · change fs₄.quotaLimits = _
      rw [← hfs₄, ← hdev₃]

theorem mountsEmpty_iff (hread : readFrom dev = some sb) :
    MountsEmpty dev now uuid ↔ sb.uuid = uuid ∧
      (decodeSnapshots (dev.block snapshotTableBlock).bytes).getD [] = [] ∧
      (decodeQuota (dev.block quotaTableBlock).bytes).getD ∅ = ∅ ∧ EmptyVolume dev sb := by
  rw [MountsEmpty, mount, hread]
  constructor
  · rintro ⟨fs, hmount, huuid, hroot, hsnaps, hlimits⟩
    have hvolume : mountVolume (blank dev sb now) = (.ok (), fs) := finish_eq_ok hmount
    obtain ⟨huuid', hsnaps', hlimits', hempty⟩ :=
      mountVolume_empty_inv hfree hsize hdegraded hvolume hroot hsnaps
    exact ⟨huuid'.symm.trans huuid, hsnaps', hlimits'.symm.trans hlimits, hempty⟩
  · rintro ⟨huuid, hsnaps, hlimits, hempty⟩
    obtain ⟨fs, hvolume, huuid', hroot, hsnaps', hlimits'⟩ :=
      mountVolume_empty hfree hsize hdegraded hempty hsnaps
    refine ⟨fs, ?_, huuid'.trans huuid, hroot, hsnaps', hlimits'.trans hlimits⟩
    exact congrArg finish hvolume

end Mount

/-! ## What a format leaves on the device -/

section Formatted

variable {uuid : Buf 16} {now : UInt64}

/-- The superblock of the older volume that a mount prefers to the new one. -/
def survivor (dev : Device) : Option EuroFsSuperblock :=
  match readSlot dev superblockBlock,
    readSlot dev superblockBackupBlock with
  | none, none => none
  | none, some b => if 2 < b.checkpointId then some b else none
  | some a, none => if 2 ≤ a.checkpointId then some a else none
  | some a, some b =>
    if a.checkpointId ≤ b.checkpointId then if 2 < b.checkpointId then some b else none
    else if 2 ≤ a.checkpointId then some a else none

theorem formatDev_slots (hfree : dev.FaultFree) (hsize : firstMapBlock < dev.size) :
    degradedSlots (formatDev dev uuid now) = 0 ∧
      readFrom (formatDev dev uuid now) =
        some ((survivor dev).getD (formatSb dev uuid now)) := by
  obtain ⟨hA, hB⟩ := Prod.ext_iff.mp
    (show _ = slotsAfter (formatSb dev uuid now) _ _ from readSlot_formatDev hfree hsize)
  simp only at hA hB
  have htwo : (formatSb dev uuid now).checkpointId = 2 := rfl
  generalize formatSb dev uuid now = new at *
  rw [degradedSlots, readFrom, survivor]
  rw [hA, hB]
  cases readSlot dev superblockBlock with
  | none =>
    cases readSlot dev superblockBackupBlock with
    | none => simp [slotsAfter]
    | some b =>
      by_cases hlt : 2 < b.checkpointId
      · simp [slotsAfter, htwo, hlt]
      · simp [slotsAfter, htwo, hlt]
  | some a =>
    cases readSlot dev superblockBackupBlock with
    | none =>
      by_cases hle : 2 ≤ a.checkpointId
      · simp [slotsAfter, htwo, hle, UInt64.not_lt.mpr hle]
      · simp [slotsAfter, htwo, hle, UInt64.not_le.mp hle]
    | some b =>
      by_cases hab : a.checkpointId ≤ b.checkpointId
      · by_cases hlt : 2 < b.checkpointId
        · simp [slotsAfter, htwo, hab, hlt]
        · simp [slotsAfter, htwo, hab, hlt]
      · by_cases hle : 2 ≤ a.checkpointId
        · simp [slotsAfter, htwo, hab, hle, UInt64.not_lt.mpr hle]
        · simp [slotsAfter, htwo, hab, hle, UInt64.not_le.mp hle]

theorem formatDev_empty (hfree : dev.FaultFree) (hsize : firstMapBlock < dev.size) :
    EmptyVolume (formatDev dev uuid now) (formatSb dev uuid now) := by
  have hfree' : (formatDev dev uuid now).FaultFree := formatDev_faultFree hfree
  have hsize' : firstMapBlock < (formatDev dev uuid now).size := by rwa [formatDev_size hfree]
  have hroot : (formatSb dev uuid now).objectMapRoot.toNat = firstMapBlock := rfl
  have hblocks : max (formatSb dev uuid now).extentTreeRoot.toNat 1 = 1 := rfl
  have hmap : MapStored (formatDev dev uuid now) firstMapBlock 1 (rootTable now) :=
    rootMap_stored hfree
  have hobj : Stored (formatDev dev uuid now) rootOid (rootObj now) := rootObj_stored hfree
  rw [EmptyVolume, hroot, hblocks]
  generalize formatSb dev uuid now = sb
  generalize formatDev dev uuid now = d at *
  have hfit : ∀ b, MapOwns firstMapBlock 1 (rootTable now) b → b < (blank d sb 0).dev.size := by
    intro b hb
    rcases rootMap_owns hb with rfl | rfl
    · exact Nat.lt_of_succ_lt hsize'
    · exact hsize'
  obtain ⟨data, hread, -, hentries⟩ := @MapStored.readRun _ _ _ _ (blank d sb 0) hmap hfree' hfit
  have hdecode : Objmap.decode data = rootMap := by
    rw [Objmap.decode, hentries, ofList_toList, rootMap_eq]
  have hinode : (blank d sb 0).readInodeAt rootBlock =
      .ok (Inode.new rootOid rootOid typeDir now) :=
    @Stored.readInodeAt _ _ _ (blank d sb 0) hobj hfree' (Nat.lt_of_succ_lt hsize')
  refine ⟨data, hread, ?_, ⟨2, ?_⟩, ?_⟩
  · intro entry hentry
    rw [hdecode, @rootMap_eq now] at hentry
    obtain ⟨obj, hget, heq⟩ := mem_toList_objmapOf hentry
    obtain ⟨-, rfl⟩ := rootTable_get hget
    exact ⟨_, by rw [← heq]; exact hinode⟩
  · rw [hdecode]
    decide +kernel
  · rw [hdecode, Reader.readDirEntries]
    have hlive : ({ blank d sb 0 with objmap := rootMap } : EuroFs).readInode rootOid =
        .ok (Inode.new rootOid rootOid typeDir now) := by
      rw [readInode, rootMap, ExtTreeMap.getElem?_insert_self]
      exact hinode
    have hdata : ({ blank d sb 0 with objmap := rootMap } : EuroFs).readData
        (Inode.new rootOid rootOid typeDir now) = .ok [] := by simp [readData, verified, Inode.new]
    refine (congrArg (· >>= _) hlive).trans ?_
    rw [ok_bind, if_neg (by simp [Inode.new])]
    refine (congrArg (· >>= _) hdata).trans ?_
    rw [ok_bind]
    decide +kernel

/-- What the device must hold in front of a format for the new volume to be the
one that is mounted: no table that still reads as snapshots or limits, and no
valid superblock of a generation that wins against the new one, unless it
describes an empty volume with the same uuid. -/
def FormatClears (dev : Device) (uuid : Buf 16) (now : UInt64) : Prop :=
  (decodeSnapshots (dev.block snapshotTableBlock).bytes).getD [] = [] ∧
    (decodeQuota (dev.block quotaTableBlock).bytes).getD ∅ = ∅ ∧
    ∀ old, survivor dev = some old →
      old.uuid = uuid ∧ EmptyVolume (formatDev dev uuid now) old

theorem formatDev_mountsEmpty (hfree : dev.FaultFree) (hsize : firstMapBlock < dev.size)
    (later : UInt64) :
    MountsEmpty (formatDev dev uuid now) later uuid ↔ FormatClears dev uuid now := by
  obtain ⟨hdegraded, hread⟩ := @formatDev_slots _ dev uuid now hfree hsize
  have hreserved : reservedBlocks ≤ (formatDev dev uuid now).size := by
    rw [formatDev_size hfree]
    exact (Nat.lt_trans (by decide) hsize).le
  have hsnaps : (formatDev dev uuid now).block snapshotTableBlock = dev.block snapshotTableBlock :=
    formatDev_table hfree (by decide) (by decide)
  have hlimits : (formatDev dev uuid now).block quotaTableBlock = dev.block quotaTableBlock :=
    formatDev_table hfree (by decide) (by decide)
  rw [mountsEmpty_iff (formatDev_faultFree hfree) hreserved hdegraded hread, FormatClears,
    hsnaps, hlimits]
  cases hold : survivor dev with
  | none =>
    have hempty : EmptyVolume (formatDev dev uuid now) (formatSb dev uuid now) :=
      formatDev_empty hfree hsize
    have huuid : (formatSb dev uuid now).uuid = uuid := rfl
    simp [hempty, huuid]
  | some old =>
    simp only [Option.getD_some, Option.some.injEq, forall_eq']
    constructor
    · intro ⟨huuid, hsnap, hquota, hempty⟩
      exact ⟨hsnap, hquota, huuid, hempty⟩
    · intro ⟨hsnap, hquota, huuid, hempty⟩
      exact ⟨huuid, hsnap, hquota, hempty⟩

end Formatted

def staleSb : EuroFsSuperblock :=
  sealed { newEmpty 64 (Buf.ofBytes [9]) 0 with
    checkpointId := 50 }

/-- Sixty-four blocks that hold nothing but the older superblock in the second slot. -/
def staleDev : Device :=
  (Device.zeroed 64).store superblockBackupBlock staleSb.toBlock

theorem staleDev_survivor : survivor staleDev = some staleSb := by
  have hfree : staleDev.FaultFree := (Device.zeroed_faultFree 64).store
  have hone : superblockBlock < staleDev.size := show 1 < 64 by decide
  have htwo : superblockBackupBlock < staleDev.size := show 2 < 64 by decide
  have hfirst : readSlot staleDev superblockBlock = none :=
    readSlot_zero hfree hone (Device.store_block_of_ne (by decide))
  have hsecond : readSlot staleDev superblockBackupBlock = some staleSb :=
    readSlot_toBlock hfree htwo Device.store_block_self
      (EuroFsSuperblock.HeaderOk.sealed_isValid ⟨rfl, rfl, rfl⟩)
  have hnewer : 2 < staleSb.checkpointId := show (2 : UInt64) < 50 by decide
  rw [survivor, hfirst, hsecond]
  exact if_pos hnewer

end EuroFs

end EuroOS
