import EuroOS.Eurofs.CommitRefinement

/-!
# Snapshots, limits and remounting refine their abstract versions
-/

namespace EuroOS

open SnapshotEntry
open Std (ExtTreeMap)

variable [TwoxHash] {fs fs' : EuroFs} {v v' : Vol}

/-! ## The two tables in reserved blocks -/

structure Untabled (dev : Device) (v : Vol) : Prop where
  objs : ∀ oid obj, v.objs[oid]? = some obj → Stored dev oid obj
  durableMap : MapStored dev v.durable.objectMapRoot.toNat v.durable.extentTreeRoot.toNat
    (v.mapAt v.durable.objectMapRoot)
  frozen : ∀ snap ∈ v.snapshots, MapStored dev snap.objmapRoot.toNat snap.mapBlocks.toNat
    (v.mapAt snap.objmapRoot)
  slots : EuroFsSuperblock.SlotsHold dev v.durable

theorem Refines.untabled (h : Refines fs v) (hfree : dev'.FaultFree)
    (hsize : dev'.size = fs.dev.size)
    (hsame : ∀ b, b ≠ snapshotTableBlock → b ≠ quotaTableBlock → dev'.block b = fs.dev.block b) :
    Untabled dev' v := by
  have hprotects : ∀ b, v.Protects b → dev'.block b = fs.dev.block b := by
    intro b hb
    have hle := (h.sound.covered b hb).1
    have hlast : quotaTableBlock < reservedBlocks ∧ snapshotTableBlock < reservedBlocks := by decide
    exact hsame b (by omega) (by omega)
  exact
    { objs := fun oid obj hobj => (h.objs oid obj hobj).congr fun b hb =>
        hprotects b (.inl ⟨oid, obj, hobj, hb⟩)
      durableMap := h.durableMap.congr fun b hb => hprotects b (.inr (.inl hb))
      frozen := fun snap hsnap => (h.frozen snap hsnap).congr fun b hb =>
        hprotects b (.inr (.inr ⟨snap, hsnap, hb⟩))
      slots := h.slots.congr h.faultFree hfree hsize
        (hsame _ (by decide) (by decide)) (hsame _ (by decide) (by decide)) }

def Pinned (dev : Device) (v : Vol) (snap : SnapshotEntry) : Prop :=
  MapStored dev snap.objmapRoot.toNat snap.mapBlocks.toNat (v.mapAt snap.objmapRoot) ∧
    ∀ b, v.snapshotOwns snap b → reservedBlocks ≤ b ∧ Used v.used b

theorem Refines.pinned (h : Refines fs v) (hsnap : snap ∈ v.snapshots) : Pinned fs.dev v snap :=
  ⟨h.frozen snap hsnap, fun b hb => h.sound.covered b (.inr (.inr ⟨snap, hsnap, hb⟩))⟩

theorem Refines.retabled (h : Refines fs v) (hfree : dev'.FaultFree)
    (hsize : dev'.size = fs.dev.size)
    (hsame : ∀ b, b ≠ snapshotTableBlock → b ≠ quotaTableBlock → dev'.block b = fs.dev.block b)
    (next : UInt64) (hcount : snaps.length ≤ maxSnapshots)
    (hpinned : ∀ snap ∈ snaps, Pinned fs.dev v snap)
    (hsaved : saved.map unlabeled = snaps.map unlabeled)
    (hsnaps : (decodeSnapshots (dev'.block snapshotTableBlock).bytes).getD [] = saved)
    (hlimits : QuotaEncodable limits)
    (hquota : (decodeQuota (dev'.block quotaTableBlock).bytes).getD ∅ = limits) :
    Refines
      { fs with snapshots := snaps, nextSnapId := next, quotaLimits := limits, dev := dev' }
      { v with
        snapshots := snaps
        nextSnapId := next
        quotaLimits := limits
        savedSnapshots := saved } := by
  exact
    { h.untabled hfree hsize hsame, h with
      sound :=
        { h.sound with
          covered := by
            rintro b (hlive | hdurable | ⟨snap, hsnap, hb⟩)
            · exact h.sound.covered b (.inl hlive)
            · exact h.sound.covered b (.inr (.inl hdurable))
            · exact (hpinned snap hsnap).2 b hb
          snapCount := hcount
          limits := hlimits
          saved := hsaved }
      state := by rw [h.state]
      faultFree := hfree
      size_eq := h.size_eq.trans hsize.symm
      frozen := by
        intro snap hsnap
        refine (hpinned snap hsnap).1.congr fun b hb => ?_
        have hle := ((hpinned snap hsnap).2 b hb).1
        have hlast : quotaTableBlock < reservedBlocks ∧ snapshotTableBlock < reservedBlocks := by
          decide
        exact hsame b (by omega) (by omega)
      snapTable := hsnaps
      quotaTable := hquota }

namespace Refines

omit [TwoxHash] in
theorem quotaEncodable_erase (h : QuotaEncodable limits) (uid : UInt32) :
    QuotaEncodable (limits.erase uid) where
  length_le := by
    have hlen := h.length_le
    rw [ExtTreeMap.length_toList] at hlen ⊢
    exact ExtTreeMap.size_erase_le.trans hlen
  entry_ne := by
    intro entry hentry
    rw [ExtTreeMap.mem_toList_iff_getElem?_eq_some, ExtTreeMap.getElem?_erase] at hentry
    split at hentry
    · simp at hentry
    · exact h.entry_ne entry (ExtTreeMap.mem_toList_iff_getElem?_eq_some.mpr hentry)

omit [TwoxHash] in
theorem quotaEncodable_insert (h : QuotaEncodable limits) (huid : uid ≠ 0) (hlimit : limit ≠ 0)
    (hroom : ¬(limits.size ≥ maxQuotaEntries ∧ limits[uid]? = none)) :
    QuotaEncodable (limits.insert uid limit) where
  length_le := by
    have hlen := h.length_le
    rw [ExtTreeMap.length_toList] at hlen ⊢
    rw [ExtTreeMap.size_insert]
    split
    · exact hlen
    rename_i hmem
    have hnone : limits[uid]? = none := ExtTreeMap.getElem?_eq_none hmem
    have hsmall : limits.size < maxQuotaEntries := by
      by_contra hfull
      exact hroom ⟨Nat.not_lt.mp hfull, hnone⟩
    exact hsmall
  entry_ne := by
    intro entry hentry
    rw [ExtTreeMap.mem_toList_iff_getElem?_eq_some, ExtTreeMap.getElem?_insert] at hentry
    split at hentry
    · rename_i heq
      rw [Option.some.injEq] at hentry
      rw [← Std.LawfulEqCmp.eq_of_compare heq, ← hentry]
      exact ⟨huid, hlimit⟩
    · exact h.entry_ne entry (ExtTreeMap.mem_toList_iff_getElem?_eq_some.mpr hentry)

theorem pinned_current (h : Refines fs v) (hcommitted : v.Committed)
    (hroot : snap.objmapRoot = v.sb.objectMapRoot)
    (hblocks : snap.mapBlocks = v.sb.extentTreeRoot) : Pinned fs.dev v snap := by
  rw [hcommitted.root] at hroot
  rw [hcommitted.blocks] at hblocks
  constructor
  · rw [hroot, hblocks]
    exact h.durableMap
  · intro b hb
    rw [Vol.snapshotOwns, hroot, hblocks] at hb
    exact h.sound.covered b (.inr (.inl hb))

/-! ## Going back to a frozen map -/

omit [TwoxHash] in
theorem checkedSucc_error (h : checkedSucc n = .error e) : e = .stop .halted := by
  rw [checkedSucc] at h
  split at h
  · cases h
  · cases h
    rfl

variable {table : Table}

theorem countUsage_eq (hread : ∀ oid obj, table[oid]? = some obj → fs.readInode oid = .ok obj.ino)
    {entries : List (Oid × Obj)} (hsub : ∀ entry ∈ entries, table[entry.1]? = some entry.2)
    (s : FsState) :
    fs.countUsage (entries.map Prod.fst) s = .ok (entries.foldl
      (fun s entry => s.usageAdd entry.2.ino.uid (dataBlocksOf entry.2.ino)) s) := by
  induction entries generalizing s with
  | nil => rfl
  | cons entry entries ih =>
    have hinode := hread entry.1 entry.2 (hsub entry (by simp))
    rw [List.map_cons, EuroFs.countUsage, hinode]
    exact ih (fun e he => hsub e (by simp [he])) _

omit [TwoxHash] in
theorem countUsage_of_usage (table : Table) {s s' : FsState} (h : s.usage = s'.usage) :
    Vol.countUsage table s = { s with usage := (Vol.countUsage table s').usage } := by
  rw [Vol.countUsage, Vol.countUsage]
  generalize table.toList = entries
  induction entries generalizing s s' with
  | nil => rw [List.foldl_nil, List.foldl_nil, ← h]
  | cons entry entries ih =>
    obtain ⟨usage, hadd⟩ := s.usageAdd_eq entry.2.ino.uid (dataBlocksOf entry.2.ino)
    have hsame : (s.usageAdd entry.2.ino.uid (dataBlocksOf entry.2.ino)).usage =
        (s'.usageAdd entry.2.ino.uid (dataBlocksOf entry.2.ino)).usage := by
      unfold FsState.usageAdd FsState.usageOf
      rw [h]
      split
      · rfl
      · exact h
    rw [List.foldl_cons, List.foldl_cons, ih hsame, hadd]

theorem rebuildUsage_eq (hobjmap : fs.objmap = Vol.objmapOf table)
    (hread : ∀ oid obj, table[oid]? = some obj → fs.readInode oid = .ok obj.ino) {s : FsState}
    (hs : s.usage = ∅) :
    EuroFs.rebuildUsage fs = (.ok (), { fs with usage := (Vol.countUsage table s).usage }) := by
  have hkeys : fs.objmap.keys = table.toList.map Prod.fst := by
    rw [hobjmap, ← ExtTreeMap.map_fst_toList_eq_keys, EuroFs.toList_objmapOf, List.map_map]
    rfl
  have hcount : Action.read (fun fs : EuroFs => fs.countUsage fs.objmap.keys
      { fs.toFsState with usage := ∅ }) fs =
      (.ok { fs.toFsState with usage := (Vol.countUsage table s).usage }, fs) := by
    have hrest : Vol.countUsage table { fs.toFsState with usage := ∅ } =
        { fs.toFsState with usage := (Vol.countUsage table s).usage } :=
      @countUsage_of_usage table { fs.toFsState with usage := ∅ } s hs.symm
    rw [Action.read_apply, hkeys, countUsage_eq hread fun entry hentry =>
      ExtTreeMap.mem_toList_iff_getElem?_eq_some.mp hentry, ← hrest]
    rfl
  rw [EuroFs.rebuildUsage, Action.bind_of_ok hcount, Action.modify_apply]

omit [TwoxHash] in
theorem countUsage_state (table : Table) (s : FsState) :
    ∃ usage, Vol.countUsage table s = { s with usage := usage } :=
  ⟨_, countUsage_of_usage table rfl⟩

omit [TwoxHash] in
theorem loadObjmap_of_read (hblocks_eq : blocks = (Vol.objmapOf table).blocksNeeded)
    (hread : fs.readRun root blocks = .ok data)
    (hentries : Objmap.entries data = (Vol.objmapOf table).toList)
    (hroot : fs.sb.objectMapRoot.toNat = root) (hblocks : fs.sb.extentTreeRoot.toNat = blocks) :
    EuroFs.loadObjmap fs = (.ok (), { fs with objmap := Vol.objmapOf table }) := by
  have hpos : 0 < blocks := hblocks_eq ▸ Objmap.blocksNeeded_pos _
  have hrun : Action.read (fun fs : EuroFs =>
      fs.readRun fs.sb.objectMapRoot.toNat (max fs.sb.extentTreeRoot.toNat 1)) fs =
      (.ok data, fs) := by rw [Action.read_apply, hroot, hblocks, max_eq_left hpos, hread]
  rw [EuroFs.loadObjmap, Action.bind_of_ok hrun, Action.modify_apply, Objmap.decode, hentries,
    ofList_toList]

theorem loadObjmap_eq (hmap : MapStored fs.dev root blocks table) (hfree : fs.dev.FaultFree)
    (hfit : ∀ b, MapOwns root blocks table b → b < fs.dev.size)
    (hroot : fs.sb.objectMapRoot.toNat = root) (hblocks : fs.sb.extentTreeRoot.toNat = blocks) :
    EuroFs.loadObjmap fs = (.ok (), { fs with objmap := Vol.objmapOf table }) := by
  obtain ⟨data, hread, -, hentries⟩ := hmap.readRun hfree hfit
  exact loadObjmap_of_read hmap.blocks_eq hread hentries hroot hblocks

omit [TwoxHash] in
theorem exists_unlabeled {snaps snaps' : List SnapshotEntry}
    (h : snaps'.map unlabeled = snaps.map unlabeled)
    {snap' : SnapshotEntry} (hmem : snap' ∈ snaps') :
    ∃ snap ∈ snaps, snap'.id = snap.id ∧ snap'.objmapRoot = snap.objmapRoot ∧
      snap'.mapBlocks = snap.mapBlocks := by
  have hmap : snap'.unlabeled ∈ snaps.map unlabeled :=
    h ▸ List.mem_map_of_mem hmem
  obtain ⟨snap, hsnap, heq⟩ := List.mem_map.mp hmap
  refine ⟨snap, hsnap, ?_, ?_, ?_⟩
  · exact (congrArg SnapshotEntry.id heq).symm
  · exact (congrArg objmapRoot heq).symm
  · exact (congrArg mapBlocks heq).symm

theorem withTable (h : Refines fs v)
    (hstored : ∀ oid obj, table[oid]? = some obj → Stored fs.dev oid obj)
    (hcover : ∀ b, TableOwns table b → reservedBlocks ≤ b ∧ Used v.used b) {s : FsState}
    (hused : s.used = v.used) (hsnaps : s.snapshots.map unlabeled = v.snapshots.map unlabeled)
    (hlimits : s.quotaLimits = v.quotaLimits) (hgen : s.sb.checkpointId = v.sb.checkpointId)
    (hheader : s.sb.HeaderOk) :
    Refines
      { fs with toFsState := s, objmap := Vol.objmapOf table, extentsCache := ∅ }
      { v with toFsState := s, objs := table } where
  __ := h
  sound :=
    { reserved := by
        intro b hb
        change Used s.used b
        rw [hused]
        exact h.sound.reserved b hb
      covered := by
        intro b hb
        change _ ∧ Used s.used b
        rw [hused]
        rcases hb with hlive | hdurable | ⟨snap', hsnap', hb⟩
        · exact hcover b hlive
        · exact h.sound.covered b (.inr (.inl hdurable))
        obtain ⟨snap, hsnap, -, hroot, hblocks⟩ := exists_unlabeled hsnaps hsnap'
        rw [Vol.snapshotOwns, hroot, hblocks] at hb
        exact h.sound.covered b (.inr (.inr ⟨snap, hsnap, hb⟩))
      snapCount := by
        have hlen := congrArg List.length hsnaps
        rw [List.length_map, List.length_map] at hlen
        change s.snapshots.length ≤ maxSnapshots
        rw [hlen]
        exact h.sound.snapCount
      limits := by simpa only [hlimits] using h.sound.limits
      saved := h.sound.saved.trans hsnaps.symm
      generation := hgen.trans h.sound.generation
      header := ⟨hheader, h.sound.header.2⟩ }
  state := rfl
  size_eq := by simpa only [hused] using h.size_eq
  objmap := rfl
  objs := hstored
  frozen := by
    intro snap' hsnap'
    obtain ⟨snap, hsnap, -, hroot, hblocks⟩ := exists_unlabeled hsnaps hsnap'
    rw [hroot, hblocks]
    exact h.frozen snap hsnap
  hints := by
    intro oid extents obj hcache
    simp at hcache
  quotaTable := by simpa only [hlimits] using h.quotaTable

end Refines

end EuroOS
