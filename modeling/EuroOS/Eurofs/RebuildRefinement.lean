import EuroOS.Eurofs.Refinement

/-!
# The allocator rebuild on a readable volume

When every object and every frozen map can be read, the rebuild marks exactly
the blocks that the abstract volume calls reachable, whether an object's extents
come from the hint or from its inode.
-/

namespace EuroOS

open List
open Std (ExtTreeMap)

/-- The device holds the live objects and the frozen maps of the abstract
volume; nothing is said about the bitmap. -/
structure Readable [TwoxHash] (fs : EuroFs) (v : Vol) : Prop where
  state : fs.toFsState = v.toFsState
  faultFree : fs.dev.FaultFree
  size_eq : v.used.length = fs.dev.size
  objmap : fs.objmap = Vol.objmapOf v.objs
  objs : ∀ oid obj, v.objs[oid]? = some obj → Stored fs.dev oid obj
  objs_lt : ∀ b, TableOwns v.objs b → b < fs.dev.size
  frozen : ∀ snap ∈ v.snapshots, MapStored fs.dev snap.objmapRoot.toNat snap.mapBlocks.toNat
    (v.mapAt snap.objmapRoot)
  frozen_lt : ∀ snap ∈ v.snapshots, ∀ b, v.snapshotOwns snap b → b < fs.dev.size
  hints : ∀ (oid : Oid) extents obj, fs.extentsCache[oid]? = some extents →
    v.objs[oid]? = some obj → obj.ino.extents = extents

def HintsHold (hints : BTreeMap Oid (List (Nat × Nat))) (table : Table) : Prop :=
  ∀ (oid : Oid) extents obj, hints[oid]? = some extents → table[oid]? = some obj →
    obj.ino.extents = extents

/-- Every read that the rebuild makes gives what the abstract volume holds.  The
inode of an object with a hint is not read. -/
structure Rebuildable [TwoxHash] (fs : EuroFs) (v : Vol) : Prop where
  state : fs.toFsState = v.toFsState
  objmap : fs.objmap = Vol.objmapOf v.objs
  hints : HintsHold fs.extentsCache v.objs
  objs : ∀ (oid : Oid) (obj : Obj), v.objs[oid]? = some obj →
    (fs.extentsCache[oid]?).isSome ∨ fs.readInodeAt obj.blk = .ok obj.ino
  frozen : ∀ snap ∈ v.snapshots, ∃ data,
    fs.readRun snap.objmapRoot.toNat snap.mapBlocks.toNat = .ok data ∧ 8 ≤ data.length ∧
      Objmap.entries data = (Vol.objmapOf (v.mapAt snap.objmapRoot)).toList
  frozenObjs : ∀ snap ∈ v.snapshots, ∀ (oid : Oid) (obj : Obj),
    (v.mapAt snap.objmapRoot)[oid]? = some obj → fs.readInodeAt obj.blk = .ok obj.ino

section

variable [TwoxHash] {fs : EuroFs} {v : Vol}

theorem Refines.readable (h : Refines fs v) : Readable fs v where
  __ := h
  objs_lt := fun _ hb => h.lt_size_of_protects (.inl hb)
  frozen_lt := fun snap hsnap _ hb => h.lt_size_of_protects (.inr (.inr ⟨snap, hsnap, hb⟩))

theorem Readable.rebuildable (h : Readable fs v) : Rebuildable fs v where
  __ := h
  objs := fun oid obj hobj => .inr
    ((h.objs oid obj hobj).readInodeAt h.faultFree (h.objs_lt _ ⟨oid, obj, hobj, .inl rfl⟩))
  frozen := fun snap hsnap => (h.frozen snap hsnap).readRun h.faultFree (h.frozen_lt snap hsnap)
  frozenObjs := fun snap hsnap oid obj hobj =>
    ((h.frozen snap hsnap).stored oid obj hobj).readInodeAt h.faultFree
      (h.frozen_lt snap hsnap _ (.inr ⟨oid, obj, hobj, .inl rfl⟩))

namespace EuroFs

omit [TwoxHash] in
theorem toList_objmapOf (table : Table) :
    (Vol.objmapOf table).toList = table.toList.map fun entry => (entry.1, entry.2.blk) := by
  rw [Vol.objmapOf, ExtTreeMap.toList_map]

variable {table : Table}

theorem extentsOf_eq
    (hread : (fs.extentsCache[oid]?).isSome ∨ fs.readInodeAt obj.blk = .ok obj.ino)
    (hobj : table[oid]? = some obj) (hhints : HintsHold fs.extentsCache table) :
    ∃ hints, HintsHold hints table ∧
      (∀ k : Oid, (fs.extentsCache[k]?).isSome → (hints[k]?).isSome) ∧
      extentsOf oid obj.blk fs = (.ok obj.ino.extents, { fs with extentsCache := hints }) := by
  cases hcache : fs.extentsCache[oid]? with
  | some extents =>
    refine ⟨fs.extentsCache, hhints, fun _ hk => hk, ?_⟩
    rw [extentsOf, hcache, hhints oid extents obj hcache hobj]
  | none =>
    have hinode : fs.readInodeAt obj.blk = .ok obj.ino := by
      rcases hread with hsome | hok
      · rw [hcache] at hsome
        cases hsome
      · exact hok
    refine ⟨fs.extentsCache.insert oid obj.ino.extents, ?_, ?_, ?_⟩
    · intro oid' extents obj' hmem hobj'
      rw [ExtTreeMap.getElem?_insert] at hmem
      split at hmem
      · rename_i heq
        rw [← Std.LawfulEqCmp.eq_of_compare heq, hobj, Option.some.injEq] at hobj'
        rw [← hobj', ← Option.some.inj hmem]
      · exact hhints oid' extents obj' hmem hobj'
    · intro k hk
      rw [ExtTreeMap.getElem?_insert]
      split
      · rfl
      · exact hk
    · rw [extentsOf, hcache, hinode]

theorem markObjects_eq {entries : List (Oid × Obj)} (used : List Bool)
    (hints : BTreeMap Oid (List (Nat × Nat))) (hhints : HintsHold hints table)
    (hentries : ∀ entry ∈ entries, table[entry.1]? = some entry.2 ∧
      ((hints[entry.1]?).isSome ∨ fs.readInodeAt entry.2.blk = .ok entry.2.ino)) :
    ∃ hints', HintsHold hints' table ∧
      markObjects (entries.map fun entry => (entry.1, entry.2.blk))
          { fs with used := used, extentsCache := hints } =
        (.ok (), { fs with
          used := entries.foldl (fun u entry => Vol.markObj u entry.2) used
          extentsCache := hints' }) := by
  induction entries generalizing used hints with
  | nil => exact ⟨hints, hhints, rfl⟩
  | cons entry entries ih =>
    obtain ⟨hobj, hread⟩ := hentries entry (by simp)
    obtain ⟨middle, hmiddle, hmore, hext⟩ := @extentsOf_eq _
      { fs with used := used.set entry.2.blk true, extentsCache := hints } table entry.1 entry.2
      hread hobj hhints
    have hrest : ∀ e ∈ entries, table[e.1]? = some e.2 ∧
        ((middle[e.1]?).isSome ∨ fs.readInodeAt e.2.blk = .ok e.2.ino) := by
      intro e he
      obtain ⟨hmem, hsome | hok⟩ := hentries e (by simp [he])
      · exact ⟨hmem, .inl (hmore e.1 hsome)⟩
      · exact ⟨hmem, .inr hok⟩
    obtain ⟨hints', hhold, hmark⟩ := ih (Vol.markObj used entry.2) middle hmiddle hrest
    refine ⟨hints', hhold, ?_⟩
    rw [map_cons, markObjects]
    exact (Action.bind_of_ok hext _).trans hmark

/-! ## Frozen maps -/

theorem markFrozen_eq {entries : List (Oid × Obj)}
    (hentries : ∀ entry ∈ entries, fs.readInodeAt entry.2.blk = .ok entry.2.ino)
    (used : List Bool) :
    fs.markFrozen (entries.map fun entry => entry.2.blk) used =
      .ok (entries.foldl (fun u entry => Vol.markObj u entry.2) used) := by
  induction entries generalizing used with
  | nil => rfl
  | cons entry entries ih =>
    rw [map_cons, markFrozen, hentries entry (by simp)]
    exact ih (fun e he => hentries e (by simp [he])) _

omit [TwoxHash] in
theorem readRun_congr {fs' : EuroFs} (hdev : fs'.dev = fs.dev) (start count : Nat) :
    fs'.readRun start count = fs.readRun start count := by
  induction count with
  | zero => rfl
  | succ count ih => rw [readRun, readRun, ih, readBlock, readBlock, hdev]

theorem markStateBlocks_eq {root blocks : Nat} {data : Bytes}
    (hread : fs.readRun root blocks = .ok data) (hlen : 8 ≤ data.length)
    (hentries : Objmap.entries data = (Vol.objmapOf table).toList)
    (hobjs : ∀ (oid : Oid) (obj : Obj), table[oid]? = some obj →
      fs.readInodeAt obj.blk = .ok obj.ino) :
    markStateBlocks root blocks fs =
      (.ok (), setUsed (Vol.markTable (markRange fs.used root blocks) table) fs) := by
  have hblks : (Objmap.entries data).map Prod.snd = table.toList.map fun entry => entry.2.blk := by
    rw [hentries, toList_objmapOf, map_map]
    rfl
  have hread' : (setUsed (markRange fs.used root blocks) fs).readRun root blocks = .ok data := by
    rw [← hread]
    exact @readRun_congr fs (setUsed (markRange fs.used root blocks) fs) rfl root blocks
  have hmark : (setUsed (markRange fs.used root blocks) fs).markFrozen
      (table.toList.map fun entry => entry.2.blk) (markRange fs.used root blocks) =
        .ok (Vol.markTable (markRange fs.used root blocks) table) :=
    @markFrozen_eq _ (setUsed (markRange fs.used root blocks) fs) table.toList (fun entry hentry =>
      hobjs _ _ (ExtTreeMap.mem_toList_iff_getElem?_eq_some.mp hentry)) _
  rw [markStateBlocks, Action.bind_apply, Action.modify_apply]
  simp only [Action.bind_apply, Action.get_apply, hread']
  rw [if_neg (Nat.not_lt.mpr hlen), hblks, Action.bind_apply, Action.read_apply]
  simp only [setUsed] at hmark ⊢
  rw [hmark]
  rfl

theorem markSnapshots_eq (h : Rebuildable fs v) (snaps : List SnapshotEntry)
    (hsub : ∀ snap ∈ snaps, snap ∈ v.snapshots) (used : List Bool)
    (hints : BTreeMap Oid (List (Nat × Nat))) :
    markSnapshots snaps { fs with used := used, extentsCache := hints } =
      (.ok (), { fs with
        used := snaps.foldl v.markSnapshot used
        extentsCache := hints }) := by
  induction snaps generalizing used with
  | nil => rfl
  | cons snap snaps ih =>
    have hmem := hsub snap (by simp)
    obtain ⟨data, hread, hlen, hentries⟩ := h.frozen snap hmem
    have hone : markStateBlocks snap.objmapRoot.toNat snap.mapBlocks.toNat
        { fs with used := used, extentsCache := hints } = (.ok (), _) :=
      markStateBlocks_eq
        ((@readRun_congr fs { fs with used := used, extentsCache := hints } rfl _ _).trans hread)
        hlen hentries (h.frozenObjs snap hmem)
    rw [markSnapshots, Action.bind_of_ok hone]
    exact ih (fun s hs => hsub s (by simp [hs])) _

theorem rebuildAllocatorTrim_bind (h : Rebuildable fs v) (emitTrim : Bool) :
    ∃ hints, HintsHold hints v.objs ∧
      rebuildAllocatorTrim emitTrim fs =
        (if emitTrim then Action.modify (trim v.used) else pure () : Disk Unit)
          { fs with toFsState := v.rebuilt.toFsState, extentsCache := hints } := by
  obtain ⟨s, dev, objmap, cache⟩ := fs
  have hs : s = v.toFsState := h.state
  subst hs
  have hobjmap : objmap = Vol.objmapOf v.objs := h.objmap
  subst hobjmap
  obtain ⟨hints, hhold, hobjs⟩ := @markObjects_eq _
    ⟨v.toFsState, dev, Vol.objmapOf v.objs, cache⟩ v.objs v.objs.toList
    (markRange (markRange (List.replicate v.used.length false) 0 reservedBlocks)
      v.sb.objectMapRoot.toNat v.sb.extentTreeRoot.toNat) cache h.hints fun entry hentry =>
      have hobj := ExtTreeMap.mem_toList_iff_getElem?_eq_some.mp hentry
      ⟨hobj, h.objs _ _ hobj⟩
  refine ⟨hints, hhold, ?_⟩
  rw [← toList_objmapOf] at hobjs
  have hsnaps := markSnapshots_eq h v.snapshots (fun _ hmem => hmem)
    (Vol.markTable (markRange (markRange (List.replicate v.used.length false) 0 reservedBlocks)
      v.sb.objectMapRoot.toNat v.sb.extentTreeRoot.toNat) v.objs) hints
  rw [rebuildAllocatorTrim, Action.get_bind, Action.modify_bind, Action.modify_bind]
  simp only [setUsed, Vol.rebuilt, Vol.reachable, Vol.markTable] at hobjs hsnaps ⊢
  generalize markRange (markRange (List.replicate v.used.length false) 0 reservedBlocks)
      v.sb.objectMapRoot.toNat v.sb.extentTreeRoot.toNat = base at hobjs hsnaps ⊢
  rw [Action.bind_of_ok hobjs, Action.bind_of_ok hsnaps, Action.modify_bind]
  rfl

end EuroFs

/-! ## What the rebuild covers -/

namespace Vol

omit [TwoxHash] in
theorem length_markObj (used : List Bool) (obj : Obj) :
    (markObj used obj).length = used.length := by rw [markObj, (markExtents_spec ..).1, length_set]

variable {used : List Bool} {b : Nat}

omit [TwoxHash] in
theorem used_markObj :
    Used (markObj used obj) b ↔ Used used b ∨ (b < used.length ∧ obj.Owns b) := by
  rw [markObj, (markExtents_spec ..).2, used_set, length_set, Obj.Owns]
  constructor
  · rintro ((h | h) | h)
    · exact .inl h
    · exact .inr ⟨h.1 ▸ h.2, .inl h.1⟩
    · exact .inr ⟨h.1, .inr h.2⟩
  · rintro (h | ⟨hlt, h | h⟩)
    · exact .inl (.inl h)
    · exact .inl (.inr ⟨h, h ▸ hlt⟩)
    · exact .inr ⟨hlt, h⟩

omit [TwoxHash] in
theorem markTable_spec (used : List Bool) (table : Table) :
    (markTable used table).length = used.length ∧
      ∀ b, Used (markTable used table) b ↔ Used used b ∨ (b < used.length ∧ TableOwns table b) := by
  obtain ⟨hlen, hused⟩ := @used_foldl used _ (fun u entry => markObj u entry.2)
    (fun entry : Oid × Obj => entry.2.Owns) (fun u entry => length_markObj u entry.2)
    (fun _ _ _ => used_markObj) table.toList
  have htable : ∀ b, (∃ entry ∈ table.toList, entry.2.Owns b) ↔ TableOwns table b := by
    intro b
    constructor
    · rintro ⟨entry, hentry, hb⟩
      exact ⟨entry.1, entry.2, ExtTreeMap.mem_toList_iff_getElem?_eq_some.mp hentry, hb⟩
    · rintro ⟨oid, obj, hobj, hb⟩
      exact ⟨(oid, obj), ExtTreeMap.mem_toList_iff_getElem?_eq_some.mpr hobj, hb⟩
  exact ⟨hlen, fun b => by rw [markTable, hused b, htable]⟩

omit [TwoxHash] in
theorem foldl_markSnapshot (v : Vol) (snaps : List SnapshotEntry) :
    (snaps.foldl v.markSnapshot used).length = used.length ∧
      ∀ b, Used (snaps.foldl v.markSnapshot used) b ↔
        Used used b ∨ (b < used.length ∧ ∃ snap ∈ snaps, v.snapshotOwns snap b) := by
  refine used_foldl (fun used snap => ?_) (fun used snap b => ?_) snaps
  · rw [markSnapshot, (markTable_spec ..).1, length_markRange]
  · rw [markSnapshot, (markTable_spec ..).2, used_markRange, length_markRange, snapshotOwns, MapOwns]
    tauto

omit [TwoxHash] in
theorem length_reachable (v : Vol) : v.reachable.length = v.used.length := by
  rw [reachable, (foldl_markSnapshot v _).1, (markTable_spec ..).1, length_markRange, length_markRange,
    length_replicate]

omit [TwoxHash] in
theorem used_reservedOnly :
    Used (markRange (List.replicate n false) 0 reservedBlocks) b ↔ b < n ∧ b < reservedBlocks := by
  have hblank : ¬Used (List.replicate n false) b := by
    intro h
    obtain ⟨hlt, htrue⟩ := List.getElem?_eq_some_iff.mp h
    rw [getElem_replicate] at htrue
    exact Bool.false_ne_true htrue
  rw [used_markRange, length_replicate, Nat.zero_add]
  constructor
  · rintro (h | h)
    · exact absurd h hblank
    · exact ⟨h.2.2, h.2.1⟩
  · intro h
    exact .inr ⟨Nat.zero_le b, h.2, h.1⟩

omit [TwoxHash] in
/-- The rebuild marks the reserved blocks, the current map, the live objects and
the snapshots, and nothing else. -/
theorem used_reachable :
    Used v.reachable b ↔ b < v.used.length ∧
      (b < reservedBlocks ∨
        (v.sb.objectMapRoot.toNat ≤ b ∧ b < v.sb.objectMapRoot.toNat + v.sb.extentTreeRoot.toNat) ∨
        TableOwns v.objs b ∨ ∃ snap ∈ v.snapshots, v.snapshotOwns snap b) := by
  rw [reachable, (foldl_markSnapshot v _).2 b, (markTable_spec ..).2, used_markRange,
    used_reservedOnly]
  simp only [(markTable_spec ..).1, length_markRange, length_replicate]
  constructor
  · rintro (((h | h) | h) | h)
    · exact ⟨h.1, .inl h.2⟩
    · exact ⟨h.2.2, .inr (.inl ⟨h.1, h.2.1⟩)⟩
    · exact ⟨h.1, .inr (.inr (.inl h.2))⟩
    · exact ⟨h.1, .inr (.inr (.inr h.2))⟩
  · rintro ⟨hlt, h | h | h | h⟩
    · exact .inl (.inl (.inl ⟨hlt, h⟩))
    · exact .inl (.inl (.inr ⟨h.1, h.2, hlt⟩))
    · exact .inl (.inr ⟨hlt, h⟩)
    · exact .inr ⟨hlt, h⟩

end Vol

end

end EuroOS
