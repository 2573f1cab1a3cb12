import EuroOS.FatAllocation
import EuroOS.FatDriver

/-!
# Directories as lists of slots

The slots of a directory are the 32-byte places of its clusters, in order.  The
driver's two ways of reading a directory, the listing and the search for the
slots of a name, both cut the same list of entries into groups: an entry with
the long-name fragments in front of it.
-/

namespace EuroOS.Fat

open List FatFs

/-! ## Slots -/

def sectorSlots (lba : Nat) : List Slot := (List.range 16).map fun i => (lba, i * 32)

def Bpb.slots (bpb : Bpb) (cs : List Nat) : List Slot := (bpb.sectorsOf cs).flatMap sectorSlots

def FatFs.entryAt (fs : FatFs) (slot : Slot) : Entry := slice (fs.dev.sector slot.1).bytes slot.2 32

def Aligned (slot : Slot) : Prop := ∃ i < 16, slot.2 = i * 32

variable {fs fs' : FatFs} {c : Nat} {l : List Nat} {slot : Slot} {bpb : Bpb}

theorem mem_sectorSlots : slot ∈ sectorSlots lba ↔ slot.1 = lba ∧ Aligned slot := by
  obtain ⟨i, off⟩ := slot
  simp only [sectorSlots, mem_map, mem_range, Prod.mk.injEq, Aligned]
  constructor
  · rintro ⟨k, hk, rfl, rfl⟩
    exact ⟨rfl, k, hk, rfl⟩
  · rintro ⟨rfl, k, hk, rfl⟩
    exact ⟨k, hk, rfl, rfl⟩

theorem Bpb.mem_slots :
    slot ∈ bpb.slots cs ↔ (∃ c ∈ cs, slot.1 ∈ bpb.clusterSectors c) ∧ Aligned slot := by
  simp only [Bpb.slots, mem_flatMap, mem_sectorSlots, Bpb.mem_sectorsOf]
  constructor
  · rintro ⟨lba, hlba, rfl, halign⟩
    exact ⟨hlba, halign⟩
  · rintro ⟨hlba, halign⟩
    exact ⟨slot.1, hlba, rfl, halign⟩

theorem Bpb.slots_mono (hsub : ∀ c ∈ cs, c ∈ cs') (hslot : slot ∈ bpb.slots cs) :
    slot ∈ bpb.slots cs' := by
  obtain ⟨⟨c, hc, hlba⟩, halign⟩ := Bpb.mem_slots.mp hslot
  exact Bpb.mem_slots.mpr ⟨⟨c, hsub c hc, hlba⟩, halign⟩

theorem nodup_sectorSlots (lba : Nat) : (sectorSlots lba).Nodup := by
  refine List.Nodup.map (fun i j h => ?_) nodup_range
  simp only [Prod.mk.injEq] at h
  omega

theorem Bpb.nodup_slots (hnodup : cs.Nodup) (htwo : ∀ c ∈ cs, 2 ≤ c) : (bpb.slots cs).Nodup := by
  refine nodup_flatMap.mpr ⟨fun lba _ => nodup_sectorSlots lba, ?_⟩
  refine (Bpb.nodup_sectorsOf hnodup htwo).imp fun {a b} hne slot ha hb => hne ?_
  rw [← (mem_sectorSlots.mp ha).1, (mem_sectorSlots.mp hb).1]

theorem Bpb.slots_append (bpb : Bpb) (cs cs' : List Nat) :
    bpb.slots (cs ++ cs') = bpb.slots cs ++ bpb.slots cs' := by simp [Bpb.slots, Bpb.sectorsOf]

theorem Bpb.slots_singleton (hspc : 0 < bpb.spc) (hc : 2 ≤ c) :
    ∃ others, bpb.slots [c] = (bpb.clusterFirstSector c, 0) :: (bpb.clusterFirstSector c, 32) :: others ∧
      ∀ s ∈ others, s ≠ (bpb.clusterFirstSector c, 0) ∧ s ≠ (bpb.clusterFirstSector c, 32) := by
  obtain ⟨n, hn⟩ := Nat.exists_eq_add_of_lt hspc
  have hnodup : (bpb.slots [c]).Nodup := Bpb.nodup_slots (by simp) (by simpa using hc)
  have hslots : ∃ others, bpb.slots [c] =
      (bpb.clusterFirstSector c, 0) :: (bpb.clusterFirstSector c, 32) :: others := by
    unfold Bpb.slots Bpb.sectorsOf Bpb.clusterSectors
    rw [hn, Nat.zero_add, range_succ_eq_map]
    exact ⟨_, rfl⟩
  obtain ⟨others, hslots⟩ := hslots
  rw [hslots] at hnodup
  refine ⟨others, hslots, fun s hs => ⟨?_, ?_⟩⟩
  · rintro rfl
    exact (nodup_cons.mp hnodup).1 (mem_cons_of_mem _ hs)
  · rintro rfl
    exact (nodup_cons.mp (nodup_cons.mp hnodup).2).1 hs

theorem entryAt_congr (h : fs'.dev.sector slot.1 = fs.dev.sector slot.1) :
    fs'.entryAt slot = fs.entryAt slot := by
  unfold entryAt
  rw [h]

theorem sectorEntries_eq (fs : FatFs) (lba : Nat) :
    sectorEntries (fs.dev.sector lba) = (sectorSlots lba).map fs.entryAt := by
  simp only [sectorEntries, sectorSlots, map_map]
  rfl

theorem byte_entryAt (fs : FatFs) (slot : Slot) (hi : i < 32) :
    (fs.entryAt slot).byte i = Entry.byte (fs.dev.sector slot.1).bytes (slot.2 + i) := by
  unfold entryAt Entry.byte slice
  rw [getElem?_take_of_lt hi, getElem?_drop]

theorem byte_zero_of_zero_sector (h : fs.dev.sector slot.1 = Sector.zero) :
    (fs.entryAt slot).byte 0 = 0x00 := by
  rw [byte_entryAt fs slot (by decide), h]
  unfold Entry.byte
  rw [Sector.zero, Buf.bytes_ofBytes (by simp), padTo, nil_append, getElem?_replicate]
  split_ifs <;> rfl

/-! ## Reading -/

def FatFs.placed (fs : FatFs) (slots : List Slot) : List (Slot × Entry) :=
  slots.map fun slot => (slot, fs.entryAt slot)

theorem slotsOf_eq (h : Sound fs) (hin : ∀ lba ∈ lbas, lba < fs.dev.blocks) :
    fs.slotsOf lbas =
      .ok ((lbas.flatMap sectorSlots).map fun slot => (slot, (fs.entryAt slot).byte 0)) := by
  induction lbas with
  | nil => rfl
  | cons lba lbas ih =>
    have hhere : ((List.range 16).map fun i =>
        ((lba, i * 32), Entry.byte (fs.dev.sector lba).bytes (i * 32))) =
        (sectorSlots lba).map fun slot => (slot, (fs.entryAt slot).byte 0) := by
      simp only [sectorSlots, map_map]
      refine map_congr_left fun i _ => ?_
      simp [byte_entryAt fs _ (show 0 < 32 by decide)]
    unfold slotsOf
    rw [h.rsec_eq (hin lba (mem_cons_self ..)), ok_bind,
      ih fun i hi => hin i (mem_cons_of_mem _ hi), ok_bind, hhere, flatMap_cons,
      map_append]
    rfl

theorem readDirSectors_eq (h : Sound fs) (hin : ∀ lba ∈ lbas, lba < fs.dev.blocks) :
    fs.readDirSectors lbas =
      .ok (((lbas.flatMap sectorSlots).map fs.entryAt).takeWhile fun e => e.byte 0 ≠ 0x00) := by
  induction lbas with
  | nil => rfl
  | cons lba lbas ih =>
    unfold readDirSectors
    rw [h.rsec_eq (hin lba (mem_cons_self ..)), ok_bind, sectorEntries_eq,
      flatMap_cons, map_append, takeWhile_append]
    have hlength : ((sectorSlots lba).map fs.entryAt).length = 16 := by simp [sectorSlots]
    have hfront := takeWhile_prefix (l := (sectorSlots lba).map fs.entryAt)
      fun e : Entry => decide (e.byte 0 ≠ 0x00)
    have hle := hfront.length_le
    rw [hlength] at hle ⊢
    dsimp only
    split_ifs with hshort hfull hfull
    · omega
    · rfl
    · rw [ih fun i hi => hin i (mem_cons_of_mem _ hi), ok_bind, hfront.eq_of_length (by omega)]
      rfl
    · omega

/-! ## Groups -/

structure Group where
  lfn : List (Slot × Entry)
  slot : Slot
  entry : Entry

def lfnText (lfn : List (Slot × Entry)) : Str := lfn.foldl (fun text e => lfnChars e.2 ++ text) []

namespace Group

def name (g : Group) : Str := entryName (lfnText g.lfn) g.entry

def item (g : Group) : Item := ⟨g.name, g.entry.first, g.entry.size, g.entry.isDir⟩

/-- The entries of a directory for itself and its parent are not listed. -/
def isListed (g : Group) : Bool := g.name ≠ ['.'] && g.name ≠ ['.', '.']

def hasName (g : Group) (name : Str) : Bool := eqIgnoreCase g.name name

end Group

namespace Entry

def isDeleted (e : Entry) : Bool := e.byte 0 = 0xE5

def isFragment (e : Entry) : Bool := e.byte 11 = attrLfn

def isVolume (e : Entry) : Bool := e.byte 11 &&& attrVolumeId ≠ 0

end Entry

def groupsFrom (pending : List (Slot × Entry)) : List (Slot × Entry) → List Group
  | [] => []
  | e :: rest =>
    if e.2.isDeleted then groupsFrom [] rest
    else if e.2.isFragment then groupsFrom (pending ++ [e]) rest
    else if e.2.isVolume then groupsFrom [] rest
    else ⟨pending, e.1, e.2⟩ :: groupsFrom [] rest

def visible (es : List (Slot × Entry)) : List (Slot × Entry) := es.takeWhile fun e => e.2.byte 0 ≠ 0x00

def FatFs.groups (fs : FatFs) (slots : List Slot) : List Group :=
  groupsFrom [] (visible (fs.placed slots))

theorem lfnText_append (pending : List (Slot × Entry)) (e : Slot × Entry) :
    lfnText (pending ++ [e]) = lfnChars e.2 ++ lfnText pending := by simp [lfnText]

theorem parseEntries_eq (pending es : List (Slot × Entry)) :
    FatFs.parseEntries (lfnText pending) (es.map Prod.snd) =
      ((groupsFrom pending es).filter Group.isListed).map Group.item := by
  induction es generalizing pending with
  | nil => rfl
  | cons e es ih =>
    have hclear := ih []
    simp only [map_cons, FatFs.parseEntries, groupsFrom, Entry.isDeleted, Entry.isFragment,
      Entry.isVolume, decide_eq_true_eq]
    split_ifs with hdeleted hfragment hvolume hdots
    · exact hclear
    · rw [← lfnText_append]
      exact ih _
    · exact hclear
    · have hlisted : Group.isListed ⟨pending, e.1, e.2⟩ = false := by
        rcases hdots with hdot | hdot <;> simp [Group.isListed, Group.name, hdot]
      rw [filter_cons_of_neg (by simp [hlisted])]
      exact hclear
    · have hlisted : Group.isListed ⟨pending, e.1, e.2⟩ = true := by
        rw [not_or] at hdots
        simp [Group.isListed, Group.name, hdots]
      rw [filter_cons_of_pos hlisted, map_cons]
      exact congrArg _ hclear

variable {g : Group} {name : Str} {groups : List Group}

theorem findEntryFrom_eq (h : Sound fs) (name : Str)
    (hin : ∀ slot ∈ slots, slot.1 < fs.dev.blocks) (pending : List (Slot × Entry)) :
    fs.findEntryFrom name (slots.map fun slot => (slot, (fs.entryAt slot).byte 0))
        (lfnText pending) (pending.map Prod.fst) =
      match (groupsFrom pending (visible (fs.placed slots))).find? (·.hasName name) with
      | some g => .ok (g.slot, g.lfn.map Prod.fst)
      | none => .error (.err .notFound) := by
  induction slots generalizing pending with
  | nil => rfl
  | cons slot slots ih =>
    have hrest := ih fun s hs => hin s (mem_cons_of_mem _ hs)
    have hclear := hrest []
    have hmore := hrest (pending ++ [(slot, fs.entryAt slot)])
    rw [map_append, lfnText_append] at hmore
    have hread : fs.rsec slot.1 = .ok (fs.dev.sector slot.1) :=
      h.rsec_eq (hin slot (mem_cons_self ..))
    have hentry : slice (fs.dev.sector slot.1).bytes slot.2 32 = fs.entryAt slot := rfl
    simp only [map_cons, findEntryFrom, placed, visible, hread, ok_bind, hentry]
    by_cases hend : (fs.entryAt slot).byte 0 = 0x00
    · rw [if_pos hend, takeWhile_cons_of_neg (by simp [hend])]
      rfl
    rw [if_neg hend, takeWhile_cons_of_pos (by simp [hend])]
    simp only [groupsFrom, Entry.isDeleted, Entry.isFragment, Entry.isVolume, decide_eq_true_eq]
    split_ifs with hdeleted hfragment hvolume hmatch
    · exact hclear
    · exact hmore
    · exact hclear
    · have hfirst : Group.hasName ⟨pending, slot, fs.entryAt slot⟩ name = true := hmatch
      rw [find?_cons, hfirst]
      rfl
    · have hfirst : Group.hasName ⟨pending, slot, fs.entryAt slot⟩ name = false :=
        Bool.eq_false_iff.mpr hmatch
      rw [find?_cons, hfirst]
      exact hclear

/-! ## The directory of a chain -/

/-- The number of clusters of a directory in which the driver looks for slots. -/
abbrev slotGuard : Nat := 2 ^ 16

theorem parseDir_eq (h : Sound fs) (hchain : fs.HasChain d l) (hin : ∀ c ∈ l, InVolume fs.bpb c) :
    fs.parseDir d =
      .ok (((fs.groups (fs.bpb.slots (l.take (2 ^ 20)))).filter Group.isListed).map Group.item) := by
  have hsectors : ∀ lba ∈ (l.take (2 ^ 20)).flatMap fs.bpb.clusterSectors, lba < fs.dev.blocks := by
    intro lba hlba
    obtain ⟨c, hc, hlba⟩ := mem_flatMap.mp hlba
    exact h.lt_blocks (hin c (mem_of_mem_take hc)) hlba
  have hentries : ((visible (fs.placed (fs.bpb.slots (l.take (2 ^ 20))))).map Prod.snd) =
      ((((l.take (2 ^ 20)).flatMap fs.bpb.clusterSectors).flatMap sectorSlots).map
        fs.entryAt).takeWhile fun e => e.byte 0 ≠ 0x00 := by
    simp only [visible, placed, takeWhile_map, map_map]
    rfl
  unfold parseDir readDirRaw
  rw [walk_eq_take hchain, readDirSectors_eq h hsectors, ← hentries]
  exact congrArg Except.ok (parseEntries_eq [] _)

theorem dirSlots_eq (h : Sound fs) (hchain : fs.HasChain d l) (hin : ∀ c ∈ l, InVolume fs.bpb c) :
    fs.dirSlots d = .ok ((fs.bpb.slots (l.take slotGuard)).map
      fun slot => (slot, (fs.entryAt slot).byte 0)) := by
  have hsectors : ∀ lba ∈ (l.take slotGuard).flatMap fs.bpb.clusterSectors, lba < fs.dev.blocks := by
    intro lba hlba
    obtain ⟨c, hc, hlba⟩ := mem_flatMap.mp hlba
    exact h.lt_blocks (hin c (mem_of_mem_take hc)) hlba
  unfold dirSlots
  rw [walk_eq_take hchain, slotsOf_eq h hsectors]
  rfl

theorem Sound.slot_lt_blocks (h : Sound fs) (hin : ∀ c ∈ l, InVolume fs.bpb c)
    (hslot : slot ∈ fs.bpb.slots l) : slot.1 < fs.dev.blocks := by
  obtain ⟨⟨c, hc, hlba⟩, -⟩ := Bpb.mem_slots.mp hslot
  exact h.lt_blocks (hin c hc) hlba

theorem findEntrySlots_eq (h : Sound fs) (hchain : fs.HasChain d l)
    (hin : ∀ c ∈ l, InVolume fs.bpb c) (name : Str) :
    fs.findEntrySlots d name =
      match (fs.groups (fs.bpb.slots (l.take slotGuard))).find? (·.hasName name) with
      | some g => .ok (g.slot, g.lfn.map Prod.fst)
      | none => .error (.err .notFound) := by
  unfold findEntrySlots
  rw [dirSlots_eq h hchain hin, ok_bind]
  refine findEntryFrom_eq h name (fun slot hslot => ?_) []
  exact h.slot_lt_blocks (fun c hc => hin c (mem_of_mem_take hc)) hslot

theorem groups_take_eq (hmn : m ≤ n)
    (htail : ∀ slot ∈ bpb.slots (l.drop m), (fs.entryAt slot).byte 0 = 0x00) :
    fs.groups (bpb.slots (l.take n)) = fs.groups (bpb.slots (l.take m)) := by
  have hsplit : l.take n = l.take m ++ (l.take n).drop m := by
    have hjoin := take_append_drop m (l.take n)
    rw [take_take, Nat.min_eq_left hmn] at hjoin
    exact hjoin.symm
  have hzero : ∀ e ∈ fs.placed (bpb.slots ((l.take n).drop m)), e.2.byte 0 = 0x00 := by
    intro e he
    obtain ⟨slot, hslot, rfl⟩ := mem_map.mp he
    rw [drop_take] at hslot
    exact htail slot (Bpb.slots_mono (fun c hc => mem_of_mem_take hc) hslot)
  have hvisible : visible (fs.placed (bpb.slots (l.take n))) =
      visible (fs.placed (bpb.slots (l.take m))) := by
    rw [hsplit, Bpb.slots_append]
    unfold visible placed at *
    rw [map_append, takeWhile_append]
    split_ifs with hall
    · rw [takeWhile_eq_nil_iff.mpr, append_nil]
      · exact ((List.takeWhile_prefix _).eq_of_length hall).symm
      · intro hlength hfirst
        exact of_decide_eq_true hfirst (hzero _ (getElem_mem hlength))
    · rfl
  unfold groups
  rw [hvisible]

theorem mem_groupsFrom (h : g ∈ groupsFrom pending es) :
    (g.slot, g.entry) ∈ es ∧
      (g.entry.isDeleted = false ∧ g.entry.isFragment = false ∧ g.entry.isVolume = false) ∧
      ∀ e ∈ g.lfn, e ∈ pending ∨ (e ∈ es ∧ e.2.isFragment = true) := by
  induction es generalizing pending with
  | nil => cases h
  | cons e es ih =>
    have hlater : ∀ {pending' : List (Slot × Entry)}, g ∈ groupsFrom pending' es →
        (∀ x ∈ pending', x ∈ pending ∨ (x ∈ e :: es ∧ x.2.isFragment = true)) →
        (g.slot, g.entry) ∈ e :: es ∧
          (g.entry.isDeleted = false ∧ g.entry.isFragment = false ∧ g.entry.isVolume = false) ∧
          ∀ x ∈ g.lfn, x ∈ pending ∨ (x ∈ e :: es ∧ x.2.isFragment = true) := by
      intro pending' hmem hpending
      obtain ⟨hslot, hkind, hlfn⟩ := ih hmem
      refine ⟨mem_cons_of_mem _ hslot, hkind, fun x hx => ?_⟩
      rcases hlfn x hx with hx | ⟨hx, hproper⟩
      · exact hpending x hx
      · exact .inr ⟨mem_cons_of_mem _ hx, hproper⟩
    unfold groupsFrom at h
    split_ifs at h with hdeleted hfragment hvolume
    · exact hlater h (by simp)
    · refine hlater h fun x hx => ?_
      rcases mem_append.mp hx with hx | hx
      · exact .inl hx
      · obtain rfl := mem_singleton.mp hx
        exact .inr ⟨mem_cons_self .., hfragment⟩
    · exact hlater h (by simp)
    · rcases mem_cons.mp h with rfl | h
      · exact ⟨mem_cons_self .., ⟨Bool.eq_false_iff.mpr hdeleted,
          Bool.eq_false_iff.mpr hfragment, Bool.eq_false_iff.mpr hvolume⟩, fun x hx => .inl hx⟩
      · exact hlater h (by simp)

theorem mem_visible_placed (h : e ∈ visible (fs.placed slots)) :
    e.1 ∈ slots ∧ e.2 = fs.entryAt e.1 ∧ e.2.byte 0 ≠ 0x00 := by
  have hfirst := mem_takeWhile_imp h
  obtain ⟨slot, hslot, rfl⟩ := mem_map.mp ((takeWhile_sublist _).subset h)
  exact ⟨hslot, rfl, by simpa using hfirst⟩

/-- A named entry in use: neither free, nor a fragment, nor a volume label. -/
structure Entry.Named (e : Entry) : Prop where
  used : Entry.isFree (e.byte 0) = false
  notFragment : e.isFragment = false
  notVolume : e.isVolume = false

theorem named_of_mem_groups (h : g ∈ fs.groups slots) :
    g.slot ∈ slots ∧ g.entry = fs.entryAt g.slot ∧ g.entry.Named := by
  obtain ⟨hmem, ⟨hdeleted, hfragment, hvolume⟩, -⟩ := mem_groupsFrom h
  obtain ⟨hslot, hentry, hfirst⟩ := mem_visible_placed hmem
  refine ⟨hslot, hentry, ?_, hfragment, hvolume⟩
  unfold Entry.isDeleted at hdeleted
  simpa [Entry.isFree] using ⟨hfirst, by simpa using hdeleted⟩

theorem fragment_of_mem_lfn (h : g ∈ fs.groups slots) (he : e ∈ g.lfn) :
    e.1 ∈ slots ∧ e.2 = fs.entryAt e.1 ∧ e.2.isFragment = true := by
  obtain ⟨-, -, hlfn⟩ := mem_groupsFrom h
  rcases hlfn e he with he | ⟨he, hfragment⟩
  · cases he
  · obtain ⟨hslot, hentry, -⟩ := mem_visible_placed he
    exact ⟨hslot, hentry, hfragment⟩

/-! ## Looking up a name -/

theorem toLower_eq_dot {c : Char} (h : c.toLower = '.') : c = '.' := by
  unfold Char.toLower at h
  split_ifs at h with hupper
  · have hval := congrArg (fun c => c.val.toNat) h
    obtain ⟨hlow, hhigh⟩ := hupper
    rw [ge_iff_le, UInt32.le_iff_toNat_le] at hlow
    rw [UInt32.le_iff_toNat_le] at hhigh
    simp [UInt32.toNat_add] at hval hlow hhigh
    omega
  · exact h

theorem eq_dot_of_eqIgnoreCase : (eqIgnoreCase ['.'] name = true → name = ['.']) ∧
      (eqIgnoreCase ['.', '.'] name = true → name = ['.', '.']) := by
  have hlower : ('.' : Char).toLower = '.' := by decide
  constructor
  · intro h
    simp only [eqIgnoreCase, map_cons, map_nil, hlower, beq_iff_eq] at h
    obtain ⟨c, rfl, hc⟩ := map_eq_singleton_iff.mp h.symm
    rw [toLower_eq_dot hc]
  · intro h
    simp only [eqIgnoreCase, map_cons, map_nil, hlower, beq_iff_eq] at h
    obtain ⟨c, rest, rfl, hc, hrest⟩ := map_eq_cons_iff.mp h.symm
    obtain ⟨c', rfl, hc'⟩ := map_eq_singleton_iff.mp hrest
    rw [toLower_eq_dot hc, toLower_eq_dot hc']

def Proper (name : Str) : Prop := name ≠ ['.'] ∧ name ≠ ['.', '.']

theorem Group.isListed_of_hasName (hproper : Proper name) (h : g.hasName name = true) :
    g.isListed = true := by
  unfold Group.hasName at h
  have hone : g.name ≠ ['.'] := by
    intro hdot
    rw [hdot] at h
    exact hproper.1 (eq_dot_of_eqIgnoreCase.1 h)
  have htwo : g.name ≠ ['.', '.'] := by
    intro hdot
    rw [hdot] at h
    exact hproper.2 (eq_dot_of_eqIgnoreCase.2 h)
  simp [Group.isListed, hone, htwo]

def findGroup (groups : List Group) (name : Str) : Option Group :=
  groups.find? fun g => g.isListed && g.hasName name

theorem findGroup_eq_find? (hproper : Proper name) :
    findGroup groups name = groups.find? (·.hasName name) := by
  unfold findGroup
  congr 1
  funext g
  cases hname : g.hasName name with
  | false => simp
  | true => simp [Group.isListed_of_hasName hproper hname]

theorem findGroup_improper (h : ¬ Proper name) : findGroup groups name = none := by
  have hname : name = ['.'] ∨ name = ['.', '.'] := by
    unfold Proper at h
    tauto
  rw [findGroup, find?_eq_none]
  intro g _ hg
  rw [Bool.and_eq_true] at hg
  obtain ⟨hlisted, hmatch⟩ := hg
  have hsymm : eqIgnoreCase name g.name = true := by
    unfold Group.hasName eqIgnoreCase at *
    rw [beq_iff_eq] at *
    exact hmatch.symm
  rcases hname with rfl | rfl
  · rw [Group.isListed, eq_dot_of_eqIgnoreCase.1 hsymm] at hlisted
    simp at hlisted
  · rw [Group.isListed, eq_dot_of_eqIgnoreCase.2 hsymm] at hlisted
    simp at hlisted

theorem mem_of_findGroup (h : findGroup groups name = some g) :
    g ∈ groups ∧ g.isListed = true ∧ g.hasName name = true := by
  have hsome := find?_some h
  rw [Bool.and_eq_true] at hsome
  exact ⟨mem_of_find?_eq_some h, hsome⟩

def FatFs.dirGroups (fs : FatFs) (l : List Nat) : List Group :=
  fs.groups (fs.bpb.slots (l.take slotGuard))

structure DirChain (fs : FatFs) (d : Nat) (l : List Nat) : Prop where
  chain : fs.HasChain d l
  inVolume : ∀ c ∈ l, InVolume fs.bpb c
  tail : ∀ slot ∈ fs.bpb.slots (l.drop slotGuard), (fs.entryAt slot).byte 0 = 0x00

theorem DirChain.parseDir_eq (h : DirChain fs d l) (hsound : Sound fs) :
    fs.parseDir d = .ok (((fs.dirGroups l).filter Group.isListed).map Group.item) := by
  rw [Fat.parseDir_eq hsound h.chain h.inVolume, groups_take_eq (by decide) h.tail]
  rfl

theorem DirChain.findInDir_eq (h : DirChain fs d l) (hsound : Sound fs) (name : Str) :
    fs.findInDir d name =
      match findGroup (fs.dirGroups l) name with
      | some g => .ok (g.entry.first, g.entry.size, g.entry.isDir)
      | none => .error (.err .notFound) := by
  have hfind : ((((fs.dirGroups l).filter Group.isListed).map Group.item).find?
      fun item => eqIgnoreCase item.name name) = (findGroup (fs.dirGroups l) name).map Group.item := by
    rw [find?_map, find?_filter, findGroup]
    congr 2
    funext g
    rw [Bool.decide_and, Bool.decide_coe, Bool.decide_coe]
    rfl
  unfold findInDir
  rw [h.parseDir_eq hsound, ok_bind, hfind]
  cases findGroup (fs.dirGroups l) name <;> rfl

theorem DirChain.findEntrySlots_eq (h : DirChain fs d l) (hsound : Sound fs)
    (hproper : Proper name) : fs.findEntrySlots d name =
      match findGroup (fs.dirGroups l) name with
      | some g => .ok (g.slot, g.lfn.map Prod.fst)
      | none => .error (.err .notFound) := by
  rw [findGroup_eq_find? hproper]
  exact Fat.findEntrySlots_eq hsound h.chain h.inVolume name

end EuroOS.Fat
