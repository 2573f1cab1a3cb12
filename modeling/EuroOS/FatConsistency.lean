import EuroOS.CallMachine
import EuroOS.FatCalls
import EuroOS.FatFormatted

/-!
# The volume stays consistent

The places of a volume are the root and what its directories list.  On a formatted
volume, after any calls made with room for the data they overwrite, every place has
a chain of its own that ends in an end mark, the chains of files are as long as
their sizes ask for, and the tables agree.  An overwrite without room, the removal
of an empty root and data of 4 GiB break it.
-/

namespace EuroOS.Fat

open List

/-! ## Calls -/

inductive Call
  | writeFile (path : Str) (data : Bytes)
  | createDir (path : Str)
  | removeFile (path : Str)
  | removeDir (path : Str)
  | rename (old new : Str)

def Call.run : Call → Action FatFs Unit
  | writeFile path data => FatFs.writeFile path data
  | createDir path => FatFs.createDir path
  | removeFile path => FatFs.removeFile path
  | removeDir path => FatFs.removeDir path
  | rename old new => FatFs.rename old new

def fatMachine : CallMachine FatFs Call (Except Fail Unit) where
  step fs call := ((call.run fs).2, (call.run fs).1)

/-- A call that the driver carries out in full or not at all: data that a size field can tell is
written where there is room for it, and the root is not removed when it lists nothing. -/
def Safe (fs : FatFs) : Call → Prop
  | .writeFile path data => data.length < 2 ^ 32 ∧ fs.RoomFor path data
  | .rename old new => ∀ data, fs.readFile old = .ok data → fs.RoomFor new data
  | .removeDir path => splitPath path = [] → fs.parseDir fs.bpb.rootCluster ≠ .ok []
  | _ => True

/-! ## What one call does -/

variable {fs : FatFs}

variable {data : Bytes}

theorem length_readSectors (h : fs.readSectors size lbas out = .ok data)
    (hout : out.length ≤ size) : data.length ≤ size := by
  induction lbas generalizing out with
  | nil =>
    cases h
    exact hout
  | cons lba lbas ih =>
    unfold FatFs.readSectors at h
    split_ifs at h with hfull
    · cases h
      exact hout
    cases hread : fs.rsec lba with
    | error e =>
      rw [hread] at h
      cases h
    | ok buf =>
      rw [hread] at h
      refine ih h ?_
      rw [length_append, length_take]
      omega

variable (hi : Inv fs G ∅)
include hi

theorem length_readFile (h : fs.readFile path = .ok data) : data.length < 2 ^ 32 := by
  unfold FatFs.readFile at h
  cases hresolve : fs.resolve path with
  | error e =>
    rw [hresolve] at h
    cases h
  | ok found =>
    obtain ⟨c, size, isDir⟩ := found
    rw [hresolve, ok_bind] at h
    dsimp only at h
    split_ifs at h with hdir hempty
    · cases h
      decide
    have hname : (FatFs.splitParent path).2 ≠ [] := by
      intro hname
      unfold FatFs.resolve at hresolve
      rw [(splitParent_of_nil hname).1] at hresolve
      cases hresolve
      exact hdir rfl
    obtain ⟨d, -, -, g, -, hsize, -, -⟩ := hi.resolve_found hname hresolve
    have hlength : data.length ≤ size := length_readSectors h (Nat.zero_le _)
    have hsmall : g.entry.size < 256 ^ 4 := rd_lt 4 _ _
    omega

theorem owned_rename (hroom : ∀ data, fs.readFile old = .ok data → fs.RoomFor new data) :
    Owned (FatFs.rename old new fs).2 := by
  unfold FatFs.rename
  cases hdata : fs.readFile old with
  | error e =>
    rw [Action.read_bind_of_error fs hdata]
    exact ⟨G, hi⟩
  | ok data =>
    rw [Action.read_bind fs hdata]
    have howned := owned_writeFile hi (length_readFile hi hdata) (hroom data hdata)
    cases hwrite : FatFs.writeFile new data fs with
    | mk result middle =>
      rw [hwrite] at howned
      cases result with
      | error e =>
        rw [Action.bind_of_error hwrite]
        exact howned
      | ok u =>
        rw [Action.bind_of_ok hwrite]
        obtain ⟨G', hinv⟩ := howned
        exact owned_removeFile hinv old

omit hi in
theorem owned_step (howned : Owned fs) (hsafe : Safe fs call) :
    Owned (fatMachine.step fs call).1 := by
  obtain ⟨G, hi⟩ := howned
  cases call with
  | writeFile path data => exact owned_writeFile hi hsafe.1 hsafe.2
  | createDir path => exact owned_createDir hi path
  | removeFile path => exact owned_removeFile hi path
  | removeDir path => exact owned_removeDir hi path hsafe
  | rename old new => exact owned_rename hi hsafe

/-! ## Places -/

/-- What is reached from the root: a position, as the indices in the listings on the way, and the
item there. -/
inductive FatFs.Places (fs : FatFs) : List Nat → Item → Prop
  | root : fs.Places [] ⟨[], fs.bpb.rootCluster, 0, true⟩
  | child {p : List Nat} {i : Nat} {dir item : Item} {items : List Item} : fs.Places p dir →
      dir.isDir = true → fs.parseDir dir.first = .ok items → items[i]? = some item →
      fs.Places (i :: p) item

/-- The clusters of an item: those of a directory end in an end mark, and so do those of a file
that has any; a file has as many as its size asks for. -/
def FatFs.ChainOf (fs : FatFs) (item : Item) (l : List Nat) : Prop :=
  if item.isDir then l ≠ [] ∧ fs.HasChain item.first l
  else l.length = FatFs.clustersFor fs.bpb item.size ∧
    (l = [] ∧ item.first < 2 ∨ l ≠ [] ∧ fs.HasChain item.first l)

structure Consistent (fs : FatFs) : Prop where
  mirrored : fs.bpb.numFats = 2 ∧ ∀ i < fs.bpb.spf,
    fs.dev.sector (fs.bpb.reserved + fs.bpb.spf + i) = fs.dev.sector (fs.bpb.reserved + i)
  readable : ∀ p dir, fs.Places p dir → dir.isDir = true → ∃ items, fs.parseDir dir.first = .ok items
  chains : ∀ p item, fs.Places p item → ∃ l, fs.ChainOf item l ∧ ∀ c ∈ l, fs.fatNext c ≠ 0
  disjoint : ∀ p q item item' l l', fs.Places p item → fs.Places q item' → p ≠ q →
    fs.ChainOf item l → fs.ChainOf item' l' → ∀ c ∈ l, c ∉ l'

def FatFs.listed (fs : FatFs) (l : List Nat) : List Group := (fs.dirGroups l).filter Group.isListed

omit hi in
theorem slots_groupsFrom (pending es : List (Slot × Entry)) :
    ((groupsFrom pending es).map Group.slot).Sublist (es.map Prod.fst) := by
  induction es generalizing pending with
  | nil => exact .slnil
  | cons e es ih =>
    unfold groupsFrom
    split_ifs
    · exact (ih _).cons _
    · exact (ih _).cons _
    · exact (ih _).cons _
    · exact (ih _).cons_cons _

theorem Inv.nodup_listed (hd : d ∈ G.dirs) : ((fs.listed (G.chain d)).map Group.slot).Nodup := by
  have hslots : (fs.bpb.slots ((G.chain d).take slotGuard)).Nodup := by
    refine Bpb.nodup_slots ?_ fun c hc => (hi.inVolume d (.inl hd) c (mem_of_mem_take hc)).two_le
    exact ((hi.chain d (.inl hd)).nodup not_isEnd_of_isCluster).sublist (take_sublist ..)
  have hplaced : ((fs.placed (fs.bpb.slots ((G.chain d).take slotGuard))).map Prod.fst) =
      fs.bpb.slots ((G.chain d).take slotGuard) := by simp [FatFs.placed, Function.comp_def]
  rw [← hplaced] at hslots
  refine hslots.sublist ?_
  refine ((filter_sublist ..).map _).trans ((slots_groupsFrom [] _).trans ?_)
  exact (takeWhile_sublist _).map _

/-- An item below the root stands for a live entry of the directory that lists it. -/
structure ListedAt (fs : FatFs) (G : Owners) (d i : Nat) (item : Item) (g : Group) : Prop where
  dir_mem : d ∈ G.dirs
  index : (fs.listed (G.chain d))[i]? = some g
  item_eq : item = g.item
  live : LiveAt fs G g.slot
  entry_eq : g.entry = fs.entryAt g.slot
  slot_mem : g.slot ∈ fs.bpb.slots (G.chain d)

omit hi in
theorem ListedAt.refers (h : ListedAt fs G d i item g) (hi : Inv fs G ∅) :
    Refers fs.bpb G g.entry := by
  rw [h.entry_eq]
  exact hi.refers g.slot h.live (Set.notMem_empty _)

theorem Inv.listedAt (hd : d ∈ G.dirs) (hparse : fs.parseDir d = .ok items)
    (hitem : items[i]? = some item) : ∃ g, ListedAt fs G d i item g := by
  rw [(hi.dirChain hd).parseDir_eq hi.sound] at hparse
  cases hparse
  rw [getElem?_map, Option.map_eq_some_iff] at hitem
  obtain ⟨g, hg, rfl⟩ := hitem
  obtain ⟨hmem, hlisted⟩ := mem_filter.mp (mem_of_getElem? hg)
  obtain ⟨hlive, hentry, hslot⟩ := hi.live_of_listed hd hmem hlisted
  exact ⟨g, hd, hg, rfl, hlive, hentry, Bpb.slots_mono (fun c hc => mem_of_mem_take hc) hslot⟩

theorem Inv.places_dir (h : fs.Places p item) (hdir : item.isDir = true) : item.first ∈ G.dirs := by
  induction h with
  | root => exact hi.root_eq ▸ hi.root
  | child hplace hparent hparse hitem ih =>
    obtain ⟨g, hlisted⟩ := hi.listedAt (ih hparent) hparse hitem
    have hrefers := hlisted.refers hi
    rw [hlisted.item_eq] at hdir ⊢
    cases hrefers with
    | dir _ hmem _ => exact hmem
    | empty hfile _ _ => exact absurd (hfile.symm.trans hdir) (by simp)
    | file hfile _ _ => exact absurd (hfile.symm.trans hdir) (by simp)

theorem Inv.places_child (h : fs.Places (i :: p) item) :
    ∃ dir g, fs.Places p dir ∧ ListedAt fs G dir.first i item g := by
  cases h with
  | child hplace hparent hparse hitem =>
    obtain ⟨g, hlisted⟩ := hi.listedAt (hi.places_dir hplace hparent) hparse hitem
    exact ⟨_, g, hplace, hlisted⟩

theorem Inv.places_nil (h : fs.Places [] item) : item.first = 2 ∧ item.isDir = true := by
  cases h with
  | root => exact ⟨hi.root_eq, rfl⟩

omit hi in
theorem ListedAt.first_ne_root (h : ListedAt fs G d i item g) (hi : Inv fs G ∅) :
    item.first ≠ 2 := by
  rw [h.item_eq]
  intro hroot
  have hfirst : g.entry.first = 2 := hroot
  cases h.refers hi with
  | dir _ _ hne => exact hne hfirst
  | empty _ hzero _ => omega
  | file _ hmem _ => exact hi.apart 2 hi.root (hfirst ▸ hmem)

theorem Inv.places_inj (h : fs.Places p item) (h' : fs.Places q item')
    (hsame : item.first = item'.first) (hzero : item.first ≠ 0) : p = q := by
  induction p generalizing q item item' with
  | nil =>
    cases q with
    | nil => rfl
    | cons j q =>
      obtain ⟨dir, g, -, hlisted⟩ := hi.places_child h'
      exact absurd (hsame ▸ (hi.places_nil h).1) (hlisted.first_ne_root hi)
  | cons i p ih =>
    obtain ⟨dir, g, hplace, hlisted⟩ := hi.places_child h
    cases q with
    | nil => exact absurd (hsame.trans (hi.places_nil h').1) (hlisted.first_ne_root hi)
    | cons j q =>
      obtain ⟨dir', g', hplace', hlisted'⟩ := hi.places_child h'
      have hfirst : (fs.entryAt g.slot).first = (fs.entryAt g'.slot).first := by
        rw [hlisted.item_eq, hlisted'.item_eq] at hsame
        rw [← hlisted.entry_eq, ← hlisted'.entry_eq]
        exact hsame
      have hne : (fs.entryAt g.slot).first ≠ 0 := by
        rw [hlisted.item_eq] at hzero
        rw [← hlisted.entry_eq]
        exact hzero
      -- One slot, so one directory, and by the induction hypothesis one position of it.
      have hslot : g.slot = g'.slot := hi.unique _ _ hlisted.live hlisted'.live
        (Set.notMem_empty _) (Set.notMem_empty _) hfirst hne
      obtain ⟨⟨k, hk, hlba⟩, -⟩ := Bpb.mem_slots.mp hlisted.slot_mem
      obtain ⟨⟨k', hk', hlba'⟩, -⟩ := Bpb.mem_slots.mp (hslot ▸ hlisted'.slot_mem)
      obtain ⟨hdir, -⟩ := hi.eq_of_mem_slots hlisted.dir_mem hlisted'.dir_mem hk hk' hlba hlba'
      have htwo : 2 ≤ dir.first :=
        (hi.inVolume _ (.inl hlisted.dir_mem) _ (hi.head_mem (.inl hlisted.dir_mem))).two_le
      obtain rfl := ih hplace hplace' hdir (by omega)
      have hindex : i = j := by
        have hi' := hlisted.index
        have hj := hlisted'.index
        rw [← hdir] at hj
        obtain ⟨hlt, -⟩ := List.getElem?_eq_some_iff.mp hi'
        refine (getElem?_inj (by simpa using hlt) (hi.nodup_listed hlisted.dir_mem)).mp ?_
        rw [getElem?_map, getElem?_map, hi', hj, Option.map_some, Option.map_some, hslot]
      rw [hindex]

/-! ## Consistency -/

theorem Inv.places_head (h : fs.Places p item) : item.first = 0 ∨ G.IsHead item.first := by
  cases p with
  | nil =>
    rw [(hi.places_nil h).1]
    exact .inr (.inl hi.root)
  | cons i p =>
    obtain ⟨dir, g, -, hlisted⟩ := hi.places_child h
    rw [hlisted.item_eq]
    cases hlisted.refers hi with
    | dir _ hmem _ => exact .inr (.inl hmem)
    | empty _ hzero _ => exact .inl hzero
    | file _ hmem _ => exact .inr (.inr hmem)

theorem Inv.chainOf_eq (h : fs.Places p item) (hl : fs.ChainOf item l) :
    l = [] ∨ (G.IsHead item.first ∧ l = G.chain item.first) := by
  have hchain : l = [] ∨ fs.HasChain item.first l := by
    unfold FatFs.ChainOf at hl
    split_ifs at hl
    · exact .inr hl.2
    · exact hl.2.imp And.left And.right
  rcases hchain with hnil | hchain
  · exact .inl hnil
  rcases hi.places_head h with hzero | hhead
  · left
    rw [hzero] at hchain
    cases hchain with
    | nil _ => rfl
    | cons hnode _ => exact absurd hnode.1 (by decide)
  · exact .inr ⟨hhead, hchain.unique not_isEnd_of_isCluster (hi.chain _ hhead)⟩

omit hi in
theorem clustersFor_zero (hspc : 0 < bpb.spc) : FatFs.clustersFor bpb 0 = 0 := by
  have hpos : 0 < bpb.clusterBytes := Nat.mul_pos hspc (by decide)
  exact Nat.div_eq_of_lt (by omega)

theorem Inv.exists_chainOf (h : fs.Places p item) :
    ∃ l, fs.ChainOf item l ∧ ∀ c ∈ l, fs.fatNext c ≠ 0 := by
  have hdir : ∀ {item : Item}, item.isDir = true → item.first ∈ G.dirs →
      ∃ l, fs.ChainOf item l ∧ ∀ c ∈ l, fs.fatNext c ≠ 0 := by
    intro item hkind hmem
    have hchain := hi.chain _ (.inl hmem)
    refine ⟨G.chain item.first, ?_, fun c hc => fatNext_ne_zero_of_mem hchain hc⟩
    unfold FatFs.ChainOf
    rw [if_pos hkind]
    exact ⟨hi.nonempty _ (.inl hmem), hchain⟩
  cases p with
  | nil =>
    obtain ⟨hfirst, hkind⟩ := hi.places_nil h
    exact hdir hkind (hfirst ▸ hi.root)
  | cons i p =>
    obtain ⟨parent, g, -, hlisted⟩ := hi.places_child h
    rw [hlisted.item_eq]
    cases hlisted.refers hi with
    | dir hkind hmem _ => exact hdir hkind hmem
    | empty hkind hzero hsize =>
      refine ⟨[], ?_, by simp⟩
      have hkind' : g.item.isDir = false := hkind
      have hfirst : g.item.first = 0 := hzero
      have hlength : g.item.size = 0 := hsize
      unfold FatFs.ChainOf
      rw [if_neg (by rw [hkind']; decide), hfirst, hlength, clustersFor_zero hi.sound.spc_pos]
      exact ⟨rfl, .inl ⟨rfl, by decide⟩⟩
    | file hkind hmem hlength =>
      have hchain := hi.chain _ (.inr hmem)
      have hkind' : g.item.isDir = false := hkind
      refine ⟨G.chain g.entry.first, ?_, fun c hc => fatNext_ne_zero_of_mem hchain hc⟩
      unfold FatFs.ChainOf
      rw [if_neg (by rw [hkind']; decide)]
      exact ⟨hlength, .inr ⟨hi.nonempty _ (.inr hmem), hchain⟩⟩

theorem Inv.consistent : Consistent fs := by
  refine ⟨⟨hi.sound.numFats, hi.sound.mirrored⟩, fun p dir h hdir => ?_,
    fun p item h => hi.exists_chainOf h, ?_⟩
  · exact ⟨_, (hi.dirChain (hi.places_dir h hdir)).parseDir_eq hi.sound⟩
  · intro p q item item' l l' h h' hne hl hl' c hc hc'
    rcases hi.chainOf_eq h hl with rfl | ⟨hhead, rfl⟩
    · cases hc
    rcases hi.chainOf_eq h' hl' with rfl | ⟨hhead', rfl⟩
    · cases hc'
    have htwo := (hi.inVolume _ hhead _ (hi.head_mem hhead)).two_le
    exact hne (hi.places_inj h h' (hi.disjoint _ _ hhead hhead' c hc hc') (by omega))

omit hi

/-- A volume that the formatter wrote is consistent after every run of safe calls. -/
theorem consistent_of_safe {total volumeId : UInt32} {label : Str} {dev : SectorDevice}
    (h : Formatted total volumeId label dev fs) (calls : List Call)
    (hsafe : fatMachine.Allowed Safe fs calls) : Consistent (fatMachine.run fs calls) := by
  obtain ⟨G, hi⟩ := CallMachine.run_invariant Owned (fun _ _ howned hsafe => owned_step howned hsafe)
    ⟨_, h.inv⟩ hsafe
  exact hi.consistent

/-- A device of 40 sectors and the volume that the formatter makes of it. -/
def smallDevice : SectorDevice := ⟨40, fun _ => Sector.zero, 0, fun _ _ => false, fun _ _ => false⟩

def smallVolume : FatFs :=
  (FatFs.mount (smallDevice.writeAll (formatFat32 40 7 []))).toOption.getD
    ⟨smallDevice, ⟨0, 0, 0, 0, 0, 0⟩, 0⟩

theorem formatted_smallVolume : Formatted 40 7 [] smallDevice smallVolume := by
  refine ⟨⟨fun _ _ => rfl, fun _ _ => rfl⟩, by decide, by decide +kernel, ?_⟩
  have hok : (FatFs.mount (smallDevice.writeAll (formatFat32 40 7 []))).toOption.isSome = true := by
    decide +kernel
  unfold smallVolume
  cases hmount : FatFs.mount (smallDevice.writeAll (formatFat32 40 7 [])) with
  | error e =>
    rw [hmount] at hok
    cases hok
  | ok fs => rfl

theorem roomFor_smallVolume (data : Bytes) : smallVolume.RoomFor ['/', 'F'] data := by
  have hroot : (smallVolume.resolve (FatFs.splitParent ['/', 'F']).1).toOption = some (2, 0, true) := by
    decide +kernel
  have hnone : (smallVolume.findInDir 2 (FatFs.splitParent ['/', 'F']).2).toOption = none := by
    decide +kernel
  intro d size cl sz hresolve hfind
  rw [hresolve] at hroot
  cases hroot
  rw [hfind] at hnone
  cases hnone

theorem consistent_of_safe_smallVolume :
    fatMachine.Allowed Safe smallVolume
      [.writeFile ['/', 'F'] [1, 2, 3], .createDir ['/', 'D'], .removeDir ['/', 'D']] ∧
      Consistent (fatMachine.run smallVolume
        [.writeFile ['/', 'F'] [1, 2, 3], .createDir ['/', 'D'], .removeDir ['/', 'D']]) := by
  have hsafe : fatMachine.Allowed Safe smallVolume
      [.writeFile ['/', 'F'] [1, 2, 3], .createDir ['/', 'D'], .removeDir ['/', 'D']] :=
    ⟨⟨by decide, roomFor_smallVolume _⟩, trivial, fun hroot => absurd hroot (by decide), trivial⟩
  exact ⟨hsafe, consistent_of_safe formatted_smallVolume _ hsafe⟩

/-- Removing an empty root frees its chain before the missing entry is noticed. -/
theorem not_consistent_removeDir_root :
    Formatted 40 7 [] smallDevice smallVolume ∧
      ¬ Consistent (fatMachine.run smallVolume [.removeDir ['/']]) := by
  refine ⟨formatted_smallVolume, fun hconsistent => ?_⟩
  obtain ⟨l, hl, -⟩ := hconsistent.chains [] _ .root
  have hroot : (fatMachine.run smallVolume [.removeDir ['/']]).bpb.rootCluster = 2 := by decide +kernel
  have hfreed : (fatMachine.run smallVolume [.removeDir ['/']]).fatNext 2 = 0 := by decide +kernel
  obtain ⟨hne, hchain⟩ := hl
  rw [hroot] at hchain
  cases hchain with
  | nil _ => exact hne rfl
  | cons _ hrest =>
    rw [hfreed] at hrest
    cases hrest with
    | nil hend => exact absurd hend (by unfold IsEnd; decide)
    | cons hnode _ => exact absurd hnode.1 (by decide)

end EuroOS.Fat
