import EuroOS.FatEntries
import EuroOS.FatOwnership

/-!
# The operations keep the ownership of clusters

Looking up, reserving slots, writing, updating and deleting entries, each in
terms of the ownership record, and from these the operations of the file system
interface.
-/

namespace EuroOS.Fat

open List FatFs Action

variable {fs : FatFs} {c : Nat}

/-! ## Looking up -/

variable {slots : List Slot} {g : Group} {e : Entry} {l : List Nat}

theorem isListed_of_dot {all : List Slot} (hfront : slots <+: all)
    (hdots : DotsFirst (all.map fs.entryAt)) (hg : g ∈ fs.groups slots) (hdot : g.entry.Dot) :
    g.isListed = false := by
  have hmem : ∀ {slots : List Slot} {g : Group}, g ∈ groupsFrom [] (visible (fs.placed slots)) →
      g.entry ∈ slots.map fs.entryAt := by
    intro slots g hg
    obtain ⟨hslot, hentry, -⟩ := named_of_mem_groups hg
    rw [hentry]
    exact mem_map_of_mem hslot
  rcases hdots with hnone | ⟨a, b, rest, hall, ⟨ha, hname⟩, ⟨hb, hname'⟩, hrest⟩
  · exact absurd hdot (hnone _ ((hfront.map _).subset (hmem hg)))
  obtain ⟨s, all, rfl, rfl, hmore⟩ := map_eq_cons_iff.mp hall
  obtain ⟨s', all, rfl, rfl, rfl⟩ := map_eq_cons_iff.mp hmore
  have hgroup : ∀ {e : Slot × Entry} {es : List (Slot × Entry)}, e.2.Dot →
      groupsFrom [] (visible (e :: es)) = ⟨[], e.1, e.2⟩ :: groupsFrom [] (visible es) := by
    intro e es he
    have hused := he.named.used
    simp only [Entry.isFree, he.dot] at hused
    have hdeleted : e.2.isDeleted = false := by simp [Entry.isDeleted, he.dot]
    rw [visible, takeWhile_cons_of_pos (by simp [he.dot]), groupsFrom, hdeleted,
      he.named.notFragment, he.named.notVolume]
    rfl
  cases slots with
  | nil => cases hg
  | cons t slots =>
    obtain ⟨rfl, hrestFront⟩ := cons_prefix_cons.mp hfront
    unfold groups placed at hg
    rw [map_cons, hgroup ha] at hg
    rcases mem_cons.mp hg with rfl | hg
    · simp [Group.isListed, Group.name, lfnText, entryName, Str.trimEndBy, hname]
    cases slots with
    | nil => cases hg
    | cons t' slots =>
      obtain ⟨rfl, hlast⟩ := cons_prefix_cons.mp hrestFront
      rw [map_cons, hgroup hb] at hg
      rcases mem_cons.mp hg with rfl | hg
      · simp [Group.isListed, Group.name, lfnText, entryName, Str.trimEndBy, hname']
      · exact absurd hdot (hrest _ ((hlast.map _).subset (hmem hg)))

theorem Inv.live_of_listed (hi : Inv fs G X) (hd : d ∈ G.dirs) (hg : g ∈ fs.dirGroups (G.chain d))
    (hlisted : g.isListed = true) : LiveAt fs G g.slot ∧ g.entry = fs.entryAt g.slot ∧
      g.slot ∈ fs.bpb.slots ((G.chain d).take slotGuard) := by
  obtain ⟨hslot, hentry, hnamed⟩ := named_of_mem_groups hg
  have hfront : fs.bpb.slots ((G.chain d).take slotGuard) <+: fs.bpb.slots (G.chain d) := by
    conv_rhs => rw [← take_append_drop slotGuard (G.chain d)]
    rw [Bpb.slots_append]
    exact prefix_append ..
  have hnotDot : g.entry.byte 0 ≠ 0x2E := by
    intro hdot
    rw [isListed_of_dot hfront (hi.dots d hd) hg ⟨hnamed, hdot⟩] at hlisted
    cases hlisted
  refine ⟨⟨⟨d, hd, hfront.subset hslot⟩, ?_⟩, hentry, hslot⟩
  rw [← hentry]
  exact ⟨hnamed, hnotDot⟩

structure FoundAt (fs : FatFs) (G : Owners) (d : Nat) (name : Str) (g : Group) : Prop where
  found : findGroup (fs.dirGroups (G.chain d)) name = some g
  live : LiveAt fs G g.slot
  entry_eq : g.entry = fs.entryAt g.slot
  slot_mem : g.slot ∈ fs.bpb.slots ((G.chain d).take slotGuard)

theorem Inv.foundAt (hi : Inv fs G X) (hd : d ∈ G.dirs)
    (hg : findGroup (fs.dirGroups (G.chain d)) name = some g) : FoundAt fs G d name g := by
  obtain ⟨hmem, hlisted, -⟩ := mem_of_findGroup hg
  obtain ⟨hlive, hentry, hslot⟩ := hi.live_of_listed hd hmem hlisted
  exact ⟨hg, hlive, hentry, hslot⟩

theorem Inv.findInDir_ok (hi : Inv fs G X) (hd : d ∈ G.dirs)
    (h : fs.findInDir d name = .ok (first, size, isDir)) :
    ∃ g, FoundAt fs G d name g ∧ g.entry.first = first ∧ g.entry.size = size ∧
      g.entry.isDir = isDir := by
  rw [(hi.dirChain hd).findInDir_eq hi.sound] at h
  cases hg : findGroup (fs.dirGroups (G.chain d)) name with
  | none => simp [hg] at h
  | some g =>
    rw [hg] at h
    cases h
    exact ⟨g, hi.foundAt hd hg, rfl, rfl, rfl⟩

theorem Inv.resolveFrom_dir (hi : Inv fs G ∅) (hcl : isDir = true → cl ∈ G.dirs)
    (h : fs.resolveFrom parts (cl, size, isDir) = .ok (first, sz, true)) : first ∈ G.dirs := by
  induction parts generalizing cl size isDir with
  | nil =>
    cases h
    exact hcl rfl
  | cons part parts ih =>
    unfold resolveFrom at h
    cases isDir with
    | false => cases h
    | true =>
      have hd := hcl rfl
      cases hfind : fs.findInDir cl part with
      | error e =>
        rw [hfind] at h
        cases h
      | ok found =>
        obtain ⟨first', size', dir'⟩ := found
        rw [hfind] at h
        obtain ⟨g, hg, rfl, rfl, rfl⟩ := hi.findInDir_ok hd hfind
        refine ih (fun hdir => ?_) h
        have hrefers := hi.refers g.slot hg.live (Set.notMem_empty _)
        rw [← hg.entry_eq] at hrefers
        cases hrefers with
        | dir _ hmem _ =>
          have htwo := (hi.inVolume _ (.inl hmem) _ (hi.head_mem (.inl hmem))).two_le
          rw [if_pos htwo]
          exact hmem
        | empty hfile _ _ => rw [hdir] at hfile; cases hfile
        | file hfile _ _ => rw [hdir] at hfile; cases hfile

theorem Inv.resolve_dir (hi : Inv fs G ∅) (h : fs.resolve path = .ok (d, size, true)) :
    d ∈ G.dirs :=
  hi.resolveFrom_dir (fun _ => hi.root_eq ▸ hi.root) h

/-! ## Writing one slot -/

structure Rewrites (fs fs' : FatFs) (slot : Slot) (e : Entry) : Prop where
  changes : Changes fs fs' ∅ {slot.1}
  entry : fs'.entryAt slot = e
  other : ∀ s, Aligned s → s ≠ slot → fs'.entryAt s = fs.entryAt s

theorem rewrites_put (h : Sound fs) (halign : Aligned slot) (hdata : fs.bpb.dataStart ≤ slot.1)
    (hsec : ∀ i, i < slot.2 ∨ slot.2 + 32 ≤ i → sec.bytes[i]? = (fs.dev.sector slot.1).bytes[i]?) :
    Rewrites fs (fs.put slot.1 sec) slot (slice sec.bytes slot.2 32) := by
  refine ⟨changes_put h hdata, ?_, fun s hs hne => ?_⟩
  · unfold entryAt
    rw [put_sector_self]
  · by_cases hlba : s.1 = slot.1
    · obtain ⟨i, hi, hoff⟩ := halign
      obtain ⟨j, hj, hoff'⟩ := hs
      have hdiff : i ≠ j := by
        rintro rfl
        exact hne (Prod.ext hlba (hoff'.trans hoff.symm))
      unfold entryAt
      rw [hlba, put_sector_self]
      refine slice_congr fun k hlow hhigh => hsec k ?_
      omega
    · exact entryAt_congr (put_sector_of_ne hlba)

theorem patchSector_eq (h : Sound fs) (hlba : lba < fs.dev.blocks) :
    patchSector lba off bytes fs = (.ok (), fs.put lba ((fs.dev.sector lba).patch off bytes)) := by
  unfold patchSector
  rw [read_bind fs (h.rsec_eq hlba)]
  exact wsec_eq h.faultFree hlba

theorem Aligned.fits (h : Aligned slot) : slot.2 + 32 ≤ sectorSize := by
  obtain ⟨i, hi, hoff⟩ := h
  unfold sectorSize
  omega

theorem writeEntry_spec (h : Sound fs) (halign : Aligned slot) (hdata : fs.bpb.dataStart ≤ slot.1)
    (hlba : slot.1 < fs.dev.blocks) (he : e.length = 32) :
    ∃ fs', FatFs.writeEntry slot e fs = (.ok (), fs') ∧ Rewrites fs fs' slot e := by
  have hfits : slot.2 + e.length ≤ sectorSize := he ▸ halign.fits
  refine ⟨_, patchSector_eq h hlba, ?_⟩
  have hrewrites : Rewrites fs (fs.put slot.1 ((fs.dev.sector slot.1).patch slot.2 e)) slot
      (slice ((fs.dev.sector slot.1).patch slot.2 e).bytes slot.2 32) :=
    rewrites_put h halign hdata fun i hi => Sector.getElem?_patch_of_outside hfits (by omega)
  have hself : slice ((fs.dev.sector slot.1).patch slot.2 e).bytes slot.2 e.length = e :=
    Sector.slice_patch_self hfits
  rw [he] at hself
  rwa [hself] at hrewrites

theorem deleteSlot_spec (h : Sound fs) (halign : Aligned slot) (hdata : fs.bpb.dataStart ≤ slot.1)
    (hlba : slot.1 < fs.dev.blocks) :
    ∃ fs' e, patchSector slot.1 slot.2 [0xE5] fs = (.ok (), fs') ∧ Rewrites fs fs' slot e ∧
      e.byte 0 = 0xE5 := by
  have hfits := halign.fits
  have hone : slot.2 + [(0xE5 : UInt8)].length ≤ sectorSize := by
    rw [length_singleton]
    omega
  refine ⟨_, _, patchSector_eq h hlba, rewrites_put h halign hdata fun i hi =>
    Sector.getElem?_patch_of_outside hone (by rw [length_singleton]; omega), ?_⟩
  have hself : slice ((fs.dev.sector slot.1).patch slot.2 [0xE5]).bytes slot.2 [(0xE5 : UInt8)].length =
      [0xE5] := Sector.slice_patch_self hone
  have hbyte := congrArg (fun b : Bytes => b[0]?) hself
  unfold Entry.byte
  simp only [slice, length_singleton, getElem?_take_of_lt (show 0 < 1 by decide),
    getElem?_take_of_lt (show 0 < 32 by decide)] at hbyte ⊢
  rw [hbyte]
  rfl

theorem rd_slice (b : Bytes) (h : i + k ≤ n) : rd k (slice b o n) i = rd k b (o + i) := by
  unfold rd slice
  rw [drop_take, take_take, drop_drop, Nat.min_eq_left (by omega)]

structure Updated (e e' : Entry) (first size : Nat) : Prop where
  kept : ∀ i < 20, e'.byte i = e.byte i
  first_eq : e'.first = first
  size_eq : e'.size = size

theorem updated_patches (sec : Sector) (halign : Aligned slot) (hfirst : first < 2 ^ 32)
    (hsize : size < 2 ^ 32) :
    let sec' := ((sec.patch (slot.2 + 20) (le 2 (first / 2 ^ 16))).patch (slot.2 + 26)
      (le 2 first)).patch (slot.2 + 28) (le 4 size)
    (∀ i, i < slot.2 ∨ slot.2 + 32 ≤ i → sec'.bytes[i]? = sec.bytes[i]?) ∧
      Updated (slice sec.bytes slot.2 32) (slice sec'.bytes slot.2 32) first size := by
  have hfits := halign.fits
  have hlen2 : ∀ n, (le 2 n).length = 2 := fun n => length_le 2 n
  have hlen4 : ∀ n, (le 4 n).length = 4 := fun n => length_le 4 n
  intro sec'
  have hout : ∀ i, i < slot.2 + 20 ∨ slot.2 + 32 ≤ i → sec'.bytes[i]? = sec.bytes[i]? := by
    intro i hi
    rw [Sector.getElem?_patch_of_outside (by rw [hlen4]; omega) (by rw [hlen4]; omega),
      Sector.getElem?_patch_of_outside (by rw [hlen2]; omega) (by rw [hlen2]; omega),
      Sector.getElem?_patch_of_outside (by rw [hlen2]; omega) (by rw [hlen2]; omega)]
  have hhigh : rd 2 sec'.bytes (slot.2 + 20) = first / 2 ^ 16 := by
    have hself : slice (sec.patch (slot.2 + 20) (le 2 (first / 2 ^ 16))).bytes (slot.2 + 20)
        (le 2 (first / 2 ^ 16)).length = le 2 (first / 2 ^ 16) :=
      Sector.slice_patch_self (by rw [hlen2]; omega)
    rw [hlen2] at hself
    rw [rd_eq_slice, Sector.slice_patch_of_disjoint (by rw [hlen4]; omega) (by omega),
      Sector.slice_patch_of_disjoint (by rw [hlen2]; omega) (by omega), hself, leNat_le]
    omega
  have hlow : rd 2 sec'.bytes (slot.2 + 26) = first % 2 ^ 16 := by
    have hself : ∀ sec : Sector, slice (sec.patch (slot.2 + 26) (le 2 first)).bytes (slot.2 + 26)
        (le 2 first).length = le 2 first := fun sec =>
      Sector.slice_patch_self (by rw [hlen2]; omega)
    simp only [hlen2] at hself
    rw [rd_eq_slice, Sector.slice_patch_of_disjoint (by rw [hlen4]; omega) (by omega), hself,
      leNat_le]
    norm_num
  have hsz : rd 4 sec'.bytes (slot.2 + 28) = size := by
    have hself : ∀ sec : Sector, slice (sec.patch (slot.2 + 28) (le 4 size)).bytes (slot.2 + 28)
        (le 4 size).length = le 4 size := fun sec =>
      Sector.slice_patch_self (by rw [hlen4]; omega)
    simp only [hlen4] at hself
    rw [rd_eq_slice, hself, leNat_le]
    omega
  refine ⟨fun i hi => hout i (by omega), fun i hi => ?_, ?_, ?_⟩
  · unfold Entry.byte slice
    rw [getElem?_take_of_lt (by omega), getElem?_take_of_lt (by omega),
      getElem?_drop, getElem?_drop, hout _ (by omega)]
  · unfold Entry.first
    rw [rd_slice _ (by decide), rd_slice _ (by decide), hhigh, hlow]
    omega
  · unfold Entry.size
    rw [rd_slice _ (by decide), hsz]

theorem updateSlot_spec (h : Sound fs) (halign : Aligned slot) (hdata : fs.bpb.dataStart ≤ slot.1)
    (hfirst : first < 2 ^ 32) (hsize : size < 2 ^ 32) :
    ∃ sec e, sec = ((((fs.dev.sector slot.1).patch (slot.2 + 20) (le 2 (first / 2 ^ 16))).patch
        (slot.2 + 26) (le 2 first)).patch (slot.2 + 28) (le 4 size)) ∧
      Rewrites fs (fs.put slot.1 sec) slot e ∧ Updated (fs.entryAt slot) e first size := by
  obtain ⟨hout, hupdated⟩ := updated_patches (fs.dev.sector slot.1) halign hfirst hsize
  exact ⟨_, _, rfl, rewrites_put h halign hdata hout, hupdated⟩

/-! ## Reserving slots -/

structure IsFreeRun (isFree : Slot → Bool) (slots run : List Slot) : Prop where
  free : ∀ slot ∈ run, isFree slot = true
  part : run <:+: slots

theorem freeRun_spec {isFree : Slot → Bool} {b : Slot → UInt8}
    (hb : ∀ slot, Entry.isFree (b slot) = isFree slot) {need : Nat} {run found front : List Slot}
    (h : FatFs.freeRun need (slots.map fun slot => (slot, b slot)) run = some found)
    (hrun : ∀ slot ∈ run, isFree slot = true) :
    found.length = need ∧ IsFreeRun isFree (front ++ run ++ slots) found := by
  induction slots generalizing run front with
  | nil => cases h
  | cons slot slots ih =>
    simp only [map_cons, FatFs.freeRun, hb] at h
    by_cases hfree : isFree slot = true
    · have hmore : ∀ s ∈ run ++ [slot], isFree s = true := by
        intro s hs
        rcases mem_append.mp hs with hs | hs
        · exact hrun s hs
        · rw [mem_singleton.mp hs]
          exact hfree
      rw [if_pos hfree] at h
      split_ifs at h with hlength
      · cases h
        exact ⟨hlength, hmore, front, slots, by simp⟩
      · simpa using ih h hmore
    · rw [if_neg hfree] at h
      simpa using @ih [] (front ++ run ++ [slot]) h (by simp)

theorem length_le_of_nodup (hnodup : l.Nodup) (hlt : ∀ c ∈ l, c < n) : l.length ≤ n := by
  have hsub : l.toFinset ⊆ Finset.range n := by
    intro c hc
    exact Finset.mem_range.mpr (hlt c (mem_toFinset.mp hc))
  have hcard := Finset.card_le_card hsub
  rwa [toFinset_card_of_nodup hnodup, Finset.card_range] at hcard

theorem lastCluster_eq (hchain : fs.HasChain d (l ++ [z])) (hfuel : l.length < fuel) :
    fs.lastCluster fuel d = some z := by
  induction l generalizing d fuel with
  | nil =>
    obtain ⟨fuel, rfl⟩ := Nat.exists_eq_add_of_lt hfuel
    cases hchain with
    | cons _ hrest =>
      cases hrest with
      | nil hend =>
        unfold IsEnd at hend
        simp only [lastCluster]
        rw [if_neg (by omega)]
  | cons k l ih =>
    obtain ⟨fuel, rfl⟩ : ∃ n, fuel = n + 1 := ⟨fuel - 1, by simp at hfuel; omega⟩
    cases hchain with
    | cons _ hrest =>
      have hnode : IsCluster (fs.fatNext k) := by
        cases l with
        | nil => cases hrest with | cons hnode _ => exact hnode
        | cons _ _ => cases hrest with | cons hnode _ => exact hnode
      simp only [lastCluster]
      rw [if_pos ⟨hnode.2, hnode.1⟩]
      exact ih hrest (by simpa using hfuel)

/-- A directory gets more clusters; everything recorded before stays where and what it is. -/
structure Extended (fs fs' : FatFs) (G G' : Owners) (d : Nat) : Prop where
  bpb : fs'.bpb = fs.bpb
  dirs : G'.dirs = G.dirs
  files : G'.files = G.files
  other : ∀ h, h ≠ d → G'.chain h = G.chain h
  chain : ∃ zs, G'.chain d = G.chain d ++ zs ∧
    ∀ slot ∈ fs.bpb.slots zs, (fs'.entryAt slot).byte 0 = 0x00
  kept : ∀ h, G.IsHead h → ∀ c ∈ G.chain h, ∀ lba ∈ fs.bpb.clusterSectors c,
    fs'.dev.sector lba = fs.dev.sector lba

namespace Extended

theorem refl (fs : FatFs) (G : Owners) (d : Nat) : Extended fs fs G G d :=
  ⟨rfl, rfl, rfl, fun _ _ => rfl, ⟨[], by simp, by simp [Bpb.slots, Bpb.sectorsOf]⟩,
    fun _ _ _ _ _ _ => rfl⟩

variable (he : Extended fs fs' G G' d)
include he

theorem isHead_iff (h : Nat) : G'.IsHead h ↔ G.IsHead h := by
  unfold Owners.IsHead
  rw [he.dirs, he.files]

theorem chain_subset (h : Nat) : ∀ c ∈ G.chain h, c ∈ G'.chain h := by
  intro c hc
  by_cases hne : h = d
  · subst hne
    obtain ⟨zs, hzs, -⟩ := he.chain
    rw [hzs]
    exact mem_append_left _ hc
  · rw [he.other h hne]
    exact hc

theorem entryAt_eq {e : Nat} (hdir : e ∈ G.dirs)
    (hslot : slot ∈ fs.bpb.slots (G.chain e)) : fs'.entryAt slot = fs.entryAt slot := by
  obtain ⟨⟨c, hc, hlba⟩, -⟩ := Bpb.mem_slots.mp hslot
  exact entryAt_congr (he.kept e (.inl hdir) c hc _ hlba)

theorem trans {fs'' : FatFs} {G'' : Owners}
    (he' : Extended fs' fs'' G' G'' d) (hdir : d ∈ G.dirs) : Extended fs fs'' G G'' d := by
  refine ⟨he'.bpb.trans he.bpb, he'.dirs.trans he.dirs, he'.files.trans he.files,
    fun h hne => (he'.other h hne).trans (he.other h hne), ?_, ?_⟩
  · obtain ⟨zs, hzs, hzero⟩ := he.chain
    obtain ⟨zs', hzs', hzero'⟩ := he'.chain
    refine ⟨zs ++ zs', by rw [hzs', hzs, append_assoc], fun slot hslot => ?_⟩
    rw [Bpb.slots_append] at hslot
    rcases mem_append.mp hslot with hslot | hslot
    · have hmem : slot ∈ fs'.bpb.slots (G'.chain d) := by
        rw [he.bpb, hzs, Bpb.slots_append]
        exact mem_append_right _ hslot
      rw [he'.entryAt_eq (he.dirs ▸ hdir) hmem]
      exact hzero slot hslot
    · exact hzero' slot (he.bpb ▸ hslot)
  · intro h hh c hc lba hlba
    rw [he'.kept h ((he.isHead_iff h).mpr hh) c (he.chain_subset h c hc) lba (he.bpb ▸ hlba),
      he.kept h hh c hc lba hlba]

theorem liveAt (hlive : LiveAt fs' G' slot) :
    LiveAt fs G slot ∧ fs'.entryAt slot = fs.entryAt slot := by
  obtain ⟨⟨e, hdir, hslot⟩, hlive⟩ := hlive
  rw [he.dirs] at hdir
  rw [he.bpb] at hslot
  have hold : slot ∈ fs.bpb.slots (G.chain e) →
      LiveAt fs G slot ∧ fs'.entryAt slot = fs.entryAt slot := by
    intro hslot
    have heq := he.entryAt_eq hdir hslot
    rw [heq] at hlive
    exact ⟨⟨⟨e, hdir, hslot⟩, hlive⟩, heq⟩
  by_cases hne : e = d
  · subst hne
    obtain ⟨zs, hzs, hzero⟩ := he.chain
    rw [hzs, Bpb.slots_append] at hslot
    rcases mem_append.mp hslot with hslot | hslot
    · exact hold hslot
    · exact absurd hlive.named (Inv.not_named_of_zero (hzero slot hslot))
  · rw [he.other e hne] at hslot
    exact hold hslot

end Extended

theorem Inv.not_mem_of_free (hi : Inv fs G X) (hfree : fs.fatNext c = 0) (hh : G.IsHead h) :
    c ∉ G.chain h :=
  fun hmem => fatNext_ne_zero_of_mem (hi.chain h hh) hmem hfree

theorem Inv.not_mem_sectors (hi : Inv fs G X) (hc : InVolume fs.bpb c) (hh : G.IsHead h)
    (hnot : c ∉ G.chain h) (hk : k ∈ G.chain h) (hlba : lba ∈ fs.bpb.clusterSectors k) :
    lba ∉ fs.bpb.clusterSectors c := by
  intro hlba'
  have heq := Bpb.eq_of_mem_clusterSectors (hi.inVolume h hh k hk).two_le hc.two_le hlba hlba'
  exact hnot (heq ▸ hk)

theorem extendDir_spec (hi : Inv fs G X) (hd : d ∈ G.dirs) :
    (∃ e, extendDir d fs = (.error e, fs)) ∨
      ∃ c fs', extendDir d fs = (.ok (), fs') ∧ Inv fs' (G.extend d c) X ∧
        Extended fs fs' G (G.extend d c) d := by
  have hhead : G.IsHead d := .inl hd
  obtain ⟨l, z, hlz⟩ : ∃ l z, G.chain d = l ++ [z] :=
    (eq_nil_or_concat' _).resolve_left (hi.nonempty d hhead)
  have hchain := hi.chain d hhead
  have hnodup := hchain.nodup not_isEnd_of_isCluster
  have hbound : (G.chain d).length ≤ eoc :=
    length_le_of_nodup hnodup fun k hk => (hchain.isNode_of_mem hk).2
  rw [hlz] at hchain hnodup hbound
  have hlast : fs.lastCluster (2 ^ 28 + 1) d = some z := by
    refine lastCluster_eq hchain ?_
    rw [length_append, length_singleton] at hbound
    unfold eoc at hbound
    omega
  unfold extendDir
  rw [get_bind, hlast]
  dsimp only
  rcases allocCluster_cases hi.sound with ⟨e, halloc⟩ | ⟨c, taken, halloc, htaken⟩
  · exact .inl ⟨e, bind_of_error halloc _⟩
  right
  have hin := htaken.inVolume
  have hnew : ∀ h, G.IsHead h → c ∉ G.chain h := fun h hh => hi.not_mem_of_free htaken.free hh
  have hz : InVolume fs.bpb z := hi.inVolume d hhead z (by rw [hlz]; simp)
  have hcz : c ≠ z := by
    rintro rfl
    exact hnew d hhead (by rw [hlz]; simp)
  obtain ⟨zeroed, hzero, hcleared, hsectors⟩ :=
    zeroCluster_spec htaken.changes.sound (htaken.changes.bpb ▸ hin)
  have hfirst := htaken.changes.trans hcleared
  obtain ⟨fs', hset, hlinked, hlink⟩ := setFat_changes (v := c) hfirst.sound
    (hfirst.bpb ▸ hz.hasEntry) (by have htwo := hz.two_le; omega)
  have hall := hfirst.trans hlinked
  have hentryC : c < zeroed.bpb.tableSize := hfirst.bpb ▸ hin.hasEntry
  have hmark : fs'.fatNext c = lastMark := by
    rw [hlinked.table c hentryC (by simpa using hcz),
      hcleared.table c (htaken.changes.bpb ▸ hin.hasEntry) (by simp), htaken.marked]
  have hrelinked : fs'.HasChain d (l ++ [z, c]) := by
    refine hchain.append_of_relinked (fun k hk => ?_) (hi.sound.isCluster hin)
      (hlink.trans (hi.sound.mod_eq hin)) (by rw [hmark]; unfold IsEnd; decide)
    have hmem : k ∈ G.chain d := by rw [hlz]; simp [hk]
    refine hall.table k (hi.inVolume d hhead k hmem).hasEntry ?_
    rintro ((rfl | hk') | rfl)
    · exact hnew d hhead hmem
    · exact hk'
    · exact (nodup_append.mp hnodup).2.2 _ hk _ (mem_singleton_self _) rfl
  have hS : ∀ h, G.IsHead h → ∀ k ∈ G.chain h, ∀ lba ∈ fs.bpb.clusterSectors k,
      lba ∉ ((∅ ∪ {lba | lba ∈ taken.bpb.clusterSectors c}) ∪ ∅ : Set Nat) := by
    intro h hh k hk lba hlba hmem
    rw [htaken.changes.bpb] at hmem
    rw [Set.empty_union, Set.union_empty] at hmem
    exact hi.not_mem_sectors hin hh (hnew h hh) hk hlba hmem
  have hzeroed : ∀ slot ∈ fs.bpb.slots [c], (fs'.entryAt slot).byte 0 = 0x00 := by
    intro slot hslot
    obtain ⟨⟨k, hk, hlba⟩, -⟩ := Bpb.mem_slots.mp hslot
    obtain rfl := mem_singleton.mp hk
    refine byte_zero_of_zero_sector ?_
    rw [hlinked.data slot.1 (hfirst.bpb ▸ Bpb.dataStart_le_of_mem hlba) (by simp)]
    exact hsectors slot.1 (htaken.changes.bpb ▸ hlba)
  have hkeep : ∀ h, G.IsHead h → ∀ k ∈ G.chain h, ∀ lba ∈ fs.bpb.clusterSectors k,
      fs'.dev.sector lba = fs.dev.sector lba := fun h hh k hk lba hlba =>
    hall.data lba (Bpb.dataStart_le_of_mem hlba) (hS h hh k hk lba hlba)
  refine ⟨c, fs', ?_, ?_, ⟨hall.bpb, rfl, rfl, fun h hne => Function.update_of_ne hne ..,
    ⟨[c], Function.update_self .., hzeroed⟩, hkeep⟩⟩
  · rw [bind_of_ok halloc, bind_of_ok hzero]
    exact hset
  · refine hi.extend hd hall (fun h hh hne k hk => ?_) (fun e he => hS e (.inl he)) ?_ hin hnew
      hzeroed
    · rintro ((rfl | hk') | rfl)
      · exact hnew h hh hk
      · exact hk'
      · exact hne (hi.disjoint h d hh hhead _ hk (by rw [hlz]; simp))
    · rw [hlz, append_assoc]
      exact hrelinked

def FatFs.isFreeAt (fs : FatFs) (slot : Slot) : Bool := Entry.isFree ((fs.entryAt slot).byte 0)

theorem reserveDirSlotsFrom_spec (hi : Inv fs G X) (hd : d ∈ G.dirs) (need guard : Nat) :
    ∃ fs' G', Inv fs' G' X ∧ Extended fs fs' G G' d ∧
      ((∃ e, reserveDirSlotsFrom d need guard fs = (.error e, fs')) ∨
        ∃ run, reserveDirSlotsFrom d need guard fs = (.ok run, fs') ∧ run.length = need ∧
          IsFreeRun fs'.isFreeAt (fs'.bpb.slots ((G'.chain d).take slotGuard)) run) := by
  induction guard generalizing fs G with
  | zero => exact ⟨fs, G, hi, .refl fs G d, .inl ⟨_, rfl⟩⟩
  | succ guard ih =>
    have hdir := hi.dirChain hd
    unfold reserveDirSlotsFrom
    rw [read_bind fs (dirSlots_eq hi.sound hdir.chain hdir.inVolume)]
    cases hfree : FatFs.freeRun need ((fs.bpb.slots ((G.chain d).take slotGuard)).map
      fun slot => (slot, (fs.entryAt slot).byte 0)) [] with
    | some run =>
      have hspec : run.length = need ∧
          IsFreeRun fs.isFreeAt ([] ++ [] ++ fs.bpb.slots ((G.chain d).take slotGuard)) run :=
        freeRun_spec (fun _ => rfl) hfree (by simp)
      exact ⟨fs, G, hi, .refl fs G d, .inr ⟨run, rfl, hspec⟩⟩
    | none =>
      rcases extendDir_spec hi hd with ⟨e, hextend⟩ | ⟨c, middle, hextend, hmiddle, hmore⟩
      · exact ⟨fs, G, hi, .refl fs G d, .inl ⟨e, bind_of_error hextend _⟩⟩
      obtain ⟨fs', G', hinv, hrest, hresult⟩ := ih hmiddle hd
      refine ⟨fs', G', hinv, hmore.trans hrest hd, ?_⟩
      dsimp only
      rw [bind_of_ok hextend]
      exact hresult

theorem reserveDirSlots_spec (hi : Inv fs G X) (hd : d ∈ G.dirs) (need : Nat) :
    ∃ fs' G', Inv fs' G' X ∧ Extended fs fs' G G' d ∧
      ((∃ e, reserveDirSlots d need fs = (.error e, fs')) ∨
        ∃ run, reserveDirSlots d need fs = (.ok run, fs') ∧ run.length = need ∧
          IsFreeRun fs'.isFreeAt (fs'.bpb.slots ((G'.chain d).take slotGuard)) run) :=
  reserveDirSlotsFrom_spec hi hd need 1024

/-! ## Writing several slots -/

structure Wrote (fs fs' : FatFs) (slots : List Slot) : Prop where
  changes : Changes fs fs' ∅ {lba | ∃ slot ∈ slots, slot.1 = lba}
  other : ∀ s, Aligned s → s ∉ slots → fs'.entryAt s = fs.entryAt s

theorem Wrote.nil (h : Sound fs) : Wrote fs fs [] :=
  ⟨(Changes.refl h).mono (by simp) (by simp), fun _ _ _ => rfl⟩

theorem Wrote.cons (h : Rewrites fs middle slot e) (hrest : Wrote middle fs' slots) :
    Wrote fs fs' (slot :: slots) := by
  refine ⟨(h.changes.trans hrest.changes).mono (by simp) ?_, fun s hs hnot => ?_⟩
  · rintro lba (rfl | ⟨s, hs, rfl⟩)
    · exact ⟨slot, mem_cons_self .., rfl⟩
    · exact ⟨s, mem_cons_of_mem _ hs, rfl⟩
  · rw [mem_cons, not_or] at hnot
    rw [hrest.other s hs hnot.2, h.other s hs hnot.1]

theorem Inv.slot_range (hi : Inv fs G X) (hd : d ∈ G.dirs)
    (hslot : slot ∈ fs.bpb.slots ((G.chain d).take slotGuard)) :
    Aligned slot ∧ fs.bpb.dataStart ≤ slot.1 ∧ slot.1 < fs.dev.blocks := by
  obtain ⟨⟨c, hc, hlba⟩, halign⟩ := Bpb.mem_slots.mp hslot
  exact ⟨halign, hi.sound.data_range (hi.inVolume d (.inl hd) c (mem_of_mem_take hc)) hlba⟩

theorem not_named_of_deleted (h : e.byte 0 = 0xE5) : ¬ e.Named := by
  intro hnamed
  have hused := hnamed.used
  simp [Entry.isFree, h] at hused

theorem not_named_of_free (h : Entry.isFree (e.byte 0) = true) : ¬ e.Named := by
  intro hnamed
  rw [hnamed.used] at h
  cases h

theorem Inv.deleteSlots (hi : Inv fs G X) (hd : d ∈ G.dirs)
    (hslots : ∀ s ∈ slots, s ∈ fs.bpb.slots ((G.chain d).take slotGuard) ∧ ¬ (fs.entryAt s).Dot) :
    ∃ fs', each (fun slot => patchSector slot.1 slot.2 [0xE5]) slots fs = (.ok (), fs') ∧
      Inv fs' G (X \ {s | s ∈ slots}) := by
  induction slots generalizing fs X with
  | nil => exact ⟨fs, rfl, by simpa using hi⟩
  | cons slot slots ih =>
    obtain ⟨hslot, hdot⟩ := hslots slot (mem_cons_self ..)
    obtain ⟨halign, hdata, hlba⟩ := hi.slot_range hd hslot
    obtain ⟨middle, e, hpatch, hrewrites, he⟩ := deleteSlot_spec hi.sound halign hdata hlba
    have hgone : ¬ (middle.entryAt slot).Named := not_named_of_deleted (hrewrites.entry ▸ he)
    have hmiddle := hi.writeEntry hd hslot hrewrites.changes hrewrites.other hdot
      (fun hdot => hgone hdot.named) fun hlive => absurd hlive.named hgone
    have hrest : ∀ s ∈ slots, s ∈ middle.bpb.slots ((G.chain d).take slotGuard) ∧
        ¬ (middle.entryAt s).Dot := by
      intro s hs
      obtain ⟨hmem, hnot⟩ := hslots s (mem_cons_of_mem _ hs)
      refine ⟨hrewrites.changes.bpb ▸ hmem, ?_⟩
      by_cases hne : s = slot
      · subst hne
        exact fun hdot => hgone hdot.named
      · rw [hrewrites.other s (Bpb.mem_slots.mp hmem).2 hne]
        exact hnot
    obtain ⟨fs', hmore, hinv⟩ := ih hmiddle hrest
    refine ⟨fs', ?_, ?_⟩
    · rw [each_cons, bind_of_ok hpatch]
      exact hmore
    · refine hinv.exempt ?_
      rintro s ⟨⟨hs, hne⟩, hnot⟩
      refine ⟨hs, fun hmem => ?_⟩
      rcases mem_cons.mp hmem with rfl | hmem
      · exact hne rfl
      · exact hnot hmem

theorem Inv.writeFragments (hi : Inv fs G X) (hd : d ∈ G.dirs) {ps : List (Entry × Slot)}
    (hnodup : (ps.map Prod.snd).Nodup)
    (hps : ∀ p ∈ ps, p.1.length = 32 ∧ p.1.isFragment = true ∧
      p.2 ∈ fs.bpb.slots ((G.chain d).take slotGuard) ∧ fs.isFreeAt p.2 = true) :
    ∃ fs', each (fun p => FatFs.writeEntry p.2 p.1) ps fs = (.ok (), fs') ∧ Inv fs' G X ∧
      Wrote fs fs' (ps.map Prod.snd) ∧ ∀ p ∈ ps, fs'.entryAt p.2 = p.1 := by
  induction ps generalizing fs with
  | nil => exact ⟨fs, rfl, hi, .nil hi.sound, by simp⟩
  | cons p ps ih =>
    obtain ⟨hlength, hfragment, hslot, hfree⟩ := hps p (mem_cons_self ..)
    obtain ⟨halign, hdata, hlba⟩ := hi.slot_range hd hslot
    obtain ⟨hnew, hrestNodup⟩ := nodup_cons.mp hnodup
    obtain ⟨middle, hwrite, hrewrites⟩ := writeEntry_spec hi.sound halign hdata hlba hlength
    have hnot : ¬ (middle.entryAt p.2).Named := by
      rw [hrewrites.entry]
      intro hnamed
      rw [hnamed.notFragment] at hfragment
      cases hfragment
    have hmiddle := hi.writeEntry hd hslot hrewrites.changes hrewrites.other
      (fun hdot => not_named_of_free hfree hdot.named) (fun hdot => hnot hdot.named)
      fun hlive => absurd hlive.named hnot
    have hrest : ∀ q ∈ ps, q.1.length = 32 ∧ q.1.isFragment = true ∧
        q.2 ∈ middle.bpb.slots ((G.chain d).take slotGuard) ∧ middle.isFreeAt q.2 = true := by
      intro q hq
      obtain ⟨hlength, hfragment, hmem, hfree⟩ := hps q (mem_cons_of_mem _ hq)
      have hne : q.2 ≠ p.2 := by
        intro heq
        exact hnew (heq ▸ mem_map_of_mem hq)
      refine ⟨hlength, hfragment, hrewrites.changes.bpb ▸ hmem, ?_⟩
      unfold isFreeAt
      rw [hrewrites.other q.2 (Bpb.mem_slots.mp hmem).2 hne]
      exact hfree
    obtain ⟨fs', hmore, hinv, hwrote, hentries⟩ := ih (hmiddle.exempt Set.sdiff_subset)
      hrestNodup hrest
    refine ⟨fs', ?_, hinv, .cons hrewrites hwrote, ?_⟩
    · rw [each_cons, bind_of_ok hwrite]
      exact hmore
    · intro q hq
      rcases mem_cons.mp hq with rfl | hq
      · rw [hwrote.other q.2 halign hnew, hrewrites.entry]
      · exact hentries q hq

/-! ## New entries -/

theorem each_append {σ α : Type} {f : α → Action σ Unit} {a b : List α} {s s' : σ}
    (h : each f a s = (.ok (), s')) : each f (a ++ b) s = each f b s' := by
  induction a generalizing s with
  | nil =>
    cases h
    rfl
  | cons x a ih =>
    rw [each_cons] at h
    obtain ⟨_, middle, hx, hrest⟩ := bind_eq_ok h
    rw [cons_append, each_cons, bind_of_ok hx]
    exact ih hrest

theorem DirChain.usedShorts_ok (h : DirChain fs d l) (hsound : Sound fs) :
    ∃ used, fs.usedShorts d = .ok used := by
  have hsectors : ∀ lba ∈ (l.take (2 ^ 20)).flatMap fs.bpb.clusterSectors, lba < fs.dev.blocks := by
    intro lba hlba
    obtain ⟨c, hc, hlba⟩ := mem_flatMap.mp hlba
    exact hsound.lt_blocks (h.inVolume c (mem_of_mem_take hc)) hlba
  unfold usedShorts readDirRaw
  rw [walk_eq_take h.chain, readDirSectors_eq hsound hsectors]
  exact ⟨_, rfl⟩

theorem Inv.addEntries (hi : Inv fs G X) (hd : d ∈ G.dirs) {short : Bytes}
    (hshort : ShortName short) {attr : UInt8} (hattr : IsKind attr) (hfirst : first < 2 ^ 32)
    (hsize : size < 2 ^ 32)
    (hrefers : ∀ e : Entry, e.isDir = decide (attr = attrDir) → e.first = first → e.size = size →
      Refers fs.bpb G e)
    (hunref : ∀ slot, LiveAt fs G slot → slot ∉ X → (fs.entryAt slot).first = first → first = 0)
    {entries : List Entry}
    (hentries : ∃ fragments, entries = fragments ++ [sfnEntry short attr first size] ∧
      ∀ e ∈ fragments, e.length = 32 ∧ e.isFragment = true)
    {run : List Slot} (hlength : run.length = entries.length)
    (hrun : IsFreeRun fs.isFreeAt (fs.bpb.slots ((G.chain d).take slotGuard)) run) :
    ∃ fs', each (fun entry => FatFs.writeEntry entry.2 entry.1) (entries.zip run) fs = (.ok (), fs') ∧
      Inv fs' G X := by
  obtain ⟨fragments, rfl, hfragments⟩ := hentries
  obtain ⟨slots, slot, rfl⟩ : ∃ slots slot, run = slots ++ [slot] := by
    refine (eq_nil_or_concat' run).resolve_left ?_
    rintro rfl
    simp at hlength
  have hlength' : slots.length = fragments.length := by simpa using hlength
  obtain ⟨hfree, hpart⟩ := hrun
  have hnodup : (slots ++ [slot]).Nodup := by
    have hchain := (hi.chain d (.inl hd)).nodup not_isEnd_of_isCluster
    have hall : (fs.bpb.slots ((G.chain d).take slotGuard)).Nodup :=
      Bpb.nodup_slots (hchain.sublist (take_sublist ..)) fun c hc =>
        (hi.inVolume d (.inl hd) c (mem_of_mem_take hc)).two_le
    exact hall.sublist hpart.sublist
  have hmem : ∀ s ∈ slots ++ [slot], s ∈ fs.bpb.slots ((G.chain d).take slotGuard) :=
    fun s hs => hpart.subset hs
  have hslot := hmem slot (by simp)
  obtain ⟨halign, hdata, hlba⟩ := hi.slot_range hd hslot
  have hsnd : (fragments.zip slots).map Prod.snd = slots := map_snd_zip (by omega)
  have hfst : (fragments.zip slots).map Prod.fst = fragments := map_fst_zip (by omega)
  have hpairs : ((fragments.zip slots).map Prod.snd).Nodup := by
    rw [hsnd]
    exact (nodup_append.mp hnodup).1
  obtain ⟨middle, hwrite, hmiddle, hwrote, hput⟩ := hi.writeFragments hd hpairs fun p hp => by
      have hentry := of_mem_zip (show (p.1, p.2) ∈ fragments.zip slots from hp)
      exact ⟨(hfragments _ hentry.1).1, (hfragments _ hentry.1).2, hmem _ (by simp [hentry.2]),
        hfree _ (by simp [hentry.2])⟩
  rw [hsnd] at hwrote
  have hnew : slot ∉ slots := by
    intro hs
    exact (nodup_append.mp hnodup).2.2 _ hs _ (mem_singleton_self _) rfl
  have hbpb := hwrote.changes.bpb
  have hold : middle.entryAt slot = fs.entryAt slot := hwrote.other slot halign hnew
  have hnotNamed : ¬ (middle.entryAt slot).Named := by
    rw [hold]
    exact not_named_of_free (hfree slot (by simp))
  have hentryLength : (sfnEntry short attr first size).length = 32 := length_sfnEntry hshort.1
  obtain ⟨fs', hlast, hrewrites⟩ := writeEntry_spec hmiddle.sound halign (hbpb ▸ hdata)
    (hwrote.changes.blocks ▸ hlba) hentryLength
  have hnewEntry := hrewrites.entry
  have hlive : ∀ s, LiveAt middle G s → LiveAt fs G s ∧ middle.entryAt s = fs.entryAt s := by
    rintro s ⟨⟨e, he, hs⟩, hlive⟩
    rw [hbpb] at hs
    by_cases hin : s ∈ slots
    · rw [← hsnd] at hin
      obtain ⟨p, hp, rfl⟩ := mem_map.mp hin
      have hfragment := (hfragments p.1 (hfst ▸ mem_map_of_mem hp)).2
      rw [← hput p hp, hlive.named.notFragment] at hfragment
      cases hfragment
    · have heq := hwrote.other s (Bpb.mem_slots.mp hs).2 hin
      rw [heq] at hlive
      exact ⟨⟨⟨e, he, hs⟩, hlive⟩, heq⟩
  have hinv := hmiddle.writeEntry hd (hbpb ▸ hslot) hrewrites.changes hrewrites.other
    (fun hdot => hnotNamed hdot.named)
    (by
      rw [hnewEntry]
      exact fun hdot => byte_zero_sfnEntry hshort hdot.dot)
    (by
      rw [hnewEntry, hbpb, first_sfnEntry hshort.1 hfirst]
      refine fun _ => ⟨hrefers _ (isDir_sfnEntry hshort.1 hattr) (first_sfnEntry hshort.1 hfirst)
        (size_sfnEntry hshort.1 hsize), fun s hs _ hX hsame => ?_⟩
      obtain ⟨hs, heq⟩ := hlive s hs
      rw [heq] at hsame
      exact hunref s hs hX hsame)
  refine ⟨fs', ?_, hinv.exempt Set.sdiff_subset⟩
  rw [zip_append hlength'.symm, each_append hwrite]
  show (FatFs.writeEntry slot _ >>= fun _ => each _ []) middle = _
  rw [bind_of_ok hlast]
  rfl

theorem addDirEntry_spec (hi : Inv fs G X) (hd : d ∈ G.dirs) (name : Str) (hattr : IsKind attr)
    (hfirst : first < 2 ^ 32) (hsize : size < 2 ^ 32)
    (hrefers : ∀ e : Entry, e.isDir = decide (attr = attrDir) → e.first = first → e.size = size →
      Refers fs.bpb G e)
    (hunref : ∀ slot, LiveAt fs G slot → slot ∉ X → (fs.entryAt slot).first = first → first = 0) :
    ∃ G', Inv (addDirEntry d name attr first size fs).2 G' X := by
  obtain ⟨used, hused⟩ := (hi.dirChain hd).usedShorts_ok hi.sound
  unfold addDirEntry
  rw [read_bind fs hused]
  have hshort := shortName_uniqueShort name used
  generalize uniqueShort name used = short at hshort ⊢
  obtain hentries := makeEntries_eq name short attr first size (short83 name ≠ some short)
  generalize makeEntries name short attr first size (short83 name ≠ some short) = entries
    at hentries ⊢
  obtain ⟨grown, G', hgrown, hext, ⟨e, hreserve⟩ | ⟨run, hreserve, hlength, hrun⟩⟩ :=
    reserveDirSlots_spec hi hd entries.length
  · rw [bind_of_error hreserve]
    exact ⟨G', hgrown⟩
  have hrefers' : ∀ e : Entry, e.isDir = decide (attr = attrDir) → e.first = first →
      e.size = size → Refers grown.bpb G' e := by
    intro e hdir hfirst hsize
    rw [hext.bpb]
    refine (hrefers e hdir hfirst hsize).adopt (fun k hk => hext.dirs ▸ hk) fun f hf => ?_
    refine ⟨hext.files ▸ hf, hext.other f ?_⟩
    rintro rfl
    exact hi.apart f hd hf
  obtain ⟨fs', hwrite, hinv⟩ := hgrown.addEntries (hext.dirs ▸ hd) hshort hattr hfirst
    hsize hrefers' (fun slot hlive hX hsame => by
      obtain ⟨hlive, heq⟩ := hext.liveAt hlive
      rw [heq] at hsame
      exact hunref slot hlive hX hsame) hentries hlength hrun
  rw [bind_of_ok hreserve, hwrite]
  exact ⟨G', hinv⟩

end EuroOS.Fat
