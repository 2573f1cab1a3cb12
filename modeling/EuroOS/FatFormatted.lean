import EuroOS.FatEntries
import EuroOS.FatFormat
import EuroOS.FatOwnership

/-!
# The volume that the formatter writes

The geometry that the formatter computes fits the volume, the parameter block
that it writes is read back as written, and the volume mounted from it has one
directory, the root, with no file in it.
-/

namespace EuroOS.Fat

open List

/-! ## Geometry -/

section Geometry

theorem fat32Spc_cases (total : UInt32) :
    (fat32Spc total = 1 ∧ total.toNat ≤ 2 ^ 20) ∨ (fat32Spc total = 8 ∧ total.toNat ≤ 2 ^ 24) ∨
      (fat32Spc total = 32 ∧ total.toNat ≤ 2 ^ 26) ∨ fat32Spc total = 64 := by
  unfold fat32Spc
  split_ifs with h1 h8 h32
  · exact .inl ⟨rfl, UInt32.le_iff_toNat_le.mp h1⟩
  · exact .inr (.inl ⟨rfl, UInt32.le_iff_toNat_le.mp h8⟩)
  · exact .inr (.inr (.inl ⟨rfl, UInt32.le_iff_toNat_le.mp h32⟩))
  · exact .inr (.inr (.inr rfl))

theorem toNat_ceilDiv {t k : UInt32} (hk : 1 ≤ k.toNat) (hpos : (t + k - 1) / k ≠ 0) :
    ((t + k - 1) / k).toNat = (t.toNat + k.toNat - 1) / k.toNat := by
  have hsum : (t + k - 1).toNat = (t.toNat + k.toNat - 1) % 2 ^ 32 := by
    rw [UInt32.toNat_sub, UInt32.toNat_add, UInt32.toNat_one]
    omega
  have hdiv : ((t + k - 1) / k).toNat ≠ 0 := by
    intro hzero
    exact hpos (UInt32.toNat_inj.mp hzero)
  have ht := t.toNat_lt
  rw [UInt32.toNat_div, hsum] at hdiv ⊢
  by_cases hwrap : t.toNat + k.toNat - 1 < 2 ^ 32
  · rw [Nat.mod_eq_of_lt hwrap]
  · have hsmall : (t.toNat + k.toNat - 1) % 2 ^ 32 < k.toNat := by omega
    exact absurd (Nat.div_eq_of_lt hsmall) hdiv

theorem toNat_sub_reserved (total : UInt32) :
    (if total ≤ reservedSectors then 0 else total - reservedSectors : UInt32).toNat =
      total.toNat - 32 := by
  split_ifs with hle
  · have hle' : total.toNat ≤ 32 := UInt32.le_iff_toNat_le.mp hle
    rw [UInt32.toNat_zero]
    omega
  · rw [UInt32.toNat_sub_of_le _ _ (UInt32.le_of_lt (UInt32.not_le.mp hle))]
    rfl

structure Geometry (total spc spf : Nat) : Prop where
  spc_pos : 0 < spc
  spf_pos : 0 < spf
  covered : total - 32 ≤ spf * (128 * spc + 1)
  spf_small : spf ≤ 2 ^ 26
  clusters : (total - (32 + 2 * spf)) / spc ≤ 2 ^ 26

theorem geometry (hpos : sectorsPerFat total ≠ 0) :
    Geometry total.toNat (fat32Spc total).toNat (sectorsPerFat total).toNat := by
  have htotal := total.toNat_lt
  have hceil : ∀ (k : UInt32) (spc : Nat), k.toNat = 128 * spc + 1 →
      (256 * fat32Spc total + numFats) / 2 = k → max k 1 = k → (sectorsPerFat total).toNat =
        (total.toNat - 32 + (128 * spc + 1) - 1) / (128 * spc + 1) := by
    intro k spc hk heq hmax
    have hspf : sectorsPerFat total =
        ((if total ≤ reservedSectors then 0 else total - reservedSectors) + k - 1) / k := by
      unfold sectorsPerFat
      dsimp only
      rw [heq, hmax]
    rw [hspf] at hpos ⊢
    rw [toNat_ceilDiv (by omega) hpos, toNat_sub_reserved, hk]
  have hpos' : (sectorsPerFat total).toNat ≠ 0 := by
    intro hzero
    exact hpos (UInt32.toNat_inj.mp hzero)
  rcases fat32Spc_cases total with ⟨h, hle⟩ | ⟨h, hle⟩ | ⟨h, hle⟩ | h
  · have hspf := hceil 129 1 rfl (by rw [h]; rfl) rfl
    rw [h, show (1 : UInt32).toNat = 1 from rfl]
    constructor <;> omega
  · have hspf := hceil 1025 8 rfl (by rw [h]; rfl) rfl
    rw [h, show (8 : UInt32).toNat = 8 from rfl]
    constructor <;> omega
  · have hspf := hceil 4097 32 rfl (by rw [h]; rfl) rfl
    rw [h, show (32 : UInt32).toNat = 32 from rfl]
    constructor <;> omega
  · have hspf := hceil 8193 64 rfl (by rw [h]; rfl) rfl
    rw [h, show (64 : UInt32).toNat = 64 from rfl]
    constructor <;> omega

end Geometry

theorem length_volumeLabel (label : Str) : (volumeLabel label).length = 11 := by
  unfold volumeLabel
  rw [length_overlay (by simp [blanks])]
  rfl

theorem parse_bpbSector (hlabel : label.length = 11) (hspc : 0 < spc.toNat)
    (hspc' : spc.toNat < 256) :
    Bpb.parse (bpbSector total volumeId label spc spf) =
      if spf.toNat = 0 then .error .corruption
      else .ok ⟨32, 2, spf.toNat, spc.toNat, 2, total.toNat⟩ := by
  have hoem : (Str.bytes "MSWIN4.1".toList).length = 8 := by decide +kernel
  have hkind : (Str.bytes "FAT32   ".toList).length = 8 := by decide +kernel
  obtain ⟨b, hb⟩ : ∃ b, b = (bpbSector total volumeId label spc spf).bytes := ⟨_, rfl⟩
  have hbytes := hb
  unfold bpbSector at hbytes
  generalize Str.bytes "MSWIN4.1".toList = oem at hoem hbytes
  generalize Str.bytes "FAT32   ".toList = kind at hkind hbytes
  rw [Buf.bytes_ofBytes_of_length (by
    simp only [length_append, length_le, length_replicate, length_cons,
      length_nil, hoem, hkind, hlabel])] at hbytes
  simp only [append_assoc] at hbytes
  have hfields : rd 2 b 11 = sectorSize ∧ rd 1 b 13 = spc.toNat ∧ rd 2 b 14 = 32 ∧
      rd 1 b 16 = 2 ∧ rd 4 b 32 = total.toNat ∧ rd 4 b 36 = spf.toNat ∧ rd 4 b 44 = 2 := by
    rw [hbytes]
    simp (disch := simp [hoem]) only [rd_append_right, rd_field]
    exact ⟨rfl, Nat.mod_eq_of_lt hspc', rfl, rfl, Nat.mod_eq_of_lt total.toNat_lt,
      Nat.mod_eq_of_lt spf.toNat_lt, rfl⟩
  obtain ⟨h11, h13, h14, h16, h32, h36, h44⟩ := hfields
  have h19 : rd 2 b 19 = 0 := by
    rw [hbytes]
    simp (disch := simp [hoem]) only [rd_append_right]
    rw [rd_append_left _ (by simp [hoem])]
    simp [hoem]
    rfl
  have hmark : rd 1 b 510 = 0x55 ∧ rd 1 b 511 = 0xAA := by
    rw [hbytes]
    simp (disch := simp only [length_le, length_replicate, length_cons, length_nil,
      hoem, hkind, hlabel] <;> omega) only [rd_append_right]
    simp only [length_le, length_replicate, length_cons, length_nil, hoem, hkind, hlabel]
    exact ⟨rfl, rfl⟩
  unfold Bpb.parse
  rw [← hb]
  simp only [hmark.1, hmark.2, h11, h13, h14, h16, h19, h32, h36, h44]
  rw [if_neg (by simp), if_neg (by simp)]
  by_cases hzero : spf.toNat = 0
  · rw [if_pos (.inr (.inl hzero)), if_pos hzero]
  · rw [if_neg (by omega), if_neg hzero]
    rfl

/-! ## The writes -/

namespace SectorDevice

variable {dev : SectorDevice} {lba : Nat} {sec : Sector} {ws : List (Nat × Sector)}

theorem blocks_writeAll (dev : SectorDevice) (ws : List (Nat × Sector)) :
    (dev.writeAll ws).blocks = dev.blocks := by
  induction ws generalizing dev with
  | nil => rfl
  | cons w ws ih =>
    refine (ih _).trans ?_
    show (dev.write w.1 w.2).2.blocks = dev.blocks
    unfold write
    split_ifs <;> rfl

theorem FaultFree.writeAll (h : dev.FaultFree) (ws : List (Nat × Sector)) :
    (dev.writeAll ws).FaultFree := by
  induction ws generalizing dev with
  | nil => exact h
  | cons w ws ih =>
    refine ih ?_
    show (dev.write w.1 w.2).2.FaultFree
    unfold SectorDevice.write
    split_ifs <;> exact ⟨h.read, h.write⟩

theorem sector_writeAll_of_forall (h : dev.sector lba = sec)
    (hws : ∀ w ∈ ws, w.1 = lba → w.2 = sec) : (dev.writeAll ws).sector lba = sec := by
  induction ws generalizing dev with
  | nil => exact h
  | cons w ws ih =>
    refine ih ?_ fun w hw => hws w (mem_cons_of_mem _ hw)
    show (dev.write w.1 w.2).2.sector lba = sec
    unfold write
    split_ifs
    · show Function.update dev.sector w.1 w.2 lba = sec
      by_cases hlba : lba = w.1
      · rw [hlba, Function.update_self]
        exact hws w (mem_cons_self ..) hlba.symm
      · rw [Function.update_of_ne hlba]
        exact h
    · exact h

theorem sector_writeAll (h : dev.FaultFree) (hlba : lba < dev.blocks)
    (hws : ws = a ++ (lba, sec) :: b) (hb : ∀ w ∈ b, w.1 = lba → w.2 = sec) :
    (dev.writeAll ws).sector lba = sec := by
  have hsplit : dev.writeAll ws = ((dev.writeAll a).writeAll [(lba, sec)]).writeAll b := by
    rw [hws]
    simp [writeAll]
  rw [hsplit]
  refine sector_writeAll_of_forall ?_ hb
  have hwrite : (dev.writeAll a).writeAll [(lba, sec)] = (dev.writeAll a).store lba sec := by
    show ((dev.writeAll a).write lba sec).2 = _
    rw [write, if_pos ⟨by rw [blocks_writeAll]; exact hlba, (h.writeAll a).write ..⟩]
  rw [hwrite]
  exact Function.update_self ..

end SectorDevice

def regionWrites (base n : Nat) (first : Sector) : List (Nat × Sector) :=
  (List.range n).map (fun i => (base + i, Sector.zero)) ++ [(base, first)]

theorem sector_region {dev : SectorDevice} (h : dev.FaultFree) {base n i : Nat} {first : Sector}
    {ws a c : List (Nat × Sector)} (hws : ws = a ++ (regionWrites base n first ++ c))
    (hlands : ∀ w ∈ ws, w.1 < dev.blocks) (hc : ∀ w ∈ c, w.1 < base ∨ base + n ≤ w.1) (hi : i < n) :
    (dev.writeAll ws).sector (base + i) = if i = 0 then first else Sector.zero := by
  have hmem : (base + i, Sector.zero) ∈ (List.range n).map fun i => (base + i, Sector.zero) :=
    mem_map.mpr ⟨i, mem_range.mpr hi, rfl⟩
  have hblocks : base + i < dev.blocks := by
    refine hlands (base + i, Sector.zero) ?_
    rw [hws, regionWrites]
    exact mem_append_right _ (mem_append_left _ (mem_append_left _ hmem))
  have hlater : ∀ w ∈ c, w.1 ≠ base + i := by
    intro w hw
    have hout := hc w hw
    omega
  split_ifs with hzero
  · subst hzero
    refine SectorDevice.sector_writeAll h hblocks
      (a := a ++ (List.range n).map fun i => (base + i, Sector.zero)) (b := c) ?_
      fun w hw hlba => absurd hlba (hlater w hw)
    rw [hws, regionWrites]
    simp
  · obtain ⟨s, t, hst⟩ := append_of_mem hmem
    refine SectorDevice.sector_writeAll h hblocks (a := a ++ s) (b := t ++ ((base, first) :: c)) ?_ ?_
    · rw [hws, regionWrites, hst]
      simp
    · intro w hw hlba
      rcases mem_append.mp hw with hw | hw
      · have hin : w ∈ (List.range n).map fun i => (base + i, Sector.zero) := by
          rw [hst]
          simp [hw]
        obtain ⟨j, -, rfl⟩ := mem_map.mp hin
        rfl
      · rcases mem_cons.mp hw with rfl | hw
        · exact absurd hlba (by simp; omega)
        · exact absurd hlba (hlater w hw)

theorem le_of_mem_regionWrites (h : w ∈ regionWrites base n first) : base ≤ w.1 := by
  rcases mem_append.mp h with h | h
  · obtain ⟨i, -, rfl⟩ := mem_map.mp h
    exact Nat.le_add_right ..
  · rw [mem_singleton.mp h]

def labelSector (label : Str) : Sector := Buf.ofBytes (sfnEntry (volumeLabel label) attrVolumeId 0 0)

theorem formatFat32_eq (total volumeId : UInt32) (label : Str) :
    ∃ fsi, formatFat32 total volumeId label =
      (0, bpbSector total volumeId (volumeLabel label) (fat32Spc total) (sectorsPerFat total)) ::
      ([(6, bpbSector total volumeId (volumeLabel label) (fat32Spc total) (sectorsPerFat total)),
        (1, fsi), (7, fsi)] ++
        (regionWrites 32 (sectorsPerFat total).toNat firstFatSector ++
        (regionWrites (32 + (sectorsPerFat total).toNat) (sectorsPerFat total).toNat firstFatSector ++
        regionWrites (32 + 2 * (sectorsPerFat total).toNat) (fat32Spc total).toNat
          (labelSector label)))) := by
  have hsmall : (sectorsPerFat total).toNat ≤ 2 ^ 26 := by
    by_cases hpos : sectorsPerFat total = 0
    · rw [hpos]
      decide
    · exact (geometry hpos).spf_small
  have hbase : (reservedSectors + 1 * sectorsPerFat total).toNat = 32 + (sectorsPerFat total).toNat := by
    rw [UInt32.toNat_add, UInt32.toNat_mul, show (1 : UInt32).toNat = 1 from rfl,
      show reservedSectors.toNat = 32 from rfl]
    omega
  have hdata : (reservedSectors + numFats * sectorsPerFat total).toNat =
      32 + 2 * (sectorsPerFat total).toNat := by
    rw [UInt32.toNat_add, UInt32.toNat_mul, show numFats.toNat = 2 from rfl,
      show reservedSectors.toNat = 32 from rfl]
    omega
  have hzero : (reservedSectors + 0 * sectorsPerFat total).toNat = 32 := by
    rw [UInt32.toNat_add, UInt32.toNat_mul, show (0 : UInt32).toNat = 0 from rfl,
      show reservedSectors.toNat = 32 from rfl]
    omega
  unfold formatFat32
  dsimp only
  rw [hbase, hdata, hzero]
  generalize fsInfoSector _ 3 = fsi
  refine ⟨fsi, ?_⟩
  simp [regionWrites, labelSector]

/-! ## The mounted volume -/

/-- A volume that the formatter has written to a device that it fits on, mounted. -/
structure Formatted (total volumeId : UInt32) (label : Str) (dev : SectorDevice) (fs : FatFs) : Prop where
  faultFree : dev.FaultFree
  fits : total.toNat ≤ dev.blocks
  lands : ∀ w ∈ formatFat32 total volumeId label, w.1 < dev.blocks
  mounted : FatFs.mount (dev.writeAll (formatFat32 total volumeId label)) = .ok fs

namespace Formatted

variable {dev : SectorDevice}

variable (h : Formatted total volumeId label dev fs)
include h

theorem sector_zero :
    (dev.writeAll (formatFat32 total volumeId label)).sector 0 =
      bpbSector total volumeId (volumeLabel label) (fat32Spc total) (sectorsPerFat total) := by
  obtain ⟨fsi, hwrites⟩ := formatFat32_eq total volumeId label
  have hlands := h.lands
  rw [hwrites] at hlands ⊢
  refine SectorDevice.sector_writeAll h.faultFree (hlands _ (mem_cons_self ..)) (a := []) rfl ?_
  intro w hw hzero
  rcases mem_append.mp hw with hw | hw
  · simp only [mem_cons, not_mem_nil, or_false] at hw
    rcases hw with rfl | rfl | rfl <;> cases hzero
  have hlow : 32 ≤ w.1 := by
    simp only [mem_append] at hw
    rcases hw with hw | hw | hw
    · exact le_of_mem_regionWrites hw
    · exact (Nat.le_add_right ..).trans (le_of_mem_regionWrites hw)
    · exact (Nat.le_add_right ..).trans (le_of_mem_regionWrites hw)
  omega

omit h in
theorem spc_range (total : UInt32) : 0 < (fat32Spc total).toNat ∧ (fat32Spc total).toNat < 256 := by
  rcases fat32Spc_cases total with ⟨h, -⟩ | ⟨h, -⟩ | ⟨h, -⟩ | h <;> rw [h] <;> decide

theorem bpb_eq :
    sectorsPerFat total ≠ 0 ∧ fs.dev = dev.writeAll (formatFat32 total volumeId label) ∧
      fs.bpb = ⟨32, 2, (sectorsPerFat total).toNat, (fat32Spc total).toNat, 2, total.toNat⟩ := by
  obtain ⟨hspc, hspc'⟩ := spc_range total
  have hmounted := h.mounted
  have hblocks : 0 < dev.blocks := by
    obtain ⟨fsi, hwrites⟩ := formatFat32_eq total volumeId label
    have hlands := h.lands
    rw [hwrites] at hlands
    exact hlands _ (mem_cons_self ..)
  have hread : (dev.writeAll (formatFat32 total volumeId label)).read 0 =
      some (bpbSector total volumeId (volumeLabel label) (fat32Spc total) (sectorsPerFat total)) := by
    unfold SectorDevice.read
    rw [if_pos ⟨by rw [SectorDevice.blocks_writeAll]; exact hblocks,
      (h.faultFree.writeAll _).read ..⟩, h.sector_zero]
  unfold FatFs.mount at hmounted
  rw [hread] at hmounted
  dsimp only at hmounted
  rw [parse_bpbSector (length_volumeLabel label) hspc hspc'] at hmounted
  by_cases hzero : (sectorsPerFat total).toNat = 0
  · rw [if_pos hzero] at hmounted
    cases hmounted
  rw [if_neg hzero] at hmounted
  cases hmounted
  refine ⟨fun hnone => hzero ?_, rfl, rfl⟩
  rw [hnone]
  rfl

theorem regions :
    (∀ i < (sectorsPerFat total).toNat,
      fs.dev.sector (32 + i) = (if i = 0 then firstFatSector else Sector.zero) ∧
      fs.dev.sector (32 + (sectorsPerFat total).toNat + i) =
        if i = 0 then firstFatSector else Sector.zero) ∧
      ∀ i < (fat32Spc total).toNat, fs.dev.sector (32 + 2 * (sectorsPerFat total).toNat + i) =
        if i = 0 then labelSector label else Sector.zero := by
  obtain ⟨-, hdev, -⟩ := h.bpb_eq
  obtain ⟨fsi, hwrites⟩ := formatFat32_eq total volumeId label
  have hlands := h.lands
  rw [hdev]
  generalize formatFat32 total volumeId label = ws at hwrites hlands
  obtain ⟨front, hfront⟩ : ∃ front, ws = front ++ (_ ++ (_ ++ _)) :=
    ⟨_, hwrites.trans (cons_append ..).symm⟩
  refine ⟨fun i hi => ⟨?_, ?_⟩, fun i hi => ?_⟩
  · refine sector_region h.faultFree hfront hlands (fun w hw => ?_) hi
    rcases mem_append.mp hw with hw | hw
    · exact .inr (le_of_mem_regionWrites hw)
    · have hle := le_of_mem_regionWrites hw
      omega
  · refine sector_region h.faultFree (hfront.trans (append_assoc ..).symm) hlands
      (fun w hw => ?_) hi
    have hle := le_of_mem_regionWrites hw
    omega
  · rw [← append_assoc (regionWrites ..), ← append_assoc,
      ← append_nil (regionWrites (_ + 2 * _) _ _)] at hfront
    exact sector_region h.faultFree hfront hlands (by simp) hi

theorem blocks_eq : fs.dev.blocks = dev.blocks := by
  obtain ⟨-, hdev, -⟩ := h.bpb_eq
  rw [hdev, SectorDevice.blocks_writeAll]

theorem root_fits : 32 + 2 * (sectorsPerFat total).toNat + (fat32Spc total).toNat ≤ dev.blocks := by
  obtain ⟨hspc, -⟩ := spc_range total
  obtain ⟨fsi, hwrites⟩ := formatFat32_eq total volumeId label
  have hlands := h.lands
  rw [hwrites] at hlands
  have hmem : (32 + 2 * (sectorsPerFat total).toNat + ((fat32Spc total).toNat - 1), Sector.zero) ∈
      regionWrites (32 + 2 * (sectorsPerFat total).toNat) (fat32Spc total).toNat (labelSector label) :=
    mem_append_left _ (mem_map.mpr
      ⟨(fat32Spc total).toNat - 1, mem_range.mpr (by omega), rfl⟩)
  have hlast := hlands _ (mem_cons_of_mem _ (mem_append_right _
    (mem_append_right _ (mem_append_right _ hmem))))
  dsimp only at hlast
  omega

omit h in
theorem rd_firstFatSector : rd 4 firstFatSector.bytes 0 % 2 ^ 28 = eoc ∧
    rd 4 firstFatSector.bytes 8 % 2 ^ 28 = lastMark := by decide +kernel

theorem sound : Sound fs := by
  obtain ⟨hpos, hdev, hbpb⟩ := h.bpb_eq
  obtain ⟨htables, -⟩ := h.regions
  have hgeo := geometry hpos
  have hroot := h.root_fits
  have hblocks := h.blocks_eq
  have hstart : fs.bpb.dataStart = 32 + 2 * (sectorsPerFat total).toNat := by
    rw [Bpb.dataStart, hbpb]
  have hclusters : fs.bpb.totalClusters =
      (total.toNat - (32 + 2 * (sectorsPerFat total).toNat)) / (fat32Spc total).toNat := by
    rw [Bpb.totalClusters, hstart, hbpb]
  have hfaultFree : fs.dev.FaultFree := hdev ▸ h.faultFree.writeAll _
  have hfirst : fs.fatNext 0 = eoc := by
    have hsector := (htables 0 hgeo.spf_pos).1
    have hspf := hgeo.spf_pos
    have hlt : 32 < fs.dev.blocks := by
      rw [hblocks]
      omega
    have hread : fs.rsec 32 = .ok firstFatSector := by
      unfold FatFs.rsec SectorDevice.read
      rw [if_pos ⟨hlt, hfaultFree.read ..⟩]
      exact congrArg Except.ok hsector
    unfold FatFs.fatNext
    simp only [fatByte_div, fatByte_mod]
    rw [hbpb]
    simp only [Nat.zero_mul, Nat.add_zero, Nat.zero_div, Nat.zero_mod]
    rw [hread]
    exact rd_firstFatSector.1
  refine ⟨hfaultFree, by rw [hbpb], by rw [hbpb]; exact hgeo.spc_pos, by rw [hbpb]; exact hgeo.spf_pos,
    ?_, ?_, ?_, ?_, ?_, by rw [hfirst]; decide⟩
  · rw [hstart, hblocks, hbpb]
    exact hroot
  · have hmul := Nat.div_mul_le_self (total.toNat - (32 + 2 * (sectorsPerFat total).toNat))
      (fat32Spc total).toNat
    have hfits := h.fits
    rw [hclusters, hstart, hblocks, hbpb]
    dsimp only
    omega
  · have hspc := hgeo.spc_pos
    have hspf := hgeo.spf_pos
    have hcovered := hgeo.covered
    rw [hclusters, Bpb.tableSize, hbpb, Nat.succ_le_iff, Nat.div_lt_iff_lt_mul hspc]
    have hmul : (sectorsPerFat total).toNat * (128 * (fat32Spc total).toNat + 1) =
        128 * (sectorsPerFat total).toNat * (fat32Spc total).toNat + (sectorsPerFat total).toNat := by
      ring
    have hpositive : 0 < 128 * (sectorsPerFat total).toNat * (fat32Spc total).toNat := by positivity
    dsimp only
    omega
  · rw [hclusters]
    have hsmall := hgeo.clusters
    unfold eoc
    omega
  · intro i hi
    rw [hbpb] at hi ⊢
    rw [(htables i hi).1, (htables i hi).2]

omit h in
theorem bytes_labelSector (label : Str) : (labelSector label).bytes =
    sfnEntry (volumeLabel label) attrVolumeId 0 0 ++ List.replicate (sectorSize - 32) 0 := by
  have hlength : (sfnEntry (volumeLabel label) attrVolumeId 0 0).length = 32 :=
    length_sfnEntry (length_volumeLabel label)
  unfold labelSector
  rw [Buf.bytes_ofBytes (by rw [hlength]; decide), padTo, hlength]

theorem root_entries :
    ∃ v rest, (fs.bpb.slots [2]).map fs.entryAt = v :: rest ∧ v.isVolume = true ∧
      ∀ e ∈ rest, e.byte 0 = 0x00 := by
  obtain ⟨-, -, hbpb⟩ := h.bpb_eq
  obtain ⟨-, hroot⟩ := h.regions
  have hspc : 0 < fs.bpb.spc := h.sound.spc_pos
  have hbase : fs.bpb.clusterFirstSector 2 = 32 + 2 * (sectorsPerFat total).toNat := by
    rw [Bpb.clusterFirstSector, Bpb.dataStart, hbpb]
    dsimp only
    omega
  obtain ⟨others, hslots, hothers⟩ := Bpb.slots_singleton hspc (le_refl 2)
  have hlength : (sfnEntry (volumeLabel label) attrVolumeId 0 0).length = 32 :=
    length_sfnEntry (length_volumeLabel label)
  have hfirst : fs.dev.sector (fs.bpb.clusterFirstSector 2) = labelSector label := by
    rw [hbase]
    rw [hbpb] at hspc
    exact hroot 0 hspc
  have hentry : fs.entryAt (fs.bpb.clusterFirstSector 2, 0) =
      sfnEntry (volumeLabel label) attrVolumeId 0 0 := by
    unfold FatFs.entryAt
    rw [hfirst, bytes_labelSector]
    have hslice := slice_zero_length_append (sfnEntry (volumeLabel label) attrVolumeId 0 0)
      (List.replicate (sectorSize - 32) 0)
    rwa [hlength] at hslice
  have hkind : (sfnEntry (volumeLabel label) attrVolumeId 0 0).byte 11 = attrVolumeId :=
    byte_sfnEntry_attr (length_volumeLabel label)
  refine ⟨_, _, by rw [hslots, map_cons], ?_, ?_⟩
  · rw [hentry, Entry.isVolume, hkind]
    decide
  · intro e he
    obtain ⟨s, hs, rfl⟩ := mem_map.mp he
    have hmem : s ∈ fs.bpb.slots [2] := by
      rw [hslots]
      exact mem_cons_of_mem _ hs
    have hne : s ≠ (fs.bpb.clusterFirstSector 2, 0) := by
      rcases mem_cons.mp hs with rfl | hs
      · simp
      · exact (hothers s hs).1
    obtain ⟨⟨k, hk, hlba⟩, i, hi, hoff⟩ := Bpb.mem_slots.mp hmem
    obtain rfl := mem_singleton.mp hk
    obtain ⟨j, hj, hsj⟩ := mem_map.mp hlba
    rw [mem_range, hbpb] at hj
    rw [hbase] at hsj
    have hsector := hroot j hj
    rw [hsj] at hsector
    split_ifs at hsector with hzero
    · have hpos : 1 ≤ i := by
        by_contra hlt
        refine hne (Prod.ext ?_ ?_)
        · rw [hbase, ← hsj, hzero, Nat.add_zero]
        · rw [hoff]
          simp only
          omega
      rw [byte_entryAt fs s (by decide), hsector, bytes_labelSector]
      unfold Entry.byte
      rw [getElem?_append_right (by omega), getElem?_replicate]
      split_ifs <;> rfl
    · exact byte_zero_of_zero_sector hsector

def owners : Owners := ⟨{2}, ∅, fun _ => [2]⟩

theorem not_named_root (hslot : slot ∈ fs.bpb.slots [2]) : ¬ (fs.entryAt slot).Named := by
  obtain ⟨v, rest, hentries, hvolume, hrest⟩ := h.root_entries
  intro hnamed
  have hmem : fs.entryAt slot ∈ v :: rest := hentries ▸ mem_map_of_mem hslot
  rcases mem_cons.mp hmem with heq | hmem
  · rw [← heq, hnamed.notVolume] at hvolume
    cases hvolume
  · exact Inv.not_named_of_zero (hrest _ hmem) hnamed

theorem inv : Inv fs owners ∅ := by
  obtain ⟨hpos, -, hbpb⟩ := h.bpb_eq
  obtain ⟨htables, -⟩ := h.regions
  have hsound := h.sound
  have hspf := (geometry hpos).spf_pos
  have hentry : 2 < fs.bpb.tableSize := by
    rw [Bpb.tableSize, hbpb]
    dsimp only
    omega
  have hin : InVolume fs.bpb 2 := ⟨le_refl 2, hentry, .inl rfl⟩
  have hnext : fs.fatNext 2 = lastMark := by
    have hsector := (htables 0 hspf).1
    rw [hsound.fatNext_eq hentry, hbpb]
    dsimp only
    rw [show 32 + 2 / 128 = 32 + 0 from rfl, hsector, if_pos rfl]
    exact rd_firstFatSector.2
  have hhead : ∀ {h}, owners.IsHead h → h = 2 := by
    rintro h (hh | hh)
    · exact hh
    · exact absurd hh (Set.notMem_empty h)
  have hlive : ∀ slot, ¬ LiveAt fs owners slot := by
    rintro slot ⟨⟨d, -, hslot⟩, hlive⟩
    exact h.not_named_root hslot hlive.named
  exact
    { sound := hsound
      root_eq := by rw [hbpb]
      root := rfl
      apart := fun _ _ hmem => hmem
      chain := by
        intro h hh
        rw [hhead hh]
        refine Chain.single (hsound.isCluster hin) ?_
        rw [hnext]
        unfold IsEnd
        decide
      nonempty := fun _ _ => by simp [owners]
      inVolume := by
        intro h hh c hc
        rw [mem_singleton.mp hc]
        exact hin
      disjoint := fun h h' hh hh' _ _ _ => (hhead hh).trans (hhead hh').symm
      refers := fun slot hslot => absurd hslot (hlive slot)
      unique := fun slot _ hslot => absurd hslot (hlive slot)
      tail := by
        intro d _ slot hslot
        have hnil : (owners.chain d).drop slotGuard = [] :=
          drop_of_length_le (by simp only [owners, length_singleton]; decide)
        rw [hnil] at hslot
        simp [Bpb.slots, Bpb.sectorsOf] at hslot
      dots := by
        intro d _
        refine .inl fun e he hdot => ?_
        obtain ⟨slot, hslot, rfl⟩ := mem_map.mp he
        exact h.not_named_root hslot hdot.named }

end Formatted

end EuroOS.Fat
