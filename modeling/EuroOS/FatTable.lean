import EuroOS.FatVolume
import EuroOS.LinkedChains

/-!
# The allocation table

What the two copies of the table on the device mean, and what the driver's
writes do to them: a table update changes one entry in both copies and no
data sector, a data write changes one sector and no entry.  The effect of every
longer action is described by the entries and the sectors it may change.
-/

namespace EuroOS.Fat

open List FatFs

/-! ## Bytes of a sector -/

namespace Sector

variable {sec : Sector} {off : Nat} {bytes : Bytes}

theorem bytes_patch (h : off + bytes.length ≤ sectorSize) :
    (sec.patch off bytes).bytes =
      sec.bytes.take off ++ bytes ++ sec.bytes.drop (off + bytes.length) := by
  have hlength := sec.length_bytes
  refine Buf.bytes_ofBytes_of_length ?_
  simp only [length_append, length_take, length_drop]
  omega

theorem slice_patch_self (h : off + bytes.length ≤ sectorSize) :
    slice (sec.patch off bytes).bytes off bytes.length = bytes := by
  have htake : (sec.bytes.take off).length = off := by
    rw [length_take, sec.length_bytes]
    omega
  rw [bytes_patch h, append_assoc, slice_append_right _ htake.le, htake, Nat.sub_self,
    slice_zero_length_append]

theorem getElem?_patch_of_outside (h : off + bytes.length ≤ sectorSize)
    (hi : i < off ∨ off + bytes.length ≤ i) : (sec.patch off bytes).bytes[i]? = sec.bytes[i]? := by
  have htake : (sec.bytes.take off).length = off := by
    rw [length_take, sec.length_bytes]
    omega
  rw [bytes_patch h]
  rcases hi with hi | hi
  · rw [append_assoc, getElem?_append_left (by omega), getElem?_take_of_lt hi]
  rw [getElem?_append_right (by simp; omega), getElem?_drop]
  congr 1
  simp only [length_append, htake]
  omega

end Sector

theorem slice_congr (h : ∀ i, o ≤ i → i < o + n → a[i]? = b[i]?) : slice a o n = slice b o n := by
  apply ext_getElem?
  intro i
  simp only [slice, getElem?_take, getElem?_drop]
  split_ifs with hi
  · exact h (o + i) (by omega) (by omega)
  · rfl

theorem Sector.slice_patch_of_disjoint {sec : Sector} {off o n : Nat} {bytes : Bytes}
    (h : off + bytes.length ≤ sectorSize) (hdisjoint : o + n ≤ off ∨ off + bytes.length ≤ o) :
    slice (sec.patch off bytes).bytes o n = slice sec.bytes o n :=
  slice_congr fun i hlow hhigh => getElem?_patch_of_outside h (by omega)

theorem rd_eq_slice (n : Nat) (b : Bytes) (o : Nat) : rd n b o = leNat (slice b o n) := rfl

namespace SectorDevice

variable {dev : SectorDevice} {lba i : Nat} {sec : Sector}

@[simp] theorem store_blocks : (dev.store lba sec).blocks = dev.blocks := rfl

@[simp] theorem store_sector_self : (dev.store lba sec).sector lba = sec :=
  Function.update_self ..

theorem store_sector_of_ne (h : i ≠ lba) : (dev.store lba sec).sector i = dev.sector i :=
  Function.update_of_ne h ..

theorem FaultFree.store (h : dev.FaultFree) : (dev.store lba sec).FaultFree := ⟨h.read, h.write⟩

theorem FaultFree.read_eq (h : dev.FaultFree) (hlba : lba < dev.blocks) :
    dev.read lba = some (dev.sector lba) :=
  if_pos ⟨hlba, h.read _ _⟩

theorem FaultFree.write_eq (h : dev.FaultFree) (hlba : lba < dev.blocks) :
    dev.write lba sec = (true, dev.store lba sec) :=
  if_pos ⟨hlba, h.write _ _⟩

end SectorDevice

/-! ## The geometry of a volume -/

namespace Bpb

def tableSize (bpb : Bpb) : Nat := 128 * bpb.spf

variable {bpb : Bpb} {lba : Nat}

theorem mem_clusterSectors :
    lba ∈ bpb.clusterSectors c ↔
      bpb.clusterFirstSector c ≤ lba ∧ lba < bpb.clusterFirstSector c + bpb.spc := by
  simp only [clusterSectors, mem_map, mem_range]
  constructor
  · rintro ⟨s, hs, rfl⟩
    omega
  · rintro ⟨hlow, hhigh⟩
    exact ⟨lba - bpb.clusterFirstSector c, by omega, by omega⟩

theorem dataStart_le_of_mem (h : lba ∈ bpb.clusterSectors c) : bpb.dataStart ≤ lba := by
  have hmem := mem_clusterSectors.mp h
  unfold clusterFirstSector at hmem
  omega

theorem eq_of_mem_clusterSectors (hc : 2 ≤ c) (hc' : 2 ≤ c') (h : lba ∈ bpb.clusterSectors c)
    (h' : lba ∈ bpb.clusterSectors c') : c = c' := by
  have hmem := mem_clusterSectors.mp h
  have hmem' := mem_clusterSectors.mp h'
  unfold clusterFirstSector at hmem hmem'
  have hdiv : (lba - bpb.dataStart) / bpb.spc = c - 2 :=
    Nat.div_eq_of_lt_le (by omega) (by rw [Nat.add_mul, Nat.one_mul]; omega)
  have hdiv' : (lba - bpb.dataStart) / bpb.spc = c' - 2 :=
    Nat.div_eq_of_lt_le (by omega) (by rw [Nat.add_mul, Nat.one_mul]; omega)
  omega

theorem nodup_clusterSectors (bpb : Bpb) (c : Nat) : (bpb.clusterSectors c).Nodup :=
  List.Nodup.map (fun _ _ h => Nat.add_left_cancel h) nodup_range

end Bpb

/-- A volume that the driver can work on: both copies of the table are there and equal, and every
cluster number has an entry and sectors.  Entry 0 is never free, which matters for the one table
size at which a cluster's entry is looked up just behind the first copy. -/
structure Sound (fs : FatFs) : Prop where
  faultFree : fs.dev.FaultFree
  numFats : fs.bpb.numFats = 2
  spc_pos : 0 < fs.bpb.spc
  spf_pos : 0 < fs.bpb.spf
  root_fits : fs.bpb.dataStart + fs.bpb.spc ≤ fs.dev.blocks
  data_fits : fs.bpb.dataStart + fs.bpb.totalClusters * fs.bpb.spc ≤ fs.dev.blocks
  entries_fit : fs.bpb.totalClusters + 1 ≤ fs.bpb.tableSize
  numbers_fit : fs.bpb.totalClusters + 3 ≤ eoc
  mirrored : ∀ i < fs.bpb.spf, fs.dev.sector (fs.bpb.reserved + fs.bpb.spf + i) =
    fs.dev.sector (fs.bpb.reserved + i)
  taken : fs.fatNext 0 ≠ 0

structure InVolume (bpb : Bpb) (c : Nat) : Prop where
  two_le : 2 ≤ c
  hasEntry : c < bpb.tableSize
  hasSectors : c = 2 ∨ c < bpb.totalClusters + 2

section Table

variable {fs : FatFs} {lba : Nat} {sec : Sector}

theorem Sound.dataStart_eq (h : Sound fs) :
    fs.bpb.dataStart = fs.bpb.reserved + fs.bpb.spf + fs.bpb.spf := by
  rw [Bpb.dataStart, h.numFats]
  omega

theorem fatByte_div (bpb : Bpb) (f c : Nat) :
    fatByte bpb f c / sectorSize = bpb.reserved + f * bpb.spf + c / 128 := by
  unfold fatByte sectorSize
  omega

theorem fatByte_mod (bpb : Bpb) (f c : Nat) : fatByte bpb f c % sectorSize = c % 128 * 4 := by
  unfold fatByte sectorSize
  omega

theorem div_lt_spf {bpb : Bpb} (h : c < bpb.tableSize) : c / 128 < bpb.spf := by
  unfold Bpb.tableSize at h
  omega

theorem Sound.rsec_eq (h : Sound fs) (hlba : lba < fs.dev.blocks) :
    fs.rsec lba = .ok (fs.dev.sector lba) := by
  unfold rsec
  rw [h.faultFree.read_eq hlba]

theorem Sound.fatNext_eq (h : Sound fs) (hc : c < fs.bpb.tableSize) :
    fs.fatNext c =
      rd 4 (fs.dev.sector (fs.bpb.reserved + c / 128)).bytes (c % 128 * 4) % 2 ^ 28 := by
  have hsector := div_lt_spf hc
  have hdata := h.dataStart_eq
  have hroot := h.root_fits
  unfold fatNext
  simp only [fatByte_div, fatByte_mod, Nat.zero_mul, Nat.add_zero]
  rw [h.rsec_eq (by omega)]

theorem Sound.fatNext_tableSize (h : Sound fs) : fs.fatNext fs.bpb.tableSize ≠ 0 := by
  have hdata := h.dataStart_eq
  have hroot := h.root_fits
  have hspf := h.spf_pos
  have hfirst : fs.fatNext 0 = rd 4 (fs.dev.sector fs.bpb.reserved).bytes 0 % 2 ^ 28 :=
    h.fatNext_eq (by unfold Bpb.tableSize; omega)
  have hbehind : fs.fatNext fs.bpb.tableSize =
      rd 4 (fs.dev.sector (fs.bpb.reserved + fs.bpb.spf)).bytes 0 % 2 ^ 28 := by
    have hdiv : fs.bpb.tableSize / 128 = fs.bpb.spf := by
      unfold Bpb.tableSize
      omega
    have hmod : fs.bpb.tableSize % 128 * 4 = 0 := by
      unfold Bpb.tableSize
      omega
    unfold fatNext
    simp only [fatByte_div, fatByte_mod, Nat.zero_mul, Nat.add_zero, hdiv, hmod]
    rw [h.rsec_eq (by omega)]
  have hcopy : fs.dev.sector (fs.bpb.reserved + fs.bpb.spf) = fs.dev.sector fs.bpb.reserved :=
    h.mirrored 0 h.spf_pos
  rw [hbehind, hcopy, ← hfirst]
  exact h.taken

theorem Sound.inVolume_of_free (h : Sound fs) (hlow : 2 ≤ c) (hhigh : c < fs.bpb.totalClusters + 2)
    (hfree : fs.fatNext c = 0) : InVolume fs.bpb c := by
  refine ⟨hlow, ?_, .inr hhigh⟩
  have hne : c ≠ fs.bpb.tableSize := by
    rintro rfl
    exact h.fatNext_tableSize hfree
  have hfit := h.entries_fit
  omega

theorem Sound.lt_blocks (h : Sound fs) (hc : InVolume fs.bpb c) (hlba : lba ∈ fs.bpb.clusterSectors c) :
    lba < fs.dev.blocks := by
  have hmem := Bpb.mem_clusterSectors.mp hlba
  have hroot := h.root_fits
  have hdata := h.data_fits
  unfold Bpb.clusterFirstSector at hmem
  rcases hc.hasSectors with rfl | hlt
  · simp only [Nat.sub_self, Nat.zero_mul] at hmem
    omega
  have htwo := hc.two_le
  have hrow : (c - 2 + 1) * fs.bpb.spc ≤ fs.bpb.totalClusters * fs.bpb.spc :=
    Nat.mul_le_mul_right _ (by omega)
  rw [Nat.add_mul, Nat.one_mul] at hrow
  omega

end Table

/-- The effect of an action: the volume stays sound, and at most the table entries in `F` and the
data sectors in `S` change. -/
structure Changes (fs fs' : FatFs) (F S : Set Nat) : Prop where
  sound : Sound fs'
  bpb : fs'.bpb = fs.bpb
  blocks : fs'.dev.blocks = fs.dev.blocks
  table : ∀ c < fs.bpb.tableSize, c ∉ F → fs'.fatNext c = fs.fatNext c
  data : ∀ lba, fs.bpb.dataStart ≤ lba → lba ∉ S → fs'.dev.sector lba = fs.dev.sector lba

namespace Changes

variable {fs : FatFs}

theorem refl (h : Sound fs) : Changes fs fs ∅ ∅ := ⟨h, rfl, rfl, fun _ _ _ => rfl, fun _ _ _ => rfl⟩

theorem trans (h : Changes fs fs' F S) (h' : Changes fs' fs'' F' S') :
    Changes fs fs'' (F ∪ F') (S ∪ S') where
  sound := h'.sound
  bpb := h'.bpb.trans h.bpb
  blocks := h'.blocks.trans h.blocks
  table c hc hnot := by
    rw [Set.mem_union, not_or] at hnot
    rw [h'.table c (h.bpb ▸ hc) hnot.2, h.table c hc hnot.1]
  data lba hlba hnot := by
    rw [Set.mem_union, not_or] at hnot
    rw [h'.data lba (h.bpb ▸ hlba) hnot.2, h.data lba hlba hnot.1]

theorem mono (h : Changes fs fs' F S) (hF : F ⊆ F') (hS : S ⊆ S') : Changes fs fs' F' S' :=
  ⟨h.sound, h.bpb, h.blocks, fun c hc hnot => h.table c hc fun hmem => hnot (hF hmem),
    fun lba hlba hnot => h.data lba hlba fun hmem => hnot (hS hmem)⟩

end Changes

/-! ## Single writes -/

section Writes

variable {fs : FatFs} {lba : Nat} {sec : Sector}

theorem Sound.with_nextFree (h : Sound fs) (n : Nat) : Sound { fs with nextFree := n } := ⟨h.faultFree,
  h.numFats, h.spc_pos, h.spf_pos, h.root_fits, h.data_fits, h.entries_fit, h.numbers_fit,
  h.mirrored, h.taken⟩

theorem changes_nextFree (h : Sound fs) (n : Nat) : Changes fs { fs with nextFree := n } ∅ ∅ :=
  ⟨h.with_nextFree n, rfl, rfl, fun _ _ _ => rfl, fun _ _ _ => rfl⟩

def FatFs.put (fs : FatFs) (lba : Nat) (sec : Sector) : FatFs :=
  { fs with dev := fs.dev.store lba sec }

@[simp] theorem put_bpb : (fs.put lba sec).bpb = fs.bpb := rfl

@[simp] theorem put_blocks : (fs.put lba sec).dev.blocks = fs.dev.blocks := rfl

@[simp] theorem put_sector_self : (fs.put lba sec).dev.sector lba = sec :=
  SectorDevice.store_sector_self

theorem put_sector_of_ne (h : i ≠ lba) : (fs.put lba sec).dev.sector i = fs.dev.sector i :=
  SectorDevice.store_sector_of_ne h

theorem put_faultFree (h : fs.dev.FaultFree) : (fs.put lba sec).dev.FaultFree := h.store

theorem wsec_eq (h : fs.dev.FaultFree) (hlba : lba < fs.dev.blocks) :
    wsec lba sec fs = (.ok (), fs.put lba sec) := by
  unfold wsec
  rw [h.write_eq hlba]
  rfl

theorem Sound.of_sectors (h : Sound fs) (hbpb : fs'.bpb = fs.bpb)
    (hblocks : fs'.dev.blocks = fs.dev.blocks) (hfaults : fs'.dev.FaultFree)
    (hmirrored : ∀ i < fs.bpb.spf, fs'.dev.sector (fs.bpb.reserved + fs.bpb.spf + i) =
      fs'.dev.sector (fs.bpb.reserved + i))
    (hentry : rd 4 (fs'.dev.sector fs.bpb.reserved).bytes 0 =
      rd 4 (fs.dev.sector fs.bpb.reserved).bytes 0) :
    Sound fs' := by
  have hstart := h.dataStart_eq
  have hroot := h.root_fits
  have hspf := h.spf_pos
  have hzero := h.fatNext_eq (c := 0) (by unfold Bpb.tableSize; omega)
  have hnext : fs'.fatNext 0 = fs.fatNext 0 := by
    rw [hzero]
    unfold fatNext
    simp only [fatByte_div, fatByte_mod, Nat.zero_mul, Nat.add_zero, Nat.zero_div, Nat.zero_mod, hbpb]
    unfold rsec
    rw [hfaults.read_eq (by rw [hblocks]; omega)]
    dsimp only
    rw [hentry]
  constructor
  case faultFree => exact hfaults
  case taken =>
    rw [hnext]
    exact h.taken
  all_goals rw [hbpb]
  case numFats => exact h.numFats
  case spc_pos => exact h.spc_pos
  case spf_pos => exact h.spf_pos
  case root_fits => exact hblocks ▸ h.root_fits
  case data_fits => exact hblocks ▸ h.data_fits
  case entries_fit => exact h.entries_fit
  case numbers_fit => exact h.numbers_fit
  case mirrored => exact hmirrored

theorem changes_put (h : Sound fs) (hdata : fs.bpb.dataStart ≤ lba) :
    Changes fs (fs.put lba sec) ∅ {lba} := by
  have hstart := h.dataStart_eq
  have hspf := h.spf_pos
  have hkept : ∀ i < fs.bpb.dataStart, (fs.put lba sec).dev.sector i = fs.dev.sector i :=
    fun i hi => put_sector_of_ne (by omega)
  have hsound : Sound (fs.put lba sec) := by
    refine h.of_sectors rfl rfl (put_faultFree h.faultFree) (fun i hi => ?_) ?_
    · rw [hkept _ (by omega), hkept _ (by omega)]
      exact h.mirrored i hi
    · rw [hkept _ (by omega)]
  refine ⟨hsound, rfl, rfl, fun c hc _ => ?_, fun i _ hne => put_sector_of_ne (by simpa using hne)⟩
  have hsector := div_lt_spf hc
  rw [hsound.fatNext_eq hc, h.fatNext_eq hc, put_bpb, hkept _ (by omega)]

def putEntry (sec : Sector) (c v : Nat) : Sector :=
  sec.patch (c % 128 * 4)
    (le 4 (rd 4 sec.bytes (c % 128 * 4) / 2 ^ 28 * 2 ^ 28 + v % 2 ^ 28))

theorem rd_patch_self (h : off + 4 ≤ sectorSize) :
    rd 4 (sec.patch off (le 4 n)).bytes off = n % 256 ^ 4 := by
  have hself : slice (sec.patch off (le 4 n)).bytes off (le 4 n).length = le 4 n :=
    Sector.slice_patch_self (by rwa [length_le])
  rw [length_le] at hself
  rw [rd_eq_slice, hself, leNat_le]

theorem rd_putEntry_self (sec : Sector) (c v : Nat) :
    rd 4 (putEntry sec c v).bytes (c % 128 * 4) % 2 ^ 28 = v % 2 ^ 28 := by
  rw [putEntry, rd_patch_self (by unfold sectorSize; omega)]
  omega

theorem rd_putEntry_of_ne (sec : Sector) {k : Nat} (hne : k % 128 ≠ c % 128) :
    rd 4 (putEntry sec c v).bytes (k % 128 * 4) = rd 4 sec.bytes (k % 128 * 4) := by
  rw [rd_eq_slice, rd_eq_slice]
  refine congrArg leNat (Sector.slice_patch_of_disjoint ?_ ?_)
  · rw [length_le]
    unfold sectorSize
    omega
  · rw [length_le]
    omega

theorem setFatCopy_eq (h : fs.dev.FaultFree) (hi : fs.bpb.reserved + f * fs.bpb.spf + c / 128 = i)
    (hlba : i < fs.dev.blocks) :
    setFatCopy c v f fs = (.ok (), fs.put i (putEntry (fs.dev.sector i) c v)) := by
  unfold setFatCopy
  rw [Action.get_bind]
  simp only [fatByte_div, fatByte_mod, hi]
  have hread : fs.rsec i = .ok (fs.dev.sector i) := by simp only [rsec, h.read_eq hlba]
  rw [Action.read_bind fs hread]
  exact wsec_eq h hlba

theorem setFat_eq (h : Sound fs) (hc : c < fs.bpb.tableSize)
    (hsec : sec = putEntry (fs.dev.sector (fs.bpb.reserved + c / 128)) c v) :
    setFat c v fs =
      (.ok (), (fs.put (fs.bpb.reserved + c / 128) sec).put
        (fs.bpb.reserved + fs.bpb.spf + c / 128) sec) := by
  have hsector := div_lt_spf hc
  have hstart := h.dataStart_eq
  have hroot := h.root_fits
  have hfirst : setFatCopy c v 0 fs =
      (.ok (), fs.put (fs.bpb.reserved + c / 128) sec) := by
    rw [hsec]
    exact setFatCopy_eq h.faultFree (by omega) (by omega)
  have hsecond : setFatCopy c v 1 (fs.put (fs.bpb.reserved + c / 128) sec) =
      (.ok (), (fs.put (fs.bpb.reserved + c / 128) sec).put
        (fs.bpb.reserved + fs.bpb.spf + c / 128) sec) := by
    have hcopy : (fs.put (fs.bpb.reserved + c / 128) sec).dev.sector
        (fs.bpb.reserved + fs.bpb.spf + c / 128) = fs.dev.sector (fs.bpb.reserved + c / 128) := by
      rw [put_sector_of_ne (by omega)]
      exact h.mirrored (c / 128) hsector
    rw [setFatCopy_eq (put_faultFree h.faultFree)
      (show _ = fs.bpb.reserved + fs.bpb.spf + c / 128 by rw [put_bpb]; omega)
      (by rw [put_blocks]; omega), hcopy, ← hsec]
  unfold setFat
  rw [Action.get_bind, h.numFats]
  show each (setFatCopy c v) [0, 1] fs = _
  rw [each, Action.bind_of_ok hfirst, each, Action.bind_of_ok hsecond]
  rfl

theorem setFat_changes (h : Sound fs) (hc : c < fs.bpb.tableSize) (hzero : c ≠ 0) :
    ∃ fs', setFat c v fs = (.ok (), fs') ∧ Changes fs fs' {c} ∅ ∧ fs'.fatNext c = v % 2 ^ 28 := by
  obtain ⟨sec, hsec⟩ : ∃ sec, sec = putEntry (fs.dev.sector (fs.bpb.reserved + c / 128)) c v := ⟨_, rfl⟩
  refine ⟨_, setFat_eq h hc hsec, ?_⟩
  have hsector := div_lt_spf hc
  have hstart := h.dataStart_eq
  generalize hfs' : (fs.put (fs.bpb.reserved + c / 128) sec).put
    (fs.bpb.reserved + fs.bpb.spf + c / 128) sec = fs'
  have hfirst : fs'.dev.sector (fs.bpb.reserved + c / 128) = sec := by
    rw [← hfs', put_sector_of_ne (by omega), put_sector_self]
  have hother : ∀ i, i ≠ fs.bpb.reserved + c / 128 → i ≠ fs.bpb.reserved + fs.bpb.spf + c / 128 →
      fs'.dev.sector i = fs.dev.sector i := by
    intro i hi hi'
    rw [← hfs', put_sector_of_ne hi', put_sector_of_ne hi]
  have hbpb : fs'.bpb = fs.bpb := by rw [← hfs']; rfl
  have hrd : ∀ k < fs.bpb.tableSize, k ≠ c →
      rd 4 (fs'.dev.sector (fs.bpb.reserved + k / 128)).bytes (k % 128 * 4) =
        rd 4 (fs.dev.sector (fs.bpb.reserved + k / 128)).bytes (k % 128 * 4) := by
    intro k hk hne
    have hkspf := div_lt_spf hk
    by_cases hsame : k / 128 = c / 128
    · rw [hsame, hfirst, hsec, rd_putEntry_of_ne _ (by omega)]
    · rw [hother _ (by omega) (by omega)]
  have hsound : Sound fs' := by
    refine h.of_sectors hbpb (by rw [← hfs']; rfl) ?_ (fun i hi => ?_) ?_
    · rw [← hfs']
      exact put_faultFree (put_faultFree h.faultFree)
    · by_cases hsame : i = c / 128
      · rw [hsame, hfirst, ← hfs', put_sector_self]
      · rw [hother _ (by omega) (by omega), hother _ (by omega) (by omega)]
        exact h.mirrored i hi
    · simpa using hrd 0 (by unfold Bpb.tableSize; omega) (Ne.symm hzero)
  refine ⟨⟨hsound, hbpb, by rw [← hfs']; rfl, fun k hk hne => ?_, fun i hi _ => ?_⟩, ?_⟩
  · rw [hsound.fatNext_eq (hbpb ▸ hk), h.fatNext_eq hk, hbpb, hrd k hk (by simpa using hne)]
  · exact hother i (by omega) (by omega)
  · rw [hsound.fatNext_eq (hbpb ▸ hc), hbpb, hfirst, hsec, rd_putEntry_self]

end Writes

end EuroOS.Fat
