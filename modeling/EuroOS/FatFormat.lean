import EuroOS.FatDriver

/-!
# The streaming formatter

Only the parameter block, FSInfo, both tables and the root cluster are written;
the rest of the data region is left as it is.
-/

namespace EuroOS.Fat

abbrev reservedSectors : UInt32 := 32
abbrev numFats : UInt32 := 2

def fat32Spc (totalSectors : UInt32) : UInt32 :=
  if totalSectors ≤ 1048576 then 1
  else if totalSectors ≤ 16777216 then 8
  else if totalSectors ≤ 67108864 then 32
  else 64

def bpbSector (totalSectors volumeId : UInt32) (label : Bytes) (spc spf : UInt32) : Sector :=
  Buf.ofBytes <|
    [0xEB, 0x58, 0x90] ++ Str.bytes "MSWIN4.1".toList ++ le 2 sectorSize ++ le 1 spc.toNat ++
    le 2 reservedSectors.toNat ++ le 1 numFats.toNat ++ List.replicate 4 0 ++ [0xF8] ++ [0, 0] ++
    le 2 32 ++ le 2 64 ++ List.replicate 4 0 ++ le 4 totalSectors.toNat ++ le 4 spf.toNat ++
    List.replicate 4 0 ++ le 4 2 ++ le 2 1 ++ le 2 6 ++ List.replicate 12 0 ++ [0x80, 0, 0x29] ++
    le 4 volumeId.toNat ++ label ++ Str.bytes "FAT32   ".toList ++ List.replicate 420 0 ++
    [0x55, 0xAA]

def fsInfoSector (freeCount nextFree : UInt32) : Sector :=
  Buf.ofBytes <|
    le 4 0x41615252 ++ List.replicate 480 0 ++ le 4 0x61417272 ++ le 4 freeCount.toNat ++
    le 4 nextFree.toNat ++ List.replicate 12 0 ++ le 4 0xAA550000

def volumeLabel (label : Str) : Bytes :=
  overlay blanks 0 ((label.bytes.take 11).map fun b => if 97 ≤ b ∧ b ≤ 122 then b - 32 else b)

def sectorsPerFat (totalSectors : UInt32) : UInt32 :=
  let tmp1 := if totalSectors ≤ reservedSectors then 0 else totalSectors - reservedSectors
  let tmp2 := (256 * fat32Spc totalSectors + numFats) / 2
  (tmp1 + tmp2 - 1) / max tmp2 1

def firstFatSector : Sector := Buf.ofBytes (le 4 eoc ++ le 4 lastMark ++ le 4 lastMark)

def formatFat32 (totalSectors volumeId : UInt32) (label : Str) : List (Nat × Sector) :=
  let spc := fat32Spc totalSectors
  let spf := sectorsPerFat totalSectors
  let dataStart := reservedSectors + numFats * spf
  let totalClusters := (if totalSectors ≤ dataStart then 0 else totalSectors - dataStart) / spc
  let lbl := volumeLabel label
  let bpb := bpbSector totalSectors volumeId lbl spc spf
  let fsi := fsInfoSector (if totalClusters ≤ 1 then 0 else totalClusters - 1) 3
  let table (f : UInt32) : List (Nat × Sector) :=
    let base := reservedSectors + f * spf
    (List.range spf.toNat).map (fun s => (base.toNat + s, Sector.zero)) ++
      [(base.toNat, firstFatSector)]
  [(0, bpb), (6, bpb), (1, fsi), (7, fsi)] ++ table 0 ++ table 1 ++
    (List.range spc.toNat).map (fun s => (dataStart.toNat + s, Sector.zero)) ++
    [(dataStart.toNat, Buf.ofBytes (sfnEntry lbl attrVolumeId 0 0))]

namespace SectorDevice

def writeAll (dev : SectorDevice) (requests : List (Nat × Sector)) : SectorDevice :=
  requests.foldl (fun dev request => (dev.write request.1 request.2).2) dev

end SectorDevice

end EuroOS.Fat
