import EuroOS.Eurofs.DiskState

/-!
# FAT32 volumes

The lower half of the FAT32 driver: a device of 512-byte sectors, the parameter
block in sector 0, the two copies of the allocation table, and the cluster
chains that are allocated, written, read and freed through the table.

Sector and cluster numbers are natural numbers: on a volume whose geometry the
formatter computed, none of the driver's sums leaves 32 bits.
-/

namespace EuroOS.Fat

abbrev sectorSize : Nat := 512

abbrev eoc : Nat := 0x0FFFFFF8

abbrev lastMark : Nat := 0x0FFFFFFF

abbrev attrDir : UInt8 := 0x10
abbrev attrVolumeId : UInt8 := 0x08
abbrev attrLfn : UInt8 := 0x0F

abbrev Sector := Buf sectorSize

namespace Sector

def zero : Sector := Buf.ofBytes []

def patch (sec : Sector) (off : Nat) (bytes : Bytes) : Sector :=
  Buf.ofBytes (sec.bytes.take off ++ bytes ++ sec.bytes.drop (off + bytes.length))

end Sector

/-! ## Devices -/

/-- Which requests the device fails is asked with the number of writes seen so far. -/
structure SectorDevice where
  blocks : Nat
  sector : Nat → Sector
  writes : Nat
  readFails : Nat → Nat → Bool
  writeFails : Nat → Nat → Bool

namespace SectorDevice

def read (dev : SectorDevice) (lba : Nat) : Option Sector :=
  if lba < dev.blocks ∧ dev.readFails dev.writes lba = false then some (dev.sector lba) else none

def store (dev : SectorDevice) (lba : Nat) (sec : Sector) : SectorDevice :=
  { dev with sector := Function.update dev.sector lba sec, writes := dev.writes + 1 }

def write (dev : SectorDevice) (lba : Nat) (sec : Sector) : Bool × SectorDevice :=
  if lba < dev.blocks ∧ dev.writeFails dev.writes lba = false then (true, dev.store lba sec)
  else (false, { dev with writes := dev.writes + 1 })

structure FaultFree (dev : SectorDevice) : Prop where
  read : ∀ t lba, dev.readFails t lba = false
  write : ∀ t lba, dev.writeFails t lba = false

end SectorDevice

structure Bpb where
  reserved : Nat
  numFats : Nat
  spf : Nat
  spc : Nat
  rootCluster : Nat
  totalSectors : Nat
  deriving DecidableEq

namespace Bpb

def parse (s0 : Sector) : Except FsError Bpb :=
  let b := s0.bytes
  if rd 1 b 510 ≠ 0x55 ∨ rd 1 b 511 ≠ 0xAA then .error .corruption
  else if rd 2 b 11 ≠ sectorSize then .error .unsupported
  else
    let spc := rd 1 b 13
    let spf := rd 4 b 36
    let rootCluster := rd 4 b 44
    let totalSectors := if rd 2 b 19 ≠ 0 then rd 2 b 19 else rd 4 b 32
    if spc = 0 ∨ spf = 0 ∨ rootCluster < 2 then .error .corruption
    else
      .ok { reserved := rd 2 b 14, numFats := rd 1 b 16, spf, spc, rootCluster, totalSectors }

def dataStart (bpb : Bpb) : Nat := bpb.reserved + bpb.numFats * bpb.spf

def clusterFirstSector (bpb : Bpb) (cl : Nat) : Nat := bpb.dataStart + (cl - 2) * bpb.spc

def clusterBytes (bpb : Bpb) : Nat := bpb.spc * sectorSize

def totalClusters (bpb : Bpb) : Nat := (bpb.totalSectors - bpb.dataStart) / bpb.spc

def clusterSectors (bpb : Bpb) (cl : Nat) : List Nat :=
  (List.range bpb.spc).map (bpb.clusterFirstSector cl + ·)

end Bpb

/-! ## Mounted volumes -/

structure FatFs where
  dev : SectorDevice
  bpb : Bpb
  /-- Allocation scans forward from here. -/
  nextFree : Nat

namespace FatFs

def mount (dev : SectorDevice) : Except FsError FatFs :=
  match dev.read 0 with
  | none => .error .ioError
  | some s0 =>
    match Bpb.parse s0 with
    | .error e => .error e
    | .ok bpb =>
      -- The hint of the FSInfo sector counts only when it is a cluster number.
      let nextFree :=
        match dev.read 1 with
        | none => 3
        | some fsi =>
          let hint := rd 4 fsi.bytes 492
          if rd 4 fsi.bytes 0 = 0x41615252 ∧ 2 ≤ hint ∧ hint ≠ 0xFFFFFFFF then hint else 3
      .ok { dev, bpb, nextFree }

def rsec (fs : FatFs) (lba : Nat) : Except Fail Sector :=
  match fs.dev.read lba with
  | none => .error (.err .ioError)
  | some sec => .ok sec

def wsec (lba : Nat) (sec : Sector) : Action FatFs Unit := fun fs =>
  match fs.dev.write lba sec with
  | (true, dev) => (.ok (), { fs with dev })
  | (false, dev) => (.error (.err .ioError), { fs with dev })

def fatByte (bpb : Bpb) (f cl : Nat) : Nat := (bpb.reserved + f * bpb.spf) * sectorSize + cl * 4

/-- Next cluster in the chain; a table that cannot be read ends the chain. -/
def fatNext (fs : FatFs) (cl : Nat) : Nat :=
  let byte := fatByte fs.bpb 0 cl
  match fs.rsec (byte / sectorSize) with
  | .error _ => eoc
  | .ok buf => rd 4 buf.bytes (byte % sectorSize) % 2 ^ 28

def walk (fs : FatFs) : Nat → Nat → List Nat
  | 0, _ => []
  | guard + 1, cl => if 2 ≤ cl ∧ cl < eoc then cl :: fs.walk guard (fs.fatNext cl) else []

def readSectors (fs : FatFs) (size : Nat) : List Nat → Bytes → Except Fail Bytes
  | [], out => .ok out
  | lba :: rest, out =>
    if out.length ≥ size then .ok out
    else do
      let buf ← fs.rsec lba
      fs.readSectors size rest (out ++ buf.bytes.take (min (size - out.length) sectorSize))

def readChain (fs : FatFs) (start size : Nat) : Except Fail Bytes :=
  fs.readSectors size ((fs.walk (2 ^ 24) start).flatMap fs.bpb.clusterSectors) []

/-! ## Writing -/

/-- Put `val` into the entry of `cl` in copy `f`, keeping the top four bits. -/
def setFatCopy (cl val f : Nat) : Action FatFs Unit := do
  let fs ← Action.get
  let byte := fatByte fs.bpb f cl
  let buf ← Action.read (rsec · (byte / sectorSize))
  let existing := rd 4 buf.bytes (byte % sectorSize)
  let merged := existing / 2 ^ 28 * 2 ^ 28 + val % 2 ^ 28
  wsec (byte / sectorSize) (buf.patch (byte % sectorSize) (le 4 merged))

end FatFs

def each {σ α : Type} (f : α → Action σ Unit) : List α → Action σ Unit
  | [] => pure ()
  | a :: rest => do
      f a
      each f rest

def halt {σ α : Type} : Action σ α := fun s => (.error (.stop .halted), s)

namespace FatFs

def setFat (cl val : Nat) : Action FatFs Unit := do
  let fs ← Action.get
  each (setFatCopy cl val) (List.range fs.bpb.numFats)

def candidates (fs : FatFs) : List Nat :=
  let max := fs.bpb.totalClusters + 2
  let start := min (max - 1) (Nat.max 2 fs.nextFree)
  List.range' start (max - start) ++ List.range' 2 (start - 2)

/-- Take a free cluster and mark it as the end of a chain.  On a volume without data clusters the
clamp of the start position panics. -/
def allocCluster : Action FatFs Nat := do
  let fs ← Action.get
  if fs.bpb.totalClusters = 0 then halt
  else
    match fs.candidates.find? fun cl => fs.fatNext cl = 0 with
    | none => Action.fail .noSpace
    | some cl => do
        setFat cl lastMark
        Action.modify fun fs => { fs with nextFree := cl + 1 }
        return cl

def zeroCluster (cl : Nat) : Action FatFs Unit := do
  let fs ← Action.get
  each (wsec · Sector.zero) (fs.bpb.clusterSectors cl)

def freeChainFrom : Nat → Nat → Action FatFs Unit
  | 0, _ => pure ()
  | guard + 1, cl =>
    if 2 ≤ cl ∧ cl < eoc then do
      let fs ← Action.get
      setFat cl 0
      Action.modify fun fs => { fs with nextFree := min fs.nextFree cl }
      freeChainFrom guard (fs.fatNext cl)
    else pure ()

def freeChain (start : Nat) : Action FatFs Unit := freeChainFrom (2 ^ 24) start

def allocClusters : Nat → Action FatFs (List Nat)
  | 0 => pure []
  | n + 1 => do
      let cl ← allocCluster
      let rest ← allocClusters n
      return cl :: rest

def linkChain : List Nat → Action FatFs Unit
  | [] => pure ()
  | [cl] => setFat cl lastMark
  | cl :: next :: rest => do
      setFat cl next
      linkChain (next :: rest)

def writeSectors : List Nat → Bytes → Action FatFs Unit
  | [], _ => pure ()
  | lba :: rest, data =>
    if data = [] then pure ()
    else do
      wsec lba (Buf.ofBytes (data.take sectorSize))
      writeSectors rest (data.drop sectorSize)

def clustersFor (bpb : Bpb) (len : Nat) : Nat := (len + bpb.clusterBytes - 1) / bpb.clusterBytes

/-- Allocate a chain and write `data` into it: its first cluster, 0 if there is no data. -/
def writeNewChain (data : Bytes) : Action FatFs Nat := do
  if data = [] then return 0
  else
    let fs ← Action.get
    let clusters ← allocClusters (clustersFor fs.bpb data.length)
    linkChain clusters
    writeSectors (clusters.flatMap fs.bpb.clusterSectors) data
    return clusters.headD 0

end FatFs

end EuroOS.Fat
