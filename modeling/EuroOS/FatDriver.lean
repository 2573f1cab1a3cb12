import EuroOS.FatNames

/-!
# The FAT32 driver

Directories as streams of entries over a cluster chain, path lookup, and the
operations of the file system interface.
-/

namespace EuroOS.Fat

open Action

abbrev Slot := Nat × Nat

structure Item where
  name : Str
  first : Nat
  size : Nat
  isDir : Bool
  deriving DecidableEq

namespace FatFs

/-! ## Reading directories -/

def sectorEntries (sec : Sector) : List Entry :=
  (List.range 16).map fun i => slice sec.bytes (i * 32) 32

def readDirSectors (fs : FatFs) : List Nat → Except Fail (List Entry)
  | [] => .ok []
  | lba :: rest => do
      let buf ← fs.rsec lba
      let here := (sectorEntries buf).takeWhile fun e => e.byte 0 ≠ 0x00
      if here.length < 16 then return here
      else
        let more ← fs.readDirSectors rest
        return here ++ more

def readDirRaw (fs : FatFs) (start : Nat) : Except Fail (List Entry) :=
  fs.readDirSectors ((fs.walk (2 ^ 20) start).flatMap fs.bpb.clusterSectors)

/-- The entries that are listed, with the names collected from the fragments `lfn` so far. -/
def parseEntries (lfn : Str) : List Entry → List Item
  | [] => []
  | e :: rest =>
    if e.byte 0 = 0xE5 then parseEntries [] rest
    else if e.byte 11 = attrLfn then parseEntries (lfnChars e ++ lfn) rest
    else if e.byte 11 &&& attrVolumeId ≠ 0 then parseEntries [] rest
    else
      let name := entryName lfn e
      if name = ['.'] ∨ name = ['.', '.'] then parseEntries [] rest
      else ⟨name, e.first, e.size, e.isDir⟩ :: parseEntries [] rest

def parseDir (fs : FatFs) (dirCluster : Nat) : Except Fail (List Item) :=
  (fs.readDirRaw dirCluster).map (parseEntries [])

def findInDir (fs : FatFs) (dirCluster : Nat) (name : Str) : Except Fail (Nat × Nat × Bool) := do
  let items ← fs.parseDir dirCluster
  match items.find? fun item => eqIgnoreCase item.name name with
  | some item => return (item.first, item.size, item.isDir)
  | none => throw (.err .notFound)

def resolveFrom (fs : FatFs) : List Str → Nat × Nat × Bool → Except Fail (Nat × Nat × Bool)
  | [], at_ => .ok at_
  | part :: rest, (cluster, _, isDir) =>
    if !isDir then throw (.err .notADirectory)
    else do
      let (cl, sz, dir) ← fs.findInDir cluster part
      fs.resolveFrom rest (if 2 ≤ cl then cl else cluster, sz, dir)

def resolve (fs : FatFs) (path : Str) : Except Fail (Nat × Nat × Bool) :=
  fs.resolveFrom (splitPath path) (fs.bpb.rootCluster, 0, true)

/-! ## Directory slots -/

def slotsOf (fs : FatFs) : List Nat → Except Fail (List (Slot × UInt8))
  | [] => .ok []
  | lba :: rest => do
      let buf ← fs.rsec lba
      let here := (List.range 16).map fun i => ((lba, i * 32), Entry.byte buf.bytes (i * 32))
      let more ← fs.slotsOf rest
      return here ++ more

def dirSlots (fs : FatFs) (dirCluster : Nat) : Except Fail (List (Slot × UInt8)) :=
  fs.slotsOf ((fs.walk (2 ^ 16) dirCluster).flatMap fs.bpb.clusterSectors)

/-- The first `need` consecutive free slots, `run` being the free ones just before. -/
def freeRun (need : Nat) : List (Slot × UInt8) → List Slot → Option (List Slot)
  | [], _ => none
  | (slot, b) :: rest, run =>
    if Entry.isFree b then
      let run := run ++ [slot]
      if run.length = need then some run else freeRun need rest run
    else freeRun need rest []

def lastCluster (fs : FatFs) : Nat → Nat → Option Nat
  | 0, _ => none
  | fuel + 1, cl =>
    let next := fs.fatNext cl
    if next < eoc ∧ 2 ≤ next then fs.lastCluster fuel next else some cl

def extendDir (dirCluster : Nat) : Action FatFs Unit := do
  let fs ← get
  -- There are 2^28 values of a table entry, so a longer walk never ends.
  match fs.lastCluster (2 ^ 28 + 1) dirCluster with
  | none => halt
  | some last => do
      let cl ← allocCluster
      zeroCluster cl
      setFat last cl

/-- Reserve `need` consecutive free slots, extending the chain until there are such. -/
def reserveDirSlotsFrom (dirCluster need : Nat) : Nat → Action FatFs (List Slot)
  | 0 => fail .noSpace
  | guard + 1 => do
      let slots ← read (dirSlots · dirCluster)
      match freeRun need slots [] with
      | some run => return run
      | none => do
          extendDir dirCluster
          reserveDirSlotsFrom dirCluster need guard

def reserveDirSlots (dirCluster need : Nat) : Action FatFs (List Slot) :=
  reserveDirSlotsFrom dirCluster need 1024

def patchSector (lba off : Nat) (bytes : Bytes) : Action FatFs Unit := do
  let buf ← read (rsec · lba)
  wsec lba (buf.patch off bytes)

def writeEntry (slot : Slot) (e : Entry) : Action FatFs Unit := patchSector slot.1 slot.2 e

def usedShorts (fs : FatFs) (dirCluster : Nat) : Except Fail (List Bytes) := do
  let raw ← fs.readDirRaw dirCluster
  return (raw.filter fun e => e.byte 0 ≠ 0xE5 && e.byte 11 ≠ attrLfn && e.byte 0 ≠ 0x00).map
    (slice · 0 11)

def addDirEntry (dirCluster : Nat) (name : Str) (attr : UInt8) (first size : Nat) :
    Action FatFs Unit := do
  let used ← read (usedShorts · dirCluster)
  let short := uniqueShort name used
  let entries := makeEntries name short attr first size (short83 name ≠ some short)
  let slots ← reserveDirSlots dirCluster entries.length
  each (fun entry => writeEntry entry.2 entry.1) (entries.zip slots)

/-- Look for the entry of `name`, the fragments in front of it being `lfn` at `lfnPos`. -/
def findEntryFrom (fs : FatFs) (name : Str) :
    List (Slot × UInt8) → Str → List Slot → Except Fail (Slot × List Slot)
  | [], _, _ => throw (.err .notFound)
  | ((lba, off), b) :: rest, lfn, lfnPos =>
    if b = 0x00 then throw (.err .notFound)
    else do
      let buf ← fs.rsec lba
      let e : Entry := slice buf.bytes off 32
      if e.byte 0 = 0xE5 then fs.findEntryFrom name rest [] []
      else if e.byte 11 = attrLfn then
        fs.findEntryFrom name rest (lfnChars e ++ lfn) (lfnPos ++ [(lba, off)])
      else if e.byte 11 &&& attrVolumeId ≠ 0 then fs.findEntryFrom name rest [] []
      else if eqIgnoreCase (entryName lfn e) name then return ((lba, off), lfnPos)
      else fs.findEntryFrom name rest [] []

def findEntrySlots (fs : FatFs) (dirCluster : Nat) (name : Str) :
    Except Fail (Slot × List Slot) := do
  let slots ← fs.dirSlots dirCluster
  fs.findEntryFrom name slots [] []

def updateEntry (dirCluster : Nat) (name : Str) (first size : Nat) : Action FatFs Unit := do
  let (slot, _) ← read (findEntrySlots · dirCluster name)
  let buf ← read (rsec · slot.1)
  wsec slot.1 (((buf.patch (slot.2 + 20) (le 2 (first / 2 ^ 16))).patch (slot.2 + 26)
    (le 2 first)).patch (slot.2 + 28) (le 4 size))

def deleteEntry (dirCluster : Nat) (name : Str) : Action FatFs Unit := do
  let (slot, lfn) ← read (findEntrySlots · dirCluster name)
  each (fun slot => patchSector slot.1 slot.2 [0xE5]) (lfn ++ [slot])

/-! ## The file system interface -/

def splitParent (path : Str) : Str × Str :=
  let trimmed := trimEndSlash path
  match trimmed.rdropWhile (· ≠ '/') with
  | [] => (['/'], trimmed)
  | front => (front, trimmed.rtakeWhile (· ≠ '/'))

def readFile (fs : FatFs) (path : Str) : Except Fail Bytes := do
  let (cluster, size, isDir) ← fs.resolve path
  if isDir then throw (.err .notAFile)
  else if size = 0 ∨ cluster < 2 then return []
  else fs.readChain cluster size

/-- The listing of a directory; the fields that depend on nothing but the kind are left out. -/
def listDir (fs : FatFs) (path : Str) : Except Fail (List (Str × Bool × Nat)) := do
  let (cluster, _, isDir) ← fs.resolve path
  if !isDir then throw (.err .notADirectory)
  else
    let items ← fs.parseDir cluster
    return items.map fun item => (item.name, item.isDir, item.size)

def lookup (dirCluster : Nat) (name : Str) : Action FatFs (Option (Nat × Nat × Bool)) := fun fs =>
  match fs.findInDir dirCluster name with
  | .ok found => (.ok (some found), fs)
  | .error (.err .notFound) => (.ok none, fs)
  | .error e => (.error e, fs)

def parentDir (path : Str) : Action FatFs Nat := do
  let (dirCluster, _, isDir) ← read (resolve · (splitParent path).1)
  if !isDir then fail .notADirectory else return dirCluster

def writeFile (path : Str) (data : Bytes) : Action FatFs Unit := do
  let name := (splitParent path).2
  if name = [] then fail .invalidPath
  else
    let dirCluster ← parentDir path
    let found ← lookup dirCluster name
    match found with
    | some (cl, _, isDir) =>
      if isDir then fail .notAFile
      else do
        -- The old chain goes before the new one is allocated.
        if 2 ≤ cl then freeChain cl
        let first ← writeNewChain data
        updateEntry dirCluster name first (data.length % 2 ^ 32)
    | none =>
      let first ← writeNewChain data
      addDirEntry dirCluster name 0 first (data.length % 2 ^ 32)

def removeFile (path : Str) : Action FatFs Unit := do
  let name := (splitParent path).2
  let dirCluster ← parentDir path
  let (cl, _, isDir) ← read (findInDir · dirCluster name)
  if isDir then fail .notAFile
  else do
    if 2 ≤ cl then freeChain cl
    deleteEntry dirCluster name

def dotShort : Bytes := 0x2E :: List.replicate 10 0x20

def dotdotShort : Bytes := 0x2E :: 0x2E :: List.replicate 9 0x20

def createDir (path : Str) : Action FatFs Unit := do
  let name := (splitParent path).2
  if name = [] then fail .invalidPath
  else
    let dirCluster ← parentDir path
    let fs ← get
    match fs.findInDir dirCluster name with
    | .ok _ => fail .alreadyExists
    | .error _ => do
        let cl ← allocCluster
        zeroCluster cl
        let parentCl := if dirCluster = fs.bpb.rootCluster then 0 else dirCluster
        wsec (fs.bpb.clusterFirstSector cl) (Buf.ofBytes
          (sfnEntry dotShort attrDir cl 0 ++ sfnEntry dotdotShort attrDir parentCl 0))
        addDirEntry dirCluster name attrDir cl 0

def rename (old new : Str) : Action FatFs Unit := do
  let data ← read (readFile · old)
  writeFile new data
  removeFile old

def removeDir (path : Str) : Action FatFs Unit := do
  let (cl, _, isDir) ← read (resolve · path)
  if !isDir then fail .notADirectory
  else
    let items ← read (parseDir · cl)
    if items ≠ [] then fail .notEmpty
    else
      let (dirCluster, _, _) ← read (resolve · (splitParent path).1)
      freeChain cl
      deleteEntry dirCluster (splitParent path).2

end FatFs

end EuroOS.Fat
