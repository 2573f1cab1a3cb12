import EuroOS.Eurofs.Disk
import EuroOS.Eurofs.FsPath

/-!
# Reading the tree

Directory lookup, symbolic links and path resolution, over anything that can
read inodes and their data.  Resolution is a walk along the components of the
path; a symbolic link replaces the component by its target and costs one hop.
-/

namespace EuroOS

structure Reader where
  readInode : Oid → Except Fail Inode
  readData : Inode → Except Fail Bytes
  objectCount : Nat

abbrev symlinkMaxHops : Nat := 40
abbrev flagImmutable : UInt32 := 1
abbrev flagAppendOnly : UInt32 := 2
abbrev flagVersioned : UInt32 := 4

def hasFlag (flags mask : UInt32) : Bool := flags &&& mask ≠ 0

def EuroFs.reader [TwoxHash] (fs : EuroFs) : Reader where
  readInode := fs.readInode
  readData := fs.readData
  objectCount := fs.objmap.size

namespace Reader

variable (R : Reader)

def readDirEntries (dirOid : Oid) : Except Fail (List Dirent) := do
  let inode ← R.readInode dirOid
  if inode.otype ≠ typeDir then .error (.err .notADirectory)
  else do
    let data ← R.readData inode
    .ok (decodeDirEntries data)

def readSymlinkTarget (oid : Oid) : Except Fail Str := do
  let inode ← R.readInode oid
  if inode.otype ≠ typeSymlink then .error (.err .invalidPath)
  else do
    let data ← R.readData inode
    match fromUtf8 data with
    | some target => .ok target
    | none => .error (.err .corruption)

/-! ## Resolution -/

def isAbsolute (path : Str) : Bool := path.head? = some '/'

/-- Walk along the components from a directory; `follow` is what happens at a
symbolic link, given the link, the directory it stands in and the components
behind it. -/
def walkComps (followFinal : Bool) (left : Nat)
    (follow : Oid → Oid → List Str → Except Fail (Oid × Nat)) :
    Oid → List Str → Except Fail (Oid × Nat)
  | cur, [] => .ok (cur, left)
  | cur, name :: rest => do
      let entries ← R.readDirEntries cur
      match entries.find? fun e => e.name = name with
      | none => .error (.err .notFound)
      | some e =>
        if e.otype = typeSymlink ∧ (rest ≠ [] ∨ followFinal = true) then follow e.oid cur rest
        else walkComps followFinal left follow e.oid rest

/-- Walk with a number of hops left; the object reached and the hops left. -/
def walk (followFinal : Bool) : Nat → Oid → List Str → Except Fail (Oid × Nat)
  | 0 => R.walkComps followFinal 0 fun _ _ _ => .error (.err .invalidPath)
  | left + 1 => R.walkComps followFinal (left + 1) fun link cur rest => do
      let target ← R.readSymlinkTarget link
      walk followFinal left (if isAbsolute target then rootOid else cur)
        (splitPath target ++ rest)

def lookup (path : Str) (followFinal : Bool) : Except Fail (Oid × Nat) :=
  R.walk followFinal symlinkMaxHops rootOid (splitPath path)

def cacheAdd (cache : BTreeMap Str Oid) (path : Str) (oid : Oid) : BTreeMap Str Oid :=
  (if cache.size ≥ 1024 then ∅ else cache).insert path oid

def resolveFollow (cache : BTreeMap Str Oid) (path : Str) (followFinal : Bool) :
    Except Fail Oid × BTreeMap Str Oid :=
  match if followFinal then cache[path]? else none with
  | some oid => (.ok oid, cache)
  | none =>
    match R.lookup path followFinal with
    | .error e => (.error e, cache)
    | .ok (oid, left) =>
      if followFinal = true ∧ left = symlinkMaxHops then (.ok oid, cacheAdd cache path oid)
      else (.ok oid, cache)

/-- Whether a directory or one of its next seventeen ancestors is versioned. -/
def dirVersionedFrom : Nat → Oid → Except Fail Bool
  | 0, _ => .ok false
  | fuel + 1, dirOid =>
    match R.readInode dirOid with
    | .error (.stop reason) => .error (.stop reason)
    | .error (.err _) => .ok false
    | .ok inode =>
      if hasFlag inode.flags flagVersioned then .ok true
      else if dirOid = rootOid ∨ fuel = 0 then .ok false
      else dirVersionedFrom fuel inode.parent

def dirVersioned (dirOid : Oid) : Except Fail Bool := R.dirVersionedFrom 18 dirOid

/-- Climb from `walk` to the root, failing when `oid` is met on the way. -/
def antiLoopFrom (oid : Oid) : Nat → Oid → Except Fail Unit
  | 0, _ => .error (.stop .halted)
  | fuel + 1, walk =>
    if walk = oid then .error (.err .invalidPath)
    else if walk = rootOid then .ok ()
    else do
      let inode ← R.readInode walk
      antiLoopFrom oid fuel inode.parent

/-- The climb of `rename`.  An object is read at every step, so a climb that is
longer than the number of objects goes round in circles for ever. -/
def antiLoop (oid walk : Oid) : Except Fail Unit :=
  R.antiLoopFrom oid (R.objectCount + 1) walk

end Reader

end EuroOS
