import EuroOS.PackageRegistry
import EuroOS.TextNumbers

/-!
# The package engine

Packages are archives of stored entries with a signed manifest that pins the hash
of the binary.  The engine keeps binaries under their hash, links them, and keeps
the registry.  The file system is a map from paths to files and links on which any
change may fail; directories are left out.  Signature check and hash are parameters.
-/

namespace EuroOS

/-! ## Archives -/

namespace ZipRead

def eocdSig : Nat := 0x06054b50
def cdirSig : Nat := 0x02014b50
def lfhSig : Nat := 0x04034b50

def rdU16 (b : Bytes) (o : Nat) : Option Nat := if o + 2 ≤ b.length then some (rd 2 b o) else none

def rdU32 (b : Bytes) (o : Nat) : Option Nat := if o + 4 ≤ b.length then some (rd 4 b o) else none

def get (b : Bytes) (o n : Nat) : Option Bytes :=
  if o + n ≤ b.length then some (slice b o n) else none

def crcBit (crc : UInt32) : UInt32 := (crc >>> 1) ^^^ (0xEDB88320 &&& (0 - (crc &&& 1)))

def crcByte (crc : UInt32) (b : UInt8) : UInt32 :=
  (List.range 8).foldl (fun crc _ => crcBit crc) (crc ^^^ b.toUInt32)

def crc32 (data : Bytes) : UInt32 := ~~~ (data.foldl crcByte 0xFFFFFFFF)

structure ZipEntry where
  name : Str
  data : Bytes
  deriving DecidableEq

/-- The end-of-central-directory record, searched backwards from `low + k` to `low`. -/
def findEocd (zip : Bytes) (low : Nat) : Nat → Option Nat
  | 0 => if rdU32 zip low = some eocdSig then some low else none
  | k + 1 =>
    if rdU32 zip (low + (k + 1)) = some eocdSig then some (low + (k + 1)) else findEocd zip low k

/-- One record of the central directory: the entry and where the next record starts. -/
def parseRecord (zip : Bytes) (o : Nat) : Option (ZipEntry × Nat) := do
  let sig ← rdU32 zip o
  if sig ≠ cdirSig then none
  let method ← rdU16 zip (o + 10)
  let crc ← rdU32 zip (o + 16)
  let csize ← rdU32 zip (o + 20)
  let usize ← rdU32 zip (o + 24)
  let nlen ← rdU16 zip (o + 28)
  let elen ← rdU16 zip (o + 30)
  let clen ← rdU16 zip (o + 32)
  let lho ← rdU32 zip (o + 42)
  let name ← get zip (o + 46) nlen >>= fromUtf8
  -- stored entries only
  if method ≠ 0 ∨ csize ≠ usize then none
  let lsig ← rdU32 zip lho
  if lsig ≠ lfhSig then none
  let lnlen ← rdU16 zip (lho + 26)
  let lelen ← rdU16 zip (lho + 28)
  let data ← get zip (lho + 30 + lnlen + lelen) csize
  if (crc32 data).toNat ≠ crc then none
  return (⟨name, data⟩, o + 46 + nlen + elen + clen)

def parseRecords (zip : Bytes) : Nat → Nat → Option (List ZipEntry)
  | 0, _ => some []
  | count + 1, o => do
      let (entry, next) ← parseRecord zip o
      let entries ← parseRecords zip count next
      return entry :: entries

def parse (zip : Bytes) : Option (List ZipEntry) := do
  if zip.length < 22 then none
  let last := zip.length - 22
  let low := last - 65536
  let e ← findEocd zip low (last - low)
  let count ← rdU16 zip (e + 10)
  let cdOff ← rdU32 zip (e + 16)
  parseRecords zip count cdOff

end ZipRead

structure PkgCrypto where
  verify : Bytes → Bytes → Bool
  sha256 : Bytes → Vector UInt8 32

inductive PkgError
  | badZip
  | badManifest
  | badSignature
  | hashMismatch
  | notFound
  | requiredBy (name : Str)
  | unresolvable
  | io
  deriving DecidableEq

def verifyPackage (crypto : PkgCrypto) (pkg : Bytes) : Except PkgError (PkgMeta × Bytes) :=
  match ZipRead.parse pkg with
  | none => .error .badZip
  | some entries =>
    let find := fun (name : Str) => (entries.find? (·.name = name)).map (·.data)
    match find "MANIFEST.toml".toList, find "signature.ed25519".toList with
    | none, _ => .error .badManifest
    | some _, none => .error .badSignature
    | some manifest, some sig =>
      if !crypto.verify manifest sig then .error .badSignature
      else
        match fromUtf8 manifest >>= parseManifest with
        | none => .error .badManifest
        | some info =>
          match find info.binary with
          | none => .error .badManifest
          | some bin =>
            if hex (crypto.sha256 bin).toList ≠ info.binarySha256 then .error .hashMismatch
            else .ok (info, bin)

/-! ## Files -/

/-- Files and symbolic links by path, and which of the coming changes fail. -/
structure PkgDisk where
  files : Str → Option Bytes
  links : Str → Option Str
  faults : List Bool

namespace PkgDisk

def target (d : PkgDisk) (path : Str) : Str := (d.links path).getD path

def read (d : PkgDisk) (path : Str) : Option Bytes := d.files (d.target path)

def «exists» (d : PkgDisk) (path : Str) : Bool := (d.read path).isSome

/-- A change that is tried, fails if a fault is due, and tells whether it was made. -/
def change (d : PkgDisk) (f : PkgDisk → Option PkgDisk) : Bool × PkgDisk :=
  let d' := { d with faults := d.faults.tail }
  if d.faults.headD false then (false, d')
  else
    match f d' with
    | none => (false, d')
    | some d'' => (true, d'')

def write (d : PkgDisk) (path : Str) (data : Bytes) : Bool × PkgDisk :=
  d.change fun d => some { d with files := Function.update d.files (d.target path) (some data) }

def remove (d : PkgDisk) (path : Str) : Bool × PkgDisk :=
  d.change fun d =>
    match d.links path, d.files path with
    | some _, _ => some { d with links := Function.update d.links path none }
    | none, some _ => some { d with files := Function.update d.files path none }
    | none, none => none

def symlink (d : PkgDisk) (path target : Str) : Bool × PkgDisk :=
  d.change fun d =>
    if (d.links path).isSome || (d.files path).isSome then none
    else some { d with links := Function.update d.links path (some target) }

end PkgDisk

/-! ## The engine -/

/-- The parameters of the engine.  Binaries are linked outside of the store. -/
structure PkgEngine where
  crypto : PkgCrypto
  root : Str
  binDir : Str
  oneLine : '\n' ∉ binDir
  apart : ∀ name, ¬ (root ++ ['/']) <+: binDir ++ '/' :: name

namespace PkgEngine

variable (e : PkgEngine)

def registryPath : Str := e.root ++ "/installed".toList

def storePath (hash : Str) : Str :=
  if 32 < hash.length then e.root ++ "/store/".toList ++ hash.take 32 ++ '/' :: hash.drop 32
  else e.root ++ "/store/".toList ++ hash

def blobsPath : Str := e.root ++ "/store/.blobs".toList

def linkPath (name : Str) : Str := e.binDir ++ '/' :: name

def registry (d : PkgDisk) : List Installed :=
  match d.read e.registryPath with
  | none => []
  | some data => parseRegistry (fromUtf8Lossy data)

def saveRegistry (d : PkgDisk) (rows : List Installed) : Bool × PkgDisk :=
  d.write e.registryPath (Str.bytes (formatRegistry rows))

def knownBlobs (d : PkgDisk) : List Str :=
  match d.read e.blobsPath with
  | none => []
  | some data => Str.lines (fromUtf8Lossy data)

def saveBlobs (d : PkgDisk) (hashes : List Str) : PkgDisk :=
  (d.write e.blobsPath (Str.bytes (['\n'].intercalate hashes))).2

def trackBlob (d : PkgDisk) (hash : Str) : PkgDisk :=
  if hash ∈ e.knownBlobs d then d else e.saveBlobs d (e.knownBlobs d ++ [hash])

def newRow (info : PkgMeta) (deps : List Str) : Installed where
  name := info.name
  version := info.version
  hash := info.binarySha256
  bin := e.linkPath info.name
  deps := deps
  kind := info.kind
  title := info.title
  caps := info.caps
  profile := info.profile
  display := info.display
  args := info.args
  abi := info.abi

def storeBlob (d : PkgDisk) (hash : Str) (bin : Bytes) : Bool × PkgDisk :=
  if d.exists (e.storePath hash) then (true, d) else d.write (e.storePath hash) bin

def linkBinary (d : PkgDisk) (info : PkgMeta) (bin : Bytes) : Bool × PkgDisk :=
  let link := e.linkPath info.name
  let d := if d.exists link then (d.remove link).2 else d
  match d.symlink link (e.storePath info.binarySha256) with
  | (true, d) => (true, d)
  | (false, d) => d.write link bin

def installPackage (d : PkgDisk) (pkg : Bytes) (deps : List Str) :
    Except PkgError PkgMeta × PkgDisk :=
  match verifyPackage e.crypto pkg with
  | .error err => (.error err, d)
  | .ok (info, bin) =>
    match e.storeBlob d info.binarySha256 bin with
    | (false, d) => (.error .io, d)
    | (true, d) =>
      match e.linkBinary (e.trackBlob d info.binarySha256) info bin with
      | (false, d) => (.error .io, d)
      | (true, d) =>
        let rows := (e.registry d).filter (·.name ≠ info.name)
        match e.saveRegistry d (rows ++ [e.newRow info deps]) with
        | (false, d) => (.error .io, d)
        | (true, d) => (.ok info, d)

def sweep (live : List Str) : PkgDisk → List Str → PkgDisk
  | d, [] => d
  | d, hash :: hashes =>
    if hash ∈ live then sweep live d hashes
    else sweep live (d.remove (e.storePath hash)).2 hashes

def gc (d : PkgDisk) : PkgDisk :=
  let live := (e.registry d).map (·.hash)
  let known := e.knownBlobs d
  e.saveBlobs (e.sweep live d known) (known.filter (· ∈ live))

def remove (d : PkgDisk) (name : Str) : Except PkgError Unit × PkgDisk :=
  let rows := e.registry d
  match rows.find? (·.name = name) with
  | none => (.error .notFound, d)
  | some row =>
    match rows.find? (fun r => r.name ≠ name ∧ name ∈ r.deps) with
    | some dependent => (.error (.requiredBy dependent.name), d)
    | none =>
      let d := (d.remove row.bin).2
      match e.saveRegistry d (rows.filter (·.name ≠ name)) with
      | (false, d) => (.error .io, d)
      | (true, d) => (.ok (), e.gc d)

abbrev Fetch := List Str → Str → Option Bytes

/-- An installation that was carried out: what the index was resolved to, the package that was
installed for it, and the disk before and after.  The functions below return these steps in place
of the metadata `info` alone. -/
structure Step where
  name : Str
  version : Version
  entry : PkgIndexEntry
  info : PkgMeta
  before : PkgDisk
  after : PkgDisk

def parseSignedIndex (index sig : Bytes) : Except PkgError (List PkgIndexEntry) :=
  if !e.crypto.verify index sig then .error .badSignature
  else
    match fromUtf8 index >>= parseIndex with
    | none => .error .badZip
    | some entries => .ok entries

def repoOf : List PkgIndexEntry → Option Repo
  | [] => some ⟨[]⟩
  | entry :: entries => do
      let version ← Version.parse entry.version
      let repo ← repoOf entries
      return ⟨⟨entry.name, version, entry.deps.map fun d => ⟨d, .any⟩⟩ :: repo.packages⟩

def resolveIndex (entries : List PkgIndexEntry) (name : Str) :
    Except PkgError (List (Str × Version)) :=
  match repoOf entries with
  | none => .error .unresolvable
  | some repo =>
    match repo.resolve name with
    | .error _ => .error .unresolvable
    | .ok order => .ok order

def installLoop (entries : List PkgIndexEntry) (installed : List Installed) (fetch : Fetch) :
    List (Str × Version) → List Str → PkgDisk → Except PkgError (List Step) × PkgDisk
  | [], _, d => (.ok [], d)
  | (name, version) :: order, asked, d =>
    if installed.any fun r => r.name = name ∧ r.version = version.toStringDotted then
      installLoop entries installed fetch order asked d
    else
      match entries.find? (·.name = name) with
      | none => (.error .notFound, d)
      | some entry =>
        match fetch asked entry.file with
        | none => (.error .notFound, d)
        | some bytes =>
          match e.installPackage d bytes entry.deps with
          | (.error err, d') => (.error err, d')
          | (.ok info, d') =>
            match installLoop entries installed fetch order (asked ++ [entry.file]) d' with
            | (.error err, d'') => (.error err, d'')
            | (.ok steps, d'') => (.ok (⟨name, version, entry, info, d, d'⟩ :: steps), d'')

def installFromIndex (d : PkgDisk) (index sig : Bytes) (name : Str) (fetch : Fetch) :
    Except PkgError (List Step) × PkgDisk :=
  match e.parseSignedIndex index sig with
  | .error err => (.error err, d)
  | .ok entries =>
    match resolveIndex entries name with
    | .error err => (.error err, d)
    | .ok order => e.installLoop entries (e.registry d) fetch order [] d

def upgrade (d : PkgDisk) (index sig : Bytes) (name : Str) (fetch : Fetch) :
    Except PkgError (List Step) × PkgDisk :=
  match e.parseSignedIndex index sig with
  | .error err => (.error err, d)
  | .ok entries =>
    match entries.find? (·.name = name), (e.registry d).find? (·.name = name) with
    | none, _ => (.error .notFound, d)
    | some _, none => (.error .notFound, d)
    | some entry, some row =>
      match Version.parse row.version, Version.parse entry.version with
      | some current, some version =>
        if version.key ≤ current.key then (.ok [], d)
        else
          match fetch [] entry.file with
          | none => (.error .notFound, d)
          | some bytes =>
            match e.installPackage d bytes entry.deps with
            | (.error err, d') => (.error err, d')
            | (.ok info, d') => (.ok [⟨name, version, entry, info, d, d'⟩], e.gc d')
      | _, _ => (.error .badManifest, d)

end PkgEngine

end EuroOS
