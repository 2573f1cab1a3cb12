import EuroOS.TextFields
import EuroOS.PackageResolver

/-!
# The texts of the package manager

Versions, the manifest inside a package, the repository index and the registry
of installed packages are texts.  The registry has one line per package with its
fields between tabs, read back as written as far as the fields contain no
separators.  Title, summary and key of an index entry are left out.
-/

namespace EuroOS

namespace Version

def toStringDotted (v : Version) : Str :=
  (Nat.repr v.major.toNat ++ "." ++ Nat.repr v.minor.toNat ++ "." ++ Nat.repr v.patch.toNat).toList

def parse (s : Str) : Option Version :=
  match (Str.trim s).splitOn '.' with
  | [major] => do
      let major ← Str.parseU32 major
      return ⟨major, 0, 0⟩
  | [major, minor] => do
      let major ← Str.parseU32 major
      let minor ← Str.parseU32 minor
      return ⟨major, minor, 0⟩
  | [major, minor, patch] => do
      let major ← Str.parseU32 major
      let minor ← Str.parseU32 minor
      let patch ← Str.parseU32 patch
      return ⟨major, minor, patch⟩
  | _ => none

end Version

/-! ## Manifests -/

structure PkgMeta where
  name : Str
  version : Str
  binary : Str
  binarySha256 : Str
  kind : Str
  title : Str
  caps : Str
  profile : Str
  display : Str
  args : Str
  abi : Str
  deriving DecidableEq

def tomlLine (key line : Str) : Option Str := do
  let rest ← Str.afterStart key (Str.trim line)
  let value ← Str.afterStart ['='] (Str.trimStart rest)
  return Str.trimMatches '"' (Str.trim value)

def tomlValue (s key : Str) : Option Str := (Str.lines s).findSome? (tomlLine key)

def isNameChar (c : Char) : Bool := c.isAlphanum || c == '-' || c == '_'

def validName (name : Str) : Bool := !name.isEmpty && name.all isNameChar

def knownChoices (kind profile display abi : Str) : Bool :=
  ["lib".toList, "app".toList].contains kind &&
    ["full".toList, "utility".toList, "renderer".toList, "strict".toList, "euro".toList].contains
      profile &&
    ["none".toList, "x11".toList].contains display &&
    ["linux".toList, "euro".toList, "wasm".toList].contains abi

def tomlOpt (toml key default : Str) : Str := (tomlValue toml key).getD default

def parseManifest (toml : Str) : Option PkgMeta :=
  match tomlValue toml "name".toList with
  | none => none
  | some name =>
    if !validName name then none
    else
      let kind := tomlOpt toml "kind".toList "lib".toList
      let profile := tomlOpt toml "profile".toList "full".toList
      let display := tomlOpt toml "display".toList "none".toList
      let abi := tomlOpt toml "abi".toList "linux".toList
      if !knownChoices kind profile display abi then none
      else
        match tomlValue toml "version".toList, tomlValue toml "binary".toList,
            tomlValue toml "binary_sha256".toList with
        | some version, some binary, some binarySha256 =>
          some
            { name, version, binary, binarySha256, kind, profile, display, abi
              title := tomlOpt toml "title".toList name
              caps := tomlOpt toml "caps".toList []
              args := tomlOpt toml "args".toList [] }
        | _, _, _ => none

/-! ## The repository index -/

structure PkgIndexEntry where
  name : Str
  version : Str
  file : Str
  deps : List Str
  deriving DecidableEq

def field (obj key : Str) : Option Str := do
  let rest ← Str.afterFirst ('"' :: key ++ "\":\"".toList) obj
  Str.before '"' rest

def parseDeps (obj : Str) : Option (List Str) :=
  match Str.afterFirst "\"deps\":[".toList obj with
  | none => some []
  | some tail => do
      let list ← Str.before ']' tail
      return ((list.splitOn ',').map fun x => Str.trimMatches '"' (Str.trim x)).filter (!·.isEmpty)

def parseEntry (obj : Str) : Option PkgIndexEntry := do
  let name ← field obj "name".toList
  let version ← field obj "version".toList
  let file ← field obj "file".toList
  let deps ← parseDeps obj
  return { name, version, file, deps }

def entryStart : Str := "\x7b\"name\":\"".toList

/-- The entries of the index, in order.  The start of an entry does not overlap with itself, so
all positions are looked at. -/
def parseEntries : Str → Option (List PkgIndexEntry)
  | [] => some []
  | c :: rest =>
    if entryStart.isPrefixOf (c :: rest) then do
      let entry ← parseEntry (c :: rest)
      let entries ← parseEntries rest
      return entry :: entries
    else parseEntries rest

def parseIndex (s : Str) : Option (List PkgIndexEntry) := do
  let entries ← parseEntries s
  if entries.isEmpty then none else return entries

/-! ## The registry -/

structure Installed where
  name : Str
  version : Str
  hash : Str
  bin : Str
  deps : List Str
  kind : Str
  title : Str
  caps : Str
  profile : Str
  display : Str
  args : Str
  abi : Str
  deriving DecidableEq

def Installed.ofFields : List Str → Option Installed
  | name :: version :: hash :: bin :: deps :: rest =>
    some
      { name, version, hash, bin
        deps := if deps.isEmpty then [] else deps.splitOn ','
        kind := rest[0]?.getD "lib".toList
        title := rest[1]?.getD name
        caps := rest[2]?.getD []
        profile := rest[3]?.getD "full".toList
        display := rest[4]?.getD "none".toList
        args := rest[5]?.getD []
        abi := rest[6]?.getD "linux".toList }
  | _ => none

def Installed.parseLine (line : Str) : Option Installed := Installed.ofFields (line.splitOn '\t')

def Installed.fields (r : Installed) : List Str :=
  [r.name, r.version, r.hash, r.bin, [','].intercalate r.deps, r.kind, r.title, r.caps, r.profile,
    r.display, r.args, r.abi]

def Installed.line (r : Installed) : Str := ['\t'].intercalate r.fields

def parseRegistry (text : Str) : List Installed := (Str.lines text).filterMap Installed.parseLine

def formatRegistry (rows : List Installed) : Str := rows.flatMap fun r => r.line ++ ['\n']

end EuroOS
