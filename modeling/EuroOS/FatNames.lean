import EuroOS.FatVolume
import EuroOS.Eurofs.FsPath
import EuroOS.TextNumbers
import EuroOS.Utf16

/-!
# Directory entries and their names

A directory entry has 32 bytes.  A name that is not a plain 8.3 name is stored
in UTF-16 fragments of 13 units, in entries before the one with the short name,
the last fragment first.
-/

namespace EuroOS.Fat

abbrev Entry := Bytes

namespace Entry

def byte (e : Entry) (i : Nat) : UInt8 := e[i]?.getD 0

def isFree (first : UInt8) : Bool := first = 0x00 || first = 0xE5

def first (e : Entry) : Nat := rd 2 e 20 * 2 ^ 16 + rd 2 e 26

def size (e : Entry) : Nat := rd 4 e 28

def isDir (e : Entry) : Bool := e.byte 11 &&& attrDir ≠ 0

end Entry

/-! ## Reading names -/

def lfnUnits (e : Entry) : Units :=
  let offsets := (List.range 5).map (1 + · * 2) ++ (List.range 6).map (14 + · * 2) ++
    (List.range 2).map (28 + · * 2)
  (offsets.map fun off => UInt16.ofNat (rd 2 e off)).filter fun c => c ≠ 0x0000 && c ≠ 0xFFFF

def lfnChars (e : Entry) : Str := fromUtf16Lossy (lfnUnits e)

def sfnField (b : Bytes) : Str := Str.trimEndBy Str.isWhitespace ((fromUtf8 b).getD [])

def sfnName (e : Entry) : Str :=
  let base := sfnField (slice e 0 8)
  let ext := sfnField (slice e 8 3)
  if ext.isEmpty then base else base ++ '.' :: ext

def entryName (lfn : Str) (e : Entry) : Str :=
  let long := Str.trimEndBy (· == '\x00') lfn
  if !long.isEmpty then long else sfnName e

/-! ## Making names -/

def rsplitOnce (c : Char) (s : Str) : Option (Str × Str) :=
  if c ∈ s then some ((s.rdropWhile (· ≠ c)).dropLast, s.rtakeWhile (· ≠ c)) else none

def baseExt (name : Str) : Str × Str := (rsplitOnce '.' name).getD (name, [])

def isUpper (c : Char) : Bool := 'A' ≤ c && c ≤ 'Z'

def shortPunctuation : Str := "$%'-_@~`!()\x7b\x7d^#&".toList

def validShort (c : Char) : Bool := isUpper c || c.isDigit || shortPunctuation.contains c

def overlay (out : Bytes) (off : Nat) (bytes : Bytes) : Bytes :=
  out.take off ++ bytes ++ out.drop (off + bytes.length)

def blanks : Bytes := List.replicate 11 0x20

def short83 (name : Str) : Option Bytes :=
  let (base, ext) := baseExt name
  if base.isEmpty || 8 < base.bytes.length || 3 < ext.bytes.length then none
  else if !base.all validShort || !ext.all validShort then none
  else some (overlay (overlay blanks 0 base.bytes) 8 ext.bytes)

def cleanShort (s : Str) : Bytes :=
  (s.filter Char.isAlphanum).map fun c => UInt8.ofNat c.toUpper.toNat

def mangle83 (name : Str) (n : Nat) : Bytes :=
  let (base, ext) := baseExt name
  let suffix := Str.bytes ('~' :: Str.decimal n)
  let front := (cleanShort base).take (8 - suffix.length)
  overlay (overlay (overlay blanks 0 front) front.length suffix) 8 ((cleanShort ext).take 3)

def uniqueShortFrom (name : Str) (used : List Bytes) : Nat → Nat → Bytes
  | 0, n => mangle83 name n
  | fuel + 1, n =>
    if mangle83 name n ∈ used then uniqueShortFrom name used fuel (n + 1) else mangle83 name n

def uniqueShort (name : Str) (used : List Bytes) : Bytes :=
  match short83 name with
  | some s => if s ∈ used then uniqueShortFrom name used (2 ^ 32) 1 else s
  | none => uniqueShortFrom name used (2 ^ 32) 1

def lfnChecksum (short : Bytes) : UInt8 :=
  short.foldl (fun sum c => (sum &&& 1) <<< 7 + sum >>> 1 + c) 0

/-! ## Making entries -/

abbrev date1980 : Nat := 33

def sfnEntry (short : Bytes) (attr : UInt8) (first size : Nat) : Entry :=
  short ++ [attr] ++ [0, 0, 0, 0] ++ le 2 date1980 ++ le 2 date1980 ++ le 2 (first / 2 ^ 16) ++
    [0, 0] ++ le 2 date1980 ++ le 2 first ++ le 4 size

/-- Unit `i` of a long name in its entries: the name, one terminator, filling. -/
def lfnUnit (units : Units) (i : Nat) : UInt16 :=
  if i < units.length then units[i]?.getD 0 else if i = units.length then 0x0000 else 0xFFFF

def lfnEntry (order chksum : UInt8) (units : Units) (start : Nat) : Entry :=
  let put (slots : List Nat) : Bytes := slots.flatMap fun j => le 2 (lfnUnit units (start + j)).toNat
  [order] ++ put (List.range' 0 5) ++ [attrLfn, 0, chksum] ++ put (List.range' 5 6) ++ [0, 0] ++
    put (List.range' 11 2)

def lfnOrder (g groups : Nat) : UInt8 :=
  (UInt8.ofNat g + 1) ||| if g + 1 = groups then 0x40 else 0

/-- Build the directory entries (the fragments reversed, then the short name) for one child. -/
def makeEntries (name : Str) (short : Bytes) (attr : UInt8) (first size : Nat) (needLfn : Bool) :
    List Entry :=
  let units := Str.utf16 name
  let groups := (units.length + 12) / 13
  let lfn := (List.range groups).reverse.map fun g =>
    lfnEntry (lfnOrder g groups) (lfnChecksum short) units (g * 13)
  (if needLfn then lfn else []) ++ [sfnEntry short attr first size]

def eqIgnoreCase (a b : Str) : Bool := a.map Char.toLower == b.map Char.toLower

end EuroOS.Fat
