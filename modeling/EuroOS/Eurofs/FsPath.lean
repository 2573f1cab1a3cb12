import EuroOS.ByteCodec
import Mathlib.Data.List.DropRight

/-!
# Paths and version names

Paths are absolute and separated by slashes; empty components do not count.
File versions are kept under a name built from the path, one file `v1`, `v2`, …
per version.
-/

namespace EuroOS

def splitPath (path : Str) : List Str := (path.splitOn '/').filter (· ≠ [])

def trimEndSlash (path : Str) : Str := path.rdropWhile (· = '/')

theorem splitPath_append_cons (a b : Str) : splitPath (a ++ '/' :: b) = splitPath a ++ splitPath b := by
  unfold splitPath List.splitOn
  rw [List.splitOnP_append_cons _ _ (by simp), List.filter_append]

theorem splitPath_of_notMem (h : '/' ∉ s) : splitPath s = if s = [] then [] else [s] := by
  unfold splitPath
  rw [List.splitOn_eq_singleton h]
  by_cases hs : s = [] <;> simp [hs]

theorem splitPath_trimEndSlash (path : Str) : splitPath (trimEndSlash path) = splitPath path := by
  induction path using List.reverseRecOn with
  | nil => rfl
  | append_singleton path c ih =>
    unfold trimEndSlash at ih ⊢
    rw [List.rdropWhile_concat]
    split_ifs with hc
    · obtain rfl : c = '/' := by simpa using hc
      rw [splitPath_append_cons]
      rw [ih]
      simp [splitPath]
    · rfl

def parent (path : Str) : Str :=
  match (trimEndSlash path).rdropWhile (· ≠ '/') with
  | [] => ['/']
  | [_] => ['/']
  | front => front.dropLast

def filename (path : Str) : Str := (trimEndSlash path).rtakeWhile (· ≠ '/')

def versionsDir : Str := "/.versions".toList

def versionKey (path : Str) : Str :=
  (path.dropWhile (· = '/')).map fun c => if c = '/' then '%' else c

def keyDir (path : Str) : Str := versionsDir ++ '/' :: versionKey path

def versionName (n : Nat) : Str := 'v' :: Nat.toDigits 10 n

def digitsValue (digits : Str) : Nat :=
  digits.foldl (fun acc c => acc * 10 + (c.toNat - 48)) 0

def parseU32 (s : Str) : Option Nat :=
  let digits := if s.head? = some '+' then s.tail else s
  if digits ≠ [] ∧ digits.all Char.isDigit ∧ digitsValue digits < 2 ^ 32 then
    some (digitsValue digits)
  else none

def versionNumber (name : Str) : Option Nat :=
  match name with
  | 'v' :: rest => parseU32 rest
  | _ => none

example : splitPath "/foo//bar/".toList = ["foo".toList, "bar".toList] := by decide

example : parent "/a/b/c".toList = "/a/b".toList ∧ parent "/a".toList = "/".toList ∧
    filename "/a/b/c.txt".toList = "c.txt".toList := by decide

end EuroOS
