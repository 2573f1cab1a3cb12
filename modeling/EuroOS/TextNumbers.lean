import EuroOS.TextFields

/-!
# Numbers and pairs in texts

Decimal and hexadecimal numbers are read back from what was printed, and a text
is cut at the first occurrences of a separator.
-/

namespace EuroOS

def hexDigit (n : Nat) : Char := if n < 10 then Char.ofNat (48 + n) else Char.ofNat (87 + n)

def hex (bytes : Bytes) : Str :=
  bytes.flatMap fun b => [hexDigit (b.toNat / 16), hexDigit (b.toNat % 16)]

namespace Str

/-! ## Decimal numbers -/

def decimal (n : Nat) : Str := Nat.toDigits 10 n

def parseNat (bound : Nat) (s : Str) : Option Nat :=
  let digits := if s.head? = some '+' then s.tail else s
  if digits.isEmpty || !digits.all Char.isDigit then none
  else
    let n := digits.foldl (fun n c => 10 * n + (c.toNat - 48)) 0
    if n < bound then some n else none

def parseU64 (s : Str) : Option UInt64 := (parseNat (2 ^ 64) s).map UInt64.ofNat

theorem parseU32_eq (s : Str) : parseU32 s = (parseNat (2 ^ 32) s).map UInt32.ofNat := by
  simp only [parseU32, parseNat]
  split_ifs <;> rfl

variable {c : Char}

theorem isDigit_of_mem_decimal (h : c ∈ decimal n) : c.isDigit :=
  Nat.isDigit_of_mem_toDigits (by decide) (by decide) h

theorem notMem_decimal (hc : c.isDigit = false) (n : Nat) : c ∉ decimal n := by
  intro hmem
  simp [isDigit_of_mem_decimal hmem] at hc

theorem decimal_ne_nil (n : Nat) : decimal n ≠ [] := Nat.toDigits_ne_nil

theorem parseNat_decimal (h : n < bound) : parseNat bound (decimal n) = some n := by
  have hsign : (decimal n).head? ≠ some '+' := by
    intro hhead
    exact notMem_decimal (by decide) n (List.mem_of_head? hhead)
  have hdigits : (decimal n).all Char.isDigit := by
    simpa using fun c hc => isDigit_of_mem_decimal hc
  have hvalue : (decimal n).foldl (fun n c => 10 * n + (c.toNat - 48)) 0 = n := by
    have hchars : Nat.ofDigitChars 10 (decimal n) 0 = n := Nat.ofDigitChars_ten_toDigits
    rwa [Nat.ofDigitChars_eq_foldl] at hchars
  simp [parseNat, hsign, decimal_ne_nil, hdigits, hvalue, h]

@[simp] theorem parseU32_decimal (x : UInt32) : parseU32 (decimal x.toNat) = some x := by
  rw [parseU32_eq, parseNat_decimal x.toNat_lt]
  simp

@[simp] theorem parseU64_decimal (x : UInt64) : parseU64 (decimal x.toNat) = some x := by
  rw [parseU64, parseNat_decimal x.toNat_lt]
  simp

theorem decimal_injective : Function.Injective decimal := by
  intro m n h
  have hvalues := congrArg (Nat.ofDigitChars 10 · 0) h
  simpa only [decimal, Nat.ofDigitChars_ten_toDigits] using hvalues

/-! ## Hexadecimal numbers -/

def toDigit16 (c : Char) : Option Nat :=
  if '0' ≤ c ∧ c ≤ '9' then some (c.toNat - 48)
  else if 'a' ≤ c ∧ c ≤ 'f' then some (c.toNat - 87)
  else if 'A' ≤ c ∧ c ≤ 'F' then some (c.toNat - 55)
  else none

def unhex : Str → Option Bytes
  | [] => some []
  | [_] => none
  | hi :: lo :: rest => do
      let hi ← toDigit16 hi
      let lo ← toDigit16 lo
      let bytes ← unhex rest
      return UInt8.ofNat (hi * 16 + lo) :: bytes

theorem toDigit16_hexDigit (h : n < 16) : toDigit16 (hexDigit n) = some n := by
  have : ∀ n < 16, toDigit16 (hexDigit n) = some n := by decide
  exact this n h

theorem notMem_hex (hc : toDigit16 c = none) (bytes : Bytes) : c ∉ hex bytes := by
  intro hmem
  obtain ⟨b, -, hmem⟩ := List.mem_flatMap.mp hmem
  have hb := b.toNat_lt
  rcases List.mem_pair.mp hmem with rfl | rfl
  · rw [toDigit16_hexDigit (by omega)] at hc
    cases hc
  · rw [toDigit16_hexDigit (by omega)] at hc
    cases hc

@[simp] theorem unhex_hex (bytes : Bytes) : unhex (hex bytes) = some bytes := by
  induction bytes with
  | nil => rfl
  | cons b bytes ih =>
    have hb := b.toNat_lt
    have hcons : hex (b :: bytes) =
        hexDigit (b.toNat / 16) :: hexDigit (b.toNat % 16) :: hex bytes := rfl
    have hvalue : b.toNat / 16 * 16 + b.toNat % 16 = b.toNat := by omega
    rw [hcons, unhex, toDigit16_hexDigit (by omega), toDigit16_hexDigit (by omega), ih]
    change some (UInt8.ofNat (b.toNat / 16 * 16 + b.toNat % 16) :: bytes) = _
    rw [hvalue, UInt8.ofNat_toNat]

/-! ## Cutting at the first separators -/

def splitOnce (c : Char) (s : Str) : Option (Str × Str) :=
  if c ∈ s then some (s.takeWhile (· != c), (s.dropWhile (· != c)).tail) else none

def splitN (c : Char) : Nat → Str → List Str
  | 0, _ => []
  | 1, s => [s]
  | n + 2, s =>
    match splitOnce c s with
    | none => [s]
    | some (first, rest) => first :: splitN c (n + 1) rest

theorem splitOnce_append_cons (ha : c ∉ a) (b : Str) : splitOnce c (a ++ c :: b) = some (a, b) := by
  have hall : ∀ d ∈ a, (d != c) = true := by
    intro d hd
    simpa using fun h : d = c => ha (h ▸ hd)
  simp [splitOnce, List.takeWhile_append_of_pos hall, List.dropWhile_append_of_pos hall]

theorem append_cons_inj (ha : c ∉ a) (ha' : c ∉ a') (h : a ++ c :: b = a' ++ c :: b') :
    a = a' ∧ b = b' := by
  have hsplit := congrArg (splitOnce c) h
  rw [splitOnce_append_cons ha, splitOnce_append_cons ha', Option.some.injEq] at hsplit
  exact Prod.mk.inj hsplit

theorem splitN_intercalate (hne : pieces ≠ []) (h : ∀ piece ∈ pieces.dropLast, c ∉ piece) :
    splitN c pieces.length ([c].intercalate pieces) = pieces := by
  induction pieces with
  | nil => exact absurd rfl hne
  | cons piece pieces ih =>
    cases pieces with
    | nil => simp [List.intercalate, splitN]
    | cons next pieces =>
      rw [List.dropLast_cons_cons, List.forall_mem_cons] at h
      rw [intercalate_cons_cons, List.singleton_append, List.length_cons, List.length_cons, splitN,
        splitOnce_append_cons h.1]
      exact congrArg (piece :: ·) (ih (by simp) h.2)

end Str

end EuroOS
