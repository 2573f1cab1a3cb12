import EuroOS.ByteCodec

/-!
# UTF-16

Text as 16-bit units.  A character outside the basic plane takes two units, a
high and a low surrogate; decoding replaces a surrogate without its partner.
-/

namespace EuroOS

abbrev Units := List UInt16

def utf16Char (c : Char) : Units :=
  let n := c.toNat
  if n < 0x10000 then [UInt16.ofNat n]
  else [UInt16.ofNat (0xD800 + (n - 0x10000) / 0x400), UInt16.ofNat (0xDC00 + (n - 0x10000) % 0x400)]

def Str.utf16 (s : Str) : Units := s.flatMap utf16Char

def isHighSurrogate (u : UInt16) : Bool := 0xD800 ≤ u.toNat && u.toNat < 0xDC00

def isLowSurrogate (u : UInt16) : Bool := 0xDC00 ≤ u.toNat && u.toNat < 0xE000

def replacement : Char := Char.ofNat 0xFFFD

def fromUtf16Lossy : Units → Str
  | [] => []
  | [u] => [if isHighSurrogate u || isLowSurrogate u then replacement else Char.ofNat u.toNat]
  | u :: v :: rest =>
    if isHighSurrogate u && isLowSurrogate v then
      Char.ofNat (0x10000 + (u.toNat - 0xD800) * 0x400 + (v.toNat - 0xDC00)) ::
        fromUtf16Lossy rest
    else
      (if isHighSurrogate u || isLowSurrogate u then replacement else Char.ofNat u.toNat) ::
        fromUtf16Lossy (v :: rest)

end EuroOS
