import EuroOS.ByteCodec

/-!
# XXH3 with 64-bit results

The unseeded variant with the default secret, for inputs of every length.  Short
inputs are mixed directly; from 241 bytes on, stripes of 64 bytes are folded into
eight accumulators that are scrambled after each kilobyte.
-/

namespace EuroOS

namespace Xxh3

def secret : Bytes := [
  0xb8, 0xfe, 0x6c, 0x39, 0x23, 0xa4, 0x4b, 0xbe, 0x7c, 0x01, 0x81, 0x2c, 0xf7, 0x21, 0xad, 0x1c,
  0xde, 0xd4, 0x6d, 0xe9, 0x83, 0x90, 0x97, 0xdb, 0x72, 0x40, 0xa4, 0xa4, 0xb7, 0xb3, 0x67, 0x1f,
  0xcb, 0x79, 0xe6, 0x4e, 0xcc, 0xc0, 0xe5, 0x78, 0x82, 0x5a, 0xd0, 0x7d, 0xcc, 0xff, 0x72, 0x21,
  0xb8, 0x08, 0x46, 0x74, 0xf7, 0x43, 0x24, 0x8e, 0xe0, 0x35, 0x90, 0xe6, 0x81, 0x3a, 0x26, 0x4c,
  0x3c, 0x28, 0x52, 0xbb, 0x91, 0xc3, 0x00, 0xcb, 0x88, 0xd0, 0x65, 0x8b, 0x1b, 0x53, 0x2e, 0xa3,
  0x71, 0x64, 0x48, 0x97, 0xa2, 0x0d, 0xf9, 0x4e, 0x38, 0x19, 0xef, 0x46, 0xa9, 0xde, 0xac, 0xd8,
  0xa8, 0xfa, 0x76, 0x3f, 0xe3, 0x9c, 0x34, 0x3f, 0xf9, 0xdc, 0xbb, 0xc7, 0xc7, 0x0b, 0x4f, 0x1d,
  0x8a, 0x51, 0xe0, 0x4b, 0xcd, 0xb4, 0x59, 0x31, 0xc8, 0x9f, 0x7e, 0xc9, 0xd9, 0x78, 0x73, 0x64,
  0xea, 0xc5, 0xac, 0x83, 0x34, 0xd3, 0xeb, 0xc3, 0xc5, 0x81, 0xa0, 0xff, 0xfa, 0x13, 0x63, 0xeb,
  0x17, 0x0d, 0xdd, 0x51, 0xb7, 0xf0, 0xda, 0x49, 0xd3, 0x16, 0x55, 0x26, 0x29, 0xd4, 0x68, 0x9e,
  0x2b, 0x16, 0xbe, 0x58, 0x7d, 0x47, 0xa1, 0xfc, 0x8f, 0xf8, 0xb8, 0xd1, 0x7a, 0xd0, 0x31, 0xce,
  0x45, 0xcb, 0x3a, 0x8f, 0x95, 0x16, 0x04, 0x28, 0xaf, 0xd7, 0xfb, 0xca, 0xbb, 0x4b, 0x40, 0x7e]

abbrev prime32x1 : UInt64 := 0x9E3779B1
abbrev prime32x2 : UInt64 := 0x85EBCA77
abbrev prime32x3 : UInt64 := 0xC2B2AE3D
abbrev prime64x1 : UInt64 := 0x9E3779B185EBCA87
abbrev prime64x2 : UInt64 := 0xC2B2AE3D27D4EB4F
abbrev prime64x3 : UInt64 := 0x165667B19E3779F9
abbrev prime64x4 : UInt64 := 0x85EBCA77C2B2AE63
abbrev prime64x5 : UInt64 := 0x27D4EB2F165667C5
abbrev primeMx1 : UInt64 := 0x165667919E3779F9
abbrev primeMx2 : UInt64 := 0x9FB21C651E98DF25

/-! ## Mixing -/

def word (b : Bytes) (off : Nat) : UInt64 := UInt64.ofNat (rd 8 b off)

def half (b : Bytes) (off : Nat) : UInt64 := UInt64.ofNat (rd 4 b off)

def rotateLeft (x : UInt64) (k : UInt64) : UInt64 := (x <<< k) ||| (x >>> (64 - k))

def swap (x : UInt64) : UInt64 := UInt64.ofNat (rd 8 (le 8 x.toNat).reverse 0)

def mulFold (a b : UInt64) : UInt64 :=
  let product := a.toNat * b.toNat
  UInt64.ofNat (product % 2 ^ 64) ^^^ UInt64.ofNat (product / 2 ^ 64)

def avalanche (h : UInt64) : UInt64 :=
  let h := (h ^^^ (h >>> 37)) * primeMx1
  h ^^^ (h >>> 32)

def avalanche64 (h : UInt64) : UInt64 :=
  let h := (h ^^^ (h >>> 33)) * prime64x2
  let h := (h ^^^ (h >>> 29)) * prime64x3
  h ^^^ (h >>> 32)

def mix16 (b : Bytes) (off key : Nat) : UInt64 :=
  mulFold (word b off ^^^ word secret key) (word b (off + 8) ^^^ word secret (key + 8))

/-! ## Inputs of up to 240 bytes -/

def hashEmpty : UInt64 := avalanche64 (word secret 56 ^^^ word secret 64)

def hash1to3 (b : Bytes) : UInt64 :=
  let first := UInt64.ofNat (rd 1 b 0)
  let middle := UInt64.ofNat (rd 1 b (b.length / 2))
  let last := UInt64.ofNat (rd 1 b (b.length - 1))
  let combined := (first <<< 16) ||| (middle <<< 24) ||| last ||| (UInt64.ofNat b.length <<< 8)
  avalanche64 (combined ^^^ (half secret 0 ^^^ half secret 4))

def hash4to8 (b : Bytes) : UInt64 :=
  let input := half b (b.length - 4) + (half b 0 <<< 32)
  let h := input ^^^ (word secret 8 ^^^ word secret 16)
  let h := (h ^^^ (rotateLeft h 49 ^^^ rotateLeft h 24)) * primeMx2
  let h := (h ^^^ ((h >>> 35) + UInt64.ofNat b.length)) * primeMx2
  h ^^^ (h >>> 28)

def hash9to16 (b : Bytes) : UInt64 :=
  let low := word b 0 ^^^ (word secret 24 ^^^ word secret 32)
  let high := word b (b.length - 8) ^^^ (word secret 40 ^^^ word secret 48)
  avalanche (UInt64.ofNat b.length + swap low + high + mulFold low high)

def hash17to128 (b : Bytes) : UInt64 :=
  let rounds := (b.length - 1) / 32
  avalanche ((List.range (rounds + 1)).foldl (fun acc i =>
    acc + mix16 b (16 * i) (32 * i) + mix16 b (b.length - 16 * (i + 1)) (32 * i + 16))
    (UInt64.ofNat b.length * prime64x1))

def hash129to240 (b : Bytes) : UInt64 :=
  let first := (List.range 8).foldl (fun acc i => acc + mix16 b (16 * i) (16 * i))
    (UInt64.ofNat b.length * prime64x1)
  let rest := (List.range (b.length / 16 - 8)).foldl (fun acc i =>
    acc + mix16 b (16 * (i + 8)) (16 * i + 3)) (avalanche first)
  avalanche (rest + mix16 b (b.length - 16) 119)

/-! ## Longer inputs -/

/-- The eight accumulators after one stripe, with the secret from `key` on. -/
def accumulate (acc : List UInt64) (stripe : Bytes) (key : Nat) : List UInt64 :=
  (List.range 8).map fun i =>
    let keyed := word stripe (8 * i) ^^^ word secret (key + 8 * i)
    acc.getD i 0 + word stripe (8 * (i ^^^ 1)) + (keyed % 2 ^ 32) * (keyed >>> 32)

def scramble (acc : List UInt64) : List UInt64 :=
  (List.range 8).map fun i =>
    let a := acc.getD i 0
    ((a ^^^ (a >>> 47)) ^^^ word secret (128 + 8 * i)) * prime32x1

/-- Fold `count` stripes from the front of the input, the first being number
`i` of its block of sixteen. -/
def stripes : Nat → Nat → Bytes → List UInt64 → List UInt64
  | 0, _, _, acc => acc
  | count + 1, i, b, acc =>
    let acc := accumulate acc b (8 * i)
    if i = 15 then stripes count 0 (b.drop 64) (scramble acc)
    else stripes count (i + 1) (b.drop 64) acc

def merge (acc : List UInt64) (start : UInt64) : UInt64 :=
  avalanche ((List.range 4).foldl (fun h i =>
    h + mulFold (acc.getD (2 * i) 0 ^^^ word secret (11 + 16 * i))
      (acc.getD (2 * i + 1) 0 ^^^ word secret (19 + 16 * i))) start)

def hashLong (b : Bytes) : UInt64 :=
  let start := [prime32x3, prime64x1, prime64x2, prime64x3, prime64x4, prime32x2, prime64x5,
    prime32x1]
  let acc := stripes ((b.length - 1) / 64) 0 b start
  merge (accumulate acc (b.drop (b.length - 64)) 121) (UInt64.ofNat b.length * prime64x1)

def hash64 (b : Bytes) : UInt64 :=
  if b.length = 0 then hashEmpty
  else if b.length ≤ 3 then hash1to3 b
  else if b.length ≤ 8 then hash4to8 b
  else if b.length ≤ 16 then hash9to16 b
  else if b.length ≤ 128 then hash17to128 b
  else if b.length ≤ 240 then hash129to240 b
  else hashLong b

end Xxh3

end EuroOS
