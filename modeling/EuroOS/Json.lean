import EuroOS.TextNumbers

/-!
# JSON texts

The small JSON reader and writer of the agent runtime.  The reader walks over the
bytes of a text; nesting is bounded, so it recurses on the depth that is left,
and its loops take at most one round for each remaining byte.
-/

namespace EuroOS

inductive Json
  | null
  | bool (b : Bool)
  /-- Numbers are kept as source text. -/
  | num (text : Str)
  | str (s : Str)
  | arr (items : List Json)
  | obj (pairs : List (Str × Json))

namespace Json

def asStr : Json → Option Str
  | .str s => some s
  | _ => none

def get (key : Str) : Json → Option Json
  | .obj pairs => (pairs.find? (·.1 = key)).map (·.2)
  | _ => none

/-! ## Writing -/

def writeChar : Char → Str
  | '"' => ['\\', '"']
  | '\\' => ['\\', '\\']
  | '\n' => ['\\', 'n']
  | '\r' => ['\\', 'r']
  | '\t' => ['\\', 't']
  | c => [c]

def writeString (s : Str) : Str := '"' :: (s.flatMap writeChar ++ ['"'])

mutual

def render : Json → Str
  | .null => "null".toList
  | .bool true => "true".toList
  | .bool false => "false".toList
  | .num n => n
  | .str s => writeString s
  | .arr items => '[' :: (renderItems items ++ [']'])
  | .obj pairs => '\x7b' :: (renderPairs pairs ++ ['\x7d'])

def renderItems : List Json → Str
  | [] => []
  | [v] => render v
  | v :: items => render v ++ ',' :: renderItems items

def renderPairs : List (Str × Json) → Str
  | [] => []
  | [(k, v)] => writeString k ++ ':' :: render v
  | (k, v) :: pairs => writeString k ++ ':' :: (render v ++ ',' :: renderPairs pairs)

end

/-! ## Reading -/

def maxDepth : Nat := 128

def skipWs (b : Bytes) : Bytes := b.dropWhile fun c => c = 0x20 ∨ c = 0x09 ∨ c = 0x0A ∨ c = 0x0D

/-- The character of four hexadecimal digits; a plus sign in front is tolerated. -/
def hexChar (digits : Bytes) : Option Char :=
  let text := digits.map fun c => Char.ofNat c.toNat
  let text := if text.head? = some '+' then text.tail else text
  if text.isEmpty then none
  else
    (text.mapM Str.toDigit16).map fun ds =>
      let cp := ds.foldl (fun n d => 16 * n + d) 0
      if 0xD800 ≤ cp ∧ cp ≤ 0xDFFF then Char.ofNat 0xFFFD else Char.ofNat cp

def escape (e : UInt8) : Option Char :=
  if e = 0x22 then some '"'
  else if e = 0x5C then some '\\'
  else if e = 0x2F then some '/'
  else if e = 0x6E then some '\n'
  else if e = 0x72 then some '\r'
  else if e = 0x74 then some '\t'
  else if e = 0x62 then some (Char.ofNat 0x08)
  else if e = 0x66 then some (Char.ofNat 0x0C)
  else none

/-- A string after its opening quote.  Each byte of a longer character becomes a character. -/
def string (s : Str) : Bytes → Option (Str × Bytes)
  | [] => none
  | 0x22 :: rest => some (s, rest)
  | 0x5C :: 0x75 :: a :: b :: c :: d :: rest =>
    match hexChar [a, b, c, d] with
    | none => none
    | some ch => string (s ++ [ch]) rest
  | 0x5C :: e :: rest =>
    match escape e with
    | none => none
    | some ch => string (s ++ [ch]) rest
  | [0x5C] => none
  | c :: rest => string (s ++ [Char.ofNat c.toNat]) rest

def lit (word : Str) (v : Json) (b : Bytes) : Option (Json × Bytes) :=
  if word.bytes.isPrefixOf b then some (v, b.drop word.bytes.length) else none

def isNumberByte (c : UInt8) : Bool :=
  (0x30 ≤ c ∧ c ≤ 0x39) ∨ c = 0x2D ∨ c = 0x2B ∨ c = 0x2E ∨ c = 0x65 ∨ c = 0x45

def number (b : Bytes) : Option (Json × Bytes) :=
  let digits := b.takeWhile isNumberByte
  if digits.isEmpty then none
  else some (.num (digits.map fun c => Char.ofNat c.toNat), b.dropWhile isNumberByte)

def arrayLoop (value : Bytes → Option (Json × Bytes)) : Nat → List Json → Bytes →
    Option (Json × Bytes)
  | 0, _, _ => none
  | fuel + 1, items, b =>
    match value b with
    | none => none
    | some (v, b) =>
      match skipWs b with
      | 0x2C :: b => arrayLoop value fuel (items ++ [v]) b
      | 0x5D :: b => some (.arr (items ++ [v]), b)
      | _ => none

def array (value : Bytes → Option (Json × Bytes)) (b : Bytes) : Option (Json × Bytes) :=
  match skipWs b with
  | 0x5D :: b => some (.arr [], b)
  | b => arrayLoop value (b.length + 1) [] b

def pair (value : Bytes → Option (Json × Bytes)) (b : Bytes) : Option ((Str × Json) × Bytes) :=
  match skipWs b with
  | 0x22 :: b =>
    match string [] b with
    | none => none
    | some (key, b) =>
      match skipWs b with
      | 0x3A :: b => (value b).map fun (v, b) => ((key, v), b)
      | _ => none
  | _ => none

def objectLoop (value : Bytes → Option (Json × Bytes)) : Nat → List (Str × Json) → Bytes →
    Option (Json × Bytes)
  | 0, _, _ => none
  | fuel + 1, pairs, b =>
    match pair value b with
    | none => none
    | some (p, b) =>
      match skipWs b with
      | 0x2C :: b => objectLoop value fuel (pairs ++ [p]) b
      | 0x7D :: b => some (.obj (pairs ++ [p]), b)
      | _ => none

def object (value : Bytes → Option (Json × Bytes)) (b : Bytes) : Option (Json × Bytes) :=
  match skipWs b with
  | 0x7D :: b => some (.obj [], b)
  | b => objectLoop value (b.length + 1) [] b

def value : (depth : Nat) → Bytes → Option (Json × Bytes)
  | 0, _ => none
  | depth + 1, b =>
    match skipWs b with
    | [] => none
    | 0x7B :: b => object (value depth) b
    | 0x5B :: b => array (value depth) b
    | 0x22 :: b => (string [] b).map fun (s, b) => (.str s, b)
    | 0x74 :: b => lit "true".toList (.bool true) (0x74 :: b)
    | 0x66 :: b => lit "false".toList (.bool false) (0x66 :: b)
    | 0x6E :: b => lit "null".toList .null (0x6E :: b)
    | b => number b

def parse (input : Str) : Option Json :=
  match value maxDepth (skipWs input.bytes) with
  | none => none
  | some (v, b) => if skipWs b = [] then some v else none

end Json

end EuroOS
