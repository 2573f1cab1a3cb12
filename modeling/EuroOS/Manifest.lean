import EuroOS.AgentCaps
import EuroOS.TextNumbers

/-!
# Agent manifests

A manifest is written and read in a small line-based dialect of TOML.  The reader
goes through the lines one by one; an array without its closing bracket takes in
the following lines.
-/

namespace EuroOS.Agent

structure AgentManifest where
  schema : Nat
  name : Str
  version : Str
  description : Str
  author : Str
  wasm : Str
  lang : Str
  required : AgentCaps
  optional : AgentCaps
  triggersIntent : List Str
  triggersEvent : List Str
  toolsAllowed : List Str
  toolsDenied : List Str
  maxMemoryMb : Nat
  maxRuntimeMs : Nat
  networkDomains : List Str
  logToolCalls : Bool
  logInputs : Bool
  deriving DecidableEq

def schemaVersion : Nat := 1

inductive ManifestError
  | unsupportedSchema (version : Nat)
  | missingField (field : Str)
  | unknownCap (name : Str)
  | badSyntax (line : Nat)
  deriving DecidableEq

inductive Value
  | str (s : Str)
  | int (i : Int)
  | bool (b : Bool)
  | arr (items : List Str)
  deriving DecidableEq

/-! ## Sections and keys -/

namespace Toml

def agent : Str := "agent".toList
def capabilities : Str := "capabilities".toList
def triggers : Str := "triggers".toList
def tools : Str := "tools".toList
def sandbox : Str := "sandbox".toList
def audit : Str := "audit".toList

def schema : Str := "schema".toList
def name : Str := "name".toList
def version : Str := "version".toList
def description : Str := "description".toList
def author : Str := "author".toList
def wasm : Str := "wasm".toList
def lang : Str := "lang".toList
def required : Str := "required".toList
def optional : Str := "optional".toList
def onEvent : Str := "on_event".toList
def onIntent : Str := "on_intent".toList
def allowed : Str := "allowed".toList
def denied : Str := "denied".toList
def maxMemoryMb : Str := "max_memory_mb".toList
def maxRuntimeMs : Str := "max_runtime_ms".toList
def networkDomains : Str := "network_domains".toList
def logToolCalls : Str := "log_tool_calls".toList
def logInputs : Str := "log_inputs".toList

def fullKey (sec key : Str) : Str := if sec.isEmpty then key else sec ++ '.' :: key

/-! ## Reading -/

def stripCommentFrom : (inStr : Bool) → Str → Str
  | _, [] => []
  | inStr, c :: s =>
    if c = '"' then c :: stripCommentFrom (!inStr) s
    else if c = '#' ∧ inStr = false then []
    else c :: stripCommentFrom inStr s

def stripComment (line : Str) : Str := stripCommentFrom false line

def quoted (s : Str) : Option Str :=
  if 2 ≤ s.length ∧ s.head? = some '"' ∧ s.getLast? = some '"' then some s.tail.dropLast else none

def parseI64 (s : Str) : Option Int :=
  if s.head? = some '-' then
    if s.tail.head? = some '+' then none
    else (Str.parseNat (2 ^ 63 + 1) s.tail).map fun n : Nat => -(n : Int)
  else (Str.parseNat (2 ^ 63) s).map fun n : Nat => (n : Int)

def trueText : Str := "true".toList
def falseText : Str := "false".toList

def parseScalar (s : Str) : Option Value :=
  let s := Str.trim s
  match quoted s with
  | some t => some (.str t)
  | none =>
    if s = trueText then some (.bool true)
    else if s = falseText then some (.bool false)
    else (parseI64 s).map .int

def parseArrayBody (body : Str) : List Str :=
  (body.splitOn ',').filterMap fun part => quoted (Str.trim part)

def beforeLast (c : Char) (s : Str) : Str := ((s.reverse.dropWhile (· != c)).drop 1).reverse

/-- An array that waits for its closing bracket, with the line it began on. -/
structure OpenArray where
  key : Str
  val : Str
  line : Nat

structure ParseState where
  sec : Str
  entries : List (Str × Value)
  idx : Nat
  openArray : Option OpenArray

def pushArray (st : ParseState) (a : OpenArray) : ParseState :=
  if ']' ∈ a.val then
    { st with
      entries := st.entries ++ [(a.key, .arr (parseArrayBody ((beforeLast ']' a.val).drop 1)))]
      openArray := none }
  else { st with openArray := some a }

def parseLine (st : ParseState) (raw : Str) : Except ManifestError ParseState :=
  let line := Str.trim (stripComment raw)
  let st' := { st with idx := st.idx + 1 }
  match st.openArray with
  | some a => .ok (pushArray st' { a with val := a.val ++ ' ' :: line })
  | none =>
    if line.isEmpty then .ok st'
    else if line.head? = some '[' then
      match Str.before ']' line with
      | none => .error (.badSyntax (st.idx + 1))
      | some title => .ok { st' with sec := Str.trim (title.drop 1) }
    else
      match Str.splitOnce '=' line with
      | none => .error (.badSyntax (st.idx + 1))
      | some (key, val) =>
        let key := fullKey st.sec (Str.trim key)
        let val := Str.trim val
        if val.head? = some '[' then .ok (pushArray st' ⟨key, val, st.idx + 1⟩)
        else
          match parseScalar val with
          | none => .error (.badSyntax (st.idx + 1))
          | some v => .ok { st' with entries := st.entries ++ [(key, v)] }

def parseLines (st : ParseState) : List Str → Except ManifestError ParseState
  | [] => .ok st
  | raw :: lines =>
    match parseLine st raw with
    | .error e => .error e
    | .ok st => parseLines st lines

def parseDoc (input : Str) : Except ManifestError (List (Str × Value)) :=
  match parseLines ⟨[], [], 0, none⟩ (Str.lines input) with
  | .error e => .error e
  | .ok st =>
    match st.openArray with
    | some a => .error (.badSyntax a.line)
    | none => .ok st.entries

def get (doc : List (Str × Value)) (key : Str) : Option Value :=
  (doc.find? (·.1 = key)).map (·.2)

def str (doc : List (Str × Value)) (key : Str) : Option Str :=
  match get doc key with
  | some (.str s) => some s
  | _ => none

def int (doc : List (Str × Value)) (key : Str) : Option Int :=
  match get doc key with
  | some (.int i) => some i
  | _ => none

def bool (doc : List (Str × Value)) (key : Str) : Option Bool :=
  match get doc key with
  | some (.bool b) => some b
  | _ => none

def arr (doc : List (Str × Value)) (key : Str) : List Str :=
  match get doc key with
  | some (.arr items) => items
  | _ => []

def capsFrom (c : AgentCaps) : List Str → Except ManifestError AgentCaps
  | [] => .ok c
  | n :: names =>
    match Cap.fromName n with
    | some b => capsFrom (c.insert b) names
    | none => .error (.unknownCap n)

end Toml

open Toml

def AgentManifest.ofDoc (doc : List (Str × Value)) : Except ManifestError AgentManifest :=
  let schema := (int doc (fullKey agent Toml.schema)).getD 1
  if ¬ (1 ≤ schema ∧ schema ≤ schemaVersion) then .error (.unsupportedSchema (schema % 2 ^ 32).toNat)
  else
  match str doc (fullKey agent Toml.name) with
  | none => .error (.missingField (fullKey agent Toml.name))
  | some name =>
  match str doc (fullKey agent Toml.version) with
  | none => .error (.missingField (fullKey agent Toml.version))
  | some version =>
  match str doc (fullKey agent Toml.wasm) with
  | none => .error (.missingField (fullKey agent Toml.wasm))
  | some wasm =>
  match capsFrom .empty (arr doc (fullKey capabilities Toml.required)) with
  | .error e => .error e
  | .ok required =>
  match capsFrom .empty (arr doc (fullKey capabilities Toml.optional)) with
  | .error e => .error e
  | .ok optional =>
  .ok {
    schema := schema.toNat
    name, version, wasm, required, optional
    description := (str doc (fullKey agent Toml.description)).getD []
    author := (str doc (fullKey agent Toml.author)).getD []
    lang := (str doc (fullKey agent Toml.lang)).getD ['e', 'n']
    triggersIntent := arr doc (fullKey triggers onIntent)
    triggersEvent := arr doc (fullKey triggers onEvent)
    toolsAllowed := arr doc (fullKey tools Toml.allowed)
    toolsDenied := arr doc (fullKey tools denied)
    maxMemoryMb := ((int doc (fullKey sandbox Toml.maxMemoryMb)).getD 64).toNat
    maxRuntimeMs := ((int doc (fullKey sandbox Toml.maxRuntimeMs)).getD 0).toNat
    networkDomains := arr doc (fullKey sandbox Toml.networkDomains)
    logToolCalls := (bool doc (fullKey audit Toml.logToolCalls)).getD true
    logInputs := (bool doc (fullKey audit Toml.logInputs)).getD false }

def AgentManifest.fromToml (input : Str) : Except ManifestError AgentManifest :=
  match parseDoc input with
  | .error e => .error e
  | .ok doc => AgentManifest.ofDoc doc

/-! ## Writing -/

namespace Toml

def escapeChar (c : Char) : Str :=
  if c = '"' then ['\\', '"']
  else if c = '\\' then ['\\', '\\']
  else if c = '\n' then ['\\', 'n']
  else [c]

def escaped (s : Str) : Str := s.flatMap escapeChar

def quote (s : Str) : Str := '"' :: (escaped s ++ ['"'])

def arrayText (items : List Str) : Str :=
  '[' :: ([',', ' '].intercalate (items.map quote) ++ [']'])

def capsList (c : AgentCaps) : List Str :=
  (Cap.allBits.filter fun b => c.bits &&& b ≠ 0).map Cap.toName

def boolText (b : Bool) : Str := if b then trueText else falseText

inductive Line
  | header (sec : Str)
  | blank
  | string (key s : Str)
  | array (key : Str) (items : List Str)
  | number (key : Str) (n : Nat)
  | flag (key : Str) (b : Bool)

def keyText (key val : Str) : Str := key ++ ' ' :: '=' :: ' ' :: val

def Line.text : Line → Str
  | .header sec => '[' :: (sec ++ [']'])
  | .blank => []
  | .string key s => keyText key (quote s)
  | .array key items => keyText key (arrayText items)
  | .number key n => keyText key (Str.decimal n)
  | .flag key b => keyText key (boolText b)

end Toml

def AgentManifest.lines (m : AgentManifest) : List Line :=
  [.header agent, .number Toml.schema m.schema, .string Toml.name m.name,
    .string Toml.version m.version, .string Toml.description m.description,
    .string Toml.author m.author, .string Toml.wasm m.wasm, .string Toml.lang m.lang, .blank,
    .header capabilities, .array Toml.required (capsList m.required),
    .array Toml.optional (capsList m.optional), .blank,
    .header triggers, .array onEvent m.triggersEvent, .array onIntent m.triggersIntent, .blank,
    .header tools, .array Toml.allowed m.toolsAllowed, .array denied m.toolsDenied, .blank,
    .header sandbox, .number Toml.maxMemoryMb m.maxMemoryMb, .number Toml.maxRuntimeMs m.maxRuntimeMs,
    .array Toml.networkDomains m.networkDomains, .blank,
    .header audit, .flag Toml.logToolCalls m.logToolCalls, .flag Toml.logInputs m.logInputs]

def AgentManifest.toToml (m : AgentManifest) : Str := m.lines.flatMap fun line => line.text ++ ['\n']

end EuroOS.Agent
