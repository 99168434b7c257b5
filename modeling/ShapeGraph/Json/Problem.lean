import ShapeGraph.Json.Printer
import ShapeGraph.Text.Category

/-!
# Why a text cannot be read

A JSON text is refused for one of two kinds of reason: it breaks the grammar (`Fault`), or it is
a JSON text of another form than the one asked for (`Reason`). A `Problem` also says where.

* `Fault.message`, `Reason.message` — the wording, once for the whole library
* `Step.render` — the place, as a path of keys and indices
-/

namespace ShapeGraph

/-- A break of the JSON grammar. -/
inductive Fault
  | endInValue
  | endInList
  | endInObject
  | endInString
  | colonExpected
  | listSeparatorExpected
  | objectSeparatorExpected
  | wordExpected
  | valueExpected
  | badEscape
  | badNumber
  | numberOutOfRange
  | badCodePoint
  | controlCharacter
  | keyExpected
  | loneSurrogate
  | trailingComma
  | trailingCharacters
  | endOfHexEscape
  | tooDeep
  deriving DecidableEq, Repr

def Fault.message : Fault → String
  | .endInValue => "EOF while parsing a value"
  | .endInList => "EOF while parsing a list"
  | .endInObject => "EOF while parsing an object"
  | .endInString => "EOF while parsing a string"
  | .colonExpected => "expected `:`"
  | .listSeparatorExpected => "expected `,` or `]`"
  | .objectSeparatorExpected => "expected `,` or `\x7d`"
  | .wordExpected => "expected ident"
  | .valueExpected => "expected value"
  | .badEscape => "invalid escape"
  | .badNumber => "invalid number"
  | .numberOutOfRange => "number out of range"
  | .badCodePoint => "invalid unicode code point"
  | .controlCharacter => "control character (\\u0000-\\u001F) found while parsing a string"
  | .keyExpected => "key must be a string"
  | .loneSurrogate => "lone leading surrogate in hex escape"
  | .trailingComma => "trailing comma"
  | .trailingCharacters => "trailing characters"
  | .endOfHexEscape => "unexpected end of hex escape"
  | .tooDeep => "recursion limit exceeded"

/-- Why a text or a tree is not of the form asked for. -/
inductive Reason
  | fault (f : Fault)
  | missingField (name : String)
  | duplicateField (name : String)
  | unknownVariant (found : String) (known : List String)
  | variantIndex (found : Int) (count : Nat)
  | wrongType (found : Json) (expected : String)
  | notOneMember
  | wrongLength (found : Nat) (expected : String)
  deriving Repr

/-- How a tree of a wrong form is named. -/
def Json.summary : Json → String
  | .null => "null"
  | .bool b => "boolean `" ++ (if b then "true" else "false") ++ "`"
  | .int n => "integer `" ++ Number.intText n ++ "`"
  | .float x => "floating point `" ++ x.jsonText ++ "`"
  | .str s => "string " ++ debugQuote s
  | .arr _ => "sequence"
  | .obj _ => "map"
where
  /-- A string between quotes with its unprintable characters numbered. -/
  debugQuote (s : String) : String :=
    String.ofList ('"' :: s.toList.flatMap debugChar ++ ['"'])
  debugChar (c : Char) : List Char :=
    if c = '"' then ['\\', '"']
    else if c = '\\' then ['\\', '\\']
    else if c = '\n' then ['\\', 'n']
    else if c = '\r' then ['\\', 'r']
    else if c = '\t' then ['\\', 't']
    else if c.toNat = 0 then ['\\', '0']
    else if Category.printable c then [c]
    else "\\u\x7b".toList ++ Nat.toDigits 16 c.toNat ++ ['\x7d']

def Reason.message : Reason → String
  | .fault f => f.message
  | .missingField name => "missing field `" ++ name ++ "`"
  | .duplicateField name => "duplicate field `" ++ name ++ "`"
  | .unknownVariant found known =>
    "unknown variant `" ++ found ++ "`, expected one of "
      ++ ", ".intercalate (known.map fun k => "`" ++ k ++ "`")
  | .variantIndex found count =>
    "invalid value: integer `" ++ Number.intText found ++ "`, expected variant index 0 <= i < "
      ++ Number.natText count
  | .wrongType found expected => "invalid type: " ++ found.summary ++ ", expected " ++ expected
  | .notOneMember => "invalid value: map, expected map with a single key"
  | .wrongLength found expected =>
    "invalid length " ++ Number.natText found ++ ", expected " ++ expected

/-! ## Places -/

/-- One step from a tree to a subtree. -/
inductive Step
  | key (name : String)
  | index (i : Nat)
  /-- A key that was being read when reading failed. -/
  | unknown
  deriving DecidableEq, Repr

/-- The steps as a path: keys are parted by points, an index attaches to what it indexes. -/
def Step.render (steps : List Step) : String :=
  match steps with
  | [] => "."
  | s :: ss => text s ++ String.join (ss.map fun t => separator t ++ text t)
where
  text : Step → String
    | .key name => name
    | .index i => "[" ++ Number.natText i ++ "]"
    | .unknown => "?"
  separator : Step → String
    | .index _ => ""
    | _ => "."

/-- A reason and the place where it arose. -/
structure Problem where
  path : List Step
  reason : Reason
  deriving Repr

namespace Problem

/-- A problem at the place itself. -/
def here (reason : Reason) : Problem := ⟨[], reason⟩

def ofFault (f : Fault) : Problem := here (.fault f)

/-- The problem as seen from one step further out. -/
def under (step : Step) (p : Problem) : Problem := { p with path := step :: p.path }

/-- The wording with the place in front. -/
def message (p : Problem) : String :=
  "at JSON path " ++ Step.render p.path ++ " → " ++ p.reason.message

end Problem

end ShapeGraph
