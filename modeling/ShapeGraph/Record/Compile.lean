import ShapeGraph.Record.Basic

/-!
# Compiling records

Names of definitions become places, patterns and constants are checked, and the named formats
have to be registered. The first problem ends it; records are gone through in depth-first order.

* `Record.compile` — one record as a shape
* `Graph.ofRecords` — a graph from named records
-/

namespace ShapeGraph

namespace Record

def compileLiteral (path : Path) (value : Json) : Except BuildError Literal :=
  match Literal.ofJson? value with
  | some c => .ok c
  | none => .error (.structuredLiteral value path)

/-- Formats are named, and all of them registered. -/
def checkFormats (type : BaseType) (isKnown : String → Bool) (path : Path)
    (formats : List String) : Except BuildError Unit :=
  if formats.isEmpty then .error (.emptyFormats path)
  else
    match formats.find? fun name => !isKnown name with
    | some name => .error (.unknownFormat type name path)
    | none => .ok ()

/-- The segment of a member in a list with a label. -/
def memberSegment (label : String) (i : Nat) : String := label ++ Path.index i

variable (formats : Formats) (place? : String → Option Nat)

mutual

/-- **The shape that a record stands for.** -/
def compile : Path → Record → Except BuildError Shape
  | _, .typeof type => .ok (.base type)
  | _, .any => .ok .any
  | _, .nullish => .ok .nullish
  | _, .never => .ok .never
  | path, .const value => return .literal (← compileLiteral path value)
  | path, .regex text label =>
    match formats.patterns text with
    | some matched => .ok (.pattern text matched label)
    | none => .error (.invalidPattern text path.textOrRoot)
  | _, .date => .ok .date
  | _, .bigint => .ok .bigint
  | path, .stringWithFormats names => do
    checkFormats .string (fun name => (formats.stringRule? name).isSome) path names
    return .stringFormats names
  | path, .numberWithFormats names => do
    checkFormats .number (fun name => (formats.numberRule? name).isSome) path names
    return .numberFormats names
  | path, .anyOfConsts values => return .literals (← values.mapM (compileLiteral path))
  | path, .tuple slots none => return .tuple (← compileAll "" path 0 slots) none
  | path, .tuple slots (some rest) => do
    let slots ← compileAll "" path 0 slots
    let rest ← compile (path ++ ["rest"]) rest
    return .tuple slots (some rest)
  | path, .allOf members => return .allOf (← compileAll "allOf" path 0 members)
  | path, .anyOf members => return .anyOf (← compileAll "anyOf" path 0 members)
  | path, .array item => return .array (← compile (path ++ ["[]"]) item)
  | path, .anyOfDiscriminated members tag branches =>
    if branches.isEmpty then .error (.emptyMapping tag path)
    else do
      let branches ← compileNamed "mapping." path branches
      let members ← compileAll "anyOf" path 0 members
      return .tagged members tag branches
  | path, .optionalField inner => return .optional (← compile path inner)
  | path, .object properties signatures => do
    let properties ← compileNamed "" path properties
    let signatures ← compilePairs path signatures
    return .object properties signatures
  | path, .ref name =>
    match place? name with
    | some place => .ok (.ref place name)
    | none => .error (.unknownRef name path)

def compileAll (label : String) : Path → Nat → List Record → Except BuildError (List Shape)
  | _, _, [] => .ok []
  | path, i, r :: records => do
    let first ← compile (path ++ [memberSegment label i]) r
    let others ← compileAll label path (i + 1) records
    return first :: others

def compileNamed (label : String) :
    Path → List (String × Record) → Except BuildError (List (String × Shape))
  | _, [] => .ok []
  | path, (k, r) :: entries => do
    let first ← compile (path ++ [label ++ k]) r
    let others ← compileNamed label path entries
    return (k, first) :: others

def compilePairs : Path → List (Record × Record) → Except BuildError (List (Shape × Shape))
  | _, [] => .ok []
  | path, (keyRecord, valueRecord) :: pairs => do
    let key ← compile (path ++ ["[key]"]) keyRecord
    let value ← compile (path ++ ["[value]"]) valueRecord
    let others ← compilePairs path pairs
    return (key, value) :: others

end

end Record

namespace Graph

/-- A record as a shape that refers to the definitions of a graph. -/
def compile (g : Graph) (formats : Formats) (r : Record) : Except BuildError Shape :=
  r.compile formats g.place? []

/-- **The graph of named records.** -/
def ofRecords (formats : Formats) (records : Entries Record) : Except BuildError Graph := do
  let definitions ← records.mapM fun e => do
    return (e.1, ← e.2.compile formats records.place? [e.1])
  return ⟨definitions⟩

end Graph

end ShapeGraph
