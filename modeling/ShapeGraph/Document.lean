import ShapeGraph.Json.Reader
import ShapeGraph.Record.Compile
import ShapeGraph.Record.Reader

/-!
# Documents

A document holds the records of a graph under `definitions`. It is read from a JSON tree or
straight from a text; in a text nothing behind the document is looked at, and a problem is told
with its place. Records are places of their own only down to their fields.

* `Document.ofTree`, `Document.ofText` — reading
* `Document.toJson` — writing
* `DecodeOptions` — the options of a decode, which are read in the same way
-/

namespace ShapeGraph

/-! ## Structures with one field -/

namespace Json

/-- The problem of a value that is not of the expected form; a scalar is read to its end. -/
def mismatch {α : Type} (expected : String) (t : Text) : Except Problem α :=
  match skipBlank t with
  | [] => failing .endInValue
  | some '[' :: _ => .error (.here (.wrongType (.arr []) expected))
  | some '\x7b' :: _ => .error (.here (.wrongType (.obj []) expected))
  | c :: t =>
    match scalar c t with
    | .ok (j, _) => .error (.here (.wrongType j expected))
    | .error f => failing f

/-- A structure with one field: what it is called, its field, and what stands for the field
when it is missing. -/
structure SingleField (α : Type) where
  title : String
  field : String
  default? : Option α

namespace SingleField

variable {α : Type} (s : SingleField α)

def orMissing (reason : Reason) : Option α → Except Reason α
  | some a => .ok a
  | none =>
    match s.default? with
    | some a => .ok a
    | none => .error reason

/-- Why a structure without its field is refused, as an object and as a list. -/
def missing : Reason := .missingField s.field

def missingItem : Reason := .wrongLength 0 (s.title ++ " with 1 element")

/-- The structure in a tree. -/
def ofTree (read : Json → Except Reason α) : Json → Except Reason α
  | .obj members => do
    let found ← (Entries.get? members s.field).mapM read
    s.orMissing s.missing found
  | .arr [] => s.orMissing s.missingItem none
  | .arr [j] => read j
  | .arr (j :: items) => do
    let _ ← read j
    .error (.wrongLength (items.length + 1) "fewer elements in array")
  | j => .error (.wrongType j s.title)

/-- The end of a list behind the one item that it may have. -/
def listEnd (t : Text) : Except Problem Unit :=
  match skipBlank t with
  | [] => failing .endInList
  | some ']' :: _ => .ok ()
  | some ',' :: t =>
    match skipBlank t with
    | some ']' :: _ => failing .trailingComma
    | _ => failing .trailingCharacters
  | _ => failing .trailingCharacters

/-- The structure in front of a text. -/
def ofText (read : Text → Except Problem (α × Text)) (t : Text) : Except Problem α :=
  match skipBlank t with
  | some '\x7b' :: t => do
    let step (found : Option α) (key : String) :
        Except Reason (Text → Except Problem (Option α × Text)) :=
      if key = s.field then
        if found.isSome then .error (.duplicateField key)
        else .ok fun t => do
          let (a, t) ← read t
          return (some a, t)
      else .ok fun t => do
        let t ← (skip t).mapError Problem.ofFault
        return (found, t)
    let (found, _) ← object step none t
    (s.orMissing s.missing found).mapError Problem.here
  | some '[' :: t =>
    match skipBlank t with
    | [] => failing .endInList
    | some ']' :: _ => (s.orMissing s.missingItem none).mapError Problem.here
    | t => do
      let (a, t) ← located (.index 0) (read t)
      listEnd t
      return a
  | t => mismatch s.title t

end SingleField

end Json

/-! ## Documents -/

/-- Named records, in order. -/
structure Document where
  definitions : Entries Record := []

namespace Document

def structureOf : Json.SingleField (Entries Record) := ⟨"struct GraphDocument", "definitions", none⟩

/-- The document that a tree stands for. -/
def ofTree (j : Json) : Except Reason Document := do
  return ⟨← structureOf.ofTree (Record.readEntries Record.ofTree) j⟩

/-! ### In a text -/

/-- How many brackets may be open inside a record of a document. -/
def recordDepth : Nat := Json.depthLimit - 3

/-- The value under `kind`: only a string names one. -/
def kindText (t : Text) : Except Problem (Kind × Text) :=
  match Json.skipBlank t with
  | some '"' :: t => do
    let (name, t) ← (Json.string t).mapError Problem.ofFault
    let k ← (Record.readKind false (.str name)).mapError Problem.here
    return (k, t)
  | t => Json.mismatch "variant identifier" t

/-- The members of a record: its kind, and all others as trees. -/
def memberText (found : Option Kind × List (String × Json)) (key : String) :
    Except Reason (Text → Except Problem ((Option Kind × List (String × Json)) × Text)) :=
  if key = Record.kindKey then
    if found.1.isSome then .error (.duplicateField key)
    else .ok fun t => do
      let (k, t) ← kindText t
      return ((some k, found.2), t)
  else .ok fun t => do
    let (j, t) ← Json.value recordDepth t
    return ((found.1, (key, j) :: found.2), t)

/-- The items of a record written as a list: its kind, and all others as trees. -/
def itemsText (t : Text) : Except Problem (Option (Kind × List Json) × Text) :=
  match Json.skipBlank t with
  | some ']' :: t => .ok (none, t)
  | [] => Json.failing .endInList
  | t => do
    let (k, t) ← Json.located (.index 0) (kindText t)
    let (items, t) ← Json.items (Json.value recordDepth) (t.length + 1) 1 t
    return (some (k, items), t)

/-- A record in front of a text. -/
def recordText (t : Text) : Except Problem (Record × Text) :=
  let inner := Record.readInner (Json.depthLimit + 1)
  match Json.skipBlank t with
  | some '\x7b' :: t => do
    let ((k, members), t) ← Json.object memberText (none, []) t
    match k with
    | none => .error (.here (.missingField Record.kindKey))
    | some k => do
      let r ← (Record.readOfKind inner k members.reverse).mapError Problem.here
      return (r, t)
  | some '[' :: t => do
    let (found, t) ← itemsText t
    match found with
    | none => .error (.here (.missingField Record.kindKey))
    | some (k, items) => do
      let r ← (Record.readOfItems inner k items).mapError Problem.here
      return (r, t)
  | t => Json.mismatch Record.nodeTitle t

/-- The definitions in front of a text. -/
def definitionsText (t : Text) : Except Problem (Entries Record × Text) :=
  match Json.skipBlank t with
  | some '\x7b' :: t =>
    Json.object (fun (es : Entries Record) name => .ok fun t => do
      let (r, t) ← recordText t
      return (es.insert name r, t)) [] t
  | t => Json.mismatch "a map" t

/-- **The document in front of a text.** -/
def ofText (t : Text) : Except Problem Document := do
  return ⟨← structureOf.ofText definitionsText t⟩

/-! ### Writing and building -/

/-- A document written down. -/
def toJson (d : Document) : Json :=
  .obj [("definitions", .obj (Record.toJsonNamed d.definitions))]

/-- The graph of a document. -/
def build (formats : Formats) (d : Document) : Except BuildError Graph :=
  Graph.ofRecords formats d.definitions

end Document

/-! ## Options -/

/-- What a caller may ask of a decode. -/
structure DecodeOptions where
  /-- Refuse keys that are not declared on objects without signatures. -/
  disallowExtraProperties : Bool := false

namespace DecodeOptions

def structureOf : Json.SingleField Bool :=
  ⟨"struct DecodeOptions", "disallowExtraProperties", some false⟩

/-- A truth value in front of a text. -/
def boolText (t : Text) : Except Problem (Bool × Text) :=
  match Json.skipBlank t with
  | some 't' :: rest =>
    ((Json.readWord ['r', 'u', 'e'] rest).mapError Problem.ofFault).map (true, ·)
  | some 'f' :: rest =>
    ((Json.readWord ['a', 'l', 's', 'e'] rest).mapError Problem.ofFault).map (false, ·)
  | t => Json.mismatch "a boolean" t

/-- The options in front of a text. -/
def ofText (t : Text) : Except Problem DecodeOptions := do
  return ⟨← structureOf.ofText boolText t⟩

def toJson (o : DecodeOptions) : Json :=
  .obj [(structureOf.field, .bool o.disallowExtraProperties)]

end DecodeOptions

namespace Graph

/-- The graph of the document in front of a text. -/
def ofText (formats : Formats) (t : Text) : Except BuildError Graph := do
  let d ← (Document.ofText t).mapError .unreadable
  d.build formats

/-- The graph of the document that a tree stands for. -/
def ofTree (formats : Formats) (j : Json) : Except BuildError Graph := do
  let d ← (Document.ofTree j).mapError .malformed
  d.build formats

end Graph

end ShapeGraph
