import ShapeGraph.Json.Problem
import ShapeGraph.Record.Basic

/-!
# Reading records

A record is an object with a `kind` and the fields of that kind in any order, or a list of the
same in order. Fields are looked at in the order in which they stand; unknown ones are ignored.
Only when all have been looked at is a missing field missed.

* `Record.read` — one record, given how the records inside it are read
* `Record.ofTree` — a record with all records inside it

## Termination

A record inside a record is at least one level of JSON deeper, so the depth of the tree bounds
the recursion.
-/

namespace ShapeGraph

/-- The content of a field. -/
inductive FieldValue
  | text (s : String)
  | texts (ss : List String)
  | tree (j : Json)
  | trees (js : List Json)
  | baseType (type : BaseType)
  | record (r : Record)
  | optionalRecord (r : Option Record)
  | records (rs : List Record)
  | recordMap (rs : Entries Record)
  | signatures (pairs : List (Record × Record))

namespace Record

/-! ## Content of fields -/

def readText : Json → Except Reason String
  | .str s => .ok s
  | j => .error (.wrongType j "a string")

def readList {α : Type} (item : Json → Except Reason α) : Json → Except Reason (List α)
  | .arr items => items.mapM item
  | j => .error (.wrongType j "a sequence")

/-- Entries by name; a name that comes again replaces what it stood for. -/
def readEntries {α : Type} (item : Json → Except Reason α) : Json → Except Reason (Entries α)
  | .obj members => do
    let entries ← members.mapM fun m => do return (m.1, ← item m.2)
    return Entries.ofList entries
  | j => .error (.wrongType j "a map")

def readBaseName (name : String) : Except Reason BaseType :=
  match BaseType.ofName? name with
  | some type => .ok type
  | none => .error (.unknownVariant name (BaseType.all.map (·.name)))

/-- A base type, by its name or as the only key of an object without content. -/
def readBaseType : Json → Except Reason BaseType
  | .str name => readBaseName name
  | .obj [(name, content)] => do
    let type ← readBaseName name
    match content with
    | .null => return type
    | .obj [] => return type
    | j => .error (.wrongType j "unit")
  | .obj _ => .error .notOneMember
  | j => .error (.wrongType j "string or map")

/-! ## Structures -/

/-- A number of elements in words. -/
def elements (n : Nat) : String := Number.natText n ++ (if n = 1 then " element" else " elements")

section Structures

variable (content : FieldType → Json → Except Reason FieldValue)

/-- The fields of an object, in the order in which they stand. -/
def readMembers (fields : List Field) :
    Entries FieldValue → List (String × Json) → Except Reason (Entries FieldValue)
  | found, [] => .ok found
  | found, (name, j) :: members =>
    match fields.find? (·.name == name) with
    | none => readMembers fields found members
    | some f =>
      if found.has name then .error (.duplicateField name)
      else do
        let v ← content f.type j
        readMembers fields (found ++ [(name, v)]) members

/-- The fields of a list, by their places. -/
def readItems (title : String) (count : Nat) :
    Nat → List Field → List Json → Except Reason (Entries FieldValue)
  | _, [], [] => .ok []
  | i, [], items =>
    .error (.wrongLength (i + items.length) (elements i ++ " in sequence"))
  | i, f :: fields, [] =>
    if f.optional then readItems title count i fields []
    else .error (.wrongLength i (title ++ " with " ++ elements count))
  | i, f :: fields, j :: items => do
    let v ← content f.type j
    let others ← readItems title count (i + 1) fields items
    return (f.name, v) :: others

end Structures

/-! ## Fields by name -/

section Access

variable (found : Entries FieldValue) (name : String)

/-- The content of a field that has to be there. -/
def required {α : Type} (read : FieldValue → Option α) : Except Reason α :=
  match (found.get? name).bind read with
  | some a => .ok a
  | none => .error (.missingField name)

def textOf : Except Reason String := required found name fun | .text s => some s | _ => none

def textsOf : Except Reason (List String) :=
  required found name fun | .texts ss => some ss | _ => none

def treeOf : Except Reason Json := required found name fun | .tree j => some j | _ => none

def treesOf : Except Reason (List Json) :=
  required found name fun | .trees js => some js | _ => none

def baseTypeOf : Except Reason BaseType :=
  required found name fun | .baseType type => some type | _ => none

def recordOf : Except Reason Record := required found name fun | .record r => some r | _ => none

def recordsOf : Except Reason (List Record) :=
  required found name fun | .records rs => some rs | _ => none

def recordMapOf : Except Reason (Entries Record) :=
  required found name fun | .recordMap rs => some rs | _ => none

def optionalRecordOf : Option Record :=
  match found.get? name with
  | some (.optionalRecord r) => r
  | _ => none

def signaturesOf : List (Record × Record) :=
  match found.get? name with
  | some (.signatures pairs) => pairs
  | _ => []

end Access

/-- The record of a kind from its fields. -/
def ofFields (k : Kind) (found : Entries FieldValue) : Except Reason Record :=
  match k with
  | .typeof => return .typeof (← baseTypeOf found "name")
  | .any => .ok .any
  | .nullish => .ok .nullish
  | .never => .ok .never
  | .const => return .const (← treeOf found "value")
  | .regex => return .regex (← textOf found "pattern") (← textOf found "description")
  | .date => .ok .date
  | .bigint => .ok .bigint
  | .stringWithFormats => return .stringWithFormats (← textsOf found "formats")
  | .numberWithFormats => return .numberWithFormats (← textsOf found "formats")
  | .anyOfConsts => return .anyOfConsts (← treesOf found "values")
  | .tuple => return .tuple (← recordsOf found "prefix") (optionalRecordOf found "rest")
  | .allOf => return .allOf (← recordsOf found "schemas")
  | .anyOf => return .anyOf (← recordsOf found "schemas")
  | .array => return .array (← recordOf found "item")
  | .anyOfDiscriminated =>
    return .anyOfDiscriminated (← recordsOf found "schemas") (← textOf found "discriminator")
      (← recordMapOf found "mapping")
  | .optionalField => return .optionalField (← recordOf found "inner")
  | .object =>
    return .object (← recordMapOf found "properties") (signaturesOf found "indexed_properties")
  | .ref => return .ref (← textOf found "name")

/-! ## Kinds -/

/-- The kind that a value under `kind` stands for: a name, or, in a record inside a record, the
place in the list of kinds. -/
def readKind (inside : Bool) : Json → Except Reason Kind
  | .str name =>
    match Kind.ofName? name with
    | some k => .ok k
    | none => .error (.unknownVariant name (Kind.all.map (·.name)))
  | .int n =>
    if inside ∧ 0 ≤ n then
      match Kind.all[n.toNat]? with
      | some k => .ok k
      | none => .error (.variantIndex n Kind.all.length)
    else .error (.wrongType (.int n) "variant identifier")
  | j => .error (.wrongType j "variant identifier")

/-- The key of the kind. -/
def kindKey : String := "kind"

/-- The kind among the members of an object. -/
def findKind (inside : Bool) : Option Kind → List (String × Json) → Except Reason Kind
  | none, [] => .error (.missingField kindKey)
  | some k, [] => .ok k
  | found, (name, j) :: members =>
    if name = kindKey then
      match found with
      | some _ => .error (.duplicateField kindKey)
      | none => do
        let k ← readKind inside j
        findKind inside (some k) members
    else findKind inside found members

/-! ## Records -/

section Nested

variable (node : Json → Except Reason Record)

/-- The two fields of a signature. -/
def signatureFields : List Field := [⟨"key", .record, false⟩, ⟨"value", .record, false⟩]

/-- A pair of records for keys and values. -/
def readSignature (j : Json) : Except Reason (Record × Record) := do
  let content (_ : FieldType) (j : Json) : Except Reason FieldValue := return .record (← node j)
  let found ← match j with
    | .obj members => readMembers content signatureFields [] members
    | .arr items => readItems content "struct IndexedPropertyDef" 2 0 signatureFields items
    | j => .error (.wrongType j "struct IndexedPropertyDef")
  return (← recordOf found "key", ← recordOf found "value")

/-- The content of a field. -/
def readContent : FieldType → Json → Except Reason FieldValue
  | .text, j => return .text (← readText j)
  | .texts, j => return .texts (← readList readText j)
  | .tree, j => .ok (.tree j.tidy)
  | .trees, j => return .trees (← readList (fun j => .ok j.tidy) j)
  | .baseType, j => return .baseType (← readBaseType j)
  | .record, j => return .record (← node j)
  | .optionalRecord, .null => .ok (.optionalRecord none)
  | .optionalRecord, j => return .optionalRecord (some (← node j))
  | .records, j => return .records (← readList node j)
  | .recordMap, j => return .recordMap (← readEntries node j)
  | .signatures, j => return .signatures (← readList (readSignature node) j)

/-- A record of a known kind from the members of an object. -/
def readOfKind (k : Kind) (members : List (String × Json)) : Except Reason Record := do
  let found ← readMembers (readContent node) k.fields [] members
  ofFields k found

/-- A record of a known kind from the items of a list. -/
def readOfItems (k : Kind) (items : List Json) : Except Reason Record := do
  let title := "struct variant RuntypeDef::" ++ k.title
  let found ← readItems (readContent node) title k.fields.length 0 k.fields items
  ofFields k found

/-- What a node is called where it is missed. -/
def nodeTitle : String := "internally tagged enum RuntypeDef"

/-- A record, given how the records inside it are read. -/
def read (inside : Bool) : Json → Except Reason Record
  | .obj members => do
    let k ← findKind inside none members
    readOfKind node k members
  | .arr [] => .error (.missingField kindKey)
  | .arr (j :: items) => do
    let k ← readKind inside j
    readOfItems node k items
  | j => .error (.wrongType j nodeTitle)

end Nested

/-- A record inside another one, with at most `depth` levels of JSON. -/
def readInner : Nat → Json → Except Reason Record
  | 0, j => .error (.wrongType j nodeTitle)
  | depth + 1, j => read (readInner depth) true j

/-- **The record that a tree stands for.** -/
def ofTree (j : Json) : Except Reason Record := read (readInner (j.depth + 1)) false j

end Record

end ShapeGraph
