import ShapeGraph.Path
import ShapeGraph.Shape.Basic

/-!
# JSON Schema

The JSON Schema of a shape. Dates and big integers have none. References are written out where
they stand; one that leads back into a definition being written becomes the empty schema.

* `SchemaFault` — why there is no schema
* `Shape.schema`, `Graph.schema`

## Termination

Along one chain of references no definition is opened twice, so the size of the graph bounds
the chain.
-/

namespace ShapeGraph

/-- Why a shape has no JSON Schema. -/
inductive SchemaFault
  | unsupported (what : String) (path : Path)
  | unresolved (name : String)
  deriving DecidableEq, Repr

def SchemaFault.message : SchemaFault → String
  | .unsupported what path =>
    "Cannot generate JSON Schema for " ++ what ++ " at " ++ path.textOrRoot
  | .unresolved name => "internal error: ref `" ++ name ++ "` does not resolve in this graph"

namespace Shape

/-- An object schema that lists all properties as required. -/
def objectSchema (properties : List (String × Json)) (more : List (String × Json)) : Json :=
  .obj ([("type", .str "object"), ("properties", .obj properties),
    ("required", .arr (properties.map fun e => .str e.1))] ++ more)

variable (onRef : Path → Nat → String → Except SchemaFault Json)

mutual

/-- **The JSON Schema of a shape at a path**, given those of the references. -/
def schema : Path → Shape → Except SchemaFault Json
  | _, .base type => .ok (.obj [("type", .str type.name)])
  | _, .any => .ok (.obj [])
  | _, .nullish => .ok (.obj [("type", .str "null")])
  | _, .never => .ok (.obj [("anyOf", .arr [])])
  | _, .literal c => .ok (.obj [("const", c.toJson)])
  | _, .pattern _ _ label => .ok (.obj [("type", .str "string"), ("pattern", .str label)])
  | path, .date => .error (.unsupported "Date" path)
  | path, .bigint => .error (.unsupported "BigInt" path)
  | _, .stringFormats formats =>
    .ok (.obj [("type", .str "string"), ("format", .str (" and ".intercalate formats))])
  | _, .numberFormats formats =>
    .ok (.obj [("type", .str "number"), ("format", .str (" and ".intercalate formats))])
  | _, .literals cs => .ok (.obj [("enum", .arr (cs.map (·.toJson)))])
  | path, .tuple slots none => do
    let slots ← schemaSlots path 0 slots
    return .obj [("type", .str "array"), ("prefixItems", .arr slots), ("items", .bool false)]
  | path, .tuple slots (some rest) => do
    let slots ← schemaSlots path 0 slots
    let rest ← schema (path ++ ["[]"]) rest
    return .obj [("type", .str "array"), ("prefixItems", .arr slots), ("items", rest)]
  | path, .allOf members => return .obj [("allOf", .arr (← schemaAll path members))]
  | path, .anyOf members => return .obj [("anyOf", .arr (← schemaAll path members))]
  | path, .array item => do
    let item ← schema (path ++ ["[]"]) item
    return .obj [("type", .str "array"), ("items", item)]
  | path, .tagged [] _ branches => return .obj [("anyOf", .arr (← schemaBranches path branches))]
  | path, .tagged (s :: members) _ _ => do
    let first ← schema path s
    let others ← schemaAll path members
    return .obj [("anyOf", .arr (first :: others))]
  | path, .optional inner => schema path inner
  | path, .object properties signatures => do
    let properties ← schemaProperties path properties
    if signatures.isEmpty then
      return objectSchema properties [("additionalProperties", .bool false)]
    else do
      let parts ← schemaSignatures path signatures
      return .obj [("allOf", .arr (objectSchema properties [] :: parts))]
  | path, .ref place name => onRef path place name

def schemaSlots : Path → Nat → List Shape → Except SchemaFault (List Json)
  | _, _, [] => .ok []
  | path, i, s :: slots => do
    let first ← schema (path ++ [Path.index i]) s
    let others ← schemaSlots path (i + 1) slots
    return first :: others

def schemaAll : Path → List Shape → Except SchemaFault (List Json)
  | _, [] => .ok []
  | path, s :: members => do
    let first ← schema path s
    let others ← schemaAll path members
    return first :: others

def schemaBranches : Path → List (String × Shape) → Except SchemaFault (List Json)
  | _, [] => .ok []
  | path, (_, s) :: branches => do
    let first ← schema path s
    let others ← schemaBranches path branches
    return first :: others

def schemaProperties : Path → List (String × Shape) → Except SchemaFault (List (String × Json))
  | _, [] => .ok []
  | path, (k, s) :: properties => do
    let first ← schema (path ++ [k]) s
    let others ← schemaProperties path properties
    return (k, first) :: others

def schemaSignatures : Path → List (Shape × Shape) → Except SchemaFault (List Json)
  | _, [] => .ok []
  | path, (keyShape, valueShape) :: signatures => do
    let key ← schema (path ++ ["[key]"]) keyShape
    let value ← schema (path ++ ["[value]"]) valueShape
    let others ← schemaSignatures path signatures
    return .obj [("additionalProperties", value), ("propertyNames", key)] :: others

end

end Shape

namespace Graph

/-- The schema of a reference, where the definitions in `opened` are being written and at most
`fuel` more are opened. -/
def schemaRef (g : Graph) : Nat → List Nat → Path → Nat → String → Except SchemaFault Json
  | 0, _, _, _, name => .error (.unresolved name)
  | fuel + 1, opened, path, place, name =>
    if opened.contains place then .ok (.obj [])
    else
      match g.shape? place with
      | some s => s.schema (schemaRef g fuel (place :: opened)) path
      | none => .error (.unresolved name)

/-- **The JSON Schema of a shape**, with references read in the graph. -/
def schema (g : Graph) (s : Shape) : Except SchemaFault Json :=
  s.schema (g.schemaRef (g.size + 1) []) []

end Graph

end ShapeGraph
