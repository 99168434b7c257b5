import ShapeGraph.Json.Basic
import ShapeGraph.Kind
import ShapeGraph.Shape.Basic

/-!
# Records

A record is a shape as it is written down: references by name, patterns as text, constants as
JSON. A graph is compiled from named records.

* `Record` — one record for every kind
* `Kind.fields` — what the record of a kind consists of
* `Record.toJson` — a record written down
-/

namespace ShapeGraph

inductive Record
  | typeof (type : BaseType)
  | any
  | nullish
  | never
  | const (value : Json)
  | regex (text label : String)
  | date
  | bigint
  | stringWithFormats (formats : List String)
  | numberWithFormats (formats : List String)
  | anyOfConsts (values : List Json)
  | tuple (slots : List Record) (rest : Option Record)
  | allOf (members : List Record)
  | anyOf (members : List Record)
  | array (item : Record)
  | anyOfDiscriminated (members : List Record) (tag : String)
      (branches : List (String × Record))
  | optionalField (inner : Record)
  | object (properties : List (String × Record)) (signatures : List (Record × Record))
  | ref (name : String)
  deriving Inhabited, Repr

/-! ## Fields -/

/-- What a field holds. -/
inductive FieldType
  | text
  | texts
  | tree
  | trees
  | baseType
  | record
  | optionalRecord
  | records
  | recordMap
  | signatures
  deriving DecidableEq, Repr

structure Field where
  name : String
  type : FieldType
  /-- Whether the field may be missing. -/
  optional : Bool := false
  deriving Repr

/-- The fields of a kind's record, in order. -/
def Kind.fields : Kind → List Field
  | .typeof => [⟨"name", .baseType, false⟩]
  | .any => []
  | .nullish => []
  | .never => []
  | .const => [⟨"value", .tree, false⟩]
  | .regex => [⟨"pattern", .text, false⟩, ⟨"description", .text, false⟩]
  | .date => []
  | .bigint => []
  | .stringWithFormats => [⟨"formats", .texts, false⟩]
  | .numberWithFormats => [⟨"formats", .texts, false⟩]
  | .anyOfConsts => [⟨"values", .trees, false⟩]
  | .tuple => [⟨"prefix", .records, false⟩, ⟨"rest", .optionalRecord, true⟩]
  | .allOf => [⟨"schemas", .records, false⟩]
  | .anyOf => [⟨"schemas", .records, false⟩]
  | .array => [⟨"item", .record, false⟩]
  | .anyOfDiscriminated =>
    [⟨"schemas", .records, false⟩, ⟨"discriminator", .text, false⟩,
     ⟨"mapping", .recordMap, false⟩]
  | .optionalField => [⟨"inner", .record, false⟩]
  | .object =>
    [⟨"properties", .recordMap, false⟩, ⟨"indexed_properties", .signatures, true⟩]
  | .ref => [⟨"name", .text, false⟩]

namespace Record

def kind : Record → Kind
  | .typeof _ => .typeof
  | .any => .any
  | .nullish => .nullish
  | .never => .never
  | .const _ => .const
  | .regex _ _ => .regex
  | .date => .date
  | .bigint => .bigint
  | .stringWithFormats _ => .stringWithFormats
  | .numberWithFormats _ => .numberWithFormats
  | .anyOfConsts _ => .anyOfConsts
  | .tuple _ _ => .tuple
  | .allOf _ => .allOf
  | .anyOf _ => .anyOf
  | .array _ => .array
  | .anyOfDiscriminated _ _ _ => .anyOfDiscriminated
  | .optionalField _ => .optionalField
  | .object _ _ => .object
  | .ref _ => .ref

/-! ## Writing -/

/-- The object of a record: its kind, then its fields. -/
def tagged (k : Kind) (fields : List (String × Json)) : Json :=
  .obj (("kind", .str k.name) :: fields)

mutual

/-- A record written down, with every field. -/
def toJson : Record → Json
  | .typeof type => tagged .typeof [("name", .str type.name)]
  | .any => tagged .any []
  | .nullish => tagged .nullish []
  | .never => tagged .never []
  | .const value => tagged .const [("value", value)]
  | .regex text label => tagged .regex [("pattern", .str text), ("description", .str label)]
  | .date => tagged .date []
  | .bigint => tagged .bigint []
  | .stringWithFormats formats =>
    tagged .stringWithFormats [("formats", .arr (formats.map .str))]
  | .numberWithFormats formats =>
    tagged .numberWithFormats [("formats", .arr (formats.map .str))]
  | .anyOfConsts values => tagged .anyOfConsts [("values", .arr values)]
  | .tuple slots none => tagged .tuple [("prefix", .arr (toJsonAll slots)), ("rest", .null)]
  | .tuple slots (some rest) =>
    tagged .tuple [("prefix", .arr (toJsonAll slots)), ("rest", toJson rest)]
  | .allOf members => tagged .allOf [("schemas", .arr (toJsonAll members))]
  | .anyOf members => tagged .anyOf [("schemas", .arr (toJsonAll members))]
  | .array item => tagged .array [("item", toJson item)]
  | .anyOfDiscriminated members tag branches =>
    tagged .anyOfDiscriminated
      [("schemas", .arr (toJsonAll members)), ("discriminator", .str tag),
       ("mapping", .obj (toJsonNamed branches))]
  | .optionalField inner => tagged .optionalField [("inner", toJson inner)]
  | .object properties signatures =>
    tagged .object
      [("properties", .obj (toJsonNamed properties)),
       ("indexed_properties", .arr (toJsonPairs signatures))]
  | .ref name => tagged .ref [("name", .str name)]

def toJsonAll : List Record → List Json
  | [] => []
  | r :: records => toJson r :: toJsonAll records

def toJsonNamed : List (String × Record) → List (String × Json)
  | [] => []
  | (k, r) :: entries => (k, toJson r) :: toJsonNamed entries

def toJsonPairs : List (Record × Record) → List Json
  | [] => []
  | (keyRecord, valueRecord) :: pairs =>
    .obj [("key", toJson keyRecord), ("value", toJson valueRecord)] :: toJsonPairs pairs

end

end Record

end ShapeGraph
