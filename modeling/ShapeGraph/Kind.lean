/-!
# Kinds

The nineteen kinds of shapes by name.

* `Kind.ofName?_name` — a name stands for its kind
-/

namespace ShapeGraph

inductive Kind
  | typeof
  | any
  | nullish
  | never
  | const
  | regex
  | date
  | bigint
  | stringWithFormats
  | numberWithFormats
  | anyOfConsts
  | tuple
  | allOf
  | anyOf
  | array
  | anyOfDiscriminated
  | optionalField
  | object
  | ref
  deriving DecidableEq, Repr

namespace Kind

/-- All kinds, in the order in which they are listed. -/
def all : List Kind :=
  [.typeof, .any, .nullish, .never, .const, .regex, .date, .bigint, .stringWithFormats,
   .numberWithFormats, .anyOfConsts, .tuple, .allOf, .anyOf, .array, .anyOfDiscriminated,
   .optionalField, .object, .ref]

/-- The name in a record. -/
def name : Kind → String
  | .typeof => "typeof"
  | .any => "any"
  | .nullish => "nullish"
  | .never => "never"
  | .const => "const"
  | .regex => "regex"
  | .date => "date"
  | .bigint => "bigint"
  | .stringWithFormats => "string_with_formats"
  | .numberWithFormats => "number_with_formats"
  | .anyOfConsts => "any_of_consts"
  | .tuple => "tuple"
  | .allOf => "all_of"
  | .anyOf => "any_of"
  | .array => "array"
  | .anyOfDiscriminated => "any_of_discriminated"
  | .optionalField => "optional_field"
  | .object => "object"
  | .ref => "ref"

/-- The name as one word with capitals. -/
def title : Kind → String
  | .typeof => "Typeof"
  | .any => "Any"
  | .nullish => "Nullish"
  | .never => "Never"
  | .const => "Const"
  | .regex => "Regex"
  | .date => "Date"
  | .bigint => "BigInt"
  | .stringWithFormats => "StringWithFormats"
  | .numberWithFormats => "NumberWithFormats"
  | .anyOfConsts => "AnyOfConsts"
  | .tuple => "Tuple"
  | .allOf => "AllOf"
  | .anyOf => "AnyOf"
  | .array => "Array"
  | .anyOfDiscriminated => "AnyOfDiscriminated"
  | .optionalField => "OptionalField"
  | .object => "Object"
  | .ref => "Ref"

/-- The kind that a name stands for. -/
def ofName? (name : String) : Option Kind := all.find? fun k => k.name == name

theorem ofName?_name (k : Kind) : ofName? k.name = some k := by cases k <;> decide

end Kind

end ShapeGraph
