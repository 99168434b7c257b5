import ShapeGraph.Value.Basic

/-!
# Base types

The scalar types that a shape can ask for by name.

* `BaseType.ofName?_name` — a name stands for its type
-/

namespace ShapeGraph

inductive BaseType
  | string
  | number
  | boolean
  deriving DecidableEq, Repr

namespace BaseType

def name : BaseType → String
  | .string => "string"
  | .number => "number"
  | .boolean => "boolean"

def all : List BaseType := [.string, .number, .boolean]

def ofName? (name : String) : Option BaseType := all.find? fun b => b.name == name

def holds : BaseType → Value → Bool
  | .string, .string _ => true
  | .number, .number _ => true
  | .boolean, .bool _ => true
  | _, _ => false

theorem ofName?_name (type : BaseType) : ofName? type.name = some type := by
  cases type <;> decide

end BaseType

end ShapeGraph
