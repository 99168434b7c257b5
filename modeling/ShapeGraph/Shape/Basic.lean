import ShapeGraph.BaseType
import ShapeGraph.Entries
import ShapeGraph.Formats
import ShapeGraph.Kind
import ShapeGraph.Literal

/-!
# Shapes

A shape describes values. Some shapes hold further shapes, and a shape can refer to a definition
of a graph by the definition's place.

* `Shape` — the nineteen kinds
* `Shape.kind` — which of them a shape is
* `Graph` — named shapes, to which references lead
-/

namespace ShapeGraph

inductive Shape
  | base (type : BaseType)
  | any
  /-- Null, or not there. -/
  | nullish
  | never
  | literal (c : Literal)
  /-- Strings that are matched by a pattern; the label stands for it where people read. -/
  | pattern (text : String) (matched : String → Bool) (label : String)
  | date
  | bigint
  | stringFormats (formats : List String)
  | numberFormats (formats : List String)
  | literals (cs : List Literal)
  /-- Fixed places, and a shape for all items behind them if there may be any. -/
  | tuple (slots : List Shape) (rest : Option Shape)
  | allOf (members : List Shape)
  | anyOf (members : List Shape)
  | array (item : Shape)
  /-- A union whose branch is picked by the value under `tag`. The members are what the union
  is said to consist of; without any, the branches are. -/
  | tagged (members : List Shape) (tag : String) (branches : List (String × Shape))
  /-- A property that may be null or missing. -/
  | optional (inner : Shape)
  /-- Declared properties, and shapes for the keys and values of all others. -/
  | object (properties : List (String × Shape)) (signatures : List (Shape × Shape))
  /-- The definition at a place, with the name it had when the reference was resolved. -/
  | ref (place : Nat) (name : String)
  deriving Inhabited

namespace Shape

/-- The kind of a shape. -/
def kind : Shape → Kind
  | .base _ => .typeof
  | .any => .any
  | .nullish => .nullish
  | .never => .never
  | .literal _ => .const
  | .pattern .. => .regex
  | .date => .date
  | .bigint => .bigint
  | .stringFormats _ => .stringWithFormats
  | .numberFormats _ => .numberWithFormats
  | .literals _ => .anyOfConsts
  | .tuple .. => .tuple
  | .allOf _ => .allOf
  | .anyOf _ => .anyOf
  | .array _ => .array
  | .tagged .. => .anyOfDiscriminated
  | .optional _ => .optionalField
  | .object .. => .object
  | .ref .. => .ref

def isOptional : Shape → Bool
  | .optional _ => true
  | _ => false

end Shape

/-! ## Graphs -/

/-- Named shapes. References lead to places, so a graph can also be read by the references of
another one. -/
structure Graph where
  definitions : Entries Shape := []

namespace Graph

def size (g : Graph) : Nat := g.definitions.length

def names (g : Graph) : List String := g.definitions.keys

/-- The shape at a place. -/
def shape? (g : Graph) (place : Nat) : Option Shape := (g.definitions[place]?).map (·.2)

/-- The name of the definition at a place. -/
def name? (g : Graph) (place : Nat) : Option String := (g.definitions[place]?).map (·.1)

/-- The place of a name. -/
def place? (g : Graph) (name : String) : Option Nat := g.definitions.place? name

variable {g : Graph} {i : Nat}

theorem length_names (g : Graph) : g.names.length = g.size := List.length_map _

theorem lt_size_of_shape? {s : Shape} (h : g.shape? i = some s) : i < g.size := by
  unfold shape? at h
  obtain ⟨e, he, -⟩ := Option.map_eq_some_iff.mp h
  exact (List.getElem?_eq_some_iff.mp he).1

theorem lt_size_of_name? {name : String} (h : g.name? i = some name) : i < g.size := by
  unfold name? at h
  obtain ⟨e, he, -⟩ := Option.map_eq_some_iff.mp h
  exact (List.getElem?_eq_some_iff.mp he).1

theorem exists_shape?_of_lt (h : i < g.size) : ∃ s, g.shape? i = some s :=
  ⟨_, by rw [shape?, List.getElem?_eq_getElem h, Option.map_some]⟩

end Graph

end ShapeGraph
