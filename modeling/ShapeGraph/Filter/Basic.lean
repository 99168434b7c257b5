import ShapeGraph.Filter.Program
import ShapeGraph.Json.Printer

/-!
# Filters

A filter takes one JSON tree to any number of trees: `.items[] | select(.keep)` takes a document
to those of its items that are kept. Filters are joined by `|`, which feeds each output of the
left one to the right one, and by `,`, which puts the outputs of both behind each other.

* `Filter` — the filters
* `Filter.undefined` — the names that a filter uses and nothing defines
* `Filter.Fault` — why a filter has no output for a tree
-/

namespace ShapeGraph

namespace Filter

/-- A function of the whole input. -/
inductive Function
  | length
  | keys
  | not
  | add
  | type
  deriving DecidableEq, Repr

namespace Function

def all : List Function := [.length, .keys, .not, .add, .type]

/-- The name under which a filter calls the function. -/
def name : Function → String
  | .length => "length"
  | .keys => "keys"
  | .not => "not"
  | .add => "add"
  | .type => "type"

def ofName? (name : String) : Option Function := all.find? (·.name == name)

end Function

/-- A calculation with two operands. -/
inductive Calculation
  | add
  | subtract
  deriving DecidableEq, Repr

def Calculation.sign : Calculation → String
  | .add => "+"
  | .subtract => "-"

/-- A comparison in the order of trees. -/
inductive Comparison
  | equal
  | different
  | less
  | lessEqual
  | greater
  | greaterEqual
  deriving DecidableEq, Repr

/-- Whether a comparison holds of two trees that stand in a given order. -/
def Comparison.holds : Comparison → Ordering → Bool
  | .equal, o => o == .eq
  | .different, o => o != .eq
  | .less, o => o == .lt
  | .lessEqual, o => o != .gt
  | .greater, o => o == .gt
  | .greaterEqual, o => o != .lt

end Filter

/-- A filter. The parts of an access are filters of the same input as the access itself; an
optional access has no output where it would have a fault. -/
inductive Filter
  | identity
  | literal (j : Json)
  /-- The item or member under a key. -/
  | index (target key : Filter) (optional : Bool)
  /-- All items or members. -/
  | each (target : Filter) (optional : Bool)
  /-- What follows the first items or characters. -/
  | sliceFrom (target low : Filter) (optional : Bool)
  /-- The items or characters between two places. -/
  | sliceBetween (target low high : Filter) (optional : Bool)
  | pipe (first second : Filter)
  | comma (first second : Filter)
  | calculate (how : Filter.Calculation) (left right : Filter)
  | compare (how : Filter.Comparison) (left right : Filter)
  | both (left right : Filter)
  | either (left right : Filter)
  | negate (f : Filter)
  /-- The outputs without the faults. -/
  | attempt (f : Filter)
  /-- All outputs in one array. -/
  | collect (f : Filter)
  /-- An object with one member. -/
  | entry (key value : Filter)
  | empty
  /-- The input, as often as an output of the condition is true. -/
  | select (condition : Filter)
  | apply (f : Filter.Function)
  /-- A call that nothing answers. -/
  | unknownCall (name : String) (arguments : List Filter)
  | unknownVariable (name : String)
  deriving Inhabited

namespace Filter

/-! ## Names that nothing defines -/

/-- A name that a filter uses and nothing defines. -/
inductive Undefined
  | call (name : String) (arity : Nat)
  | variable (name : String)
  deriving DecidableEq, Repr

/-- The name with the sort of thing it should be. -/
def Undefined.named : Undefined → Program.Undefined
  | .call name arity => ⟨name, "Filter(" ++ Number.natText arity ++ ")"⟩
  | .variable name => ⟨"$" ++ name, "Var"⟩

mutual

/-- The undefined names from left to right, those of arguments before the one that is called. -/
def undefined : Filter → List Undefined
  | .index target key _ => undefined target ++ undefined key
  | .each target _ => undefined target
  | .sliceFrom target low _ => undefined target ++ undefined low
  | .sliceBetween target low high _ => undefined target ++ undefined low ++ undefined high
  | .pipe f g => undefined f ++ undefined g
  | .comma f g => undefined f ++ undefined g
  | .calculate _ f g => undefined f ++ undefined g
  | .compare _ f g => undefined f ++ undefined g
  | .both f g => undefined f ++ undefined g
  | .either f g => undefined f ++ undefined g
  | .negate f => undefined f
  | .attempt f => undefined f
  | .collect f => undefined f
  | .entry key value => undefined key ++ undefined value
  | .select condition => undefined condition
  | .unknownCall name arguments => undefinedAll arguments ++ [.call name arguments.length]
  | .unknownVariable name => [.variable name]
  | .identity => []
  | .literal _ => []
  | .empty => []
  | .apply _ => []

def undefinedAll : List Filter → List Undefined
  | [] => []
  | f :: fs => undefined f ++ undefinedAll fs

end

/-! ## Faults -/

/-- Why a filter has no output for a tree. -/
inductive Fault
  | cannotIndex (value key : Json)
  | cannotUse (value : Json) (purpose : String)
  | cannotCalculate (left : Json) (how : Calculation) (right : Json)
  | noLength (value : Json)
  | notDefined (name : Undefined)
  deriving Repr

def Fault.message : Fault → String
  | .cannotIndex value key => "cannot index " ++ value.compact ++ " with " ++ key.compact
  | .cannotUse value purpose => "cannot use " ++ value.compact ++ " as " ++ purpose
  | .cannotCalculate left how right =>
    "cannot calculate " ++ left.compact ++ " " ++ how.sign ++ " " ++ right.compact
  | .noLength value => value.compact ++ " has no length"
  | .notDefined name => "undefined " ++ name.named.text

/-- Items and members can be gone through. -/
def iterable : String := "iterable (array or object)"

/-- Items and characters can be cut out. -/
def rangeable : String := "rangeable (array or string)"

end Filter

end ShapeGraph
