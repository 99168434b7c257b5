import ShapeGraph.Shape.Basic

/-!
# Which values a shape accepts

Acceptance goes down the shape and the value together. Where the shape is a reference, the
question is handed to a function for references, so that acceptance by a shape alone is
recursion on the shape; a graph ties the knot by opening at most as many references, one inside
the other, as its size and the depth of the value call for.

* `Shape.accepts` — acceptance, given acceptance by the references
* `Graph.acceptsRef`, `Graph.accepts` — acceptance in a graph

## Termination

Between two steps into the value a graph without unguarded loops opens no definition twice, and
every step into the value makes it less deep: `Graph.budget` counts both.
-/

namespace ShapeGraph

/-- What is in force while values are decoded. -/
structure Policy where
  formats : Formats := {}
  /-- Objects without signatures allow declared keys only. -/
  strict : Bool := false

namespace Shape

/-- The members of an object whose keys are not declared. -/
def undeclared (properties : Entries Shape) (members : List (String × Value)) :
    List (String × Value) :=
  members.filter fun m => !properties.has m.1

variable (p : Policy) (onRef : Nat → Value → Bool)

mutual

/-- **Whether a value is of the shape**, given whether it is of the shape at a place. -/
def accepts : Shape → Value → Bool
  | .base type, v => type.holds v
  | .any, _ => true
  | .nullish, v => v.isNullish
  | .never, _ => false
  | .literal c, v => c.holds v
  | .pattern _ matched _, v => v.string?.any matched
  | .date, v => v.isDate
  | .bigint, v => v.isBigint
  | .stringFormats formats, v => v.string?.any (p.formats.allowsString formats)
  | .numberFormats formats, v => v.number?.any (p.formats.allowsNumber formats)
  | .literals cs, v => cs.any (·.holds v)
  | .tuple slots none, .array items => acceptsSlots slots items && items.length ≤ slots.length
  | .tuple slots (some rest), .array items =>
    acceptsSlots slots items && (items.drop slots.length).all fun v => accepts rest v
  | .tuple _ _, _ => false
  | .allOf members, v => v.isObject && acceptsAll members v
  | .anyOf members, v => acceptsSome members v
  | .array item, .array items => items.all fun v => accepts item v
  | .array _, _ => false
  | .tagged _ tag branches, v => v.isObject && (v.get tag).tagKey?.any fun key =>
    acceptsBranch branches key v
  | .optional inner, v => v.isNullish || accepts inner v
  | .object properties signatures, .object members =>
    acceptsProperties properties (.object members) &&
      (if signatures.isEmpty then !(p.strict && !(undeclared properties members).isEmpty)
      else (undeclared properties members).all fun m =>
        acceptsMember signatures (.string m.1) m.2)
  | .object _ _, _ => false
  | .ref place _, v => onRef place v

/-- Whether every slot accepts its item, where an item that is missing is `undefined`. -/
def acceptsSlots : List Shape → List Value → Bool
  | [], _ => true
  | s :: slots, items => accepts s (items.headD .undefined) && acceptsSlots slots items.tail

/-- Whether every member of an intersection accepts a value. -/
def acceptsAll : List Shape → Value → Bool
  | [], _ => true
  | s :: members, v => accepts s v && acceptsAll members v

/-- Whether some member of a union accepts a value. -/
def acceptsSome : List Shape → Value → Bool
  | [], _ => false
  | s :: members, v => accepts s v || acceptsSome members v

/-- Whether the branch under a key accepts a value. -/
def acceptsBranch : List (String × Shape) → String → Value → Bool
  | [], _, _ => false
  | (k, s) :: branches, key, v => if k = key then accepts s v else acceptsBranch branches key v

/-- Whether every declared property accepts what an object has there. -/
def acceptsProperties : List (String × Shape) → Value → Bool
  | [], _ => true
  | (k, s) :: properties, v => accepts s (v.get k) && acceptsProperties properties v

/-- Whether some signature accepts a key and its value. -/
def acceptsMember : List (Shape × Shape) → Value → Value → Bool
  | [], _, _ => false
  | (keyShape, valueShape) :: signatures, key, v =>
    (accepts keyShape key && accepts valueShape v) || acceptsMember signatures key v

end

/-! ## Lists of shapes -/

section

-- Proofs run side by side; the equations are worked out here, before any of them waits for them.
attribute [local simp] accepts acceptsSlots acceptsAll acceptsSome acceptsBranch acceptsProperties
  acceptsMember

theorem acceptsAll_eq (members : List Shape) (v : Value) :
    acceptsAll p onRef members v = members.all fun s => accepts p onRef s v := by
  induction members with
  | nil => simp
  | cons s members ih => simp [ih]

theorem acceptsSome_eq (members : List Shape) (v : Value) :
    acceptsSome p onRef members v = members.any fun s => accepts p onRef s v := by
  induction members with
  | nil => simp
  | cons s members ih => simp [ih]

theorem acceptsProperties_eq (properties : List (String × Shape)) (v : Value) :
    acceptsProperties p onRef properties v =
      properties.all fun e => accepts p onRef e.2 (v.get e.1) := by
  induction properties with
  | nil => simp
  | cons e properties ih => simp [ih]

theorem acceptsMember_eq (signatures : List (Shape × Shape)) (key v : Value) :
    acceptsMember p onRef signatures key v =
      signatures.any fun e => accepts p onRef e.1 key && accepts p onRef e.2 v := by
  induction signatures with
  | nil => simp
  | cons e signatures ih => simp [ih]

theorem acceptsBranch_eq (branches : Entries Shape) (key : String) (v : Value) :
    acceptsBranch p onRef branches key v =
      (branches.get? key).any fun s => accepts p onRef s v := by
  induction branches with
  | nil => simp [Entries.get?]
  | cons e branches ih =>
    obtain ⟨k, s⟩ := e
    by_cases h : k = key <;> simp [Entries.get?, h, ih]

end

end Shape

/-! ## In a graph -/

namespace Graph

/-- How many references may be open one inside the other. -/
def budget (g : Graph) (v : Value) : Nat := (g.size + 1) * (v.depth + 2)

/-- Whether the definition at a place accepts a value, where at most `fuel` references are
opened one inside the other. A place without a definition accepts nothing. -/
def acceptsRef (g : Graph) (p : Policy) : Nat → Nat → Value → Bool
  | 0, _, _ => false
  | fuel + 1, place, v =>
    match g.shape? place with
    | some s => s.accepts p (acceptsRef g p fuel) v
    | none => false

/-- **Whether a shape accepts a value**, its references read in the graph. -/
def accepts (g : Graph) (p : Policy) (s : Shape) (v : Value) : Bool :=
  s.accepts p (g.acceptsRef p (g.budget v)) v

end Graph

end ShapeGraph
