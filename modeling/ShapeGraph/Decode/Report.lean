import ShapeGraph.Decode.Accepts
import ShapeGraph.Decode.Error

/-!
# What is wrong with a value

The errors of a value that a shape does not accept, in the order of the shape's declaration. A
container reports what its rejected parts report, each at its place. A union gathers what its
members say, told from the union's place.

* `Shape.expectation` — what a shape without parts expects
* `Shape.report` — the errors, given acceptance and errors by the references
* `Graph.report` — the errors in a graph
-/

namespace ShapeGraph

namespace Shape

/-- What a shape says when a value is not even of the right kind. -/
def expectation : Shape → String
  | .base type => "expected " ++ type.name
  | .any => ""
  | .nullish => "expected nullish"
  | .never => "never"
  | .literal c => "expected " ++ c.render
  | .pattern _ _ label => "expected string matching " ++ label
  | .date => "expected Date"
  | .bigint => "expected bigint"
  | .stringFormats formats =>
    "expected string with format " ++ Json.quote (" and ".intercalate formats)
  | .numberFormats formats =>
    "expected number with format " ++ Json.quote (" and ".intercalate formats)
  | .literals cs => "expected one of " ++ ", ".intercalate (cs.map (·.render))
  | .tuple _ _ => "expected tuple"
  | .array _ => "expected array"
  | .allOf _ => "expected object"
  | .anyOf _ => ""
  | .tagged _ _ _ => "expected object"
  | .optional _ => ""
  | .object _ _ => "expected object"
  | .ref _ name => "unresolved ref " ++ name

/-- What is said of a key that is not declared. -/
def extraProperty : String := "extra property"

/-- What a union says of a tag that picks no branch. -/
def knownTags (branches : Entries Shape) : String :=
  "expected one of " ++ ", ".intercalate (branches.keys.map Json.quote)

/-- What a tuple without a rest says of an item behind its slots. -/
def tooManyItems (count : Nat) : String :=
  "expected tuple with " ++ Number.natText count ++ " items"

variable (p : Policy) (acceptsRef : Nat → Value → Bool)
  (onRef : Nat → String → Path → Value → List DecodeError)

/-- One error at a place, unless the value is accepted. -/
def check (s : Shape) (path : Path) (v : Value) : List DecodeError :=
  if accepts p acceptsRef s v then [] else [.mismatch s.expectation path v]

mutual

/-- **The errors of a value at a place.** -/
def report : Shape → Path → Value → List DecodeError
  | .base type, path, v => check p acceptsRef (.base type) path v
  | .any, _, _ => []
  | .nullish, path, v => check p acceptsRef .nullish path v
  | .never, path, v => check p acceptsRef .never path v
  | .literal c, path, v => check p acceptsRef (.literal c) path v
  | .pattern text matched label, path, v =>
    check p acceptsRef (.pattern text matched label) path v
  | .date, path, v => check p acceptsRef .date path v
  | .bigint, path, v => check p acceptsRef .bigint path v
  | .stringFormats formats, path, v => check p acceptsRef (.stringFormats formats) path v
  | .numberFormats formats, path, v => check p acceptsRef (.numberFormats formats) path v
  | .literals cs, path, v => check p acceptsRef (.literals cs) path v
  | .tuple slots none, path, .array items =>
    reportSlots slots 0 path items
      ++ match items.drop slots.length with
        | [] => []
        | v :: _ => [.mismatch (tooManyItems slots.length) (path ++ [Path.index slots.length]) v]
  | .tuple slots (some rest), path, .array items =>
    reportSlots slots 0 path items
      ++ ((items.drop slots.length).zipIdx slots.length).flatMap fun (v, i) =>
        if accepts p acceptsRef rest v then [] else report rest (path ++ [Path.index i]) v
  | .tuple slots rest, path, v => [.mismatch (expectation (.tuple slots rest)) path v]
  | .allOf members, path, v =>
    if v.isObject then reportAll members path v
    else [.mismatch (expectation (.allOf members)) path v]
  | .anyOf members, path, v =>
    if acceptsSome p acceptsRef members v then [] else [.union path v (reportEach members v)]
  | .array item, path, .array items =>
    items.zipIdx.flatMap fun (v, i) =>
      if accepts p acceptsRef item v then [] else report item (path ++ [Path.index i]) v
  | .array item, path, v => [.mismatch (expectation (.array item)) path v]
  | .tagged members tag branches, path, v =>
    if v.isObject then
      let found := v.get tag
      let missing : DecodeError := .mismatch (knownTags branches) (path ++ [tag]) found
      match found.tagKey? with
      | none => [missing]
      | some key => reportBranch branches key missing path v
    else [.mismatch (expectation (.tagged members tag branches)) path v]
  | .optional inner, path, v => if v.isNullish then [] else report inner path v
  | .object properties signatures, path, .object members =>
    let others := undeclared properties members
    if signatures.isEmpty && p.strict && !others.isEmpty then
      others.map fun m => .mismatch extraProperty (path ++ [m.1]) m.2
    else
      reportProperties properties path (.object members)
        ++ if signatures.isEmpty then []
          else others.flatMap fun m =>
            if acceptsMember p acceptsRef signatures (.string m.1) m.2 then []
            else reportMember signatures (path ++ [m.1]) (.string m.1) m.2
  | .object properties signatures, path, v =>
    [.mismatch (expectation (.object properties signatures)) path v]
  | .ref place name, path, v => onRef place name path v

/-- The errors of the slots, the first of which has a given index. -/
def reportSlots : List Shape → Nat → Path → List Value → List DecodeError
  | [], _, _, _ => []
  | s :: slots, i, path, items =>
    let v := items.headD .undefined
    (if accepts p acceptsRef s v then [] else report s (path ++ [Path.index i]) v)
      ++ reportSlots slots (i + 1) path items.tail

/-- The errors of the members of an intersection that reject a value. -/
def reportAll : List Shape → Path → Value → List DecodeError
  | [], _, _ => []
  | s :: members, path, v =>
    (if accepts p acceptsRef s v then [] else report s path v) ++ reportAll members path v

/-- What every member of a union says. -/
def reportEach : List Shape → Value → List DecodeError
  | [], _ => []
  | s :: members, v => report s [] v ++ reportEach members v

/-- The errors by the branch under a key. -/
def reportBranch : List (String × Shape) → String → DecodeError → Path → Value →
    List DecodeError
  | [], _, missing, _, _ => [missing]
  | (k, s) :: branches, key, missing, path, v =>
    if k = key then report s path v else reportBranch branches key missing path v

/-- The errors of the declared properties. -/
def reportProperties : List (String × Shape) → Path → Value → List DecodeError
  | [], _, _ => []
  | (k, s) :: properties, path, v =>
    (if accepts p acceptsRef s (v.get k) then [] else report s (path ++ [k]) (v.get k))
      ++ reportProperties properties path v

/-- What the signatures say of an undeclared key and its value: each one speaks of the key, or
of the value when it accepts the key. -/
def reportMember : List (Shape × Shape) → Path → Value → Value → List DecodeError
  | [], _, _, _ => []
  | (keyShape, valueShape) :: signatures, path, key, v =>
    (if accepts p acceptsRef keyShape key then report valueShape path v
    else report keyShape path key) ++ reportMember signatures path key v

end

end Shape

/-! ## In a graph -/

namespace Graph

/-- The errors by the definition at a place, where at most `fuel` references are opened one
inside the other. -/
def reportRef (g : Graph) (p : Policy) : Nat → Nat → String → Path → Value → List DecodeError
  | 0, place, name, path, v => [.mismatch (Shape.ref place name).expectation path v]
  | fuel + 1, place, name, path, v =>
    match g.shape? place with
    | some s => s.report p (g.acceptsRef p fuel) (reportRef g p fuel) path v
    | none => [.mismatch (Shape.ref place name).expectation path v]

/-- **The errors of a value**, with references read in the graph. -/
def report (g : Graph) (p : Policy) (s : Shape) (path : Path) (v : Value) : List DecodeError :=
  s.report p (g.acceptsRef p (g.budget v)) (g.reportRef p (g.budget v)) path v

end Graph

end ShapeGraph
