import ShapeGraph.Filter.Basic
import ShapeGraph.Json.Order

/-!
# Running filters

The outputs of a filter for a tree come in order, with a fault in the place of each output that
could not be had. Where a filter has several parts, the outputs of the part further left change
more slowly.

* `Filter.outputs` — the outputs of a filter, faults among them
* `Filter.written` — the outputs as they are written down
-/

namespace ShapeGraph

namespace Filter

/-- Trees in order, with faults in the places of those that could not be had. -/
abbrev Outputs := List (Except Fault Json)

/-- What each tree gives; a fault stays a fault. -/
def Outputs.andThen (outs : Outputs) (next : Json → Outputs) : Outputs :=
  outs.flatMap fun
    | .ok j => next j
    | .error e => [.error e]

/-- One tree or fault for each tree. -/
def Outputs.mapOk (outs : Outputs) (f : Json → Except Fault Json) : Outputs :=
  outs.andThen fun j => [f j]

/-- The trees alone. -/
def Outputs.settled (outs : Outputs) : Outputs :=
  outs.filter fun
    | .ok _ => true
    | .error _ => false

/-- An optional access drops its faults. -/
def settleIf (optional : Bool) (outs : Outputs) : Outputs :=
  if optional then outs.settled else outs

/-! ## Access -/

/-- The place that an integer names in a list of a length; a negative one counts from the end. -/
def place (i : Int) (length : Nat) : Int := if i < 0 then i + length else i

/-- The item or member under a key; what is not there is null. -/
def indexed (value key : Json) : Except Fault Json :=
  match value, key with
  | .arr items, .int i =>
    let i := place i items.length
    .ok (if i < 0 then .null else (items[i.toNat]?).getD .null)
  | .obj members, .str k => .ok ((Entries.get? members k).getD .null)
  | .arr _, _ => .error (.cannotIndex value key)
  | .obj _, _ => .error (.cannotIndex value key)
  | _, _ => .error (.cannotUse value iterable)

/-- All items or members. -/
def contents : Json → Outputs
  | .arr items => items.map .ok
  | .obj members => members.map fun m => .ok m.2
  | j => [.error (.cannotUse j iterable)]

/-- A bound of a slice as a place that is not outside. -/
def bound (length : Nat) : Json → Except Fault Nat
  | .int i => .ok (min (place i length).toNat length)
  | j => .error (.cannotUse j "integer")

/-- What stands between two places, the second of which may be missing. -/
def cut {α : Type} (items : List α) (low : Json) (high : Option Json) : Except Fault (List α) := do
  let low ← bound items.length low
  let high ← match high with
    | some high => bound items.length high
    | none => pure items.length
  return (items.take high).drop low

/-- The items or characters between two places. -/
def sliced (value low : Json) (high : Option Json) : Except Fault Json :=
  match value with
  | .arr items => (cut items low high).map .arr
  | .str s => (cut s.toList low high).map fun cs => .str (String.ofList cs)
  | _ => .error (.cannotUse value rangeable)

/-! ## Calculation -/

/-- Whether an integer fits a signed word. -/
def fitsWord (n : Int) : Bool :=
  let limit : Int := Nat.pow 2 63
  decide (-limit ≤ n) && decide (n < limit)

/-- Only null and false are not true. -/
def isTrue : Json → Bool
  | .null => false
  | .bool b => b
  | _ => true

/-- A calculation with numbers: with integers as long as operands and result fit a word, with
doubles otherwise. -/
def calculateNumbers (how : Calculation) (left right : Json) : Option Json := do
  let x ← left.number?
  let y ← right.number?
  let inDoubles : Json := .float (match how with
    | .add => x.add y
    | .subtract => x.add y.neg)
  match left, right with
  | .int a, .int b =>
    let n := match how with
      | .add => a + b
      | .subtract => a - b
    return if fitsWord a && fitsWord b && fitsWord n then .int n else inDoubles
  | _, _ => return inDoubles

/-- The sum of two trees: null adds nothing, lists and texts are joined, and of two objects the
right one's members win. -/
def sum (left right : Json) : Except Fault Json :=
  match left, right with
  | .null, j => .ok j
  | j, .null => .ok j
  | .str a, .str b => .ok (.str (a ++ b))
  | .arr a, .arr b => .ok (.arr (a ++ b))
  | .obj a, .obj b => .ok (.obj (Entries.insertAll a b))
  | _, _ =>
    match calculateNumbers .add left right with
    | some j => .ok j
    | none => .error (.cannotCalculate left .add right)

/-- The difference of two trees: of lists, the items of the left one that the right one lacks. -/
def difference (left right : Json) : Except Fault Json :=
  match left, right with
  | .arr a, .arr b => .ok (.arr (a.filter fun j => !b.any fun k => j.order k == .eq))
  | _, _ =>
    match calculateNumbers .subtract left right with
    | some j => .ok j
    | none => .error (.cannotCalculate left .subtract right)

def calculated : Calculation → Json → Json → Except Fault Json
  | .add => sum
  | .subtract => difference

/-- A number with the other sign. -/
def negated : Json → Except Fault Json
  | .int n => .ok (if fitsWord n && fitsWord (-n) then .int (-n) else .float (Number.ofInt n).neg)
  | .float x => .ok (.float x.neg)
  | j => .error (.cannotUse j "number")

/-! ## Functions -/

/-- The length of a text, list or object, and the absolute value of a number. -/
def lengthOf : Json → Except Fault Json
  | .null => .ok (.int 0)
  | .bool b => .error (.noLength (.bool b))
  | .int n =>
    .ok (if fitsWord n && fitsWord n.natAbs then .int n.natAbs else .float (Number.ofInt n).abs)
  | .float x => .ok (.float x.abs)
  | .str s => .ok (.int s.length)
  | .arr items => .ok (.int items.length)
  | .obj members => .ok (.int members.length)

/-- The sorted keys of an object, the indices of a list. -/
def keysOf : Json → Except Fault Json
  | .arr items => .ok (.arr ((List.range items.length).map fun (i : Nat) => .int i))
  | .obj members => .ok (.arr ((sortBy stringLe (members.map Prod.fst)).map .str))
  | j => .error (.cannotUse j iterable)

/-- The sum of all items or members; without any it is null. -/
def sumOf (j : Json) : Except Fault Json := do
  (← (contents j).mapM id).foldlM sum .null

/-- The name of a sort of trees. -/
def typeOf : Json → String
  | .null => "null"
  | .bool _ => "boolean"
  | .int _ => "number"
  | .float _ => "number"
  | .str _ => "string"
  | .arr _ => "array"
  | .obj _ => "object"

/-- What a function gives for an input. -/
def Function.on : Function → Json → Except Fault Json
  | .length, j => lengthOf j
  | .keys, j => keysOf j
  | .not, j => .ok (.bool !isTrue j)
  | .add, j => sumOf j
  | .type, j => .ok (.str (typeOf j))

/-! ## Filters -/

/-- All outputs in one array, or the first fault. -/
def gathered (outs : Outputs) : Except Fault Json := (outs.mapM id).map .arr

/-- An object with one member. -/
def singleton (key value : Json) : Except Fault Json :=
  match key with
  | .str k => .ok (.obj [(k, value)])
  | _ => .error (.cannotUse key "string")

/-- The outputs of a filter for an input. -/
def outputs : Filter → Json → Outputs
  | .identity, j => [.ok j]
  | .literal k, _ => [.ok k]
  | .index target key optional, j =>
    (outputs target j).andThen fun t => (outputs key j).andThen fun k =>
      settleIf optional [indexed t k]
  | .each target optional, j =>
    (outputs target j).andThen fun t => settleIf optional (contents t)
  | .sliceFrom target low optional, j =>
    (outputs target j).andThen fun t => (outputs low j).andThen fun a =>
      settleIf optional [sliced t a none]
  | .sliceBetween target low high optional, j =>
    (outputs target j).andThen fun t => (outputs low j).andThen fun a =>
      (outputs high j).andThen fun b => settleIf optional [sliced t a (some b)]
  | .pipe f g, j => (outputs f j).andThen fun k => outputs g k
  | .comma f g, j => outputs f j ++ outputs g j
  | .calculate how f g, j =>
    (outputs f j).andThen fun a => (outputs g j).mapOk fun b => calculated how a b
  | .compare how f g, j =>
    (outputs f j).andThen fun a => (outputs g j).mapOk fun b =>
      .ok (.bool (how.holds (a.order b)))
  | .both f g, j =>
    (outputs f j).andThen fun a =>
      if isTrue a then (outputs g j).mapOk fun b => .ok (.bool (isTrue b)) else [.ok (.bool false)]
  | .either f g, j =>
    (outputs f j).andThen fun a =>
      if isTrue a then [.ok (.bool true)] else (outputs g j).mapOk fun b => .ok (.bool (isTrue b))
  | .negate f, j => (outputs f j).mapOk negated
  | .attempt f, j => (outputs f j).settled
  | .collect f, j => [gathered (outputs f j)]
  | .entry key value, j =>
    (outputs key j).andThen fun k => (outputs value j).mapOk fun v => singleton k v
  | .empty, _ => []
  | .select condition, j =>
    (outputs condition j).andThen fun c => if isTrue c then [.ok j] else []
  | .apply f, j => [f.on j]
  | .unknownCall name arguments, _ => [.error (.notDefined (.call name arguments.length))]
  | .unknownVariable name, _ => [.error (.notDefined (.variable name))]

mutual

/-- A tree as it is written down: a number that is not finite becomes null. -/
def finished : Json → Json
  | .float x => if x.isFinite then .float x else .null
  | .arr items => .arr (finishedItems items)
  | .obj members => .obj (finishedMembers members)
  | .null => .null
  | .bool b => .bool b
  | .int n => .int n
  | .str s => .str s

def finishedItems : List Json → List Json
  | [] => []
  | j :: js => finished j :: finishedItems js

def finishedMembers : List (String × Json) → List (String × Json)
  | [] => []
  | (k, j) :: ms => (k, finished j) :: finishedMembers ms

end

/-- **The outputs of a filter for an input**, as they are written down. -/
def written (f : Filter) (j : Json) : Program.Outputs :=
  (outputs f j).map fun output => (output.map finished).mapError Fault.message

end Filter

end ShapeGraph
