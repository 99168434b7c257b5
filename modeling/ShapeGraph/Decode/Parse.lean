import ShapeGraph.Decode.Accepts
import ShapeGraph.Value.Merge

/-!
# The parsed form of an accepted value

Parsing keeps what a shape declares: undeclared properties go, constants come out as the shape
writes them, and what several members of a union make of a value is merged. It is meant for
accepted values; on others it may fail.

* `ParseFault` — why parsing can fail
* `Shape.parse` — parsing, given acceptance and parsing by the references
* `Graph.parse` — parsing in a graph
-/

namespace ShapeGraph

/-- A value that was not accepted can stop parsing. -/
inductive ParseFault
  | never
  | noMember
  | noBranch (tag : String)
  | memberNotObject (kind : Kind) (result : Value)
  | branchNotObject (result : Value)
  | unresolved (name : String)
  deriving Repr

namespace ParseFault

/-- How many characters of a result are shown. -/
def shownCharacters : Nat := 40

def message (f : ParseFault) : String :=
  "internal error: " ++
    match f with
    | .never => "parse reached a never runtype"
    | .noMember => "any_of parse with no accepting member"
    | .noBranch tag => "no `" ++ tag ++ "` branch for input being parsed"
    | .memberNotObject kind result =>
      "all_of member `" ++ kind.name ++ "` parsed to a non-object: "
        ++ result.preview shownCharacters
    | .branchNotObject result =>
      "discriminated branch parsed to a non-object: " ++ result.preview shownCharacters
    | .unresolved name => "ref `" ++ name ++ "` does not resolve in this graph"

end ParseFault

namespace Shape

/-- A result merged over those before it. -/
def mergeOver (before : Option Value) (v : Value) : Value :=
  match before with
  | none => v
  | some w => w.merge v

variable (p : Policy) (acceptsRef : Nat → Value → Bool)
  (onRef : Nat → String → Value → Except ParseFault Value)

mutual

/-- **The parsed form of a value.** -/
def parse : Shape → Value → Except ParseFault Value
  | .base _, v => .ok v
  | .any, v => .ok v
  | .nullish, v => .ok v
  | .never, _ => .error .never
  | .literal c, _ => .ok c.toValue
  | .pattern _ _ _, v => .ok v
  | .date, v => .ok v
  | .bigint, v => .ok v
  | .stringFormats _, v => .ok v
  | .numberFormats _, v => .ok v
  | .literals cs, v => .ok (((cs.find? (·.holds v)).map (·.toValue)).getD v)
  | .tuple slots none, v => return .array (← parseSlots slots (v.items?.getD []))
  | .tuple slots (some rest), v => do
    let items := v.items?.getD []
    let front ← parseSlots slots items
    let back ← (items.drop slots.length).mapM fun w => parse rest w
    return .array (front ++ back)
  | .allOf members, v => return .object (← parseAll members [] v)
  | .anyOf members, v => parseSome members none v
  | .array item, v => return .array (← (v.items?.getD []).mapM fun w => parse item w)
  | .tagged _ tag branches, v =>
    match (if v.isObject then (v.get tag).tagKey? else none) with
    | none => .error (.noBranch tag)
    | some key => parseBranch branches tag key v
  | .optional inner, v => if v.isNullish then .ok v else parse inner v
  | .object properties signatures, v => do
    let declared ← parseProperties properties v
    let others ← (undeclared properties (v.members?.getD [])).mapM fun m =>
      parseMember signatures m.1 m.2
    return .object (declared ++ others.filterMap id)
  | .ref place name, v => onRef place name v

/-- The results of the slots; a missing item whose result is missing too is left out. -/
def parseSlots : List Shape → List Value → Except ParseFault (List Value)
  | [], _ => .ok []
  | s :: slots, items => do
    let w ← parse s (items.headD .undefined)
    let rest ← parseSlots slots items.tail
    return if items.isEmpty && w.isUndefined then rest else w :: rest

/-- The results of all members of an intersection in one object; under a key the last result
counts. -/
def parseAll : List Shape → Entries Value → Value → Except ParseFault (Entries Value)
  | [], fields, _ => .ok fields
  | s :: members, fields, v => do
    match ← parse s v with
    | .object found => parseAll members (fields.insertAll found) v
    | w => .error (.memberNotObject s.kind w)

/-- The results of all accepting members of a union, merged in their order. -/
def parseSome : List Shape → Option Value → Value → Except ParseFault Value
  | [], none, _ => .error .noMember
  | [], some w, _ => .ok w
  | s :: members, before, v =>
    if accepts p acceptsRef s v then do
      let w ← parse s v
      parseSome members (some (mergeOver before w)) v
    else parseSome members before v

/-- The result of the branch under a key, with the tag as the value has it. -/
def parseBranch : List (String × Shape) → String → String → Value → Except ParseFault Value
  | [], tag, _, _ => .error (.noBranch tag)
  | (k, s) :: branches, tag, key, v =>
    if k = key then do
      match ← parse s v with
      | .object fields => return .object (Entries.insert fields tag (v.get tag))
      | w => .error (.branchNotObject w)
    else parseBranch branches tag key v

/-- The results of the declared properties, without those that are missing. -/
def parseProperties : List (String × Shape) → Value → Except ParseFault (Entries Value)
  | [], _ => .ok []
  | (k, s) :: properties, v => do
    let w ← parse s (v.get k)
    let rest ← parseProperties properties v
    return if w.isUndefined then rest else (k, w) :: rest

/-- An undeclared member with its result by the first signature that accepts it; a member that
none accepts is left out. -/
def parseMember : List (Shape × Shape) → String → Value →
    Except ParseFault (Option (String × Value))
  | [], _, _ => .ok none
  | (keyShape, valueShape) :: signatures, key, v =>
    if accepts p acceptsRef keyShape (.string key) && accepts p acceptsRef valueShape v then do
      let w ← parse valueShape v
      return some (key, w)
    else parseMember signatures key v

end

end Shape

/-! ## In a graph -/

namespace Graph

/-- The parsed form by the definition at a place, where at most `fuel` references are opened one
inside the other. -/
def parseRef (g : Graph) (p : Policy) : Nat → Nat → String → Value → Except ParseFault Value
  | 0, _, name, _ => .error (.unresolved name)
  | fuel + 1, place, name, v =>
    match g.shape? place with
    | some s => s.parse p (g.acceptsRef p fuel) (parseRef g p fuel) v
    | none => .error (.unresolved name)

/-- **The parsed form of a value**, with references read in the graph. -/
def parse (g : Graph) (p : Policy) (s : Shape) (v : Value) : Except ParseFault Value :=
  s.parse p (g.acceptsRef p (g.budget v)) (g.parseRef p (g.budget v)) v

end Graph

end ShapeGraph
