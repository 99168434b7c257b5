import ShapeGraph.Shape.Basic
import ShapeGraph.Sorting

/-!
# Descriptions

The description of a shape is a type expression. A definition that is referred to more than once
gets a declaration of its own and is referred to by name; any other reference is written out.

Two passes over the same traversal give this: the first counts the references to every
definition, entering each definition once; the second writes.

* `Shape.describe` — the traversal, for any state and any treatment of the references
* `Graph.referenceCounts` — the first pass
* `Graph.describe` — the declarations and the expression of a root
* `Graph.describeInOrder` — the same, where the declarations are completed in any order

## Termination

The first pass enters a definition at its first count only. In the second, a loop of references
holds a definition counted twice, and such a definition is entered once.
-/

namespace ShapeGraph

namespace Description

/-- Alternatives between parentheses; a single one needs none. -/
def join (separator empty : String) : List String → String
  | [] => empty
  | [part] => part
  | parts => "(" ++ separator.intercalate parts ++ ")"

/-- A key as it stands when it is an identifier, between quotes otherwise. -/
def key (k : String) : String :=
  match k.toList with
  | c :: cs =>
    if (c.isAlpha || c == '_' || c == '$') && cs.all fun c => c.isAlphanum || c == '_' || c == '$'
    then k
    else Json.quote k
  | [] => Json.quote k

/-- Named rules as applications of a wrapper. -/
def formats (wrapper : String) (names : List String) : String :=
  join " & " wrapper (names.map fun name => wrapper ++ "<" ++ Json.quote name ++ ">")

/-- The members of an object type. -/
def braces (parts : List String) : String :=
  if parts.isEmpty then "\x7b\x7d" else "\x7b " ++ ", ".intercalate parts ++ " \x7d"

end Description

namespace Shape

open Description

variable {σ : Type}

/-- Steps one after the other, with what each of them gives. -/
def inTurn : List (σ → String × σ) → σ → List String × σ
  | [], st => ([], st)
  | step :: steps, st =>
    let (first, st) := step st
    let (others, st) := inTurn steps st
    (first :: others, st)

/-- What stands in front of the type of a property. -/
def propertyLabel (k : String) (s : Shape) : String :=
  key k ++ (if s.isOptional then "?" else "") ++ ": "

variable (onRef : Nat → String → σ → String × σ)

mutual

/-- **The type expression of a shape.** References are described by `onRef`, which may keep a
state. The properties of an object are gone through by name. -/
def describe : Shape → σ → String × σ
  | .base type, st => (type.name, st)
  | .any, st => ("any", st)
  | .nullish, st => ("null", st)
  | .never, st => ("never", st)
  | .literal c, st => (c.render, st)
  | .pattern _ _ label, st => (label, st)
  | .date, st => ("Date", st)
  | .bigint, st => ("BigInt", st)
  | .stringFormats names, st => (formats "StringFormat" names, st)
  | .numberFormats names, st => (formats "NumberFormat" names, st)
  | .literals cs, st => (join " | " "never" (cs.map (·.render)), st)
  | .tuple slots none, st =>
    let (parts, st) := describeAll slots st
    ("[" ++ ", ".intercalate parts ++ "]", st)
  | .tuple slots (some rest), st =>
    let (parts, st) := describeAll slots st
    let (last, st) := describe rest st
    ("[" ++ ", ".intercalate (parts ++ ["...Array<" ++ last ++ ">"]) ++ "]", st)
  | .allOf members, st =>
    let (parts, st) := describeAll members st
    (join " & " "unknown" parts, st)
  | .anyOf members, st =>
    let (parts, st) := describeAll members st
    (join " | " "never" parts, st)
  | .array item, st =>
    let (part, st) := describe item st
    ("Array<" ++ part ++ ">", st)
  | .tagged [] _ branches, st =>
    let (parts, st) := describeBranches branches st
    (join " | " "never" parts, st)
  | .tagged (s :: members) _ _, st =>
    let (first, st) := describe s st
    let (others, st) := describeAll members st
    (join " | " "never" (first :: others), st)
  | .optional inner, st => describe inner st
  | .object properties signatures, st =>
    let (declared, st) := inTurn ((sortByName (describeProperties properties)).map (·.2)) st
    let (others, st) := describeSignatures signatures st
    (braces (declared ++ others), st)
  | .ref place name, st => onRef place name st

def describeAll : List Shape → σ → List String × σ
  | [], st => ([], st)
  | s :: shapes, st =>
    let (first, st) := describe s st
    let (others, st) := describeAll shapes st
    (first :: others, st)

def describeBranches : List (String × Shape) → σ → List String × σ
  | [], st => ([], st)
  | (_, s) :: branches, st =>
    let (first, st) := describe s st
    let (others, st) := describeBranches branches st
    (first :: others, st)

/-- The description of every property, still to be put in order. -/
def describeProperties : List (String × Shape) → List (String × (σ → String × σ))
  | [] => []
  | (k, s) :: properties =>
    (k, fun st =>
      let (part, st) := describe s st
      (propertyLabel k s ++ part, st)) :: describeProperties properties

def describeSignatures : List (Shape × Shape) → σ → List String × σ
  | [], st => ([], st)
  | (keyShape, valueShape) :: signatures, st =>
    let (keyPart, st) := describe keyShape st
    let (valuePart, st) := describe valueShape st
    let (others, st) := describeSignatures signatures st
    (("[key: " ++ keyPart ++ "]: " ++ valuePart) :: others, st)

end

end Shape

namespace Graph

/-! ## Counting -/

/-- Count a reference, and enter its definition if it is the first one. -/
def countRef (g : Graph) : Nat → Nat → String → List Nat → String × List Nat
  | 0, _, name, counts => (name, counts)
  | fuel + 1, place, name, counts =>
    match g.shape? place with
    | none => (name, counts)
    | some s =>
      let before := counts.getD place 0
      let counts := counts.set place (before + 1)
      if before = 0 then (name, (s.describe (countRef g fuel) counts).2) else (name, counts)

/-- How often every definition is referred to from a root and from what can be reached from
it. -/
def referenceCounts (g : Graph) (root : Shape) : List Nat :=
  (root.describe (g.countRef (g.size + 1)) (List.replicate g.size 0)).2

/-! ## Writing -/

/-- Whether a definition gets a declaration. -/
def isShared (counts : List Nat) (place : Nat) : Bool := 1 < counts.getD place 0

/-- Write a reference: the name of a shared definition, whose text is written at its first
mention, or what any other definition describes. -/
def writeRef (g : Graph) (counts : List Nat) :
    Nat → Nat → String → List (Option String) → String × List (Option String)
  | 0, _, name, texts => (name, texts)
  | fuel + 1, place, name, texts =>
    match g.shape? place with
    | none => (name, texts)
    | some s =>
      if !isShared counts place then s.describe (writeRef g counts fuel) texts
      else
        match texts.getD place none with
        | some _ => (name, texts)
        | none =>
          -- marked as written first, so that a loop stops here
          let (text, texts) := s.describe (writeRef g counts fuel) (texts.set place (some ""))
          (name, texts.set place (some text))

/-- Write a shared definition whose text is missing or empty. -/
def writePending (g : Graph) (counts : List Nat) (texts : List (Option String)) (place : Nat) :
    List (Option String) :=
  match g.shape? place with
  | none => texts
  | some s =>
    if ((texts.getD place none).getD "").isEmpty then
      let (text, texts) := s.describe (g.writeRef counts (g.size + 1)) (texts.set place (some ""))
      texts.set place (some text)
    else texts

/-- The definitions that get a declaration. -/
def sharedPlaces (g : Graph) (root : Shape) : List Nat :=
  (List.range g.size).filter (isShared (g.referenceCounts root))

/-- The declarations that a root needs, and its own under a given name. At the end the definitions
that get a declaration are gone through in a given order. -/
def describeInOrder (g : Graph) (shared : List Nat) (name : String) (root : Shape) : String :=
  let counts := g.referenceCounts root
  let (text, texts) :=
    root.describe (g.writeRef counts (g.size + 1)) (List.replicate g.size none)
  let texts := shared.foldl (g.writePending counts) texts
  let declarations := sortByName (shared.filterMap fun place => do
    let name ← g.name? place
    let text ← texts.getD place none
    return (name, "type " ++ name ++ " = " ++ text ++ ";"))
  "\n\n".intercalate (declarations.map (·.2) ++ ["type Codec" ++ name ++ " = " ++ text ++ ";"])

/-- **The declarations that a root needs, and its own under a given name.** -/
def describe (g : Graph) (name : String) (root : Shape) : String :=
  g.describeInOrder (g.sharedPlaces root) name root

end Graph

end ShapeGraph
