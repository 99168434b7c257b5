import ShapeGraph.Json.Printer
import ShapeGraph.Value.Basic
import ShapeGraph.Value.Date

/-!
# Values and JSON

What a value becomes in JSON, and the value of a JSON tree. JSON has neither absence nor dates
nor big integers: an absent member is left out, an absent item is `null`, dates and big integers
become strings. An integral number below `2 ^ 53` becomes an integer, a number that is not
finite becomes `null`.

* `Value.toJson`, `Value.ofJson`
* `Value.preview` — a value on one line, cut off behind a number of characters
* `Value.tagKey?` — a scalar as the text of a tag
-/

namespace ShapeGraph

/-- A number in JSON. -/
def Number.toJson (x : Number) : Json :=
  match x.toInt? with
  | some n => if n.natAbs < Nat.pow 2 53 then .int n else .float x
  | none => if x.isFinite then .float x else .null

namespace Value

mutual

/-- A value in JSON. -/
def toJson : Value → Json
  | .undefined => .null
  | .null => .null
  | .bool b => .bool b
  | .number x => x.toJson
  | .bigint n => .str (Number.intText n)
  | .string s => .str s
  | .date t => .str (Date.text t)
  | .array items => .arr (toJsonItems items)
  | .object members => .obj (toJsonMembers members)

def toJsonItems : List Value → List Json
  | [] => []
  | v :: vs => toJson v :: toJsonItems vs

def toJsonMembers : List (String × Value) → List (String × Json)
  | [] => []
  | (k, v) :: ms => if v.isUndefined then toJsonMembers ms else (k, toJson v) :: toJsonMembers ms

end

mutual

/-- The value of a JSON tree. -/
def ofJson : Json → Value
  | .null => .null
  | .bool b => .bool b
  | .int n => .number (Number.ofInt n)
  | .float x => .number x
  | .str s => .string s
  | .arr items => .array (ofJsonItems items)
  | .obj members => .object (ofJsonMembers members)

def ofJsonItems : List Json → List Value
  | [] => []
  | j :: js => ofJson j :: ofJsonItems js

def ofJsonMembers : List (String × Json) → List (String × Value)
  | [] => []
  | (k, j) :: ms => (k, ofJson j) :: ofJsonMembers ms

end

theorem toJsonItems_eq (items : List Value) : toJsonItems items = items.map toJson := by
  induction items with
  | nil => simp [toJsonItems]
  | cons v vs ih => simp [toJsonItems, ih]

theorem toJsonMembers_eq (members : List (String × Value)) :
    toJsonMembers members =
      (members.filter fun m => !m.2.isUndefined).map fun m => (m.1, m.2.toJson) := by
  induction members with
  | nil => simp [toJsonMembers]
  | cons m ms ih =>
    obtain ⟨k, v⟩ := m
    cases h : v.isUndefined <;> simp [toJsonMembers, h, ih]

theorem ofJsonItems_eq (items : List Json) : ofJsonItems items = items.map ofJson := by
  induction items with
  | nil => simp [ofJsonItems]
  | cons j js ih => simp [ofJsonItems, ih]

theorem ofJsonMembers_eq (members : List (String × Json)) :
    ofJsonMembers members = members.map fun m => (m.1, ofJson m.2) := by
  induction members with
  | nil => simp [ofJsonMembers]
  | cons m ms ih => obtain ⟨k, j⟩ := m; simp [ofJsonMembers, ih]

/-! ## Texts of values -/

/-- A value on one line. -/
def line : Value → String
  | .undefined => "undefined"
  | .bigint n => Number.intText n ++ "n"
  | .date t => "Date(" ++ Date.text t ++ ")"
  | v => v.toJson.compact

/-- A value on one line; behind `limit` characters an ellipsis stands for the rest. -/
def preview (v : Value) (limit : Nat) : String :=
  let cs := v.line.toList
  if cs.length ≤ limit then v.line else String.ofList (cs.take limit ++ ['…'])

/-- The text by which a value picks a branch of a tagged union: keys of a mapping are strings,
so a number or boolean is taken by its text. -/
def tagKey? : Value → Option String
  | .string s => some s
  | .number x => some x.plain
  | .bool b => some (if b then "true" else "false")
  | _ => none

end Value

end ShapeGraph
