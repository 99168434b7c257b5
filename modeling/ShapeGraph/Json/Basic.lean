import ShapeGraph.Entries
import ShapeGraph.Number.Rounding
import ShapeGraph.Text.Slashes

/-!
# JSON trees

A JSON text as a tree that keeps what the text says about a number: an integer that fits a
64-bit word stays an integer, all else is a double. Members stand in the order of the text.

* `Json.tidy` — a repeated key keeps its first place and its last value, at every depth
* `Json.depth` — how deep arrays and objects nest
* `Json.pointer?` — the subtree that a pointer such as `/data/items/0` names
-/

namespace ShapeGraph

inductive Json
  | null
  | bool (b : Bool)
  | int (n : Int)
  | float (x : Number)
  | str (s : String)
  | arr (items : List Json)
  | obj (members : List (String × Json))
  deriving Inhabited, Repr

namespace Json

/-! ## Repeated keys -/

mutual

/-- Every object with its repeated keys settled: the first place, the last value. -/
def tidy : Json → Json
  | .arr items => .arr (tidyItems items)
  | .obj members => .obj (Entries.ofList (tidyMembers members))
  | .null => .null
  | .bool b => .bool b
  | .int n => .int n
  | .float x => .float x
  | .str s => .str s

def tidyItems : List Json → List Json
  | [] => []
  | j :: js => tidy j :: tidyItems js

def tidyMembers : List (String × Json) → List (String × Json)
  | [] => []
  | (k, j) :: ms => (k, tidy j) :: tidyMembers ms

end

/-! ## Depth -/

mutual

/-- How deep arrays and objects nest; a scalar has depth `0`. -/
def depth : Json → Nat
  | .arr items => depthItems items + 1
  | .obj members => depthMembers members + 1
  | .null => 0
  | .bool _ => 0
  | .int _ => 0
  | .float _ => 0
  | .str _ => 0

def depthItems : List Json → Nat
  | [] => 0
  | j :: js => max (depth j) (depthItems js)

def depthMembers : List (String × Json) → Nat
  | [] => 0
  | (_, j) :: ms => max (depth j) (depthMembers ms)

end

/-! ## Access -/

/-- The member under a key; anything but an object has none. -/
def member? : Json → String → Option Json
  | .obj members, key => Entries.get? members key
  | _, _ => none

/-- The value of a number, whichever way it was written. -/
def number? : Json → Option Number
  | .int n => some (Number.ofInt n)
  | .float x => some x
  | _ => none

/-! ## Pointers -/

/-- One step of a pointer with its two escapes undone: `~1` is a slash, then `~0` a tilde. -/
def pointerToken : List Char → List Char
  | '~' :: '1' :: cs => '/' :: pointerToken cs
  | '~' :: '0' :: cs => '~' :: pointerToken cs
  | c :: cs => c :: pointerToken cs
  | [] => []

/-- The index that a pointer step writes: digits without a leading zero. -/
def pointerIndex? (cs : List Char) : Option Nat :=
  match cs with
  | [] => none
  | '0' :: _ :: _ => none
  | cs => if cs.all Char.isDigit then
      some (cs.foldl (fun n c => 10 * n + (c.toNat - '0'.toNat)) 0)
    else none

/-- Follow the steps of a pointer. -/
def follow? : Json → List (List Char) → Option Json
  | j, [] => some j
  | .obj members, t :: ts =>
    (Entries.get? members (String.ofList (pointerToken t))).bind fun j => follow? j ts
  | .arr items, t :: ts =>
    (pointerIndex? (pointerToken t)).bind fun i => (items[i]?).bind fun j => follow? j ts
  | _, _ :: _ => none

/-- The subtree that a pointer names: the empty pointer names the whole tree, any other one
starts with a slash. -/
def pointer? (j : Json) (pointer : String) : Option Json :=
  match pointer.toList with
  | [] => some j
  | '/' :: cs => follow? j (splitSlashes cs)
  | _ => none

end Json

end ShapeGraph
