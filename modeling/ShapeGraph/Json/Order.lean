import ShapeGraph.Json.Basic
import ShapeGraph.Sorting

/-!
# The order of trees

Trees of different sorts are ordered by sort: null, truth values, numbers, strings, arrays,
objects. Arrays are compared item by item; objects first by their sorted keys and then by what
stands under them.

* `Json.order` — how two trees stand to each other
-/

namespace ShapeGraph.Json

/-- The place of a sort of trees among the sorts. -/
def rank : Json → Nat
  | .null => 0
  | .bool _ => 1
  | .int _ => 2
  | .float _ => 2
  | .str _ => 3
  | .arr _ => 4
  | .obj _ => 5

/-- Lists are compared item by item; the end of a list comes first. -/
def orderLists {α : Type} (order : α → α → Ordering) : List α → List α → Ordering
  | [], [] => .eq
  | [], _ => .lt
  | _, [] => .gt
  | a :: as, b :: bs => (order a b).then (orderLists order as bs)

/-- How two numbers stand to each other. -/
def orderNumbers (x y : Number) : Ordering := Ord.compare x.key y.key

/-- How two trees stand to each other, down to a depth. -/
def orderWithin : Nat → Json → Json → Ordering
  | _, .bool a, .bool b => Ord.compare a b
  | _, .int a, .int b => Ord.compare a b
  | _, .int a, .float b => orderNumbers (Number.ofInt a) b
  | _, .float a, .int b => orderNumbers a (Number.ofInt b)
  | _, .float a, .float b => orderNumbers a b
  | _, .str a, .str b => Ord.compare a b
  | depth + 1, .arr a, .arr b => orderLists (orderWithin depth) a b
  | depth + 1, .obj a, .obj b =>
    let a := sortByName a
    let b := sortByName b
    (orderLists Ord.compare (a.map Prod.fst) (b.map Prod.fst)).then
      (orderLists (orderWithin depth) (a.map Prod.snd) (b.map Prod.snd))
  | _, a, b => Ord.compare a.rank b.rank

/-- How two trees stand to each other. -/
def order (a b : Json) : Ordering := orderWithin (a.depth + 1) a b

example : order (.int 1) (.float (Number.ofInt 1)) = .eq := by decide +kernel
example : order (.arr [.int 1]) (.arr [.int 1, .null]) = .lt := by decide +kernel

end ShapeGraph.Json
