/-!
# Steps between slashes

Pointers into JSON trees and names of files are texts whose steps are parted by slashes.

* `splitSlashes` — the steps of a text
-/

namespace ShapeGraph

/-- The steps of a text. -/
def splitSlashes : List Char → List (List Char)
  | [] => [[]]
  | '/' :: cs => [] :: splitSlashes cs
  | c :: cs =>
    match splitSlashes cs with
    | [] => [[c]]
    | s :: ss => (c :: s) :: ss

theorem splitSlashes_ne_nil (cs : List Char) : splitSlashes cs ≠ [] := by
  fun_induction splitSlashes cs <;> simp

end ShapeGraph
