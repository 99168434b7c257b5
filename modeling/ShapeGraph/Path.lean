import ShapeGraph.Number.Text

/-!
# Paths

A path says where in a value or in a definition something is: keys, and indices in brackets.

* `Path.text` — keys are parted by points, a bracket attaches to what stands before it
* `Path.textOrRoot` — the same with a name for the empty path
-/

namespace ShapeGraph

/-- The steps from the outside in. -/
abbrev Path := List String

namespace Path

/-- The segment of an index. -/
def index (i : Nat) : String := "[" ++ Number.natText i ++ "]"

/-- Write further segments behind a text. -/
def extend : List Char → Path → List Char
  | text, [] => text
  | text, segment :: path =>
    let cs := segment.toList
    if text.isEmpty || cs.head? == some '[' then extend (text ++ cs) path
    else extend (text ++ '.' :: cs) path

/-- The text of a path. -/
def text (path : Path) : String := String.ofList (extend [] path)

/-- The text of a path in a definition. -/
def textOrRoot (path : Path) : String := if path.isEmpty then "<root>" else path.text

example : text ["a", "[0]", "b", "[1]", "[2]"] = "a[0].b[1][2]" := by decide
example : text ["[3]", "x"] = "[3].x" := by decide

end Path

end ShapeGraph
