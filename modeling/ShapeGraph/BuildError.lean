import ShapeGraph.BaseType
import ShapeGraph.Json.Problem
import ShapeGraph.Path

/-!
# Why a graph cannot be built

* `BuildError.message` — the wording
-/

namespace ShapeGraph

inductive BuildError
  | unknownRef (name : String) (path : Path)
  | invalidPattern (text : String) (place : String)
  | emptyFormats (path : Path)
  | unknownFormat (type : BaseType) (name : String) (path : Path)
  | emptyMapping (tag : String) (path : Path)
  | structuredLiteral (value : Json) (path : Path)
  /-- A text cannot be read. -/
  | unreadable (problem : Problem)
  /-- A tree is of another form. -/
  | malformed (reason : Reason)

namespace BuildError

/-- The wording of what goes wrong while records are read or compiled. -/
def message : BuildError → String
  | .unknownRef name path => "unknown ref `" ++ name ++ "` at " ++ path.textOrRoot
  | .invalidPattern text place => "invalid regex `" ++ text ++ "` at " ++ place
  | .emptyFormats path => "empty format list at " ++ path.textOrRoot
  | .unknownFormat type name path =>
    type.name ++ " formatter `" ++ name ++ "` is not registered (at " ++ path.textOrRoot ++ ")"
  | .emptyMapping tag path =>
    "discriminated union on `" ++ tag ++ "` has no mapping (at " ++ path.textOrRoot ++ ")"
  | .structuredLiteral value path =>
    load ("const at " ++ path.textOrRoot ++ " must be a string, number, boolean or null, got "
      ++ value.compact)
  | .unreadable problem => load problem.message
  | .malformed reason => load reason.message
where
  load (text : String) : String := "failed to load runtype graph: " ++ text

end BuildError

end ShapeGraph
