import ShapeGraph.Path
import ShapeGraph.Value.Json

/-!
# Why a value does not conform

A decode error says what was expected, where, and what was found. When no member of a union
accepts a value, what each member says is gathered in one error, told from the union's place.

* `DecodeError.toJson` — errors as data
* `DecodeError.render`, `DecodeError.renderAll` — errors on one line
-/

namespace ShapeGraph

inductive DecodeError
  | mismatch (message : String) (path : Path) (received : Value)
  /-- What the members of a union say; their paths begin at the union. -/
  | union (path : Path) (received : Value) (errors : List DecodeError)
  deriving Inhabited, Repr

namespace DecodeError

def path : DecodeError → Path
  | .mismatch _ path _ => path
  | .union path _ _ => path

def received : DecodeError → Value
  | .mismatch _ _ received => received
  | .union _ received _ => received

/-- What was expected; a union has no message of its own. -/
def message? : DecodeError → Option String
  | .mismatch message _ _ => some message
  | .union .. => none

/-! ## Errors as data -/

def pathJson (path : Path) : Json := .arr (path.map .str)

mutual

def toJson : DecodeError → Json
  | .mismatch message path received =>
    .obj [("message", .str message), ("path", pathJson path), ("received", received.toJson)]
  | .union path received errors =>
    .obj [("path", pathJson path), ("received", received.toJson), ("isUnionError", .bool true),
      ("errors", .arr (toJsonAll errors))]

def toJsonAll : List DecodeError → List Json
  | [] => []
  | e :: es => toJson e :: toJsonAll es

end

/-! ## Errors on one line -/

/-- How many messages of a union are shown. -/
def shownMembers : Nat := 5

/-- How many characters of a received value are shown. -/
def shownCharacters : Nat := 80

/-- A message with the place and what was found there. -/
def line (message : String) (place : Path) (received : Value) : String :=
  message ++ (if place.isEmpty then "" else " at " ++ place.text)
    ++ ", received " ++ received.preview shownCharacters

mutual

/-- An error on one line; `outer` is the place of the unions around it. -/
def render (outer : Path) : DecodeError → String
  | .mismatch message path received => line message (outer ++ path) received
  | .union path received [] => line "no union member matched" (outer ++ path) received
  | .union path _ (e :: es) =>
    let lines := render (outer ++ path) e :: renderEach (outer ++ path) es
    " OR ".intercalate (lines.take shownMembers)
      ++ (if shownMembers < lines.length then " and more..." else "")

def renderEach (outer : Path) : List DecodeError → List String
  | [] => []
  | e :: es => render outer e :: renderEach outer es

end

/-- Errors as a numbered list on one line; a single one needs no number. -/
def renderAll : List DecodeError → String
  | [e] => render [] e
  | es =>
    " | ".intercalate
      (es.zipIdx.map fun (e, i) => "#" ++ Number.natText i ++ " " ++ render [] e)

end DecodeError

end ShapeGraph
