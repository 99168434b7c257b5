import ShapeGraph.Json.Basic

/-!
# Programs

A program takes one JSON tree to any number of trees. Which texts are programs, and what comes out
of them, is left to an engine; whatever is said of programs is said of every engine.

* `Program.Engine` — what an engine does with a text
* `Program.run` — all outputs for a tree, unless one of them could not be had
* `Program.Problem.message` — the wording of problems, which names the text
-/

namespace ShapeGraph

namespace Program

/-- A name that a text uses and nothing defines, with the sort of thing it should be. -/
structure Undefined where
  name : String
  sort : String

def Undefined.text (u : Undefined) : String := "`" ++ u.name ++ "` (" ++ u.sort ++ ")"

/-- Why an engine takes a text for no program. -/
inductive Refusal
  | unreadable (reasons : List String)
  | undefined (names : List Undefined)

/-- Trees in order, with a fault in the place of each one that could not be had. -/
abbrev Outputs : Type := List (Except String Json)

/-- **What an engine of programs does with a text**: it gives the outputs for every tree, unless the
text is no program to it. -/
abbrev Engine : Type := String → Except Refusal (Json → Outputs)

end Program

/-- A program with its text. -/
structure Program where
  text : String
  outputs : Json → Program.Outputs

namespace Program

/-- Why a program cannot be read or run. -/
inductive Problem
  | unreadable (text : String) (reasons : List String)
  | undefined (text : String) (names : List Undefined)
  | failed (text fault : String)

def Problem.message : Problem → String
  | .unreadable text reasons =>
    "cannot parse jq filter `" ++ text ++ "`: " ++ "; ".intercalate reasons
  | .undefined text names =>
    "jq filter `" ++ text ++ "` refers to undefined " ++ ", ".intercalate (names.map (·.text))
  | .failed text fault => "jq `" ++ text ++ "` failed: " ++ fault

/-- What an engine said of a text, as a problem with the text. -/
def Refusal.problem (text : String) : Refusal → Problem
  | .unreadable reasons => .unreadable text reasons
  | .undefined names => .undefined text names

/-- **All outputs for an input, or the first fault among them.** -/
def run (p : Program) (j : Json) : Except Problem (List Json) :=
  (p.outputs j).mapM fun output => output.mapError (.failed p.text)

end Program

end ShapeGraph
