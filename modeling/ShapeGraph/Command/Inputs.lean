import ShapeGraph.Command.Failure
import ShapeGraph.Command.Host
import ShapeGraph.Json.Reader
import ShapeGraph.Pattern.CharClass

/-!
# Inputs

The trees that a command works on. A file holds one tree or a tree on each line that is not
blank; of each, a pointer can pick a part, and a filter can make several. Every input has a label
that says where it comes from.

* `Selection.inputs` — the inputs that a selection takes from files
* `Selection.pick` — what becomes of one tree
-/

namespace ShapeGraph

/-- A tree with the place that it comes from. -/
structure Input where
  label : String
  tree : Json

/-! ## Lines -/

/-- The lines of a text; a line break ends a line, and a carriage return before it belongs to
it. -/
def splitLines : List Char → List (List Char)
  | [] => []
  | '\r' :: '\n' :: cs => [] :: splitLines cs
  | '\n' :: cs => [] :: splitLines cs
  | c :: cs =>
    match splitLines cs with
    | [] => [[c]]
    | l :: ls => (c :: l) :: ls

/-- Whether nothing but white space is on a line. -/
def isBlankLine (line : List Char) : Bool := line.all fun c => CharProperty.isBlank c.toNat

namespace Selection

/-- What becomes of one tree: the pointer picks a part, whose outputs the filter gives. Several
outputs are numbered. -/
def pick (s : Selection) (program : Option Program) (label : String) (tree : Json) :
    Except Failure (List Input) :=
  let part := match s.pointer with
    | none => some tree
    | some pointer => tree.pointer? pointer
  match part, program with
  | none, _ => .ok []
  | some tree, none => .ok [⟨label, tree⟩]
  | some tree, some program => do
    let outputs ← (program.run tree).mapError (.filterFailed label)
    match outputs with
    | [output] => return [⟨label, output⟩]
    | outputs => return outputs.zipIdx.map fun (j, i) => ⟨label ++ "#" ++ Number.natText i, j⟩

/-- The texts of trees in the text of a file, with their labels. -/
def texts (s : Selection) (name text : String) : List (String × String) :=
  if s.byLine then
    (((splitLines text.toList).zipIdx).filter fun (line, _) => !isBlankLine line).map
      fun (line, i) => (name ++ ":" ++ Number.natText (i + 1), String.ofList line)
  else [(name, text)]

/-- The tree that a text writes. -/
def tree (s : Selection) (label text : String) : Except Failure Json :=
  (Json.ofString text).mapError fun p =>
    if s.byLine then .lineInvalid label p.reason else .sourceInvalid label p.reason

/-- The inputs that the text of a file gives, one tree after the other. -/
def inputsOfText (s : Selection) (program : Option Program) (name text : String) :
    Except Failure (List Input) := do
  let parts ← (s.texts name text).mapM fun (label, text) => do
    s.pick program label (← s.tree label text)
  return parts.flatten

section Files

variable {m : Type → Type} [Monad m] (host : Host m)

/-- The files of a name or a pattern of names. -/
def filesOf (name : String) : ExceptT Failure m (List String) :=
  if FileName.isPattern name then do
    let names ← Failure.liftFile (host.search name) .badSearch
    if names.isEmpty then throw (.nothingFound name) else return names
  else return [name]

/-- The inputs of one file. -/
def inputsOf (s : Selection) (program : Option Program) (name : String) :
    ExceptT Failure m (List Input) := do
  let text ← Failure.liftFile (host.read name) (.sourceUnread name)
  Failure.lift (s.inputsOfText program name text) id

/-- **The inputs that a selection takes from files.** -/
def inputs (s : Selection) : ExceptT Failure m (List Input) := do
  let names ← s.names.mapM (filesOf host)
  let program ← Failure.lift (s.filter.mapM (Program.ofText · host.programs)) .badFilter
  let parts ← names.flatten.mapM (s.inputsOf host program)
  return parts.flatten

end Files

end Selection

end ShapeGraph
