import ShapeGraph.Command.Inputs
import ShapeGraph.Document

/-!
# Running commands

A command reads a graph and inputs of its host and says what it found.

* `Command.run` — what a command does with files
* `Command.outcome` — what is shown at its end, and the exit code

| exit code | meaning |
|---|---|
| 0 | done, and every input conforms |
| 1 | done, and some input does not conform |
| 2 | not done |
-/

namespace ShapeGraph

/-! ## What is shown -/

/-- How lines are set off from each other. -/
structure Style where
  /-- Whether a terminal shows colours. -/
  color : Bool := false

namespace Style

/-- A text between the codes that switch a colour on and all colours off. -/
def paint (s : Style) (code text : String) : String :=
  if s.color then "\x1b[" ++ code ++ "m" ++ text ++ "\x1b[0m" else text

/-- Whether a switch in the environment is on; one that is not there is neither on nor off. -/
def switch? (value : Option String) : Option Bool := value.map (· ≠ "0")

/-- Colours are shown when that is forced, and on a terminal unless that is switched off. -/
def ofEnvironment (forced noColor color : Option String) (terminal : Bool) : Style :=
  if switch? forced = some true then ⟨true⟩
  else if noColor.isSome then ⟨false⟩
  else ⟨(switch? color).getD true && terminal⟩

def bold (s : Style) : String → String := s.paint "1"
def red (s : Style) : String → String := s.paint "31"
def green (s : Style) : String → String := s.paint "32"
def yellow (s : Style) : String → String := s.paint "33"

/-- The mark of an input that conforms. -/
def good (s : Style) : String := s.green "✔"

/-- The mark of an input that does not. -/
def bad (s : Style) : String := s.red "✘"

end Style

/-- What a command shows when it is done, and whether every input conforms. -/
structure Report where
  conforms : Bool := true
  output : List String := []
  messages : List String := []

/-- What is left when a command has ended. -/
structure Outcome where
  exitCode : Nat
  output : String
  messages : String
  deriving DecidableEq, Repr

/-- Lines, each of them ended. -/
def endLines (lines : List String) : String := String.join (lines.map (· ++ "\n"))

/-! ## Reports on inputs -/

/-- The result of decoding one input. -/
structure Decoded where
  label : String
  result : Except (List DecodeError) Value

def Decoded.isGood (d : Decoded) : Bool := d.result.toOption.isSome

/-- Decode every input. -/
def Codec.decodeAll (c : Codec) (p : Policy) (inputs : List Input) : List Decoded :=
  inputs.map fun i => ⟨i.label, c.decode p (Value.ofJson i.tree)⟩

namespace Report

/-- Which inputs conform, and what is wrong with the others. -/
def checked (style : Style) (quiet : Bool) (results : List Decoded) : Report :=
  let lines (d : Decoded) : List String :=
    match d.result with
    | .ok _ => if quiet then [] else [style.good ++ " " ++ d.label]
    | .error errors =>
      [style.bad ++ " " ++ style.bold d.label, "  " ++ DecodeError.renderAll errors]
  let good := results.countP (·.isGood)
  let conforms := results.all (·.isGood)
  let summary := Number.natText good ++ " of " ++ Number.natText results.length
    ++ " documents valid"
  ⟨conforms, results.flatMap lines, [if conforms then style.green summary else style.red summary]⟩

/-- The parsed form of each input that conforms, on a line of its own. -/
def parsedText (results : List Decoded) : String :=
  "\n".intercalate (results.filterMap fun d => d.result.toOption.map fun v => v.toJson.compact)

/-- What is wrong with the inputs that do not conform. -/
def parsed (style : Style) (results : List Decoded) : Report :=
  let message? (d : Decoded) : Option String :=
    match d.result with
    | .ok _ => none
    | .error errors => some (style.bad ++ " " ++ d.label ++ ": " ++ DecodeError.renderAll errors)
  ⟨results.all (·.isGood), [], results.filterMap message?⟩

/-- The place of a fingerprint in a column. -/
def column (hash : Int32) : String :=
  let text := Number.intText hash.toInt
  String.ofList (List.replicate (12 - text.length) ' ') ++ text

/-- Names under their common fingerprint, in the order in which fingerprints first come. -/
def groups : List (Int32 × String) → List (Int32 × List String)
  | [] => []
  | (hash, name) :: rest =>
    let later := groups rest
    match later.lookup hash with
    | none => (hash, [name]) :: later
    | some names => (hash, name :: names) :: later.filter (·.1 ≠ hash)

/-- The fingerprints of all definitions, and which definitions share one. -/
def hashed (style : Style) (duplicatesOnly : Bool) (g : Graph) : Report :=
  let hashes := g.codecs.map fun c => (c.fingerprint, c.name)
  let each := hashes.map fun (hash, name) => column hash ++ "  " ++ name
  let shared := (groups hashes).filterMap fun (hash, names) =>
    if names.length ≤ 1 then none
    else some (style.yellow "same shape" ++ " " ++ Number.intText hash.toInt ++ ": "
      ++ ", ".intercalate names)
  { output := (if duplicatesOnly then [] else each) ++ shared }

end Report

/-! ## Commands -/

/-- A format given as a name and a pattern. -/
def Formats.registerText (f : Formats) (text : String) : Except Failure Formats :=
  match text.toList.dropWhile (· ≠ '=') with
  | [] => .error (.badFormat text)
  | _ :: pattern =>
    let name := String.ofList (text.toList.takeWhile (· ≠ '='))
    (f.registerPattern name (String.ofList pattern)).mapError .badPattern

namespace Command

section Run

variable {m : Type → Type} [Monad m] (host : Host m)

/-- The graph of a source with the formats that it was built with. -/
def load (s : Source) : ExceptT Failure m (Formats × Graph) := do
  let builtIn : Formats := { patterns := host.patterns }
  let formats ← Failure.lift (s.formats.foldlM Formats.registerText builtIn) id
  let text ← Failure.liftFile (host.read s.graph) (.graphUnread s.graph)
  let graph ← Failure.lift (Graph.ofText formats (Utf8.ofString text)) (.graphInvalid s.graph)
  return (formats, graph)

/-- A codec of a source. -/
def loadCodec (s : Source) (name : String) : ExceptT Failure m (Formats × Codec) := do
  let (formats, graph) ← load host s
  match graph.codec? name with
  | some c => return (formats, c)
  | none => throw (.unknownCodec name)

/-- Put a text where it was asked for: into a file, or with what is shown. -/
def put (out : Option String) (text : String) (report : Report) : m (Report × Option Failure) :=
  match out with
  | none => return ({ report with output := report.output ++ [text] }, none)
  | some name => do
    match ← host.makeDirectories (FileName.parent name) with
    | .error e => return (report, some (.noDirectory e))
    | .ok () =>
      match ← host.write name text with
      | .error e => return (report, some (.outputUnwritten name e))
      | .ok () => return (report, none)

/-- What a command does: its report, and the failure that came behind it. -/
def run (style : Style) (c : Command) : ExceptT Failure m (Report × Option Failure) := do
  match c with
  | .check source name inputs strict quiet =>
    let (formats, codec) ← loadCodec host source name
    let results := codec.decodeAll ⟨formats, strict⟩ (← inputs.inputs host)
    return (.checked style quiet results, none)
  | .parse source name inputs strict out =>
    let (formats, codec) ← loadCodec host source name
    let results := codec.decodeAll ⟨formats, strict⟩ (← inputs.inputs host)
    ExceptT.lift (put host out (Report.parsedText results) (.parsed style results))
  | .schema source name out =>
    let (_, codec) ← loadCodec host source name
    let schema ← Failure.lift codec.schema .noSchema
    ExceptT.lift (put host out (schema.indented 0) {})
  | .describe source name out =>
    let (_, codec) ← loadCodec host source name
    ExceptT.lift (put host out codec.describe {})
  | .hash source duplicatesOnly =>
    let (_, graph) ← load host source
    return (.hashed style duplicatesOnly graph, none)

/-- What is left of a command that failed. -/
def failed (report : Report) (e : Failure) : Outcome :=
  ⟨2, endLines report.output, endLines (report.messages ++ ["error: " ++ e.message])⟩

/-- What is left of a command that was done. -/
def done (report : Report) : Outcome :=
  ⟨if report.conforms then 0 else 1, endLines report.output, endLines report.messages⟩

/-- **What is left when a command has ended.** -/
def outcome (style : Style) (c : Command) : m Outcome := do
  match ← (c.run host style).run with
  | .error e => return failed {} e
  | .ok (report, some e) => return failed report e
  | .ok (report, none) => return done report

end Run

end Command

end ShapeGraph
