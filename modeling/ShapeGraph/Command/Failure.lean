import ShapeGraph.BuildError
import ShapeGraph.Codec
import ShapeGraph.Files.System
import ShapeGraph.Filter.Program

/-!
# Why a command fails

A command fails as a whole when it cannot get at what it was told to work on, or cannot put down
what it made. Inputs that do not conform are no failure of the command.

* `Failure.message` — the wording, from the outermost cause to the innermost
-/

namespace ShapeGraph

inductive Failure
  /-- A format is not given as a name and a pattern. -/
  | badFormat (text : String)
  | badPattern (e : BuildError)
  | graphUnread (name : String) (e : FileError)
  | graphInvalid (name : String) (e : BuildError)
  | unknownCodec (name : String)
  | badSearch (message : String)
  | nothingFound (pattern : String)
  | badFilter (e : Program.Problem)
  | sourceUnread (name : String) (e : FileError)
  | sourceInvalid (name : String) (reason : Reason)
  | lineInvalid (label : String) (reason : Reason)
  | filterFailed (label : String) (e : Program.Problem)
  | noSchema (e : SchemaFault)
  | noDirectory (e : FileError)
  | outputUnwritten (name : String) (e : FileError)

namespace Failure

/-- A cause in front of another one. -/
def because (cause inner : String) : String := cause ++ ": " ++ inner

def message : Failure → String
  | .badFormat text => "--string-format expects NAME=REGEX, got `" ++ text ++ "`"
  | .badPattern e => e.message
  | .graphUnread name e => because ("failed to read graph file " ++ name) e.message
  | .graphInvalid name e => because ("invalid graph file " ++ name) e.message
  | .unknownCodec name => Graph.unknownCodec name
  | .badSearch message => message
  | .nothingFound pattern => "glob pattern matched no files: " ++ pattern
  | .badFilter e => e.message
  | .sourceUnread name e => because ("failed to read source file " ++ name) e.message
  | .sourceInvalid name reason =>
    because ("failed to parse JSON source file (" ++ name ++ ")") reason.message
  | .lineInvalid label reason =>
    because ("failed to parse NDJSON line (" ++ label ++ ")") reason.message
  | .filterFailed label e => because ("failed to apply jq expression to " ++ label) e.message
  | .noSchema e => e.message
  | .noDirectory e => e.message
  | .outputUnwritten name e => because ("failed to write " ++ name) e.message

/-! ## Failing -/

section Failing

variable {m : Type → Type} [Monad m] {ε α : Type}

/-- Go on with a result, or fail for its error. -/
def lift (r : Except ε α) (reason : ε → Failure) : ExceptT Failure m α :=
  ExceptT.mk (pure (r.mapError reason))

/-- Go on with the result of an operation on files, or fail for its error. -/
def liftFile (operation : m (Except ε α)) (reason : ε → Failure) : ExceptT Failure m α :=
  ExceptT.mk (do return (← operation).mapError reason)

end Failing

end Failure

end ShapeGraph
