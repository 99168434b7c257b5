import ShapeGraph.Command.Run

/-!
# Commands at work

A command can be watched while it runs. It shows lines and tells others beside them, it makes
directories and writes a file, each at its time. A failure ends it there, and what was done before
stays done.

* `Event` — what can be seen of a command
* `Performance` — computations on files that can be watched, and that can fail
* `Command.perform` — a command, one step after the other
* `Command.enact` — from the words of a command line to the ending
-/

namespace ShapeGraph

/-- What can be seen of a command from outside. -/
inductive Event
  /-- A text is shown, on lines of its own. -/
  | shown (text : String)
  /-- A message is given beside what is shown. -/
  | told (text : String)
  /-- A directory is about to be made, with those that it is to stand in. -/
  | made (directory : String)
  /-- A text is about to be put into a file. -/
  | written (name text : String)
  deriving DecidableEq, Repr

namespace Event

def shown? : Event → Option String
  | .shown text => some text
  | .told _ | .made _ | .written .. => none

def told? : Event → Option String
  | .told text => some text
  | .shown _ | .made _ | .written .. => none

def isTold (e : Event) : Bool := e.told?.isSome

def isWritten : Event → Bool
  | .written .. => true
  | .shown _ | .told _ | .made _ => false

end Event

/-- What is seen of a report: its lines, and then its messages. -/
def Report.events (report : Report) : List Event :=
  report.output.map .shown ++ report.messages.map .told

/-- A computation on files that can be watched, and that can fail. -/
abbrev Performance (m : Type → Type) : Type → Type := ExceptT Failure (StateT (List Event) m)

/-- How it ends when words are taken for a command. -/
inductive Ending
  /-- The words ask for no command. -/
  | misused (u : Usage)
  | failed (e : Failure)
  | done (conforms : Bool)

namespace Ending

def exitCode : Ending → Nat
  | .misused u => u.exitCode
  | .failed _ => 2
  | .done conforms => if conforms then 0 else 1

/-- Whether a file was to be written in the end and could not be written. -/
def isUnwritten : Ending → Bool
  | .failed (.outputUnwritten ..) => true
  | _ => false

/-- Whether the directory of a file that was to be written could not be made. -/
def isUnplaced : Ending → Bool
  | .failed (.noDirectory _) => true
  | _ => false

/-- What is left of it. -/
def outcome (ending : Ending) (events : List Event) : Outcome :=
  ⟨ending.exitCode, endLines (events.filterMap Event.shown?),
    endLines (events.filterMap Event.told?)⟩

end Ending

variable {m : Type → Type} [Monad m]

namespace Performance

variable {α : Type}

/-- A computation on files, as a step of a performance. -/
def onFiles (x : ExceptT Failure m α) : Performance m α := ExceptT.mk (StateT.lift x.run)

/-- Let something be seen. -/
def act (e : Event) : Performance m Unit := ExceptT.lift (modify (· ++ [e]))

/-- Show the lines of a report, and then tell its messages. -/
def announce (report : Report) : Performance m Unit := forM report.events act

/-- A performance from its beginning to its ending; of a failure there is a last message. -/
def ended (x : Performance m Bool) : m (Ending × List Event) := do
  let (result, events) ← x.run.run []
  match result with
  | .ok conforms => return (.done conforms, events)
  | .error e => return (.failed e, events ++ [.told ("error: " ++ e.message)])

end Performance

namespace Command

open Performance

variable (host : Host m)

/-- Put a text where it was asked for: into a file, or with what is shown. -/
def deliver (out : Option String) (text : String) : Performance m Unit := do
  match out with
  | none => act (.shown text)
  | some name =>
    act (.made (FileName.parent name))
    onFiles (Failure.liftFile (host.makeDirectories (FileName.parent name)) .noDirectory)
    act (.written name text)
    onFiles (Failure.liftFile (host.write name text) (.outputUnwritten name))

/-- **A command, one step after the other.** It comes to whether every input conforms. -/
def perform (style : Style) (c : Command) : Performance m Bool := do
  match c with
  | .check source name inputs strict quiet =>
    let (formats, codec) ← onFiles (loadCodec host source name)
    let inputs ← onFiles (inputs.inputs host)
    let report := Report.checked style quiet (codec.decodeAll ⟨formats, strict⟩ inputs)
    announce report
    return report.conforms
  | .parse source name inputs strict out =>
    let (formats, codec) ← onFiles (loadCodec host source name)
    let inputs ← onFiles (inputs.inputs host)
    let results := codec.decodeAll ⟨formats, strict⟩ inputs
    let report := Report.parsed style results
    announce report
    deliver host out (Report.parsedText results)
    return report.conforms
  | .schema source name out =>
    let (_, codec) ← onFiles (loadCodec host source name)
    let schema ← onFiles (Failure.lift codec.schema .noSchema)
    deliver host out (schema.indented 0)
    return true
  | .describe source name out =>
    let (_, codec) ← onFiles (loadCodec host source name)
    deliver host out codec.describe
    return true
  | .hash source duplicatesOnly =>
    let (_, graph) ← onFiles (load host source)
    announce (.hashed style duplicatesOnly graph)
    return true

/-- **Words are taken for a command, which is performed.** -/
def enact (style : Style) (words : List String) : m (Ending × List Event) :=
  match host.words words with
  | .error (.help text) => return (.misused (.help text), [.shown text])
  | .error (.wrong message) => return (.misused (.wrong message), [.told message])
  | .ok c => (c.perform host style).ended

end Command

end ShapeGraph
