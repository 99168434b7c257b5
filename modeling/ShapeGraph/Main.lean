import ShapeGraph.Command.Run

/-!
# The program

Reads its words, runs the command that they ask for on the files around it, and shows what is
left of it.
-/

namespace ShapeGraph.Machine

/-- The error that an operation on files ended in. -/
def fileError (e : IO.Error) : FileError :=
  match e with
  | .noFileOrDirectory .. => .notFound
  | .noSuchThing .. => .notFound
  | .alreadyExists .. => .alreadyExists
  | .inappropriateType _ signed details =>
    -- the number of an error is told with either sign
    let code := min signed (0 - signed)
    if code = 21 then .isDirectory else if code = 20 then .notDirectory else .other details
  | e => .other (toString e)

/-- The result of an operation on files. -/
def tried {α : Type} (operation : IO α) : IO (Except FileError α) := do
  match ← operation.toBaseIO with
  | .ok a => return .ok a
  | .error e => return .error (fileError e)

/-- A name as an entry of a directory. -/
def entry (name : String) : IO.FS.DirEntry := ⟨name, ""⟩

/-- What a search looks at on the machine. -/
def listing : Glob.Listing IO where
  isPresent name := (entry name).root.pathExists
  isDirectory name := (entry name).root.isDir
  entries name := do
    match ← tried (entry name).root.readDir with
    | .ok found => return found.toList.map (·.fileName)
    | .error _ => return []

/-- The files of the machine. -/
def files : FileSystem IO where
  read name := do
    match ← tried (IO.FS.readBinFile name) with
    | .error e => return .error e
    | .ok bytes =>
      match String.fromUTF8? bytes with
      | some text => return .ok text
      | none => return .error .notText
  search := Glob.searchText listing
  makeDirectories name := if name = "" then return .ok () else tried (IO.FS.createDirAll name)
  write name text := tried (IO.FS.writeFile name text)

/-- The machine as a host, with the engines of this library. -/
def host : Host IO := ⟨files, {}⟩

end ShapeGraph.Machine

open ShapeGraph

def main (words : List String) : IO UInt32 := do
  match Machine.host.words words with
  | .error usage =>
    match usage with
    | .help text => IO.println text
    | .wrong message => IO.eprintln message
    return usage.exitCode.toUInt32
  | .ok command =>
    let style := Style.ofEnvironment (← IO.getEnv "CLICOLOR_FORCE") (← IO.getEnv "NO_COLOR")
      (← IO.getEnv "CLICOLOR") (← (← IO.getStdout).isTty)
    let outcome ← command.outcome Machine.host style
    IO.print outcome.output
    IO.eprint outcome.messages
    return outcome.exitCode.toUInt32
