import ShapeGraph.Files.Glob

/-!
# Trees of files

A tree of files held in memory: the texts of the files under their steps from the root, and the
directories that were made. A directory is also there when a file stands somewhere below it.

* `FileTree.look` — what stands at a place
* `FileTree.fileSystem` — a tree as a file system
* `look_put` — what is found after a file was written
-/

namespace ShapeGraph

structure FileTree where
  files : List (List String × String) := []
  directories : List (List String) := []

namespace FileTree

/-- The tree of files given by name. -/
def ofFiles (files : List (String × String)) : FileTree :=
  ⟨files.map fun f => (FileName.split f.1, f.2), []⟩

/-- What can stand at a place. -/
inductive Entry
  | file (text : String)
  | directory
  deriving DecidableEq, Repr

/-- The text of the file at a place. -/
def fileText? (t : FileTree) (place : List String) : Option String :=
  (t.files.find? fun f => f.1 == place).map Prod.snd

/-- Whether a directory is at a place. -/
def holdsDirectory (t : FileTree) (place : List String) : Bool :=
  place.isEmpty || t.directories.any (fun d => place.isPrefixOf d)
    || t.files.any (fun f => place.isPrefixOf f.1 && place != f.1)

/-- What stands at a place. -/
def look (t : FileTree) (place : List String) : Option Entry :=
  match t.fileText? place with
  | some text => some (.file text)
  | none => if t.holdsDirectory place then some .directory else none

/-- Go on from a directory: an empty step and a point stay there, two points go up. -/
def step (here : List String) (name : String) : List String :=
  if name = "" ∨ name = FileName.current then here
  else if name = FileName.above then here.dropLast
  else here ++ [name]

/-- The place that steps lead to; each but the last has to lead to a directory. -/
def walk (t : FileTree) : List String → List String → Except FileError (List String)
  | here, [] => .ok here
  | here, name :: names =>
    match t.look here with
    | none => .error .notFound
    | some (.file _) => .error .notDirectory
    | some .directory => walk t (step here name) names

/-- The steps of a name. Nothing has an empty name or stands outside of the tree. -/
def steps (name : String) : Except FileError (List String) :=
  match FileName.split name with
  | "" :: _ => .error .notFound
  | names => .ok names

/-- What a name leads to. -/
def find (t : FileTree) (name : String) : Except FileError (List String × Entry) := do
  let place ← t.walk [] (← steps name)
  match t.look place with
  | some entry => return (place, entry)
  | none => .error .notFound

def read (t : FileTree) (name : String) : Except FileError String := do
  match (← t.find name).2 with
  | .file text => return text
  | .directory => .error .isDirectory

def isPresent (t : FileTree) (name : String) : Bool := (t.find name).toOption.isSome

def isDirectory (t : FileTree) (name : String) : Bool :=
  match t.find name with
  | .ok (_, .directory) => true
  | _ => false

/-- The step behind a place on the way to another. -/
def stepBelow? (place other : List String) : Option String :=
  if place.isPrefixOf other then (other.drop place.length).head? else none

/-- The names of what a directory holds, each once. -/
def entries (t : FileTree) (name : String) : List String :=
  match t.find name with
  | .ok (place, .directory) =>
    ((t.files.map Prod.fst ++ t.directories).filterMap (stepBelow? place)).eraseDups
  | _ => []

/-- What a search looks at in a tree. -/
def listing (t : FileTree) : Glob.Listing Id := ⟨t.isPresent, t.isDirectory, t.entries⟩

/-- What a pattern of names finds in a tree, or what is wrong with it. -/
abbrev Search : Type := FileTree → String → Except String (List String)

/-- The names in a tree that are of a pattern with wildcards. -/
def search : Search := fun t pattern => Glob.searchText t.listing pattern

/-- Make what is missing on the way along steps. -/
def makeAlong : FileTree → List String → List String → Except FileError FileTree
  | t, here, names =>
    match t.look here, names with
    | some (.file _), [] => .error .alreadyExists
    | some (.file _), _ :: _ => .error .notDirectory
    | some .directory, [] => .ok t
    | some .directory, name :: names => makeAlong t (step here name) names
    | none, [] => .ok { t with directories := here :: t.directories }
    | none, name :: names =>
      makeAlong { t with directories := here :: t.directories } (step here name) names

def makeDirectories (t : FileTree) (name : String) : Except FileError FileTree :=
  if name = "" then .ok t else do makeAlong t [] (← steps name)

/-- Put a file at a place, whatever stood there. -/
def put (t : FileTree) (place : List String) (text : String) : FileTree :=
  { t with files := (place, text) :: t.files }

/-- Put a text into the file of a name, which need not be there, other than its directory. A name
that ends in a slash is that of a directory. -/
def write (t : FileTree) (name text : String) : Except FileError FileTree := do
  let names ← steps name
  let directory ← t.walk [] names.dropLast
  let place := step directory (names.getLastD "")
  if name.endsWith "/" then .error .isDirectory
  else
    match t.look directory, t.look place with
    | none, _ => .error .notFound
    | some (.file _), _ => .error .notDirectory
    | _, some .directory => .error .isDirectory
    | _, some (.file _) => return t.put place text
    | _, none => return t.put place text

/-- Change the tree if that goes well. -/
def update (change : FileTree → Except FileError FileTree) :
    StateM FileTree (Except FileError Unit) := do
  match change (← get) with
  | .ok t => do
    set t
    return .ok ()
  | .error e => return .error e

/-- A tree as a file system, with any way to search for names. -/
def fileSystem (search : Search) : FileSystem (StateM FileTree) where
  read name := do return (← get).read name
  search pattern := do return search (← get) pattern
  makeDirectories name := update fun t => t.makeDirectories name
  write name text := update fun t => t.write name text

/-! ## What is found after a file was written -/

theorem fileText?_put (t : FileTree) (place other : List String) (text : String) :
    (t.put place text).fileText? other =
      if place = other then some text else t.fileText? other := by
  unfold fileText? put
  by_cases h : place = other
  · simp [h]
  · have hb : (place == other) = false := by simp [h]
    simp [h, hb]

/-- **A written file is found with its text.** -/
theorem look_put (t : FileTree) (place : List String) (text : String) :
    (t.put place text).look place = some (.file text) := by
  simp [look, fileText?_put]

end FileTree

end ShapeGraph
