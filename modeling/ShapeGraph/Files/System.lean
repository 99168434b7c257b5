import ShapeGraph.Number.Text
import ShapeGraph.Text.Slashes

/-!
# File systems

What a command asks of the files around it, as a record of operations in some monad. A command
is written once against this record; it runs on real files and on a tree of files held in memory.

* `FileSystem` — the operations
* `FileError` — why one of them fails
* `FileName.split`, `FileName.join`, `FileName.parent` — names and their steps
-/

namespace ShapeGraph

/-- Why a file cannot be read or written. -/
inductive FileError
  | notFound
  | isDirectory
  | notDirectory
  | alreadyExists
  | notText
  | other (description : String)
  deriving DecidableEq, Repr

def FileError.message : FileError → String
  | .notFound => "No such file or directory (os error 2)"
  | .isDirectory => "Is a directory (os error 21)"
  | .notDirectory => "Not a directory (os error 20)"
  | .alreadyExists => "File exists (os error 17)"
  | .notText => "stream did not contain valid UTF-8"
  | .other description => description

/-- The operations on files, which are named by paths with slashes. -/
structure FileSystem (m : Type → Type) where
  /-- The text of a file. -/
  read : String → m (Except FileError String)
  /-- The names of the files that are of a pattern, in order; or what is wrong with the pattern or
  with a directory on the way, in the words of whoever searches. -/
  search : String → m (Except String (List String))
  /-- Make a directory and those that it is to stand in. -/
  makeDirectories : String → m (Except FileError Unit)
  /-- Put a text into a file, in place of what it held. -/
  write : String → String → m (Except FileError Unit)

namespace FileName

/-- The steps of a name; there is one more than there are slashes. -/
def split (name : String) : List String := (splitSlashes name.toList).map String.ofList

/-- The current directory. -/
def current : String := "."

/-- The directory around the current one. -/
def above : String := ".."

/-- Whether a name is meant as a pattern of names. -/
def isPattern (name : String) : Bool :=
  name.toList.any fun c => c = '*' || c = '?' || c = '[' || c = '\x7b'

/-- The name of what stands in a directory. -/
def join (directory name : String) : String :=
  if directory.endsWith "/" then directory ++ name else directory ++ "/" ++ name

/-- The name of what stands in a directory, shown without the current directory. -/
def joinPlain (directory name : String) : String :=
  if directory = current then name else join directory name

/-- The name of the directory that a name stands in. -/
def parent (name : String) : String :=
  let steps := (split name).reverse.dropWhile fun s => s = "" || s = current
  "/".intercalate (steps.drop 1).reverse

example : split "out/deep/x.txt" = ["out", "deep", "x.txt"] := by decide +kernel
example : parent "out/deep/x.txt" = "out/deep" := by decide +kernel
example : parent "x.txt" = "" := by decide +kernel
example : parent "out/deep/." = "out" := by decide +kernel

end FileName

end ShapeGraph
