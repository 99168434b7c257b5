import ShapeGraph.Files.System
import ShapeGraph.Sorting

/-!
# Names with wildcards

A glob names files by a pattern: `?` stands for one character, `*` for any number of them,
`[a-z]` for one of a set and `[!a-z]` for one outside of it. A step `**` stands for any number of
directories. Other characters stand for themselves.

* `Glob.Token.ofChars` — the pattern that a text writes, or where it goes wrong
* `Glob.accepts` — whether a name is of a pattern
* `Glob.searchText` — the names that a pattern finds, in alphabetical order

## Termination

`search` descends one directory or one step of the pattern at a time. Names have a greatest
length, which bounds how far one can descend.
-/

namespace ShapeGraph.Glob

inductive Token
  | char (c : Char)
  | one
  | many
  /-- Directories, any number of them. -/
  | directories
  /-- A character inside or outside of a set of ranges. -/
  | set (inside : Bool) (ranges : List (Char × Char))
  deriving DecidableEq, Repr

/-- Where and why a text is no pattern. -/
inductive Fault
  | tooManyStars (position : Nat)
  | notAlone (position : Nat)
  | badSet (position : Nat)
  deriving DecidableEq, Repr

def Fault.message : Fault → String
  | .tooManyStars p => text p "wildcards are either regular `*` or recursive `**`"
  | .notAlone p => text p "recursive wildcards must form a single path component"
  | .badSet p => text p "invalid range pattern"
where
  text (position : Nat) (reason : String) : String :=
    "Pattern syntax error near position " ++ Number.natText position ++ ": " ++ reason

/-! ## Reading -/

/-- Characters and ranges of characters. -/
def rangesOf : List Char → List (Char × Char)
  | a :: '-' :: b :: cs => (a, b) :: rangesOf cs
  | c :: cs => (c, c) :: rangesOf cs
  | [] => []

/-- What stands before a closing bracket and what behind it. -/
def closing? : List Char → Option (List Char × List Char)
  | [] => none
  | ']' :: cs => some ([], cs)
  | c :: cs => (closing? cs).map fun (before, behind) => (c :: before, behind)

/-- A set behind its opening bracket. The first character of a set never closes it. -/
def set? : List Char → Option (Token × List Char)
  | '!' :: c :: cs => (closing? cs).map fun (s, rest) => (.set false (rangesOf (c :: s)), rest)
  | ['!'] => none
  | c :: cs => (closing? cs).map fun (s, rest) => (.set true (rangesOf (c :: s)), rest)
  | [] => none

/-- The tokens of a pattern behind `position` characters, the last of which is given. -/
def Token.read : Nat → Nat → Option Char → List Char → Except Fault (List Token)
  | 0, _, _, _ => .ok []
  | _, _, _, [] => .ok []
  | fuel + 1, position, last, c :: cs =>
    if c = '?' then (read fuel (position + 1) (some c) cs).map (.one :: ·)
    else if c = '*' then
      match cs with
      | '*' :: '*' :: _ => .error (.tooManyStars (position + 2))
      | '*' :: cs =>
        if last.all (· = '/') then
          match cs with
          | [] => .ok [.directories]
          | '/' :: cs => (read fuel (position + 3) (some '/') cs).map (.directories :: ·)
          | _ => .error (.notAlone (position + 2))
        else .error (.notAlone (position - 1))
      | cs => (read fuel (position + 1) (some c) cs).map (.many :: ·)
    else if c = '[' then
      match set? cs with
      | none => .error (.badSet position)
      | some (token, rest) =>
        (read fuel (position + 1 + (cs.length - rest.length)) (some ']') rest).map (token :: ·)
    else (read fuel (position + 1) (some c) cs).map (.char c :: ·)

/-- **The tokens of a pattern.** -/
def Token.ofChars (cs : List Char) : Except Fault (List Token) := read cs.length 0 none cs

/-! ## Matching -/

/-- A text without any number of its first characters. -/
def suffixes : List Char → List (List Char)
  | [] => [[]]
  | c :: cs => (c :: cs) :: suffixes cs

/-- Whether a token stands for a character. -/
def Token.holds : Token → Char → Bool
  | .char d, c => c = d
  | .one, _ => true
  | .set inside ranges, c => ranges.any (fun r => r.1 ≤ c && c ≤ r.2) == inside
  | .many, _ => false
  | .directories, _ => false

/-- Whether a text is of a pattern. -/
def accepts : List Token → List Char → Bool
  | [], cs => cs.isEmpty
  | .many :: ts, cs => (suffixes cs).any (accepts ts)
  | .directories :: ts, cs => (suffixes cs).any (accepts ts)
  | t :: ts, c :: cs => t.holds c && accepts ts cs
  | _ :: _, [] => false

/-! ## Steps -/

/-- One step of a pattern. -/
structure Part where
  text : String
  tokens : List Token

namespace Part

/-- Whether the step stands for itself alone. -/
def isPlain (p : Part) : Bool :=
  p.tokens.all fun
    | .char _ => true
    | _ => false

/-- Whether the step stands for any number of directories. -/
def isRecursive (p : Part) : Bool := p.tokens.contains .directories

def accepts (p : Part) (name : String) : Bool := Glob.accepts p.tokens name.toList

def ofText (text : String) : Except Fault Part := do return ⟨text, ← Token.ofChars text.toList⟩

end Part

/-- A pattern, taken apart at its slashes. -/
structure Pattern where
  /-- Whether names start at the root. -/
  fromRoot : Bool
  parts : List Part
  /-- Whether only directories are asked for: the pattern ends in a slash. -/
  onlyDirectories : Bool

/-- **The pattern of a text.** The whole text has to be in order, and so has every step. -/
def Pattern.ofText (text : String) : Except Fault Pattern := do
  let _ ← Token.ofChars text.toList
  let fromRoot := text.startsWith "/"
  let texts := FileName.split (if fromRoot then String.ofList (text.toList.drop 1) else text)
  let texts := if texts.getLast? = some "" then texts.dropLast else texts
  return ⟨fromRoot, ← texts.mapM Part.ofText, text.endsWith "/"⟩

/-! ## Searching -/

/-- What a search looks at. -/
structure Listing (m : Type → Type) where
  /-- Whether a name is that of a file or directory. -/
  isPresent : String → m Bool
  isDirectory : String → m Bool
  /-- The names of what a directory holds, in any order. -/
  entries : String → m (List String)

section Search

variable {m : Type → Type} [Monad m] (listing : Listing m) (onlyDirectories : Bool)

/-- A name that was found, unless only directories are asked for and it is none. -/
def found (name : String) : m (List String) := do
  if !onlyDirectories || (← listing.isDirectory name) then return [name] else return []

/-- Go on with the steps that are left behind a name. -/
def onward (below : List Part → String → m (List String)) (parts : List Part) (path : String) :
    m (List String) :=
  if parts.isEmpty then found listing onlyDirectories path else below parts path

/-- What an entry of a directory gives: `below` searches inside of it. -/
def visit (below : List Part → String → m (List String)) (part : Part) (parts : List Part)
    (name path : String) : m (List String) := do
  let matching (part : Part) (parts : List Part) : m (List String) := do
    if part.accepts name then onward listing onlyDirectories below parts path else return []
  if !part.isRecursive then matching part parts
  else
    let parts := parts.dropWhile (·.isRecursive)
    let directory ← listing.isDirectory path
    let inside ← if directory then below (part :: parts) path else pure []
    match parts with
    | [] => return if directory then path :: inside else []
    | part :: parts => return (← matching part parts) ++ inside

/-- The current directory and the one around it, where the step begins with a point. -/
def specials (part : Part) : List String :=
  if part.tokens.head? = some (.char '.') then
    [FileName.above, FileName.current].filter part.accepts
  else []

/-- What the steps of a pattern give inside of a directory. -/
def within : Nat → List Part → String → m (List String)
  | 0, _, _ => return []
  | _, [], _ => return []
  | fuel + 1, part :: parts, here => do
    if part.isPlain then
      let next := FileName.joinPlain here part.text
      let present ←
        if part.text = FileName.current ∨ part.text = FileName.above then listing.isDirectory here
        else listing.isPresent next
      if present then onward listing onlyDirectories (within fuel) parts next else return []
    else if ← listing.isDirectory here then
      let special ← (specials part).mapM fun name =>
        onward listing onlyDirectories (within fuel) parts (FileName.join here name)
      let names := sortBy stringLe (← listing.entries here)
      let entries ← names.mapM fun name =>
        visit listing onlyDirectories (within fuel) part parts name (FileName.joinPlain here name)
      return special.flatten ++ entries.flatten
    else return []

/-- How many steps the longest name can have. -/
def longestName : Nat := 4096

/-- The names of the files and directories that are of a pattern. -/
def search (p : Pattern) : m (List String) :=
  within listing p.onlyDirectories (longestName + p.parts.length) p.parts
    (if p.fromRoot then "/" else FileName.current)

/-- **The names of the files and directories that are of the pattern of a text.** -/
def searchText (text : String) : m (Except String (List String)) :=
  match Pattern.ofText text with
  | .ok p => do return .ok (← search listing p)
  | .error e => return .error e.message

end Search

end ShapeGraph.Glob
