import ShapeGraph.BuildError
import ShapeGraph.Entries
import ShapeGraph.Pattern.Reader

/-!
# Named formats

Strings and numbers can be held to named rules. The rules of strings and those of numbers are
kept apart, and under one name the last registration counts. Which texts are patterns, and what
they match, is left to an engine; whatever is said of formats is said of every engine.

* `Formats.registerPattern` — a rule for strings given by a pattern
* `stringRule?_registerString`, `stringRule?_registerNumber` — what a registration changes
-/

namespace ShapeGraph

/-- The registered rules, and the engine that patterns are left to. -/
structure Formats where
  strings : Entries (String → Bool) := []
  numbers : Entries (Number → Bool) := []
  patterns : Pattern.Engine := Pattern.engine

namespace Formats

def stringRule? (f : Formats) (name : String) : Option (String → Bool) := f.strings.get? name

def numberRule? (f : Formats) (name : String) : Option (Number → Bool) := f.numbers.get? name

def registerString (f : Formats) (name : String) (rule : String → Bool) : Formats :=
  { f with strings := f.strings.insert name rule }

def registerNumber (f : Formats) (name : String) (rule : Number → Bool) : Formats :=
  { f with numbers := f.numbers.insert name rule }

/-- Register "matches the pattern", unless the text is no pattern. -/
def registerPattern (f : Formats) (name text : String) : Except BuildError Formats :=
  match f.patterns text with
  | some matched => .ok (f.registerString name matched)
  | none => .error (.invalidPattern text ("format `" ++ name ++ "`"))

/-- Whether a string meets every named rule; a rule that is missing is met by nothing. -/
def allowsString (f : Formats) (names : List String) (s : String) : Bool :=
  names.all fun name =>
    match f.stringRule? name with
    | some rule => rule s
    | none => false

/-- Whether a number meets every named rule. -/
def allowsNumber (f : Formats) (names : List String) (x : Number) : Bool :=
  names.all fun name =>
    match f.numberRule? name with
    | some rule => rule x
    | none => false

/-! ## What a registration changes -/

theorem stringRule?_registerString (f : Formats) (name other : String) (rule : String → Bool) :
    (f.registerString name rule).stringRule? other =
      if other = name then some rule else f.stringRule? other :=
  Entries.get?_insert ..

theorem numberRule?_registerNumber (f : Formats) (name other : String) (rule : Number → Bool) :
    (f.registerNumber name rule).numberRule? other =
      if other = name then some rule else f.numberRule? other :=
  Entries.get?_insert ..

theorem stringRule?_registerNumber (f : Formats) (name other : String) (rule : Number → Bool) :
    (f.registerNumber name rule).stringRule? other = f.stringRule? other := rfl

theorem numberRule?_registerString (f : Formats) (name other : String) (rule : String → Bool) :
    (f.registerString name rule).numberRule? other = f.numberRule? other := rfl

end Formats

end ShapeGraph
