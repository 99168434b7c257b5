import ShapeGraph.Json.Numeral

/-!
# Reading JSON

A reader takes a value from the front of a text and returns the rest. Lists and objects are read
by two loops that are told how to read one item or one member, so that trees and typed records
share them; a problem inside an item or member is told where it is.

* `Json.items`, `Json.members` — the two loops
* `Json.value` — a tree, with repeated keys as they stand
* `Json.skip` — the extent of a value nobody asks for; it is read more leniently
* `Json.ofText` — a whole text as a tree with repeated keys settled

## Termination

`value` recurses on the number of brackets that may still be opened. The loops run on fuel; each
round takes at least one character, so the length of the text is always enough.
-/

namespace ShapeGraph.Json

/-! ## Blanks and words -/

def isBlank (c : Char) : Bool := c = ' ' || c = '\n' || c = '\t' || c = '\r'

def skipBlank : Text → Text
  | some c :: t => if isBlank c then skipBlank t else some c :: t
  | t => t

/-- The rest of a word whose first letter has been read. -/
def readWord : List Char → Text → Except Fault Text
  | [], t => .ok t
  | _ :: _, [] => .error .endInValue
  | c :: cs, d :: t => if d = some c then readWord cs t else .error .wordExpected

/-! ## Strings -/

def hexDigit? (c : Char) : Option Nat :=
  if c.isDigit then some (c.toNat - 48)
  else if 'a' ≤ c ∧ c ≤ 'f' then some (c.toNat - 87)
  else if 'A' ≤ c ∧ c ≤ 'F' then some (c.toNat - 55)
  else none

/-- The value of four hexadecimal digits. -/
def hexValue? : List (Option Char) → Option Nat
  | [a, b, c, d] => do
    let a ← a.bind hexDigit?
    let b ← b.bind hexDigit?
    let c ← c.bind hexDigit?
    let d ← d.bind hexDigit?
    return a * 4096 + b * 256 + c * 16 + d
  | _ => none

/-- How many bytes a text takes. -/
def byteSize (t : Text) : Nat := t.foldl (fun n c => n + (c.map Char.utf8Size).getD 1) 0

/-- Four hexadecimal digits in front of a text. -/
def hexQuad (t : Text) : Except Fault (Nat × Text) :=
  match hexValue? (t.take 4) with
  | some n => .ok (n, t.drop 4)
  | none => if byteSize (t.take 4) < 4 then .error .endInString else .error .badEscape

/-- The character that a letter behind a backslash stands for. -/
def escapeLetter? : Char → Option Char
  | '"' => some '"'
  | '\\' => some '\\'
  | '/' => some '/'
  | 'b' => some '\x08'
  | 'f' => some '\x0c'
  | 'n' => some '\n'
  | 'r' => some '\r'
  | 't' => some '\t'
  | _ => none

/-- The character of a numbered escape; one outside the basic plane takes two of them. -/
def numberedEscape (t : Text) : Except Fault (Char × Text) := do
  let (high, t) ← hexQuad t
  if 0xDC00 ≤ high ∧ high < 0xE000 then .error .loneSurrogate
  else if high < 0xD800 ∨ 0xE000 ≤ high then return (Char.ofNat high, t)
  else
    match t with
    | [] => .error .endInString
    | some '\\' :: [] => .error .endInString
    | some '\\' :: some 'u' :: t =>
      let (low, t) ← hexQuad t
      if 0xDC00 ≤ low ∧ low < 0xE000 then
        return (Char.ofNat (0x10000 + (high - 0xD800) * 0x400 + (low - 0xDC00)), t)
      else .error .loneSurrogate
    | _ => .error .endOfHexEscape

/-- The character of the escape behind a backslash. -/
def escape : Text → Except Fault (Char × Text)
  | [] => .error .endInString
  | some 'u' :: t => numberedEscape t
  | some c :: t =>
    match escapeLetter? c with
    | some d => .ok (d, t)
    | none => .error .badEscape
  | none :: _ => .error .badEscape

/-- The content of a string literal whose opening quote has been read. Bad bytes are refused at
the closing quote, after every other fault. -/
def stringBody : Nat → List (Option Char) → Text → Except Fault (String × Text)
  | 0, _, _ => .error .endInString
  | _ + 1, _, [] => .error .endInString
  | fuel + 1, seen, none :: t => stringBody fuel (none :: seen) t
  | fuel + 1, seen, some c :: t =>
    if c = '"' then
      if seen.all Option.isSome then
        .ok (String.ofList (seen.filterMap id).reverse, t)
      else .error .badCodePoint
    else if c = '\\' then
      match escape t with
      | .ok (d, t) => stringBody fuel (some d :: seen) t
      | .error f => .error f
    else if c.toNat < 32 then .error .controlCharacter
    else stringBody fuel (some c :: seen) t

/-- A string literal whose opening quote has been read. -/
def string (t : Text) : Except Fault (String × Text) := stringBody (t.length + 1) [] t

/-! ## The two loops -/

section Loops

variable {α σ : Type}

def located (step : Step) {β : Type} (r : Except Problem β) : Except Problem β :=
  r.mapError (Problem.under step)

def failing {β : Type} (f : Fault) : Except Problem β := .error (.ofFault f)

/-- The items of a list whose opening bracket has been read; a problem with a separator is a
problem of the list, one inside an item is a problem at its index. -/
def items (item : Text → Except Problem (α × Text)) :
    Nat → Nat → Text → Except Problem (List α × Text)
  | 0, _, _ => failing .endInList
  | fuel + 1, i, t =>
    let next (t : Text) : Except Problem (List α × Text) := do
      let (a, t) ← located (.index i) (item t)
      let (as, t) ← items item fuel (i + 1) t
      return (a :: as, t)
    match skipBlank t with
    | [] => failing .endInList
    | some ']' :: t => .ok ([], t)
    | c :: t =>
      if i = 0 then next (c :: t)
      else if c = some ',' then
        match skipBlank t with
        | [] => failing .endInValue
        | some ']' :: _ => failing .trailingComma
        | t => next t
      else failing .listSeparatorExpected

/-- The members of an object whose opening brace has been read. `step` is told the key before
the colon is looked for; a problem with a separator or a key is a problem at an unknown key. -/
def members (step : σ → String → Except Reason (Text → Except Problem (σ × Text))) :
    Nat → Bool → σ → Text → Except Problem (σ × Text)
  | 0, _, _, _ => located .unknown (failing .endInObject)
  | fuel + 1, isFirst, s, t =>
    let member (t : Text) : Except Problem (σ × Text) := do
      let (key, t) ← located .unknown ((string t).mapError Problem.ofFault)
      let read ← (step s key).mapError Problem.here
      let (s, t) ← located (.key key) (match skipBlank t with
        | [] => failing .endInObject
        | some ':' :: t => read t
        | _ => failing .colonExpected)
      members step fuel false s t
    match skipBlank t with
    | [] => located .unknown (failing .endInObject)
    | some '\x7d' :: t => .ok (s, t)
    | some '"' :: t =>
      if isFirst then member t else located .unknown (failing .objectSeparatorExpected)
    | some ',' :: t =>
      if isFirst then located .unknown (failing .keyExpected)
      else
        match skipBlank t with
        | [] => located .unknown (failing .endInValue)
        | some '"' :: t => member t
        | some '\x7d' :: _ => located .unknown (failing .trailingComma)
        | _ => located .unknown (failing .keyExpected)
    | _ =>
      located .unknown
        (failing (if isFirst then .keyExpected else .objectSeparatorExpected))

/-- All items of a list. -/
def list (item : Text → Except Problem (α × Text)) (t : Text) : Except Problem (List α × Text) :=
  items item (t.length + 1) 0 t

/-- All members of an object, folded into a state. -/
def object (step : σ → String → Except Reason (Text → Except Problem (σ × Text))) (s : σ)
    (t : Text) : Except Problem (σ × Text) :=
  members step (t.length + 1) true s t

end Loops

/-! ## Trees -/

/-- A word, string or number whose first character `c` has been read. -/
def scalar (c : Option Char) (t : Text) : Except Fault (Json × Text) :=
  match c with
  | some 'n' => (readWord ['u', 'l', 'l'] t).map (.null, ·)
  | some 't' => (readWord ['r', 'u', 'e'] t).map (.bool true, ·)
  | some 'f' => (readWord ['a', 'l', 's', 'e'] t).map (.bool false, ·)
  | some '"' => (string t).map fun (s, t) => (.str s, t)
  | some c =>
    if c = '-' ∨ c.isDigit then do
      let (l, t) ← Numeral.read (some c :: t)
      let j ← l.value
      return (j, t)
    else .error .valueExpected
  | none => .error .valueExpected

/-- The value in front of a text, with at most `depth` brackets open at once. -/
def value : Nat → Text → Except Problem (Json × Text)
  | depth, t =>
    match skipBlank t with
    | [] => failing .endInValue
    | some '[' :: t =>
      match depth with
      | 0 => failing .tooDeep
      | d + 1 => do
        let (items, t) ← list (value d) t
        return (.arr items, t)
    | some '\x7b' :: t =>
      match depth with
      | 0 => failing .tooDeep
      | d + 1 => do
        let (ms, t) ← object (fun ms key => .ok fun t => do
          let (j, t) ← value d t
          return ((key, j) :: ms, t)) [] t
        return (.obj ms.reverse, t)
    | c :: t => (scalar c t).mapError Problem.ofFault

/-- How many brackets may be open at once. -/
def depthLimit : Nat := 127

/-- A whole text as a tree: nothing but blanks may follow the value. -/
def ofText (t : Text) : Except Problem Json := do
  let (j, t) ← value depthLimit t
  match skipBlank t with
  | [] => return j.tidy
  | _ => failing .trailingCharacters

/-- A whole string as a tree. -/
def ofString (s : String) : Except Problem Json := ofText (Utf8.ofString s)

/-! ## Values nobody asks for -/

/-- The end of a string literal whose opening quote has been read. Neither bad bytes nor lone
surrogates are looked for. -/
def skipString : Nat → Text → Except Fault Text
  | 0, _ => .error .endInString
  | _ + 1, [] => .error .endInString
  | fuel + 1, none :: t => skipString fuel t
  | fuel + 1, some c :: t =>
    if c = '"' then .ok t
    else if c = '\\' then
      match t with
      | [] => .error .endInString
      | some 'u' :: t =>
        match hexQuad t with
        | .ok (_, t) => skipString fuel t
        | .error f => .error f
      | some d :: t =>
        if (escapeLetter? d).isSome then skipString fuel t else .error .badEscape
      | none :: _ => .error .badEscape
    else if c.toNat < 32 then .error .controlCharacter
    else skipString fuel t

mutual

/-- The end of the value in front of a text. Numbers are not converted, and nesting has no
limit. -/
def skipValue : Nat → Text → Except Fault Text
  | 0, _ => .error .endInValue
  | fuel + 1, t =>
    match skipBlank t with
    | [] => .error .endInValue
    | some '[' :: t => skipItems fuel true t
    | some '\x7b' :: t => skipMembers fuel true t
    | some '"' :: t => skipString (t.length + 1) t
    | some 'n' :: t => readWord ['u', 'l', 'l'] t
    | some 't' :: t => readWord ['r', 'u', 'e'] t
    | some 'f' :: t => readWord ['a', 'l', 's', 'e'] t
    | some c :: t =>
      if c = '-' ∨ c.isDigit then
        match Numeral.read (some c :: t) with
        | .ok (_, t) => .ok t
        | .error _ => .error .badNumber
      else .error .valueExpected
    | none :: _ => .error .valueExpected

def skipItems : Nat → Bool → Text → Except Fault Text
  | 0, _, _ => .error .endInList
  | fuel + 1, isFirst, t =>
    match skipBlank t with
    | [] => .error .endInList
    | some ']' :: t => .ok t
    | c :: t =>
      if isFirst then do
        let t ← skipValue fuel (c :: t)
        skipItems fuel false t
      else if c = some ',' then do
        let t ← skipValue fuel t
        skipItems fuel false t
      else .error .listSeparatorExpected

def skipMembers : Nat → Bool → Text → Except Fault Text
  | 0, _, _ => .error .endInObject
  | fuel + 1, isFirst, t =>
    match skipBlank t with
    | [] => .error .endInObject
    | some '\x7d' :: t => .ok t
    | c :: t =>
      if isFirst then do
        let t ← skipMember fuel (c :: t)
        skipMembers fuel false t
      else if c = some ',' then do
        let t ← skipMember fuel t
        skipMembers fuel false t
      else .error .objectSeparatorExpected

def skipMember : Nat → Text → Except Fault Text
  | 0, _ => .error .endInObject
  | fuel + 1, t =>
    match skipBlank t with
    | [] => .error .endInObject
    | some '"' :: t => do
      let t ← skipString (t.length + 1) t
      match skipBlank t with
      | [] => .error .endInObject
      | some ':' :: t => skipValue fuel t
      | _ => .error .colonExpected
    | _ => .error .keyExpected

end

/-- The end of the value in front of a text. -/
def skip (t : Text) : Except Fault Text := skipValue (4 * t.length + 4) t

end ShapeGraph.Json
