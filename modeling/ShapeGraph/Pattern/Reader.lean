import ShapeGraph.Pattern.Basic

/-!
# Reading patterns

The text of a pattern: literals, `.`, anchors, classes in brackets, groups, choices by `|`,
repetitions, escapes, and settings such as `(?i)` that hold to the end of their group.

* `Pattern.ofText?` — the pattern that a text describes, when it describes one

## Termination

The loops run on fuel; every round takes at least one character, so a multiple of the length of
the text is always enough.
-/

namespace ShapeGraph.Pattern

/-! ## Settings -/

/-- What is in force at a place of the text. -/
structure Settings where
  /-- Letters stand for either case. -/
  anyCase : Bool := false
  /-- Anchors hold at every line. -/
  multiLine : Bool := false
  /-- The dot takes line ends too. -/
  dotAll : Bool := false
  /-- Lines may end in a carriage return. -/
  carriageReturn : Bool := false
  /-- Classes know characters beyond ASCII. -/
  unicode : Bool := true
  /-- Blanks and comments in the text mean nothing. -/
  spaced : Bool := false

namespace Settings

/-- Turn one setting on or off. Preferring short matches changes no answer. -/
def set? (s : Settings) (flag : Char) (on : Bool) : Option Settings :=
  match flag with
  | 'i' => some { s with anyCase := on }
  | 'm' => some { s with multiLine := on }
  | 's' => some { s with dotAll := on }
  | 'R' => some { s with carriageReturn := on }
  | 'u' => some { s with unicode := on }
  | 'x' => some { s with spaced := on }
  | 'U' => some s
  | _ => none

/-- The rest behind blanks and comments; inside a comment everything up to the line's end goes. -/
def skipSpace : Bool → List Char → List Char
  | _, [] => []
  | true, c :: cs => skipSpace (c != '\n') cs
  | false, c :: cs =>
    if c = '#' then skipSpace true cs
    else if CharProperty.isBlank c.toNat then skipSpace false cs
    else c :: cs

def skip (s : Settings) (cs : List Char) : List Char := if s.spaced then skipSpace false cs else cs

/-- A class under the setting for case. -/
def fold (s : Settings) (k : CharClass) : CharClass :=
  if s.anyCase then .anyCase (!s.unicode) k else k

/-- The complement of a class; without Unicode it would hold bytes that are no characters. -/
def complement? (s : Settings) (negated : Bool) (k : CharClass) : Option CharClass :=
  if !negated then some k
  else if s.unicode then some (.compl k)
  else none

end Settings

/-! ## Escapes -/

/-- What an escape stands for. -/
inductive Escape
  | literal (c : Char)
  | class (k : CharClass)
  | place (a : Assertion)

/-- Punctuation may be escaped without need; two signs are kept for assertions. -/
def isEscapable (c : Char) : Bool :=
  c.toNat < 128 && !c.isAlphanum && c != '<' && c != '>'

/-- The class of a letter such as `d`, which a capital letter negates. -/
def letterClass (s : Settings) (c : Char) : CharClass :=
  if s.unicode then
    match c with
    | 'd' => .property (.category .decimal)
    | 's' => .property .blank
    | _ => .property .word
  else
    CharClass.ranges (match c with
      | 'd' => [('0', '9')]
      | 's' => [('\t', '\r'), (' ', ' ')]
      | _ => [('0', '9'), ('A', 'Z'), ('_', '_'), ('a', 'z')])

def hexDigit? (c : Char) : Option Nat :=
  if c.isDigit then some (c.toNat - 48)
  else if 'a' ≤ c ∧ c ≤ 'f' then some (c.toNat - 87)
  else if 'A' ≤ c ∧ c ≤ 'F' then some (c.toNat - 55)
  else none

/-- The character of a code point, unless it is a surrogate or too large. -/
def charOf? (n : Nat) : Option Char := if n.isValidChar then some (Char.ofNat n) else none

/-- The value of exactly `count` hexadecimal digits. -/
def hexFixed (s : Settings) : Nat → Nat → List Char → Option (Nat × List Char)
  | 0, n, cs => some (n, cs)
  | count + 1, n, cs =>
    match s.skip cs with
    | [] => none
    | c :: cs => (hexDigit? c).bind fun d => hexFixed s count (16 * n + d) cs

/-- The characters up to a closing brace. -/
def braced (s : Settings) : Nat → List Char → Option (List Char × List Char)
  | 0, _ => none
  | fuel + 1, cs =>
    match s.skip cs with
    | [] => none
    | '\x7d' :: cs => some ([], cs)
    | c :: cs => (braced s fuel cs).map fun (name, rest) => (c :: name, rest)

/-- A numbered character, whose digits are fixed in number or stand in braces. Without Unicode
two digits name a byte, and a byte beyond ASCII is no character. -/
def numbered (s : Settings) (count : Nat) (cs : List Char) : Option (Escape × List Char) :=
  match s.skip cs with
  | '\x7b' :: cs => do
    let (digits, cs) ← braced s (cs.length + 1) cs
    if digits.isEmpty then none
    else
      let ds ← digits.mapM hexDigit?
      let c ← charOf? (ds.foldl (fun n d => 16 * n + d) 0)
      return (.literal c, cs)
  | cs => do
    let (n, cs) ← hexFixed s count 0 cs
    let c ← charOf? n
    if count = 2 ∧ 128 ≤ n ∧ !s.unicode then none
    else return (.literal c, cs)

/-- The name of a property, behind a general name and a sign of equality if there is one. -/
def propertyOf? (name : List Char) : Option CharProperty :=
  let isSign (c : Char) : Bool := c = '=' || c = ':'
  match name.span fun c => !isSign c with
  | (_, []) => CharProperty.ofName? name
  | (general, _ :: value) =>
    let general := CharProperty.normalized (general.filter (· != '!'))
    if general = "gc".toList ∨ general = "generalcategory".toList then
      CharProperty.ofName? value
    else none

/-- A class by the name of a property. -/
def propertyClass (s : Settings) (negated : Bool) (cs : List Char) :
    Option (Escape × List Char) := do
  let (name, cs) ← match s.skip cs with
    | [] => none
    | '\x7b' :: cs => braced s (cs.length + 1) cs
    | '\\' :: _ => none
    | c :: cs => some ([c], cs)
  if s.unicode then
    let p ← propertyOf? name
    let k ← s.complement? negated (s.fold (.property p))
    return (.class k, cs)
  else none

/-- The letters of the name of a boundary. -/
def boundaryName (s : Settings) : Nat → List Char → List Char × List Char
  | 0, cs => ([], cs)
  | fuel + 1, cs =>
    match s.skip cs with
    | c :: cs =>
      if c.isAlpha || c == '-' then
        let (name, rest) := boundaryName s fuel cs
        (c :: name, rest)
      else ([], c :: cs)
    | [] => ([], [])

/-- A boundary of words, which a name in braces makes one-sided. -/
def boundary (s : Settings) (cs : List Char) : Option (Escape × List Char) :=
  let ascii := !s.unicode
  match cs with
  | '\x7b' :: inner =>
    match s.skip inner with
    | [] => none
    | c :: _ =>
      if c.isAlpha || c == '-' then
        match boundaryName s (inner.length + 1) inner with
        | (name, '\x7d' :: rest) =>
          if name = "start".toList then some (.place (.wordStart ascii), rest)
          else if name = "end".toList then some (.place (.wordEnd ascii), rest)
          else if name = "start-half".toList then some (.place (.wordStartHalf ascii), rest)
          else if name = "end-half".toList then some (.place (.wordEndHalf ascii), rest)
          else none
        | _ => none
      else some (.place (.wordBoundary ascii), cs)
  | _ => some (.place (.wordBoundary ascii), cs)

/-- What stands behind a backslash. -/
def escape (s : Settings) : List Char → Option (Escape × List Char)
  | [] => none
  | c :: cs =>
    match c with
    | 'x' => numbered s 2 cs
    | 'u' => numbered s 4 cs
    | 'U' => numbered s 8 cs
    | 'p' => propertyClass s false cs
    | 'P' => propertyClass s true cs
    | 'a' => some (.literal '\x07', cs)
    | 'f' => some (.literal '\x0c', cs)
    | 't' => some (.literal '\t', cs)
    | 'n' => some (.literal '\n', cs)
    | 'r' => some (.literal '\r', cs)
    | 'v' => some (.literal '\x0b', cs)
    | 'A' => some (.place .textStart, cs)
    | 'z' => some (.place .textEnd, cs)
    | 'b' => boundary s cs
    | 'B' => some (.place (.noWordBoundary (!s.unicode)), cs)
    | '<' => some (.place (.wordStart (!s.unicode)), cs)
    | '>' => some (.place (.wordEnd (!s.unicode)), cs)
    | c =>
      if c = 'd' ∨ c = 's' ∨ c = 'w' then some (.class (letterClass s c), cs)
      else if c = 'D' ∨ c = 'S' ∨ c = 'W' then
        (s.complement? true (letterClass s c.toLower)).map fun k => (.class k, cs)
      else if isEscapable c then some (.literal c, cs)
      else none

/-! ## Classes in brackets -/

/-- One end of a range, or a whole item of a class. -/
def classItem (s : Settings) : List Char → Option (Escape × List Char)
  | [] => none
  | '\\' :: cs => escape s cs
  | c :: cs => some (.literal c, cs)

/-- A character in a class; without Unicode it has to be an ASCII one. -/
def classChar? (s : Settings) : Escape → Option Char
  | .literal c => if s.unicode || c.toNat < 128 then some c else none
  | _ => none

/-- What an item adds to a class. -/
def classOf? (s : Settings) : Escape → Option CharClass
  | .class k => some k
  | e => (classChar? s e).map CharClass.single

/-- An item or a range. A hyphen before the closing bracket or another hyphen makes no range. -/
def classRange (s : Settings) (cs : List Char) : Option (CharClass × List Char) := do
  let (low, rest) ← classItem s cs
  match s.skip rest with
  | [] => none
  | '-' :: rest =>
    match s.skip rest with
    | [] => none
    | ']' :: _ => (classOf? s low).map (·, '-' :: rest)
    | '-' :: _ => (classOf? s low).map (·, '-' :: rest)
    | next => do
      let (high, rest) ← classItem s next
      let low ← classChar? s low
      let high ← classChar? s high
      if low ≤ high then return (.range low.toNat high.toNat, rest) else none
  | rest => (classOf? s low).map (·, rest)

/-- A named class such as `[:alpha:]`, whose opening bracket has been read. -/
def namedClass? (cs : List Char) : Option (Bool × CharClass × List Char) :=
  match cs with
  | ':' :: cs =>
    let (negated, cs) := match cs with
      | '^' :: cs => (true, cs)
      | cs => (false, cs)
    match cs.span (· != ':') with
    | (name, ':' :: ']' :: rest) => (CharClass.asciiNamed? name).map (negated, ·, rest)
    | _ => none
  | _ => none

/-- An operation between two classes. -/
inductive SetOperation
  | inter
  | diff
  | symmetricDiff

/-- The operation that a doubled sign stands for. -/
def SetOperation.ofSign? : Char → Option SetOperation
  | '&' => some .inter
  | '-' => some .diff
  | '~' => some .symmetricDiff
  | _ => none

def SetOperation.apply (s : Settings) (op : SetOperation) (a b : CharClass) : CharClass :=
  match op with
  | .inter => .inter (s.fold a) (s.fold b)
  | .diff => .diff (s.fold a) (s.fold b)
  | .symmetricDiff => CharClass.symmetricDiff (s.fold a) (s.fold b)

/-- The class read so far, with an operation that waited for it. -/
def settle (s : Settings) (pending : Option (SetOperation × CharClass)) (k : CharClass) :
    CharClass :=
  match pending with
  | none => k
  | some (op, left) => op.apply s left k

/-- Hyphens at the front of a class stand for themselves. -/
def leadingHyphens (s : Settings) : Nat → CharClass → List Char → CharClass × List Char
  | 0, k, cs => (k, cs)
  | fuel + 1, k, cs =>
    match s.skip cs with
    | '-' :: cs => leadingHyphens s fuel (.union k (.single '-')) cs
    | cs => (k, cs)

mutual

/-- A class whose opening bracket has been read. -/
def bracket (s : Settings) : Nat → List Char → Option (CharClass × List Char)
  | 0, _ => none
  | fuel + 1, cs => do
    let (negated, cs) := match s.skip cs with
      | '^' :: cs => (true, cs)
      | cs => (false, cs)
    let (k, cs) := leadingHyphens s (cs.length + 1) .empty cs
    let (k, cs) := match k, cs with
      | .empty, ']' :: cs => (.single ']', cs)
      | k, cs => (k, cs)
    let (k, cs) ← bracketBody s fuel none k cs
    let k ← s.complement? negated (s.fold k)
    return (k, cs)

/-- The items of a class up to its closing bracket. Operations bind from left to right, and
less tightly than items standing side by side. -/
def bracketBody (s : Settings) :
    Nat → Option (SetOperation × CharClass) → CharClass → List Char →
      Option (CharClass × List Char)
  | 0, _, _, _ => none
  | fuel + 1, pending, k, cs =>
    match s.skip cs with
    | [] => none
    | ']' :: cs => some (settle s pending k, cs)
    | '[' :: cs =>
      match namedClass? cs with
      | some (negated, named, rest) => do
        let named ← s.complement? negated (s.fold named)
        bracketBody s fuel pending (.union k named) rest
      | none => do
        let (inner, rest) ← bracket s fuel cs
        bracketBody s fuel pending (.union k inner) rest
    | c :: cs =>
      match (if cs.head? = some c then SetOperation.ofSign? c else none) with
      | some op => bracketBody s fuel (some (op, settle s pending k)) .empty cs.tail
      | none => do
        let (item, rest) ← classRange s (c :: cs)
        bracketBody s fuel pending (.union k item) rest

end

/-! ## Repetitions -/

/-- Digits in front of a text. -/
def digits (s : Settings) : Nat → List Char → List Char × List Char
  | 0, cs => ([], cs)
  | fuel + 1, cs =>
    match cs with
    | c :: rest =>
      if c.isDigit then
        let (ds, rest) := digits s fuel (s.skip rest)
        (c :: ds, rest)
      else ([], cs)
    | [] => ([], [])

/-- A count, with blanks around it. -/
def count? (s : Settings) (cs : List Char) : Option Nat × List Char :=
  let isBlank (c : Char) : Bool := CharProperty.isBlank c.toNat
  let (ds, rest) := digits s (cs.length + 1) (cs.dropWhile isBlank)
  let n := ds.foldl (fun n c => 10 * n + (c.toNat - 48)) 0
  (if ds.isEmpty || Nat.pow 2 32 ≤ n then none else some n, rest.dropWhile isBlank)

/-- The least and the largest number of rounds, behind an opening brace. -/
def bounds? (s : Settings) (cs : List Char) : Option ((Nat × Option Nat) × List Char) :=
  match count? s (s.skip cs) with
  | (some low, '\x7d' :: cs) => some ((low, some low), cs)
  | (some low, ',' :: cs) =>
    match s.skip cs with
    | '\x7d' :: cs => some ((low, none), cs)
    | cs =>
      match count? s cs with
      | (some high, '\x7d' :: cs) => if low ≤ high then some ((low, some high), cs) else none
      | _ => none
  | _ => none

/-- Repeat the item read last. There has to be one, and a setting is none. -/
def repeatLast (least : Nat) (most : Option Nat) : List (Option Pattern) →
    Option (List (Option Pattern))
  | some p :: seen => some (some (.times p least most) :: seen)
  | _ => none

/-- A mark that prefers short repetitions changes no answer. -/
def skipLazy : List Char → List Char
  | '?' :: cs => cs
  | cs => cs

/-! ## Groups -/

/-- The settings in front of a colon or closing parenthesis: letters, of which each may stand
once, and one minus, behind which they are turned off. -/
def settings? : Settings → Bool → List Char → List Char → Option (Settings × List Char)
  | _, _, _, [] => none
  | s, on, seen, c :: cs =>
    if c = ':' ∨ c = ')' then
      if seen.head? = some '-' then none else some (s, c :: cs)
    else if c ∈ seen then none
    else if c = '-' then settings? s false (c :: seen) cs
    else (s.set? c on).bind fun s => settings? s on (c :: seen) cs

/-- Whether a character may stand in the name of a group. -/
def isNameChar (isFirst : Bool) (c : Char) : Bool :=
  let g := Category.of c
  c == '_' || g.isLetter || g == .letterNumber
    || (!isFirst && (g.isNumber || c == '.' || c == '[' || c == ']'))

/-- The name of a group, up to the closing angle. -/
def groupName? (cs : List Char) : Option (List Char × List Char) :=
  match cs.span (· != '>') with
  | (c :: name, _ :: rest) =>
    if isNameChar true c && name.all (isNameChar false) then some (c :: name, rest) else none
  | _ => none

/-- What the reader carries through the text. -/
structure Context where
  settings : Settings := {}
  /-- The names of the groups so far, which are distinct. -/
  names : List (List Char) := []

/-- A dot. -/
def dot? (s : Settings) : Option CharClass :=
  if !s.unicode then none
  else if s.dotAll then some (.property .any)
  else if s.carriageReturn then some (.compl (CharClass.ranges [('\r', '\r'), ('\n', '\n')]))
  else some (.compl (.single '\n'))

/-- One item that is neither group nor class. -/
def single? (s : Settings) (c : Char) (cs : List Char) : Option (Pattern × List Char) :=
  match c with
  | '.' => (dot? s).map fun k => (.char k, cs)
  | '^' =>
    some (.assertion (if s.multiLine then .lineStart s.carriageReturn else .textStart), cs)
  | '$' => some (.assertion (if s.multiLine then .lineEnd s.carriageReturn else .textEnd), cs)
  | '\\' => (escape s cs).map fun (e, cs) =>
    (match e with
      | .literal c => .char (s.fold (.single c))
      | .class k => .char k
      | .place a => .assertion a, cs)
  | c => some (.char (s.fold (.single c)), cs)

/-- The items of a branch, last one first, as one pattern. -/
def sequence (items : List (Option Pattern)) : Pattern :=
  match items.filterMap id with
  | [] => .empty
  | p :: ps => ps.foldl (fun acc q => .seq q acc) p

mutual

/-- Branches up to a closing parenthesis or the end of the text. -/
def branches : Nat → Context → List Char → Option (Pattern × Context × List Char)
  | 0, _, _ => none
  | fuel + 1, ctx, cs => do
    let (p, ctx, cs) ← branch fuel ctx [] cs
    match cs with
    | '|' :: cs => do
      let (q, ctx, cs) ← branches fuel ctx cs
      return (.alt p q, ctx, cs)
    | cs => return (p, ctx, cs)

/-- The items of one branch; `seen` holds those read so far, last one first, with `none` for a
setting. -/
def branch : Nat → Context → List (Option Pattern) → List Char →
    Option (Pattern × Context × List Char)
  | 0, _, _, _ => none
  | fuel + 1, ctx, seen, cs =>
    match ctx.settings.skip cs with
    | [] => some (sequence seen, ctx, [])
    | c :: cs =>
      match c with
      | '|' => some (sequence seen, ctx, c :: cs)
      | ')' => some (sequence seen, ctx, c :: cs)
      | '(' => do
        let (item, ctx, cs) ← group fuel ctx (ctx.settings.skip cs)
        branch fuel ctx (item :: seen) cs
      | '[' => do
        let (k, cs) ← bracket ctx.settings (2 * cs.length + 2) cs
        branch fuel ctx (some (.char k) :: seen) cs
      | '*' => (repeatLast 0 none seen).bind fun seen => branch fuel ctx seen (skipLazy cs)
      | '+' => (repeatLast 1 none seen).bind fun seen => branch fuel ctx seen (skipLazy cs)
      | '?' => (repeatLast 0 (some 1) seen).bind fun seen => branch fuel ctx seen (skipLazy cs)
      | '\x7b' => do
        let ((least, most), cs) ← bounds? ctx.settings cs
        let seen ← repeatLast least most seen
        branch fuel ctx seen (skipLazy (ctx.settings.skip cs))
      | c => do
        let (p, cs) ← single? ctx.settings c cs
        branch fuel ctx (some p :: seen) cs

/-- A group whose opening parenthesis has been read. Settings inside it end with it. Looking
ahead and looking behind are not known. -/
def group : Nat → Context → List Char → Option (Option Pattern × Context × List Char)
  | 0, _, _ => none
  | fuel + 1, ctx, cs =>
    let inside (inner : Context) (cs : List Char) :
        Option (Option Pattern × Context × List Char) := do
      let (p, after, cs) ← branches fuel inner cs
      match cs with
      | ')' :: cs => return (some p, { after with settings := ctx.settings }, cs)
      | _ => none
    let named (cs : List Char) : Option (Option Pattern × Context × List Char) := do
      let (name, cs) ← groupName? cs
      if name ∈ ctx.names then none else inside { ctx with names := name :: ctx.names } cs
    match cs with
    | '?' :: '<' :: cs =>
      match cs with
      | '=' :: _ => none
      | '!' :: _ => none
      | cs => named cs
    | '?' :: 'P' :: '<' :: cs => named cs
    | '?' :: ')' :: _ => none
    | '?' :: cs => do
      let (s, cs) ← settings? ctx.settings true [] cs
      match cs with
      | ':' :: cs => inside { ctx with settings := s } cs
      | _ :: cs => return (none, { ctx with settings := s }, cs)
      | [] => none
    | cs => inside ctx cs

end

/-- How large a pattern may be with its repetitions written out. -/
def weightLimit : Nat := 250000

/-- **The pattern that a text describes.** -/
def ofText? (text : String) : Option Pattern :=
  let cs := text.toList
  match branches (3 * cs.length + 3) {} cs with
  | some (p, _, []) => if p.weight ≤ weightLimit then some p else none
  | _ => none

/-! ## Engines -/

/-- **What an engine of patterns does with a text**: it says which strings the text matches, unless
the text is no pattern to it. -/
abbrev Engine : Type := String → Option (String → Bool)

/-- The engine of the patterns that are read here. -/
def engine : Engine := fun text => (ofText? text).map accepts

end ShapeGraph.Pattern
