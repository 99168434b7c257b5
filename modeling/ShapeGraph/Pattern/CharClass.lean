import ShapeGraph.Text.CaseFolding
import ShapeGraph.Text.Category

/-!
# Classes of characters

What a pattern says about one character, as an expression: ranges, named properties and the set
operations on them. Membership is evaluated, so that no operation needs a table of its own.

* `CharClass.holds` — membership
* `CharProperty.ofName?` — the property that a name stands for
-/

namespace ShapeGraph

/-- A named property of characters. -/
inductive CharProperty
  | any
  | ascii
  | assigned
  /-- Letters, marks, decimal digits, connectors and joiners. -/
  | word
  | blank
  | category (c : Category)
  | casedLetter
  | letter
  | mark
  | number
  | punctuation
  | symbol
  | separator
  | other
  deriving BEq, DecidableEq, Repr

namespace CharProperty

/-- White space. -/
def isBlank (n : Nat) : Bool :=
  (9 ≤ n && n ≤ 13) || n == 32 || n == 0x85 || n == 0xA0 || n == 0x1680
    || (0x2000 ≤ n && n ≤ 0x200A) || n == 0x2028 || n == 0x2029 || n == 0x202F || n == 0x205F
    || n == 0x3000

/-- Symbols that count as letters: circled and squared ones. -/
def isLetterSymbol (n : Nat) : Bool :=
  (0x24B6 ≤ n && n ≤ 0x24E9) || (0x1F130 ≤ n && n ≤ 0x1F149) || (0x1F150 ≤ n && n ≤ 0x1F169)
    || (0x1F170 ≤ n && n ≤ 0x1F189)

/-- Characters of words. -/
def isWord (c : Char) : Bool :=
  let g := Category.of c
  g.isLetter || g.isMark || g == .decimal || g == .letterNumber || g == .connector
    || isLetterSymbol c.toNat || c.toNat == 0x200C || c.toNat == 0x200D

/-- Whether a character has the property. -/
def holds (p : CharProperty) (c : Char) : Bool :=
  match p with
  | .any => true
  | .ascii => c.toNat < 128
  | .assigned => Category.of c != .unassigned
  | .word => isWord c
  | .blank => isBlank c.toNat
  | .category g => Category.of c == g
  | .casedLetter =>
    let g := Category.of c
    g == .upper || g == .lower || g == .title
  | .letter => (Category.of c).isLetter
  | .mark => (Category.of c).isMark
  | .number => (Category.of c).isNumber
  | .punctuation => (Category.of c).isPunctuation
  | .symbol => (Category.of c).isSymbol
  | .separator => (Category.of c).isSeparator
  | .other => (Category.of c).isOther

/-! ## Names -/

/-- The long names of properties; every category is known by its two letters as well. -/
def longNames : List (String × CharProperty) :=
  [("any", any), ("ascii", ascii), ("assigned", assigned), ("whitespace", blank),
   ("space", blank), ("wspace", blank), ("lc", casedLetter), ("casedletter", casedLetter),
   ("l", letter), ("letter", letter), ("m", mark), ("mark", mark), ("combiningmark", mark),
   ("n", number), ("number", number), ("p", punctuation), ("punctuation", punctuation),
   ("punct", punctuation), ("s", symbol), ("symbol", symbol), ("z", separator),
   ("separator", separator), ("c", other), ("other", other),
   ("uppercaseletter", category .upper), ("lowercaseletter", category .lower),
   ("titlecaseletter", category .title), ("modifierletter", category .modifierLetter),
   ("otherletter", category .otherLetter), ("nonspacingmark", category .nonspacing),
   ("spacingmark", category .spacing), ("enclosingmark", category .enclosing),
   ("decimalnumber", category .decimal), ("digit", category .decimal),
   ("letternumber", category .letterNumber), ("othernumber", category .otherNumber),
   ("connectorpunctuation", category .connector), ("dashpunctuation", category .dash),
   ("openpunctuation", category .opening), ("closepunctuation", category .closing),
   ("initialpunctuation", category .initialQuote), ("finalpunctuation", category .finalQuote),
   ("otherpunctuation", category .otherPunctuation), ("mathsymbol", category .math),
   ("currencysymbol", category .currency), ("modifiersymbol", category .modifierSymbol),
   ("othersymbol", category .otherSymbol), ("spaceseparator", category .space),
   ("lineseparator", category .line), ("paragraphseparator", category .paragraph),
   ("control", category .control), ("cntrl", category .control), ("format", category .format),
   ("privateuse", category .privateUse), ("unassigned", category .unassigned)]

/-- A name without case, blanks, hyphens and underscores, and without a leading `is`. -/
def normalized (name : List Char) : List Char :=
  let cs := (name.filter fun c => !(c == ' ' || c == '_' || c == '-')).map Char.toLower
  match cs with
  | 'i' :: 's' :: rest => if rest = ['c'] then cs else rest
  | cs => cs

/-- The property that a name stands for. -/
def ofName? (name : List Char) : Option CharProperty :=
  let cs := normalized name
  ((longNames.find? fun p => p.1.toList == cs).map (·.2)).or
    ((Category.names.find? fun p => p.1.toList.map Char.toLower == cs).bind fun p =>
      if p.2 == .surrogate then none else some (.category p.2))

end CharProperty

/-- What a pattern says about one character. -/
inductive CharClass
  | empty
  | range (low high : Nat)
  | property (p : CharProperty)
  | union (a b : CharClass)
  | inter (a b : CharClass)
  | diff (a b : CharClass)
  | compl (a : CharClass)
  /-- A character is in when one of its case variants is; of ASCII letters only, or of all. -/
  | anyCase (asciiOnly : Bool) (a : CharClass)
  deriving BEq, DecidableEq, Repr

namespace CharClass

/-- Membership. -/
def holds : CharClass → Char → Bool
  | .empty, _ => false
  | .range low high, c => low ≤ c.toNat && c.toNat ≤ high
  | .property p, c => p.holds c
  | .union a b, c => holds a c || holds b c
  | .inter a b, c => holds a c && holds b c
  | .diff a b, c => holds a c && !holds b c
  | .compl a, c => !holds a c
  | .anyCase asciiOnly a, c =>
    if asciiOnly then holds a c || holds a c.toLower || holds a c.toUpper
    else (CaseFolding.variants c.toNat).any fun n => holds a (Char.ofNat n)

/-- A single character. -/
def single (c : Char) : CharClass := .range c.toNat c.toNat

/-- Any of several ranges. -/
def ranges (rs : List (Char × Char)) : CharClass :=
  rs.foldl (fun k r => .union k (.range r.1.toNat r.2.toNat)) .empty

/-- In one class but not in both. -/
def symmetricDiff (a b : CharClass) : CharClass := .union (.diff a b) (.diff b a)

/-- The bracketed classes of ASCII characters that have a name. -/
def asciiNamed? (name : List Char) : Option CharClass :=
  let table : List (String × List (Char × Char)) :=
    [("alnum", [('0', '9'), ('A', 'Z'), ('a', 'z')]), ("alpha", [('A', 'Z'), ('a', 'z')]),
     ("ascii", [('\x00', '\x7f')]), ("blank", [('\t', '\t'), (' ', ' ')]),
     ("cntrl", [('\x00', '\x1f'), ('\x7f', '\x7f')]), ("digit", [('0', '9')]),
     ("graph", [('!', '~')]), ("lower", [('a', 'z')]), ("print", [(' ', '~')]),
     ("punct", [('!', '/'), (':', '@'), ('[', '\x60'), ('\x7b', '~')]),
     ("space", [('\t', '\r'), (' ', ' ')]), ("upper", [('A', 'Z')]),
     ("word", [('0', '9'), ('A', 'Z'), ('_', '_'), ('a', 'z')]),
     ("xdigit", [('0', '9'), ('A', 'F'), ('a', 'f')])]
  (table.find? fun p => p.1.toList == name).map fun p => ranges p.2

end CharClass

end ShapeGraph
