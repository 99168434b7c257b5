import ShapeGraph.Filter.Basic
import ShapeGraph.Json.Reader

/-!
# The words of filters

A filter's text is a row of tokens. Blanks may stand between tokens, and a `#` starts a comment
that ends with its line. A point and a name behind it make one token.

* `Filter.Token.ofText?` — the tokens of a text

## Termination

`tokens` runs on fuel; each token takes at least one character, so the length of the text is
enough.
-/

namespace ShapeGraph.Filter

inductive Token
  | word (name : String)
  /-- A point with a name behind it. -/
  | field (name : String)
  | variable (name : String)
  | number (j : Json)
  | quoted (s : String)
  | symbol (text : String)
  deriving Repr

namespace Token

def isWordStart (c : Char) : Bool := c.isAlpha || c = '_'

def isWordPart (c : Char) : Bool := c.isAlphanum || c = '_'

/-- The characters of a word in front of a text, and the rest. -/
def spanWord : Text → List Char × Text
  | some c :: t =>
    if isWordPart c then
      let (cs, rest) := spanWord t
      (c :: cs, rest)
    else ([], some c :: t)
  | t => ([], t)

/-- Skip blanks and comments; `true` stands for the inside of a comment. -/
def skipSpace : Bool → Text → Text
  | _, [] => []
  | true, c :: t => skipSpace (c != some '\n') t
  | false, c :: t =>
    match c with
    | some '#' => skipSpace true t
    | some d => if Json.isBlank d then skipSpace false t else c :: t
    | none => c :: t

/-- Symbols of two characters. -/
def pairs : List String := ["==", "!=", "<=", ">="]

/-- Symbols of one character. -/
def singles : List Char :=
  ['.', '[', ']', '(', ')', '\x7b', '\x7d', '|', ',', ':', ';', '?', '+', '-', '<', '>']

/-- The symbol in front of a text. -/
def symbol? : Text → Option (Token × Text)
  | some c :: some d :: t =>
    let pair := String.ofList [c, d]
    if pairs.contains pair then some (.symbol pair, t)
    else if singles.contains c then some (.symbol (String.singleton c), some d :: t)
    else none
  | [some c] => if singles.contains c then some (.symbol (String.singleton c), []) else none
  | _ => none

/-- A token named by the word in front of a text. -/
def named (make : String → Token) (t : Text) : Token × Text :=
  let (cs, rest) := spanWord t
  (make (String.ofList cs), rest)

/-- Whether a word starts here. -/
def startsWord : Text → Bool
  | some c :: _ => isWordStart c
  | _ => false

/-- The token in front of a text. -/
def next (t : Text) : Option (Token × Text) :=
  match t with
  | some '"' :: rest => (Json.string rest).toOption.map fun (s, rest) => (.quoted s, rest)
  | some '.' :: rest => if startsWord rest then some (named .field rest) else symbol? t
  | some '$' :: rest => if startsWord rest then some (named .variable rest) else none
  | some c :: _ =>
    if c.isDigit then
      ((Numeral.read t).toOption).bind fun (l, rest) =>
        l.value.toOption.map fun j => (.number j, rest)
    else if isWordStart c then some (named .word t)
    else symbol? t
  | _ => none

/-- All tokens of a text. -/
def tokens : Nat → Text → Option (List Token)
  | 0, _ => none
  | fuel + 1, t =>
    match skipSpace false t with
    | [] => some []
    | t => do
      let (token, t) ← next t
      return token :: (← tokens fuel t)

/-- **The tokens of a text, unless it holds something that is none.** -/
def ofText? (text : String) : Option (List Token) :=
  let t := Utf8.ofString text
  tokens (t.length + 1) t

end Token

end ShapeGraph.Filter
