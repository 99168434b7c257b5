import ShapeGraph.Pattern.CharClass

/-!
# Patterns

A pattern describes strings: characters, assertions about a place between two characters,
sequence, choice and repetition. A pattern matches a string when some part of the string is as
described.

Matching goes through the string once and keeps the list of what may still have to come: the
pattern itself at every place, and the rests of those begun before. One character takes a
pattern to its rests (`Pattern.rests`), and a pattern is done at a place where it accepts
nothing more (`Pattern.acceptsEmpty`).

* `Pattern.rests`, `Pattern.acceptsEmpty` — one step
* `Pattern.accepts` — the search
* `Pattern.weight` — the size of a pattern with its repetitions written out
-/

namespace ShapeGraph

/-- A condition on a place in a string. -/
inductive Assertion
  | textStart
  | textEnd
  /-- At the start of a line; lines may end in a carriage return as well. -/
  | lineStart (carriageReturn : Bool)
  | lineEnd (carriageReturn : Bool)
  | wordBoundary (asciiOnly : Bool)
  | noWordBoundary (asciiOnly : Bool)
  | wordStart (asciiOnly : Bool)
  | wordEnd (asciiOnly : Bool)
  /-- No word character before the place. -/
  | wordStartHalf (asciiOnly : Bool)
  /-- No word character after the place. -/
  | wordEndHalf (asciiOnly : Bool)
  deriving BEq, DecidableEq, Repr

/-- Whether a character, if there is one, is a word character. -/
def Assertion.isWord (asciiOnly : Bool) (c : Option Char) : Bool :=
  match c with
  | none => false
  | some c => if asciiOnly then c.isAlphanum || c == '_' else CharProperty.isWord c

/-- Whether the condition holds between two characters, each of which may be missing. -/
def Assertion.holds (a : Assertion) (before after : Option Char) : Bool :=
  match a with
  | .textStart => before.isNone
  | .textEnd => after.isNone
  | .lineStart cr =>
    if cr then
      before.isNone || before == some '\n' || (before == some '\r' && after != some '\n')
    else before.isNone || before == some '\n'
  | .lineEnd cr =>
    if cr then
      after.isNone || after == some '\r' || (after == some '\n' && before != some '\r')
    else after.isNone || after == some '\n'
  | .wordBoundary ascii => isWord ascii before != isWord ascii after
  | .noWordBoundary ascii => isWord ascii before == isWord ascii after
  | .wordStart ascii => !isWord ascii before && isWord ascii after
  | .wordEnd ascii => isWord ascii before && !isWord ascii after
  | .wordStartHalf ascii => !isWord ascii before
  | .wordEndHalf ascii => !isWord ascii after

inductive Pattern
  | empty
  | char (k : CharClass)
  | assertion (a : Assertion)
  | seq (a b : Pattern)
  | alt (a b : Pattern)
  /-- At least `least` and at most `most` times. -/
  | times (a : Pattern) (least : Nat) (most : Option Nat)
  deriving BEq, DecidableEq, Repr, Inhabited

namespace Pattern

/-! ## One step -/

/-- Whether nothing more need come at a place between two characters. -/
def acceptsEmpty (before after : Option Char) : Pattern → Bool
  | .empty => true
  | .char _ => false
  | .assertion a => a.holds before after
  | .seq a b => acceptsEmpty before after a && acceptsEmpty before after b
  | .alt a b => acceptsEmpty before after a || acceptsEmpty before after b
  | .times a least _ => least == 0 || acceptsEmpty before after a

/-- A sequence whose first part may be done. -/
def andThen (a b : Pattern) : Pattern := if a == .empty then b else .seq a b

/-- What may have to come after a character `c`. A repetition whose body accepts nothing at this
place can make up all its missing rounds here. -/
def rests (before : Option Char) (c : Char) : Pattern → List Pattern
  | .empty => []
  | .char k => if k.holds c then [.empty] else []
  | .assertion _ => []
  | .seq a b =>
    (rests before c a).map (andThen · b)
      ++ (if acceptsEmpty before (some c) a then rests before c b else [])
  | .alt a b => rests before c a ++ rests before c b
  | .times a least most =>
    if most = some 0 then []
    else
      let least := if acceptsEmpty before (some c) a then 0 else least - 1
      (rests before c a).map (andThen · (.times a least (most.map (· - 1))))

/-! ## The search -/

/-- Put an element in front of a list unless it is there already. -/
def addNew (p : Pattern) (ps : List Pattern) : List Pattern := if ps.contains p then ps else p :: ps

/-- Whether one of the open patterns, or `whole` begun at a later place, gets done. -/
def search (whole : Pattern) : Option Char → List Pattern → List Char → Bool
  | before, ps, [] => ps.any (acceptsEmpty before none)
  | before, ps, c :: cs =>
    ps.any (acceptsEmpty before (some c)) ||
      search whole (some c) (addNew whole ((ps.flatMap (rests before c)).foldr addNew [])) cs

/-- **Whether some part of a string is as the pattern describes.** -/
def accepts (p : Pattern) (s : String) : Bool := search p none [p] s.toList

/-! ## Size -/

/-- The number of characters and assertions with all repetitions written out. -/
def weight : Pattern → Nat
  | .empty => 1
  | .char _ => 1
  | .assertion _ => 1
  | .seq a b => weight a + weight b
  | .alt a b => weight a + weight b + 1
  | .times a least most =>
    match most with
    | none => weight a * max least 1 + 1
    | some n => weight a * max n 1 + 1

end Pattern

end ShapeGraph
