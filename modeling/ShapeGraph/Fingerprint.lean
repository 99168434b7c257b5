import ShapeGraph.Shape.Basic
import ShapeGraph.Sorting

/-!
# Fingerprints of shapes

A fingerprint is a 32-bit number that equal shapes share whatever their definitions are called.
It is a rolling hash: the number so far times 31 plus the next number, in 32-bit words. Order
that does not matter to decoding is sorted away first.

A reference counts as the shape it leads to. One that leads back into a definition being hashed
counts as the number of references from there to here.

* `Fingerprint.combine`, `Fingerprint.combineAll` — the rolling hash
* `Fingerprint.ofString` — the hash of the UTF-16 units of a string
* `Shape.fingerprint`, `Graph.fingerprint`

## Termination

Along one chain of references no definition is opened twice, so the size of the graph bounds
the chain.
-/

namespace ShapeGraph

namespace Fingerprint

/-- One step of the rolling hash. -/
def combine (h x : Int32) : Int32 := h * 31 + x

def combineAll (seed : Int32) (xs : List Int32) : Int32 := xs.foldl combine seed

/-- The UTF-16 units of a character. -/
def units (c : Char) : List Nat :=
  let n := c.toNat
  if n < 0x10000 then [n]
  else [0xD800 + (n - 0x10000) / 0x400, 0xDC00 + (n - 0x10000) % 0x400]

/-- The hash of a string. -/
def ofString (s : String) : Int32 :=
  combineAll 0 ((s.toList.flatMap units).map fun n => Int32.ofNat n)

/-- The hash of a number is that of its text. -/
def ofNumber (x : Number) : Int32 := ofString x.plain

def ofLiteral (c : Literal) : Int32 := ofString c.render

/-- The number of a kind. -/
def ofKind (k : Kind) : Int32 :=
  match k with
  | .typeof => 1
  | .any => 2
  | .nullish => 3
  | .never => 4
  | .const => 5
  | .regex => 6
  | .date => 7
  | .bigint => 8
  | .stringWithFormats => 9
  | .numberWithFormats => 10
  | .anyOfConsts => 11
  | .tuple => 12
  | .allOf => 13
  | .anyOf => 14
  | .array => 15
  | .anyOfDiscriminated => 16
  | .optionalField => 17
  | .object => 18
  | .ref => 19

/-- A number of references as a word; the largest word stands for all that do not fit. -/
def ofDistance (n : Nat) : Int32 := Int32.ofNat (min n 2147483647)

/-- Names and their hashes, in the order of the names. -/
def combineNamed (seed : Int32) (entries : List (String × Int32)) : Int32 :=
  (sortByName entries).foldl (fun h e => combine (combine h (ofString e.1)) e.2) seed

/-- Names of formats, whose order does not matter. -/
def ofFormats (k : Kind) (formats : List String) : Int32 :=
  combineAll (ofKind k) ((sortBy stringLe formats).map ofString)

theorem combineAll_append (seed : Int32) (xs ys : List Int32) :
    combineAll seed (xs ++ ys) = combineAll (combineAll seed xs) ys := by
  simp [combineAll]

end Fingerprint

namespace Shape

open Fingerprint

variable (onRef : Nat → String → Int32)

mutual

/-- **The fingerprint of a shape**, given those of the references. -/
def fingerprint : Shape → Int32
  | .base type => combine (ofKind .typeof) (ofString type.name)
  | .any => ofKind .any
  | .nullish => ofKind .nullish
  | .never => ofKind .never
  | .literal c => combine (ofKind .const) (ofLiteral c)
  | .pattern text _ _ => combine (ofKind .regex) (ofString text)
  | .date => ofKind .date
  | .bigint => ofKind .bigint
  | .stringFormats formats => ofFormats .stringWithFormats formats
  | .numberFormats formats => ofFormats .numberWithFormats formats
  | .literals cs => combineAll (ofKind .anyOfConsts) ((sortBy Literal.le cs).map ofLiteral)
  | .tuple slots none => combineAll (ofKind .tuple) (fingerprintAll slots)
  | .tuple slots (some rest) =>
    combine (combineAll (ofKind .tuple) (fingerprintAll slots)) (fingerprint rest)
  | .allOf members => combineAll (ofKind .allOf) (fingerprintAll members)
  | .anyOf members => combineAll (ofKind .anyOf) (fingerprintAll members)
  | .array item => combine (ofKind .array) (fingerprint item)
  | .tagged _ tag branches =>
    combineNamed (combine (ofKind .anyOfDiscriminated) (ofString tag))
      (fingerprintNamed branches)
  | .optional inner => combine (ofKind .optionalField) (fingerprint inner)
  | .object properties signatures =>
    combineAll (combineNamed (ofKind .object) (fingerprintNamed properties))
      (sortBy (fun a b => decide (a ≤ b)) (fingerprintPairs signatures))
  | .ref place name => onRef place name

def fingerprintAll : List Shape → List Int32
  | [] => []
  | s :: shapes => fingerprint s :: fingerprintAll shapes

def fingerprintNamed : List (String × Shape) → List (String × Int32)
  | [] => []
  | (k, s) :: entries => (k, fingerprint s) :: fingerprintNamed entries

def fingerprintPairs : List (Shape × Shape) → List Int32
  | [] => []
  | (a, b) :: pairs => combine (fingerprint a) (fingerprint b) :: fingerprintPairs pairs

end

end Shape

namespace Graph

open Fingerprint

/-- The fingerprint of a reference, where the references in `stack` are being hashed, innermost
first, and at most `fuel` more are opened. -/
def fingerprintRef (g : Graph) : Nat → List Nat → Nat → String → Int32
  | 0, _, _, name => combine (ofKind .ref) (ofString name)
  | fuel + 1, stack, place, name =>
    match stack.findIdx? (· == place) with
    | some i => combine (ofKind .ref) (ofDistance (i + 1))
    | none =>
      match g.shape? place with
      | some s => s.fingerprint (fingerprintRef g fuel (place :: stack))
      | none => combine (ofKind .ref) (ofString name)

/-- **The fingerprint of a shape**, with references read in the graph. -/
def fingerprint (g : Graph) (s : Shape) : Int32 :=
  s.fingerprint (g.fingerprintRef (g.size + 1) [])

end Graph

end ShapeGraph
