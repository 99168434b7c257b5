import ShapeGraph.Json.Problem
import ShapeGraph.Text.Utf8

/-!
# Number literals

Reading a number literal of a JSON text and finding its value.

A literal without point and exponent is an integer as long as it fits a 64-bit word. Any other
literal is a double, and its value is found in machine steps: as many leading digits as a 64-bit
word holds are converted to a double, which is then multiplied or divided by a power of ten. The
result can therefore differ in its last bit from the double nearest to the literal.

* `Numeral.read` — the literal in front of a text
* `Numeral.value` — its value
-/

namespace ShapeGraph

/-- A number literal, taken apart. -/
structure Numeral where
  negative : Bool
  whole : List Char
  /-- The digits behind the point. -/
  fraction : Option (List Char)
  /-- The sign and the digits of the exponent. -/
  exponent : Option (Bool × List Char)
  deriving Repr

namespace Numeral

/-! ## Reading -/

/-- The digits in front of a text, and the rest. -/
def spanDigits : Text → List Char × Text
  | some c :: t =>
    if c.isDigit then
      let (ds, rest) := spanDigits t
      (c :: ds, rest)
    else ([], some c :: t)
  | t => ([], t)

/-- The digits before the point: a zero stands alone. -/
def readWhole (t : Text) : Except Fault (List Char × Text) :=
  match spanDigits t with
  | ([], []) => .error .endInValue
  | ([], _) => .error .badNumber
  | ('0' :: _ :: _, _) => .error .badNumber
  | (ds, rest) => .ok (ds, rest)

/-- At least one digit. -/
def readDigits (t : Text) : Except Fault (List Char × Text) :=
  match spanDigits t with
  | ([], []) => .error .endInValue
  | ([], _) => .error .badNumber
  | (ds, rest) => .ok (ds, rest)

/-- The sign of an exponent, when there is one. -/
def readSign : Text → Bool × Text
  | some '-' :: t => (true, t)
  | some '+' :: t => (false, t)
  | t => (false, t)

/-- The exponent, when there is one. -/
def readExponent (t : Text) : Except Fault (Option (Bool × List Char) × Text) :=
  match t with
  | some c :: rest =>
    if c = 'e' ∨ c = 'E' then do
      let (negative, rest) := readSign rest
      let (ds, rest) ← readDigits rest
      return (some (negative, ds), rest)
    else .ok (none, t)
  | _ => .ok (none, t)

/-- The literal behind its sign. -/
def readUnsigned (negative : Bool) (t : Text) : Except Fault (Numeral × Text) := do
  let (whole, t) ← readWhole t
  let (fraction, t) ← match t with
    | some '.' :: rest => do
      let (ds, rest) ← readDigits rest
      pure (some ds, rest)
    | t => pure (none, t)
  let (exponent, t) ← readExponent t
  return (⟨negative, whole, fraction, exponent⟩, t)

/-- The literal in front of a text. -/
def read : Text → Except Fault (Numeral × Text)
  | some '-' :: t => readUnsigned true t
  | t => readUnsigned false t

/-! ## The value -/

/-- The largest value of a 64-bit word. -/
def wordLimit : Nat := Nat.pow 2 64 - 1

/-- The leading digits that fit a word, and the number of digits behind them. -/
def wholeDigits (ds : List Char) : Nat × Nat :=
  ds.foldl (fun (n, dropped) c =>
    let next := 10 * n + (c.toNat - 48)
    if dropped = 0 ∧ next ≤ wordLimit then (next, 0) else (n, dropped + 1)) (0, 0)

/-- Digits behind the point, taken over as long as they fit; how many were; whether all were. -/
def fractionDigits (n : Nat) (ds : List Char) : Nat × Nat × Bool :=
  ds.foldl (fun (n, taken, fits) c =>
    let next := 10 * n + (c.toNat - 48)
    if fits ∧ next ≤ wordLimit then (next, taken + 1, true) else (n, taken, false)) (n, 0, true)

/-- Multiply by a power of ten, in steps of at most `10 ^ 308`. -/
def scale : Nat → Number → Int → Except Fault Number
  | 0, x, _ => .ok x
  | fuel + 1, x, e =>
    if e.natAbs ≤ 308 then
      if 0 ≤ e then
        let y := x.mul (Number.ofDecimal false 1 e)
        if y.isInfinite then .error .numberOutOfRange else .ok y
      else .ok (x.div (Number.ofDecimal false 1 (-e)))
    else if x.isZero then .ok x
    else if 0 ≤ e then .error .numberOutOfRange
    else scale fuel (x.div (Number.ofDecimal false 1 308)) (e + 308)

/-- The double of a literal with a point, an exponent or too many digits. -/
def double (l : Numeral) : Except Fault Number := do
  let (n, dropped) := wholeDigits l.whole
  let (n, taken, _) := fractionDigits n (l.fraction.getD [])
  let (expNegative, expDigits) := l.exponent.getD (false, [])
  let e := Number.digitsValue expDigits
  let x ←
    if Nat.pow 2 31 ≤ e then
      if n != 0 && !expNegative then .error .numberOutOfRange else pure Number.zero
    else
      let shift : Int := (dropped : Int) - taken + (if expNegative then -(e : Int) else e)
      -- four divisions by the largest power take every word to zero
      scale 5 (Number.ofInt n) shift
  return { x with negative := l.negative }

/-- The value of a literal. Minus zero is a double. -/
def value (l : Numeral) : Except Fault Json :=
  let (n, dropped) := wholeDigits l.whole
  if l.fraction.isNone && l.exponent.isNone && dropped == 0 then
    if !l.negative then .ok (.int n)
    else if n = 0 then .ok (.float ⟨true, 0⟩)
    else if n ≤ Nat.pow 2 63 then .ok (.int (-(n : Int)))
    else .ok (.float (Number.ofInt n).neg)
  else l.double.map .float

end Numeral

end ShapeGraph
