import ShapeGraph.Number.Basic

/-!
# Rounding to a double

The double nearest to a quotient of natural numbers; of two equally near ones the one whose
mantissa is even. All arithmetic on doubles is exact arithmetic followed by this one rounding.

* `roundHalfEven` — a quotient to the nearest integer, halves to the even one
* `ordinalOfRatio` — the ordinal of the nearest double
* `Number.ofRatio`, `ofInt`, `ofDecimal`, `add`, `mul`, `div`, `rem`
-/

namespace ShapeGraph.Number

/-! ## Rounding a quotient -/

/-- `n / d` to the nearest natural number, halves to the even one. -/
def roundHalfEven (n d : Nat) : Nat :=
  let q := n / d
  let r := n % d
  if 2 * r < d then q else if d < 2 * r then q + 1 else q + q % 2

/-- An exact quotient is kept. -/
theorem roundHalfEven_of_dvd {n d : Nat} (hd : 0 < d) (h : n % d = 0) :
    roundHalfEven n d = n / d := by
  simp [roundHalfEven, h, hd]

/-- `n / d` in units of `2 ^ e`, as a quotient again. -/
def scaled (n d : Nat) (e : Int) : Nat × Nat :=
  if 0 ≤ e then (n, d * Nat.pow 2 e.toNat) else (n * Nat.pow 2 (-e).toNat, d)

/-- The ordinal of the double nearest to `n / d`. The unit `2 ^ e` is the one in which the
quotient has 53 bits, but never less than `2 ^ (-1074)`; the ordinal then is the rounded
quotient plus `2 ^ 52` for every larger unit. -/
def ordinalOfRatio (n d : Nat) : Nat :=
  if n = 0 then 0 else
  let e₀ : Int := max ((n.log2 : Int) - d.log2 - 53) (-1074)
  let (a, b) := scaled n d e₀
  let e : Int := if a / b < Nat.pow 2 53 then e₀ else e₀ + 1
  let (a, b) := scaled n d e
  min ((e + 1074).toNat * Nat.pow 2 fractionBits + roundHalfEven a b) infinityOrdinal

/-- The double nearest to `± n / d`. -/
def ofRatio (negative : Bool) (n d : Nat) : Number := ⟨negative, ordinalOfRatio n d⟩

/-- The double nearest to an integer. -/
def ofInt (i : Int) : Number := ofRatio (decide (i < 0)) i.natAbs 1

/-- The double nearest to `± digits · 10 ^ exponent`. Exponents beyond every double are
answered without building the power. -/
def ofDecimal (negative : Bool) (digits : Nat) (exponent : Int) : Number :=
  if digits = 0 then ⟨negative, 0⟩
  else if 400 < exponent then infinity negative
  else if exponent + (digits.log2 : Int) < -1200 then ⟨negative, 0⟩
  else if 0 ≤ exponent then ofRatio negative (digits * Nat.pow 10 exponent.toNat) 1
  else ofRatio negative digits (Nat.pow 10 (-exponent).toNat)

/-! ## Arithmetic -/

/-- The double nearest to a signed quotient; an exact zero has the sign `zeroSign`. -/
def ofSigned (zeroSign : Bool) (n : Int) (d : Nat) : Number :=
  if n = 0 then ⟨zeroSign, 0⟩ else ofRatio (decide (n < 0)) n.natAbs d

/-- A finite number as a signed quotient. -/
def signedRatio (x : Number) : Int × Nat :=
  let (n, d) := x.ratio
  (if x.negative then -(n : Int) else n, d)

/-- Sum. -/
def add (x y : Number) : Number :=
  if x.isNaN || y.isNaN then nan
  else if x.isInfinite then
    if y.isInfinite && x.negative != y.negative then nan else x
  else if y.isInfinite then y
  else
    let (a, b) := x.signedRatio
    let (c, d) := y.signedRatio
    ofSigned (x.negative && y.negative) (a * d + c * b) (b * d)

/-- Product. -/
def mul (x y : Number) : Number :=
  let negative := x.negative != y.negative
  if x.isNaN || y.isNaN then nan
  else if x.isInfinite || y.isInfinite then
    if x.isZero || y.isZero then nan else infinity negative
  else
    let (a, b) := x.ratio
    let (c, d) := y.ratio
    ofRatio negative (a * c) (b * d)

/-- Quotient. -/
def div (x y : Number) : Number :=
  let negative := x.negative != y.negative
  if x.isNaN || y.isNaN then nan
  else if x.isInfinite then (if y.isInfinite then nan else infinity negative)
  else if y.isInfinite then ⟨negative, 0⟩
  else if y.isZero then (if x.isZero then nan else infinity negative)
  else
    let (a, b) := x.ratio
    let (c, d) := y.ratio
    ofRatio negative (a * d) (b * c)

/-- Remainder of the division that cuts the quotient off toward zero; its sign is that of the
dividend. -/
def rem (x y : Number) : Number :=
  if x.isNaN || y.isNaN || x.isInfinite || y.isZero then nan
  else if y.isInfinite then x
  else
    let (a, b) := x.ratio
    let (c, d) := y.ratio
    ofRatio x.negative ((a * d) % (c * b)) (b * d)

/-! ## Instances that pin the rounding down -/

example : ofRatio false 1 2 = ⟨false, 1022 * Nat.pow 2 52⟩ := by decide +kernel
example : ofInt 9007199254740993 = ofInt 9007199254740992 := by decide +kernel
example : ofInt 9007199254740995 = ofInt 9007199254740996 := by decide +kernel
example : ofDecimal false 5 (-324) = ⟨false, 1⟩ := by decide +kernel
example : ofDecimal false 2 (-324) = ⟨false, 0⟩ := by decide +kernel
example : ofDecimal false 1 309 = infinity false := by decide +kernel
example : (ofDecimal false 1 (-1)).add (ofDecimal false 2 (-1)) =
    ofDecimal false 30000000000000004 (-17) := by decide +kernel
example : (ofInt (-7)).rem (ofInt 2) = ofInt (-1) := by decide +kernel

end ShapeGraph.Number
