import ShapeGraph.Number.Rounding

/-!
# The fewest digits that read back

A positive finite double is the nearest double to a whole interval of reals. On the grid of
multiples of `10 ^ e` it is enough to look at the value's two neighbours: if any point of the
grid lies in the interval, one of these two does. The coarsest grid with a hit gives the fewest
digits, and of two hits the nearer one is taken.

* `Number.shortest` — the digits and the exponent of the decimal text
* `Tie` — which of two equally near decimals is taken; the two printed forms differ in it
-/

namespace ShapeGraph

/-- Which of two equally near decimals is taken. -/
inductive Tie
  | toEven
  | up
  deriving DecidableEq, Repr

/-- A positive decimal `digits · 10 ^ exponent`. -/
structure Decimal where
  digits : Nat
  exponent : Int
  deriving DecidableEq, Repr

namespace Decimal

/-- The digits as characters, the most significant one first. -/
def chars (x : Decimal) : List Char := Nat.toDigits 10 x.digits

/-- The place `k` of the point: the value is `0.d₁d₂… · 10 ^ k`. -/
def point (x : Decimal) : Int := (x.chars.length : Int) + x.exponent

/-- Move trailing zeros from the digits into the exponent; at most `fuel` of them. -/
def trimmed : Nat → Decimal → Decimal
  | 0, x => x
  | fuel + 1, x =>
    if x.digits != 0 && x.digits % 10 == 0 then trimmed fuel ⟨x.digits / 10, x.exponent + 1⟩
    else x

end Decimal

namespace Number

/-- The interval of reals that round to a double, in one unit: `low`, `value` and `high` count
quarters of `2 ^ q`, and the ends belong to the interval iff `closed`. Below a power of two the
doubles lie twice as dense. -/
structure Interval where
  low : Nat
  value : Nat
  high : Nat
  closed : Bool
  /-- The numerator of a quarter of `2 ^ q`. -/
  unitNum : Nat
  /-- The denominator of a quarter of `2 ^ q`. -/
  unitDen : Nat

/-- The interval of a positive finite double. -/
def interval (x : Number) : Interval :=
  let (m, q) := x.parts
  let low := if m = Nat.pow 2 fractionBits && decide (-1074 < q) then 4 * m - 1 else 4 * m - 2
  let (n, d) := if 2 ≤ q then (Nat.pow 2 (q - 2).toNat, 1) else (1, Nat.pow 2 (2 - q).toNat)
  ⟨low, 4 * m, 4 * m + 2, m % 2 == 0, n, d⟩

/-- The multiple of `10 ^ e` next to the value that lies in the interval, if there is one. -/
def Interval.hit? (i : Interval) (tie : Tie) (e : Int) : Option Nat :=
  -- everything below counts in steps of `gridDen⁻¹` of one unit of the grid
  let (num, den) :=
    if 0 ≤ e then (i.unitNum, i.unitDen * Nat.pow 10 e.toNat)
    else (i.unitNum * Nat.pow 10 (-e).toNat, i.unitDen)
  let below := i.value * num / den
  let remainder := i.value * num % den
  let above := below + 1
  let lowIn := if i.closed then decide (i.low * num ≤ below * den)
    else decide (i.low * num < below * den)
  let highIn := if i.closed then decide (above * den ≤ i.high * num)
    else decide (above * den < i.high * num)
  let nearerAbove := decide (den < 2 * remainder) ||
    (2 * remainder == den && (tie == .up || below % 2 == 1))
  match lowIn && below != 0, highIn with
  | true, true => some (if nearerAbove then above else below)
  | true, false => some below
  | false, true => some above
  | false, false => none

/-- The least `k` with `value < 10 ^ k`, from a guess that is at most a few too small. -/
def Interval.magnitude (i : Interval) : Nat → Int → Int
  | 0, k => k
  | fuel + 1, k =>
    let smaller :=
      if 0 ≤ k then decide (i.value * i.unitNum < Nat.pow 10 k.toNat * i.unitDen)
      else decide (i.value * i.unitNum * Nat.pow 10 (-k).toNat < i.unitDen)
    if smaller then k else i.magnitude fuel (k + 1)

/-- Try grids from coarse to fine: `k - 1` is the exponent of the leading digit. -/
def Interval.search (i : Interval) (tie : Tie) (k : Int) : Nat → Nat → Decimal
  | 0, n => ⟨0, k - n⟩
  | fuel + 1, n =>
    match i.hit? tie (k - n) with
    | some digits => ⟨digits, k - n⟩
    | none => i.search tie k fuel (n + 1)

/-- The fewest digits that read back as a positive finite double. Seventeen always do. -/
def shortest (tie : Tie) (x : Number) : Decimal :=
  let i := x.interval
  let (m, q) := x.parts
  let guess : Int := ((m.log2 : Int) + q) * 30103 / 100000
  let k := i.magnitude 4 guess
  Decimal.trimmed 20 (i.search tie k 20 1)

/-! ## Instances that pin the digits down -/

example : shortest .toEven (ofDecimal false 1 (-1)) = ⟨1, -1⟩ := by decide +kernel
example : shortest .toEven (ofDecimal false 5 (-324)) = ⟨5, -324⟩ := by decide +kernel
example : shortest .toEven (ofDecimal false 17976931348623157 292) = ⟨17976931348623157, 292⟩ := by
  decide +kernel
example : shortest .toEven ((ofDecimal false 1 (-1)).add (ofDecimal false 2 (-1))) =
    ⟨30000000000000004, -17⟩ := by decide +kernel
example : shortest .toEven (ofInt 1000) = ⟨1, 3⟩ := by decide +kernel
-- two decimals of seventeen digits are equally near
example : shortest .toEven (ofDecimal false 112589990684262425 (-2)) = ⟨11258999068426242, -1⟩ ∧
    shortest .up (ofDecimal false 112589990684262425 (-2)) = ⟨11258999068426243, -1⟩ := by
  decide +kernel

end Number

end ShapeGraph
