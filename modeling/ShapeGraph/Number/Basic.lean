/-!
# Double-precision numbers

A double is kept as its sign and the **ordinal** of its absolute value: `0` is zero, each step
is the next larger double, `infinityOrdinal` is infinity, and one ordinal beyond stands for the
value that is not a number. Order and equality are then order and equality of integers, and
every other operation is exact arithmetic on `Nat` and `Int`.

* `Number.key` — the place of a number in the total order (zero of either sign in one place,
  not-a-number last)
* `Number.same` — numeric equality, which not-a-number fails even with itself
* `Number.parts` — a finite number as `m · 2 ^ q`
-/

namespace ShapeGraph

/-- A double-precision number. -/
structure Number where
  /-- Whether the sign is minus; zero has both signs. -/
  negative : Bool
  /-- The place of the absolute value among the non-negative doubles. -/
  ordinal : Nat
  deriving DecidableEq, Repr, Inhabited

namespace Number

/-! ## The special values -/

/-- The number of bits behind the leading bit of a mantissa. -/
def fractionBits : Nat := 52

/-- The ordinal of infinity: the exponent field is all ones, the fraction zero. -/
def infinityOrdinal : Nat := 2047 * Nat.pow 2 fractionBits

def zero : Number := ⟨false, 0⟩

def infinity (negative : Bool) : Number := ⟨negative, infinityOrdinal⟩

/-- The one value that is not a number. -/
def nan : Number := ⟨false, infinityOrdinal + 1⟩

def isNaN (x : Number) : Bool := infinityOrdinal < x.ordinal

def isFinite (x : Number) : Bool := x.ordinal < infinityOrdinal

def isInfinite (x : Number) : Bool := x.ordinal == infinityOrdinal

def isZero (x : Number) : Bool := x.ordinal == 0

/-- The same number with the other sign. -/
def neg (x : Number) : Number := { x with negative := !x.negative }

/-- The number without its sign. -/
def abs (x : Number) : Number := { x with negative := false }

/-! ## Order -/

/-- The place in the total order. Both zeros share one place; not-a-number comes last. -/
def key (x : Number) : Int :=
  if x.isNaN then infinityOrdinal + 1
  else if x.negative then -(x.ordinal : Int) else x.ordinal

/-- Numeric equality. -/
def same (x y : Number) : Bool := !x.isNaN && !y.isNaN && x.key == y.key

/-- Numeric `≤`; not-a-number is comparable with nothing. -/
def le (x y : Number) : Bool := !x.isNaN && !y.isNaN && decide (x.key ≤ y.key)

theorem same_iff {x y : Number} :
    x.same y = true ↔ x.isNaN = false ∧ y.isNaN = false ∧ x.key = y.key := by
  simp [same, and_assoc]

theorem same_comm (x y : Number) : x.same y = y.same x := by
  rw [Bool.eq_iff_iff, same_iff, same_iff]
  constructor <;> exact fun ⟨a, b, c⟩ => ⟨b, a, c.symm⟩

theorem same_trans {x y z : Number} (h : x.same y = true) (h' : y.same z = true) :
    x.same z = true := by
  rw [same_iff] at *
  exact ⟨h.1, h'.2.1, h.2.2.trans h'.2.2⟩

/-- **Every number but not-a-number equals itself.** -/
theorem same_self (x : Number) : x.same x = !x.isNaN := by
  simp [same]

/-! ## The value -/

/-- A finite number's absolute value as `m · 2 ^ q`. The exponent field `0` holds the numbers
below the normal range, which have no leading bit. -/
def parts (x : Number) : Nat × Int :=
  let field := x.ordinal / Nat.pow 2 fractionBits
  let fraction := x.ordinal % Nat.pow 2 fractionBits
  if field = 0 then (fraction, -1074) else (fraction + Nat.pow 2 fractionBits, (field : Int) - 1075)

/-- A finite number's absolute value as a quotient. -/
def ratio (x : Number) : Nat × Nat :=
  let (m, q) := x.parts
  if 0 ≤ q then (m * Nat.pow 2 q.toNat, 1) else (m, Nat.pow 2 (-q).toNat)

/-- Whether the number is finite and has no fractional part. -/
def isIntegral (x : Number) : Bool :=
  x.isFinite && (let (n, d) := x.ratio; n % d == 0)

/-- A finite number with its fractional part cut off. -/
def truncated (x : Number) : Int :=
  let (n, d) := x.ratio
  if x.negative then -((n / d : Nat) : Int) else (n / d : Nat)

/-- The integer that an integral number is. -/
def toInt? (x : Number) : Option Int := if x.isIntegral then some x.truncated else none

end Number

end ShapeGraph
