import ShapeGraph.Number.Shortest

/-!
# Numbers as text

Three texts of a number.

* `Number.plain` — the text of a number as an object key would have it: never an exponent, and
  the exact integer below `10 ^ 21`
* `Number.jsonText` — a floating-point literal of a JSON text: a point or an exponent always,
  an exponent outside `10 ^ -5` to `10 ^ 16`
* `Number.ofText?` — reading a decimal text, rounded to the nearest double
-/

namespace ShapeGraph.Number

/-- The decimal digits of a natural number. -/
def natText (n : Nat) : String := String.ofList (Nat.toDigits 10 n)

/-- The decimal text of an integer. -/
def intText (i : Int) : String :=
  if i < 0 then "-" ++ natText i.natAbs else natText i.natAbs

def signText (negative : Bool) : String := if negative then "-" else ""

def zeros (n : Nat) : List Char := List.replicate n '0'

/-! ## Writing -/

/-- Digits with a point at place `k`, in full; `whole` is what follows a whole number. -/
def positional (digits : List Char) (k : Int) (whole : List Char) : List Char :=
  if k ≤ 0 then '0' :: '.' :: zeros (-k).toNat ++ digits
  else if digits.length ≤ k.toNat then digits ++ zeros (k.toNat - digits.length) ++ whole
  else digits.take k.toNat ++ '.' :: digits.drop k.toNat

/-- Digits with one digit before the point and an exponent with its sign. -/
def scientific (digits : List Char) (k : Int) : List Char :=
  let e := k - 1
  digits.take 1 ++ (if 1 < digits.length then '.' :: digits.drop 1 else [])
    ++ 'e' :: (if e < 0 then '-' else '+') :: Nat.toDigits 10 e.natAbs

/-- The text of a number without any exponent; both zeros are `0`. -/
def plain (x : Number) : String :=
  if x.isNaN then "NaN"
  else if x.isInfinite then signText x.negative ++ "Infinity"
  else if x.isZero then "0"
  else if x.isIntegral && decide (x.truncated.natAbs < Nat.pow 10 21) then intText x.truncated
  else
    let d := shortest .up x
    signText x.negative ++ String.ofList (positional d.chars d.point [])

/-- The JSON text of a finite number that is not written as an integer. -/
def jsonText (x : Number) : String :=
  if x.isZero then signText x.negative ++ "0.0"
  else
    let d := shortest .toEven x
    let k := d.point
    signText x.negative ++ String.ofList
      (if -5 < k ∧ k ≤ 16 then positional d.chars k ['.', '0'] else scientific d.chars k)

/-! ## Reading -/

/-- The value of a run of digits. -/
def digitsValue (cs : List Char) : Nat :=
  cs.foldl (fun n c => 10 * n + (c.toNat - '0'.toNat)) 0

/-- A sign in front, when there is one. -/
def splitSign : List Char → Bool × List Char
  | '-' :: cs => (true, cs)
  | '+' :: cs => (false, cs)
  | cs => (false, cs)

/-- The integer that an optional sign and digits stand for. -/
def intOfText? (text : String) : Option Int :=
  let (negative, cs) := splitSign text.toList
  if cs.isEmpty || !cs.all Char.isDigit then none
  else
    let n : Int := digitsValue cs
    some (if negative then -n else n)

/-- The double nearest to a decimal text: digits with an optional point and exponent, or one of
the names of the special values. -/
def ofText? (text : String) : Option Number :=
  let (negative, cs) := splitSign text.toList
  if cs = "NaN".toList then some nan
  else if cs = "Infinity".toList then some (infinity negative)
  else
    let whole := cs.takeWhile Char.isDigit
    let rest := cs.dropWhile Char.isDigit
    let (fraction, rest) := match rest with
      | '.' :: r => (r.takeWhile Char.isDigit, r.dropWhile Char.isDigit)
      | r => ([], r)
    if whole.isEmpty && fraction.isEmpty then none
    else
      let digits := digitsValue (whole ++ fraction)
      let shift : Int := -(fraction.length : Int)
      match rest with
      | [] => some (ofDecimal negative digits shift)
      | c :: r =>
        if c = 'e' ∨ c = 'E' then
          (intOfText? (String.ofList r)).map fun e => ofDecimal negative digits (shift + e)
        else none

end ShapeGraph.Number
