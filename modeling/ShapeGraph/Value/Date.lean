import ShapeGraph.Number.Text

/-!
# Instants as text

An instant is a number of milliseconds since the start of 1970. Its text is the date of the
Gregorian calendar and the time of day, both without an offset. A year outside `0` to `9999` is
written with its sign.

* `Date.civil` — the calendar date of a day
* `Date.text` — the text of an instant
-/

namespace ShapeGraph.Date

/-- A calendar date. -/
structure Civil where
  year : Int
  month : Nat
  day : Nat
  deriving DecidableEq, Repr

/-- The calendar date of a day, counted from the first of January 1970. Years are taken from
March on, so that the leap day ends its year; 400 years have 146097 days. -/
def civil (days : Int) : Civil :=
  let shifted := days + 719468
  let era := shifted / 146097
  let dayOfEra := (shifted % 146097).toNat
  let yearOfEra := (dayOfEra - dayOfEra / 1460 + dayOfEra / 36524 - dayOfEra / 146096) / 365
  let dayOfYear := dayOfEra - (365 * yearOfEra + yearOfEra / 4 - yearOfEra / 100)
  let monthFromMarch := (5 * dayOfYear + 2) / 153
  let day := dayOfYear - (153 * monthFromMarch + 2) / 5 + 1
  let month := if monthFromMarch < 10 then monthFromMarch + 3 else monthFromMarch - 9
  let year := (yearOfEra : Int) + era * 400
  ⟨if month ≤ 2 then year + 1 else year, month, day⟩

/-- A natural number with at least `width` digits. -/
def padded (width n : Nat) : String :=
  let ds := Nat.toDigits 10 n
  String.ofList (List.replicate (width - ds.length) '0' ++ ds)

/-- Four digits, with the sign in front of a year that they cannot hold. -/
def yearText (year : Int) : String :=
  if 0 ≤ year ∧ year ≤ 9999 then padded 4 year.toNat
  else (if year < 0 then "-" else "+") ++ padded 4 year.natAbs

/-- The text of an instant, to the millisecond. -/
def text (millis : Int) : String :=
  let days := millis / 86400000
  let ofDay := (millis % 86400000).toNat
  let date := civil days
  yearText date.year ++ "-" ++ padded 2 date.month ++ "-" ++ padded 2 date.day ++ "T"
    ++ padded 2 (ofDay / 3600000) ++ ":" ++ padded 2 (ofDay / 60000 % 60) ++ ":"
    ++ padded 2 (ofDay / 1000 % 60) ++ "." ++ padded 3 (ofDay % 1000) ++ "Z"

example : civil 0 = ⟨1970, 1, 1⟩ := by decide
example : civil 11016 = ⟨2000, 2, 29⟩ := by decide
example : civil (-719529) = ⟨-1, 12, 31⟩ := by decide
example : civil 2932897 = ⟨10000, 1, 1⟩ := by decide

end ShapeGraph.Date
