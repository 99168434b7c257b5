import ShapeGraph.Value.Json

/-!
# Literals

The constants that a shape can ask for: null, booleans, numbers and strings.

* `Literal.holds` — whether a value is the literal; null stands for what is absent too
* `Literal.render` — the literal as text
* `Literal.le` — the order in which sets of literals are compared
-/

namespace ShapeGraph

inductive Literal
  | null
  | bool (b : Bool)
  | number (x : Number)
  | string (s : String)
  deriving DecidableEq, Repr

namespace Literal

/-- The literal of a JSON scalar. -/
def ofJson? : Json → Option Literal
  | .null => some .null
  | .bool b => some (.bool b)
  | .int n => some (.number (Number.ofInt n))
  | .float x => some (.number x)
  | .str s => some (.string s)
  | .arr _ => none
  | .obj _ => none

/-- Whether a value is the literal. -/
def holds : Literal → Value → Bool
  | .null, v => v.isNullish
  | .bool a, .bool b => a == b
  | .number x, .number y => x.same y
  | .string s, .string t => s == t
  | _, _ => false

def toValue : Literal → Value
  | .null => .null
  | .bool b => .bool b
  | .number x => .number x
  | .string s => .string s

def toJson (c : Literal) : Json := c.toValue.toJson

/-- The literal as text; only a string has quotes. -/
def render : Literal → String
  | .null => "null"
  | .bool b => if b then "true" else "false"
  | .number x => x.plain
  | .string s => Json.quote s

/-! ## Order -/

/-- The place among the kinds of literals. -/
def rank : Literal → Nat
  | .null => 0
  | .bool _ => 1
  | .number _ => 2
  | .string _ => 3

/-- The place among booleans and numbers. -/
def key : Literal → Int
  | .bool b => if b then 1 else 0
  | .number x => x.key
  | _ => 0

/-- The place among strings. -/
def label : Literal → String
  | .string s => s
  | _ => ""

/-- Null, false, true, the numbers with not-a-number last, the strings. Both zeros share one
place. -/
def le (a b : Literal) : Bool :=
  a.rank < b.rank
    || (a.rank == b.rank
      && (decide (a.key < b.key) || (a.key == b.key && decide (a.label ≤ b.label))))

/-- A literal that is not the number not-a-number is met by its own value. -/
theorem holds_toValue (c : Literal) (h : ∀ x, c = .number x → x.isNaN = false) :
    c.holds c.toValue = true := by
  cases c with
  | null => rfl
  | bool b => simp [holds, toValue]
  | number x => simp [holds, toValue, Number.same_self, h x rfl]
  | string s => simp [holds, toValue]

end Literal

end ShapeGraph
