import ShapeGraph.Entries
import ShapeGraph.Number.Rounding

/-!
# Values

What is decoded: a JSON tree and more. A value also knows absence (a property that is not there),
dates and big integers. Members of an object stand in order and have distinct keys.

* `Value.get`, `Value.item` — reading a member or a slot; what is not there reads as `undefined`
* `Value.tagKey?` — the text by which a value picks a branch of a tagged union
* `Value.depth` — how deep arrays and objects nest
-/

namespace ShapeGraph

inductive Value
  /-- A property or slot that is not there. -/
  | undefined
  | null
  | bool (b : Bool)
  | number (x : Number)
  | bigint (n : Int)
  | string (s : String)
  /-- Milliseconds since the start of 1970. -/
  | date (millis : Int)
  | array (items : List Value)
  | object (members : List (String × Value))
  deriving Inhabited, Repr

namespace Value

/-! ## Kinds of values -/

def isUndefined : Value → Bool
  | .undefined => true
  | _ => false

def isNullish : Value → Bool
  | .undefined => true
  | .null => true
  | _ => false

def string? : Value → Option String
  | .string s => some s
  | _ => none

def items? : Value → Option (List Value)
  | .array items => some items
  | _ => none

def members? : Value → Option (List (String × Value))
  | .object members => some members
  | _ => none

def number? : Value → Option Number
  | .number x => some x
  | _ => none

def isObject (v : Value) : Bool := v.members?.isSome

def isDate : Value → Bool
  | .date _ => true
  | _ => false

def isBigint : Value → Bool
  | .bigint _ => true
  | _ => false

/-! ## Reading -/

/-- The member under a key. -/
def get (v : Value) (key : String) : Value :=
  match v with
  | .object members => (Entries.get? members key).getD .undefined
  | _ => .undefined

/-- The item at an index. -/
def item (v : Value) (i : Nat) : Value :=
  match v with
  | .array items => items[i]?.getD .undefined
  | _ => .undefined

/-- The first of the items from an index on is the item at the index. -/
theorem headD_drop (items : List Value) (i : Nat) :
    (items.drop i).headD .undefined = (array items).item i := by
  rw [List.headD_eq_head?_getD, List.head?_drop]
  rfl

/-! ## Depth -/

mutual

/-- How deep arrays and objects nest; a scalar has depth `0`. -/
def depth : Value → Nat
  | .array items => depthItems items + 1
  | .object members => depthMembers members + 1
  | .undefined => 0
  | .null => 0
  | .bool _ => 0
  | .number _ => 0
  | .bigint _ => 0
  | .string _ => 0
  | .date _ => 0

def depthItems : List Value → Nat
  | [] => 0
  | v :: vs => max (depth v) (depthItems vs)

def depthMembers : List (String × Value) → Nat
  | [] => 0
  | (_, v) :: ms => max (depth v) (depthMembers ms)

end

theorem depth_le_depthItems {v : Value} {vs : List Value} (h : v ∈ vs) :
    v.depth ≤ depthItems vs := by
  induction vs with
  | nil => cases h
  | cons w ws ih =>
    simp only [depthItems]
    rcases List.mem_cons.mp h with rfl | h
    · exact Nat.le_max_left _ _
    · exact Nat.le_trans (ih h) (Nat.le_max_right _ _)

theorem depth_le_depthMembers {k : String} {v : Value} {ms : List (String × Value)}
    (h : (k, v) ∈ ms) : v.depth ≤ depthMembers ms := by
  induction ms with
  | nil => cases h
  | cons m ms ih =>
    obtain ⟨j, w⟩ := m
    simp only [depthMembers]
    rcases List.mem_cons.mp h with h | h
    · cases h
      exact Nat.le_max_left _ _
    · exact Nat.le_trans (ih h) (Nat.le_max_right _ _)

/-- **Reading an item of an array goes down**, whether the item is there or not. -/
theorem depth_item_lt (items : List Value) (i : Nat) :
    ((Value.array items).item i).depth < (Value.array items).depth := by
  simp only [item, depth]
  cases h : items[i]? with
  | none => simp [depth]
  | some v =>
    have := depth_le_depthItems (List.mem_of_getElem? h)
    simp only [Option.getD_some]
    omega

/-- **Reading a member of an object goes down**, whether the member is there or not. -/
theorem depth_get_lt (members : List (String × Value)) (key : String) :
    ((Value.object members).get key).depth < (Value.object members).depth := by
  simp only [get, depth]
  cases h : Entries.get? members key with
  | none => simp [depth]
  | some v =>
    have := depth_le_depthMembers (Entries.mem_of_get? h)
    simp only [Option.getD_some]
    omega

end Value

end ShapeGraph
