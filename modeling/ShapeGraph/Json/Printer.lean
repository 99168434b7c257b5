import ShapeGraph.Json.Basic
import ShapeGraph.Number.Text

/-!
# Writing JSON

Two layouts of one tree: compact, on one line without any space, and indented by two spaces a
level. Characters outside ASCII stand for themselves; a quote, a backslash and the control
characters below the space are escaped, five of them by a letter.

* `Json.quote` — a string as a JSON string literal
* `Json.compact` — the compact text
* `Json.indented` — the indented text
-/

namespace ShapeGraph.Json

/-! ## Strings -/

/-- A hexadecimal digit in lower case. -/
def hexChar (n : Nat) : Char := if n < 10 then Char.ofNat (48 + n) else Char.ofNat (87 + n)

/-- A control character below the space: five have a letter, the others are numbered. -/
def controlEscape : Nat → List Char
  | 8 => ['\\', 'b']
  | 9 => ['\\', 't']
  | 10 => ['\\', 'n']
  | 12 => ['\\', 'f']
  | 13 => ['\\', 'r']
  | n => ['\\', 'u', '0', '0', hexChar (n / 16), hexChar (n % 16)]

/-- One character of a string literal. -/
def escaped (c : Char) : List Char :=
  if c = '"' then ['\\', '"']
  else if c = '\\' then ['\\', '\\']
  else if c.toNat < 32 then controlEscape c.toNat
  else [c]

/-- A string as a JSON string literal. -/
def quote (s : String) : String :=
  String.ofList ('"' :: s.toList.flatMap escaped ++ ['"'])

/-- No literal holds a raw control character. -/
theorem escaped_printable (c : Char) : ∀ d ∈ escaped c, 32 ≤ d.toNat := by
  intro d hd
  unfold escaped at hd
  split at hd
  · simp only [List.mem_cons, List.not_mem_nil, or_false] at hd
    rcases hd with rfl | rfl <;> decide
  · split at hd
    · simp only [List.mem_cons, List.not_mem_nil, or_false] at hd
      rcases hd with rfl | rfl <;> decide
    · split at hd
      · next h =>
        have hall : (List.range 32).all
            (fun n => (controlEscape n).all fun d => 32 ≤ d.toNat) = true := by decide
        have := List.all_eq_true.mp (List.all_eq_true.mp hall c.toNat (List.mem_range.mpr h)) d hd
        simpa using this
      · next h =>
        simp only [List.mem_cons, List.not_mem_nil, or_false] at hd
        subst hd
        omega

/-! ## Compact -/

mutual

/-- The text without any space. -/
def compact : Json → String
  | .null => "null"
  | .bool b => if b then "true" else "false"
  | .int n => Number.intText n
  | .float x => if x.isFinite then x.jsonText else "null"
  | .str s => quote s
  | .arr items => "[" ++ ",".intercalate (compactItems items) ++ "]"
  | .obj members => "\x7b" ++ ",".intercalate (compactMembers members) ++ "\x7d"

def compactItems : List Json → List String
  | [] => []
  | j :: js => compact j :: compactItems js

def compactMembers : List (String × Json) → List String
  | [] => []
  | (k, j) :: ms => (quote k ++ ":" ++ compact j) :: compactMembers ms

end

theorem compactItems_eq (items : List Json) : compactItems items = items.map compact := by
  induction items with
  | nil => simp [compactItems]
  | cons j js ih => simp [compactItems, ih]

theorem compactMembers_eq (members : List (String × Json)) :
    compactMembers members = members.map fun m => quote m.1 ++ ":" ++ compact m.2 := by
  induction members with
  | nil => simp [compactMembers]
  | cons m ms ih => obtain ⟨k, j⟩ := m; simp [compactMembers, ih]

/-! ## Indented -/

/-- A new line with an indent of two spaces a level. -/
def newline (level : Nat) : String := String.ofList ('\n' :: List.replicate (2 * level) ' ')

/-- Parts between brackets, each on a line of its own; no parts need no line. -/
def block (opening closing : String) (level : Nat) (parts : List String) : String :=
  if parts.isEmpty then opening ++ closing
  else opening ++ ",".intercalate (parts.map (newline (level + 1) ++ ·)) ++ newline level ++ closing

mutual

/-- The text indented by two spaces a level, from a given level on. -/
def indented (level : Nat) : Json → String
  | .arr items => block "[" "]" level (indentedItems (level + 1) items)
  | .obj members => block "\x7b" "\x7d" level (indentedMembers (level + 1) members)
  | .null => "null"
  | .bool b => if b then "true" else "false"
  | .int n => Number.intText n
  | .float x => if x.isFinite then x.jsonText else "null"
  | .str s => quote s

def indentedItems (level : Nat) : List Json → List String
  | [] => []
  | j :: js => indented level j :: indentedItems level js

def indentedMembers (level : Nat) : List (String × Json) → List String
  | [] => []
  | (k, j) :: ms => (quote k ++ ": " ++ indented level j) :: indentedMembers level ms

end

end ShapeGraph.Json
