import ShapeGraph.Filter.Run
import ShapeGraph.Filter.Token

/-!
# Reading filters

Operators bind, from loosely to tightly: `|`, `,`, `or`, `and`, comparisons, `+` and `-`. Only
`|` groups to the right. Accesses follow what they look into: `.a`, `."a"`, `[…]`, and `?` makes
an access optional. An object is the sum of objects with one member.

* `Filter.ofTokens?` — the filter that tokens stand for
* `Filter.engine` — filters as programs
* `Program.ofText` — the program of a text

## Termination

The readers call each other on fuel: between two tokens at most eight calls are nested.
-/

namespace ShapeGraph

namespace Filter

/-- An operator between two filters. -/
structure Operator where
  /-- How tightly it binds. -/
  level : Nat
  /-- Whether it groups to the right. -/
  rightward : Bool
  join : Filter → Filter → Filter

/-- The operator that a token writes. -/
def operator? : Token → Option Operator
  | .symbol "|" => some ⟨0, true, .pipe⟩
  | .symbol "," => some ⟨1, false, .comma⟩
  | .word "or" => some ⟨2, false, .either⟩
  | .word "and" => some ⟨3, false, .both⟩
  | .symbol "==" => some ⟨4, false, .compare .equal⟩
  | .symbol "!=" => some ⟨4, false, .compare .different⟩
  | .symbol "<" => some ⟨4, false, .compare .less⟩
  | .symbol "<=" => some ⟨4, false, .compare .lessEqual⟩
  | .symbol ">" => some ⟨4, false, .compare .greater⟩
  | .symbol ">=" => some ⟨4, false, .compare .greaterEqual⟩
  | .symbol "+" => some ⟨5, false, .calculate .add⟩
  | .symbol "-" => some ⟨5, false, .calculate .subtract⟩
  | _ => none

/-- The loosest level inside an object: members are parted by commas. -/
def memberLevel : Nat := 2

/-- Words that call nothing. -/
def reserved : List String :=
  ["and", "or", "if", "then", "else", "elif", "end", "def", "reduce", "foreach", "as", "try",
    "catch", "label", "import", "include"]

/-- The filter that a call stands for. -/
def ofCall (name : String) (arguments : List Filter) : Filter :=
  match name, arguments with
  | "null", [] => .literal .null
  | "true", [] => .literal (.bool true)
  | "false", [] => .literal (.bool false)
  | "empty", [] => .empty
  | "select", [f] => .select f
  | "map", [f] => .collect (.pipe (.each .identity false) f)
  | name, [] =>
    match Function.ofName? name with
    | some f => .apply f
    | none => .unknownCall name []
  | name, arguments => .unknownCall name arguments

/-- The marks behind an access that make it optional. -/
def skipMarks : List Token → Bool × List Token
  | .symbol "?" :: ts => (true, (skipMarks ts).2)
  | ts => (false, ts)

/-- Complete an access with the marks behind it. -/
def marked (make : Bool → Filter) (ts : List Token) : Filter × List Token :=
  let (optional, ts) := skipMarks ts
  (make optional, ts)

/-- A member whose value is what stands under its own key. -/
def sameName (name : String) : Filter :=
  .entry (.literal (.str name)) (.index .identity (.literal (.str name)) false)

/-- The result of reading: a filter and the tokens behind it. -/
abbrev Reading := Option (Filter × List Token)

mutual

/-- A filter whose operators bind at least as tightly as a level. -/
def expression : Nat → Nat → List Token → Reading
  | 0, _, _ => none
  | fuel + 1, level, ts => do
    let (left, ts) ← operand fuel ts
    operations fuel level left ts

/-- The operators behind a filter. -/
def operations : Nat → Nat → Filter → List Token → Reading
  | 0, _, _, _ => none
  | fuel + 1, level, left, ts =>
    match ts with
    | [] => some (left, [])
    | t :: rest =>
      match operator? t with
      | none => some (left, ts)
      | some op =>
        if level ≤ op.level then do
          let (right, rest) ← expression fuel (if op.rightward then op.level else op.level + 1) rest
          operations fuel level (op.join left right) rest
        else some (left, ts)

/-- A filter without an operator. -/
def operand : Nat → List Token → Reading
  | 0, _ => none
  | fuel + 1, ts =>
    match ts with
    | .symbol "-" :: ts => do
      let (f, ts) ← operand fuel ts
      return (.negate f, ts)
    | ts => do
      let (f, ts) ← primary fuel ts
      accesses fuel f ts

/-- What accesses can follow. -/
def primary : Nat → List Token → Reading
  | 0, _ => none
  | fuel + 1, ts =>
    match ts with
    | .field name :: ts => some (.identity, .field name :: ts)
    | .symbol "." :: .quoted s :: ts => some (.identity, .symbol "." :: .quoted s :: ts)
    | .symbol "." :: ts => some (.identity, ts)
    | .number j :: ts => some (.literal j, ts)
    | .quoted s :: ts => some (.literal (.str s), ts)
    | .variable name :: ts => some (.unknownVariable name, ts)
    | .symbol "(" :: ts =>
      match expression fuel 0 ts with
      | some (f, .symbol ")" :: ts) => some (f, ts)
      | _ => none
    | .symbol "[" :: .symbol "]" :: ts => some (.literal (.arr []), ts)
    | .symbol "[" :: ts =>
      match expression fuel 0 ts with
      | some (f, .symbol "]" :: ts) => some (.collect f, ts)
      | _ => none
    | .symbol "\x7b" :: .symbol "\x7d" :: ts => some (.literal (.obj []), ts)
    | .symbol "\x7b" :: ts => do
      let (f, ts) ← member fuel ts
      members fuel f ts
    | .word name :: ts =>
      if reserved.contains name then none
      else
        match ts with
        | .symbol "(" :: ts => do
          let (fs, ts) ← arguments fuel ts
          return (ofCall name fs, ts)
        | ts => some (ofCall name [], ts)
    | _ => none

/-- The accesses behind a filter. -/
def accesses : Nat → Filter → List Token → Reading
  | 0, _, _ => none
  | fuel + 1, f, ts =>
    match ts with
    | .field name :: ts =>
      let (f, ts) := marked (.index f (.literal (.str name))) ts
      accesses fuel f ts
    | .symbol "." :: .quoted s :: ts =>
      let (f, ts) := marked (.index f (.literal (.str s))) ts
      accesses fuel f ts
    | .symbol "." :: .symbol "[" :: ts => do
      let (f, ts) ← bracket fuel f ts
      accesses fuel f ts
    | .symbol "[" :: ts => do
      let (f, ts) ← bracket fuel f ts
      accesses fuel f ts
    | .symbol "?" :: ts => accesses fuel (.attempt f) ts
    | ts => some (f, ts)

/-- An access between brackets, the first of which has been read. -/
def bracket : Nat → Filter → List Token → Reading
  | 0, _, _ => none
  | fuel + 1, f, ts =>
    match ts with
    | .symbol "]" :: ts => some (marked (.each f) ts)
    | .symbol ":" :: ts =>
      match expression fuel 0 ts with
      | some (high, .symbol "]" :: ts) =>
        some (marked (.sliceBetween f (.literal (.int 0)) high) ts)
      | _ => none
    | ts =>
      match expression fuel 0 ts with
      | some (key, .symbol "]" :: ts) => some (marked (.index f key) ts)
      | some (low, .symbol ":" :: .symbol "]" :: ts) => some (marked (.sliceFrom f low) ts)
      | some (low, .symbol ":" :: ts) =>
        match expression fuel 0 ts with
        | some (high, .symbol "]" :: ts) => some (marked (.sliceBetween f low high) ts)
        | _ => none
      | _ => none

/-- The arguments of a call, whose opening bracket has been read. -/
def arguments : Nat → List Token → Option (List Filter × List Token)
  | 0, _ => none
  | fuel + 1, ts =>
    match expression fuel 0 ts with
    | some (f, .symbol ")" :: ts) => some ([f], ts)
    | some (f, .symbol ";" :: ts) => do
      let (fs, ts) ← arguments fuel ts
      return (f :: fs, ts)
    | _ => none

/-- A member of an object. -/
def member : Nat → List Token → Reading
  | 0, _ => none
  | fuel + 1, ts =>
    match ts with
    | .word name :: .symbol ":" :: ts => do
      let (f, ts) ← memberValue fuel ts
      return (.entry (.literal (.str name)) f, ts)
    | .quoted s :: .symbol ":" :: ts => do
      let (f, ts) ← memberValue fuel ts
      return (.entry (.literal (.str s)) f, ts)
    | .word name :: ts => some (sameName name, ts)
    | .quoted s :: ts => some (sameName s, ts)
    | .variable name :: ts =>
      some (.entry (.literal (.str name)) (.unknownVariable name), ts)
    | .symbol "(" :: ts =>
      match expression fuel 0 ts with
      | some (key, .symbol ")" :: .symbol ":" :: ts) => do
        let (f, ts) ← memberValue fuel ts
        return (.entry key f, ts)
      | _ => none
    | _ => none

/-- The value of a member: filters joined by `|`, without any comma outside brackets. -/
def memberValue : Nat → List Token → Reading
  | 0, _ => none
  | fuel + 1, ts => do
    let (f, ts) ← expression fuel memberLevel ts
    match ts with
    | .symbol "|" :: ts => do
      let (g, ts) ← memberValue fuel ts
      return (.pipe f g, ts)
    | ts => return (f, ts)

/-- The members of an object behind the first. -/
def members : Nat → Filter → List Token → Reading
  | 0, _, _ => none
  | fuel + 1, f, ts =>
    match ts with
    | .symbol "\x7d" :: ts => some (f, ts)
    | .symbol "," :: ts => do
      let (g, ts) ← member fuel ts
      members fuel (.calculate .add f g) ts
    | _ => none

end

/-- **The filter that tokens stand for.** -/
def ofTokens? (ts : List Token) : Option Filter :=
  match expression (8 * (ts.length + 1)) 0 ts with
  | some (f, []) => some f
  | _ => none

/-! ## Programs -/

/-- **The engine of these filters**; all names of a filter have to be defined. -/
def engine : Program.Engine := fun text =>
  match (Token.ofText? text).bind ofTokens? with
  | none => .error (.unreadable ["syntax error"])
  | some f =>
    match f.undefined with
    | [] => .ok f.written
    | names => .error (.undefined (names.map Undefined.named))

end Filter

/-- **The program of a text**; unless another engine is asked it is a filter. -/
def Program.ofText (text : String) (engine : Program.Engine := Filter.engine) :
    Except Program.Problem Program :=
  match engine text with
  | .ok outputs => .ok ⟨text, outputs⟩
  | .error refusal => .error (refusal.problem text)

end ShapeGraph
