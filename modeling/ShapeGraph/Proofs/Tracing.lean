import Mathlib.Data.List.Basic
import ShapeGraph.Decode.Report

/-!
# Reports that remember key checks

Most errors speak of what a value holds at their path. Those from checking a key against a
signature do not: they speak of the key, at the place of its value. An error does not say which
of the two it is, so here reports are made once more, with the errors from key checks marked.
Without the marks they are the reports.

* `Traced` — an error, with key checks marked
* `Shape.trace`, `Graph.trace` — the marked errors of a value
* `Graph.error_trace` — without the marks they are the errors of the report
-/

namespace ShapeGraph

/-- An error that knows whether it comes from the check of a key. -/
inductive Traced
  | mismatch (message : String) (path : Path) (received : Value)
  | union (path : Path) (received : Value) (errors : List Traced)
  | keyCheck (found : Traced)
  deriving Inhabited

namespace Traced

mutual

/-- The error without the marks. -/
def error : Traced → DecodeError
  | .mismatch message path received => .mismatch message path received
  | .union path received errors => .union path received (errorAll errors)
  | .keyCheck found => error found

def errorAll : List Traced → List DecodeError
  | [] => []
  | t :: ts => error t :: errorAll ts

end

theorem errorAll_eq (ts : List Traced) : errorAll ts = ts.map error := by
  induction ts with
  | nil => rfl
  | cons t ts ih => rw [errorAll, ih, List.map_cons]

def path (t : Traced) : Path := t.error.path

def received (t : Traced) : Value := t.error.received

/-- What the members of a union say. -/
def inner : Traced → List Traced
  | .mismatch _ _ _ => []
  | .union _ _ errors => errors
  | .keyCheck found => inner found

end Traced

namespace Shape

variable (p : Policy) (acceptsRef : Nat → Value → Bool)
  (onRef : Nat → String → Path → Value → List Traced)

/-- One error at a place, unless the value is accepted. -/
def traceCheck (s : Shape) (path : Path) (v : Value) : List Traced :=
  if accepts p acceptsRef s v then [] else [.mismatch s.expectation path v]

mutual

/-- **The errors of a value at a place**, with key checks marked. -/
def trace : Shape → Path → Value → List Traced
  | .any, _, _ => []
  | .tuple slots none, path, .array items =>
    traceSlots slots 0 path items
      ++ match items.drop slots.length with
        | [] => []
        | v :: _ => [.mismatch (tooManyItems slots.length) (path ++ [Path.index slots.length]) v]
  | .tuple slots (some rest), path, .array items =>
    traceSlots slots 0 path items
      ++ ((items.drop slots.length).zipIdx slots.length).flatMap fun (v, i) =>
        if accepts p acceptsRef rest v then [] else trace rest (path ++ [Path.index i]) v
  | .tuple slots rest, path, v => [.mismatch (expectation (.tuple slots rest)) path v]
  | .allOf members, path, v =>
    if v.isObject then traceAll members path v
    else [.mismatch (expectation (.allOf members)) path v]
  | .anyOf members, path, v =>
    if acceptsSome p acceptsRef members v then [] else [.union path v (traceEach members v)]
  | .array item, path, .array items =>
    items.zipIdx.flatMap fun (v, i) =>
      if accepts p acceptsRef item v then [] else trace item (path ++ [Path.index i]) v
  | .array item, path, v => [.mismatch (expectation (.array item)) path v]
  | .tagged members tag branches, path, v =>
    if v.isObject then
      let found := v.get tag
      let missing : Traced := .mismatch (knownTags branches) (path ++ [tag]) found
      match found.tagKey? with
      | none => [missing]
      | some key => traceBranch branches key missing path v
    else [.mismatch (expectation (.tagged members tag branches)) path v]
  | .optional inner, path, v => if v.isNullish then [] else trace inner path v
  | .object properties signatures, path, .object members =>
    let others := undeclared properties members
    if signatures.isEmpty && p.strict && !others.isEmpty then
      others.map fun m => .mismatch extraProperty (path ++ [m.1]) m.2
    else
      traceProperties properties path (.object members)
        ++ if signatures.isEmpty then []
          else others.flatMap fun m =>
            if acceptsMember p acceptsRef signatures (.string m.1) m.2 then []
            else traceMember signatures (path ++ [m.1]) (.string m.1) m.2
  | .object properties signatures, path, v =>
    [.mismatch (expectation (.object properties signatures)) path v]
  | .ref place name, path, v => onRef place name path v
  | s, path, v => traceCheck p acceptsRef s path v

def traceSlots : List Shape → Nat → Path → List Value → List Traced
  | [], _, _, _ => []
  | s :: slots, i, path, items =>
    let v := items.headD .undefined
    (if accepts p acceptsRef s v then [] else trace s (path ++ [Path.index i]) v)
      ++ traceSlots slots (i + 1) path items.tail

def traceAll : List Shape → Path → Value → List Traced
  | [], _, _ => []
  | s :: members, path, v =>
    (if accepts p acceptsRef s v then [] else trace s path v) ++ traceAll members path v

def traceEach : List Shape → Value → List Traced
  | [], _ => []
  | s :: members, v => trace s [] v ++ traceEach members v

def traceBranch : List (String × Shape) → String → Traced → Path → Value → List Traced
  | [], _, missing, _, _ => [missing]
  | (k, s) :: branches, key, missing, path, v =>
    if k = key then trace s path v else traceBranch branches key missing path v

def traceProperties : List (String × Shape) → Path → Value → List Traced
  | [], _, _ => []
  | (k, s) :: properties, path, v =>
    (if accepts p acceptsRef s (v.get k) then [] else trace s (path ++ [k]) (v.get k))
      ++ traceProperties properties path v

/-- Here is the one key check: what a signature says of a key that it does not accept. -/
def traceMember : List (Shape × Shape) → Path → Value → Value → List Traced
  | [], _, _, _ => []
  | (keyShape, valueShape) :: signatures, path, key, v =>
    (if accepts p acceptsRef keyShape key then trace valueShape path v
    else (trace keyShape path key).map .keyCheck) ++ traceMember signatures path key v

end

/-! ## Without the marks -/

variable {p acceptsRef onRef} {onRefError : Nat → String → Path → Value → List DecodeError}

/-- The references make the errors of references, with marks. -/
def ErrorsOfRefs (onRef : Nat → String → Path → Value → List Traced)
    (onRefError : Nat → String → Path → Value → List DecodeError) : Prop :=
  ∀ i name path v, (onRef i name path v).map Traced.error = onRefError i name path v

theorem map_error_unless {c : Prop} [Decidable c] {ts : List Traced} {es : List DecodeError}
    (h : ts.map Traced.error = es) :
    (if c then [] else ts).map Traced.error = if c then [] else es := by
  split
  · rfl
  · exact h

theorem error_traceCheck (s : Shape) (path : Path) (v : Value) :
    (traceCheck p acceptsRef s path v).map Traced.error = check p acceptsRef s path v :=
  map_error_unless rfl

section

-- worked out before the proofs that rewrite with them
attribute [local simp] trace traceSlots traceAll traceEach traceBranch traceProperties traceMember

mutual

/-- **Without the marks a shape makes its report.** -/
theorem error_trace (hr : ErrorsOfRefs onRef onRefError) : ∀ (s : Shape) (path : Path) (v : Value),
    (trace p acceptsRef onRef s path v).map Traced.error = report p acceptsRef onRefError s path v
  | .any, _, _ => rfl
  | .tuple slots none, path, v => by
    cases v with
    | array items =>
      rw [trace, report, List.map_append, error_traceSlots hr slots 0 path items]
      cases items.drop slots.length <;> rfl
    | _ => rfl
  | .tuple slots (some rest), path, v => by
    cases v with
    | array items =>
      rw [trace, report, List.map_append, error_traceSlots hr slots 0 path items, List.map_flatMap]
      congr 1
      exact List.flatMap_congr fun e _ => map_error_unless (error_trace hr rest _ e.1)
    | _ => rfl
  | .allOf members, path, v => by
    rw [trace, report]
    split
    · exact error_traceAll hr members path v
    · rfl
  | .anyOf members, path, v => by
    have h : Traced.errorAll (traceEach p acceptsRef onRef members v) =
        reportEach p acceptsRef onRefError members v := by
      rw [Traced.errorAll_eq, error_traceEach hr members v]
    rw [trace, report]
    refine map_error_unless ?_
    rw [List.map_singleton, Traced.error, h]
  | .array item, path, v => by
    cases v with
    | array items =>
      rw [trace, report, List.map_flatMap]
      exact List.flatMap_congr fun e _ => map_error_unless (error_trace hr item _ e.1)
    | _ => rfl
  | .tagged members tag branches, path, v => by
    rw [trace, report]
    split
    · simp only
      cases (v.get tag).tagKey? with
      | none => rfl
      | some key => exact error_traceBranch hr branches key _ path v
    · rfl
  | .optional inner, path, v => map_error_unless (error_trace hr inner path v)
  | .object properties signatures, path, v => by
    cases v with
    | object members =>
      have hmembers : ∀ m ∈ undeclared properties members, _ := fun m _ =>
        map_error_unless (c := acceptsMember p acceptsRef signatures (.string m.1) m.2 = true)
          (error_traceMember hr signatures (path ++ [m.1]) (.string m.1) m.2)
      rw [trace, report]
      split
      · rw [List.map_map]
        rfl
      · rw [List.map_append, error_traceProperties hr properties path (.object members)]
        congr 1
        refine map_error_unless ?_
        rw [List.map_flatMap]
        exact List.flatMap_congr hmembers
    | _ => rfl
  | .ref i name, path, v => hr i name path v
  | .base _, path, v | .nullish, path, v | .never, path, v | .literal _, path, v
  | .pattern _ _ _, path, v | .date, path, v | .bigint, path, v | .stringFormats _, path, v
  | .numberFormats _, path, v | .literals _, path, v => error_traceCheck _ path v

theorem error_traceSlots (hr : ErrorsOfRefs onRef onRefError) :
    ∀ (slots : List Shape) (i : Nat) (path : Path) (items : List Value),
      (traceSlots p acceptsRef onRef slots i path items).map Traced.error =
        reportSlots p acceptsRef onRefError slots i path items
  | [], _, _, _ => rfl
  | s :: slots, i, path, items => by
    rw [traceSlots, reportSlots, List.map_append, error_traceSlots hr slots (i + 1) path items.tail]
    congr 1
    exact map_error_unless (error_trace hr s _ _)

theorem error_traceAll (hr : ErrorsOfRefs onRef onRefError) :
    ∀ (members : List Shape) (path : Path) (v : Value),
      (traceAll p acceptsRef onRef members path v).map Traced.error =
        reportAll p acceptsRef onRefError members path v
  | [], _, _ => rfl
  | s :: members, path, v => by
    rw [traceAll, reportAll, List.map_append, error_traceAll hr members path v]
    congr 1
    exact map_error_unless (error_trace hr s path v)

theorem error_traceEach (hr : ErrorsOfRefs onRef onRefError) :
    ∀ (members : List Shape) (v : Value),
      (traceEach p acceptsRef onRef members v).map Traced.error =
        reportEach p acceptsRef onRefError members v
  | [], _ => rfl
  | s :: members, v => by
    rw [traceEach, reportEach, List.map_append, error_traceEach hr members v,
      error_trace hr s [] v]

theorem error_traceBranch (hr : ErrorsOfRefs onRef onRefError) :
    ∀ (branches : List (String × Shape)) (key : String) (missing : Traced) (path : Path)
      (v : Value), (traceBranch p acceptsRef onRef branches key missing path v).map Traced.error =
        reportBranch p acceptsRef onRefError branches key missing.error path v
  | [], _, _, _, _ => rfl
  | (k, s) :: branches, key, missing, path, v => by
    rw [traceBranch, reportBranch]
    split
    · exact error_trace hr s path v
    · exact error_traceBranch hr branches key missing path v

theorem error_traceProperties (hr : ErrorsOfRefs onRef onRefError) :
    ∀ (properties : List (String × Shape)) (path : Path) (v : Value),
      (traceProperties p acceptsRef onRef properties path v).map Traced.error =
        reportProperties p acceptsRef onRefError properties path v
  | [], _, _ => rfl
  | (k, s) :: properties, path, v => by
    rw [traceProperties, reportProperties, List.map_append,
      error_traceProperties hr properties path v]
    congr 1
    exact map_error_unless (error_trace hr s _ _)

theorem error_traceMember (hr : ErrorsOfRefs onRef onRefError) :
    ∀ (signatures : List (Shape × Shape)) (path : Path) (key v : Value),
      (traceMember p acceptsRef onRef signatures path key v).map Traced.error =
        reportMember p acceptsRef onRefError signatures path key v
  | [], _, _, _ => rfl
  | (keyShape, valueShape) :: signatures, path, key, v => by
    rw [traceMember, reportMember, List.map_append, error_traceMember hr signatures path key v]
    congr 1
    split
    · exact error_trace hr valueShape path v
    · rw [List.map_map]
      exact error_trace hr keyShape path key

end

end

end Shape

/-! ## In a graph -/

namespace Graph

/-- The marked errors by the definition at a place, where at most `fuel` references are opened
one inside the other. -/
def traceRef (g : Graph) (p : Policy) : Nat → Nat → String → Path → Value → List Traced
  | 0, place, name, path, v => [.mismatch (Shape.ref place name).expectation path v]
  | fuel + 1, place, name, path, v =>
    match g.shape? place with
    | some s => s.trace p (g.acceptsRef p fuel) (traceRef g p fuel) path v
    | none => [.mismatch (Shape.ref place name).expectation path v]

/-- **The marked errors of a value**, with references read in the graph. -/
def trace (g : Graph) (p : Policy) (s : Shape) (path : Path) (v : Value) : List Traced :=
  s.trace p (g.acceptsRef p (g.budget v)) (g.traceRef p (g.budget v)) path v

theorem error_traceRef (g : Graph) (p : Policy) (fuel i : Nat) (name : String) (path : Path)
    (v : Value) :
    (g.traceRef p fuel i name path v).map Traced.error = g.reportRef p fuel i name path v := by
  induction fuel generalizing i name path v with
  | zero => rfl
  | succ fuel ih =>
    rw [traceRef, reportRef]
    cases g.shape? i with
    | none => rfl
    | some s => exact Shape.error_trace ih s path v

/-- **Without the marks a trace is the report.** -/
theorem error_trace (g : Graph) (p : Policy) (s : Shape) (path : Path) (v : Value) :
    (g.trace p s path v).map Traced.error = g.report p s path v :=
  Shape.error_trace (g.error_traceRef p (g.budget v)) s path v

end Graph

end ShapeGraph
