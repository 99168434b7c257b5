import Mathlib.Data.List.Basic
import Mathlib.Logic.Relation
import ShapeGraph.Record.Compile

/-!
# Parts of records

A record consists of records, each with the step that leads to it in a path. Records are gone
through in depth-first order: a record comes before its parts, and these come in the order in
which they are compiled. So the branches of a tagged union come before its members.

* `Record.parts` — the records of which a record directly consists
* `Record.parts_induction` — proofs from the parts
* `Record.Contains` — a record stands inside a record, at any depth
* `Record.visits`, `forall_mem_visits_iff` — all records inside a record in depth-first order
-/

namespace ShapeGraph

namespace Record

/-- Records in a list, each under its index. -/
def listed (label : String) (records : List Record) (first : Nat) : List (Path × Record) :=
  (records.zipIdx first).map fun e => ([memberSegment label e.2], e.1)

/-- Records under names. -/
def named (label : String) (entries : List (String × Record)) : List (Path × Record) :=
  entries.map fun e => ([label ++ e.1], e.2)

/-- The records of signatures: a key and a value in turn. -/
def paired (pairs : List (Record × Record)) : List (Path × Record) :=
  pairs.flatMap fun e => [(["[key]"], e.1), (["[value]"], e.2)]

/-- **The records of which a record directly consists**, in the order in which they are compiled. -/
def parts : Record → List (Path × Record)
  | .tuple slots none => listed "" slots 0
  | .tuple slots (some rest) => listed "" slots 0 ++ [(["rest"], rest)]
  | .allOf members => listed "allOf" members 0
  | .anyOf members => listed "anyOf" members 0
  | .array item => [(["[]"], item)]
  | .anyOfDiscriminated members _ branches => named "mapping." branches ++ listed "anyOf" members 0
  | .optionalField inner => [([], inner)]
  | .object properties signatures => named "" properties ++ paired signatures
  | _ => []

/-! ## Parts are smaller -/

theorem sizeOf_lt_of_mem_listed {label : String} {records : List Record} {first : Nat}
    {e : Path × Record} (h : e ∈ listed label records first) : sizeOf e.2 < sizeOf records := by
  obtain ⟨x, hx, rfl⟩ := List.mem_map.mp h
  exact List.sizeOf_lt_of_mem (List.fst_mem_of_mem_zipIdx hx)

theorem sizeOf_lt_of_mem_named {label : String} {entries : List (String × Record)}
    {e : Path × Record} (h : e ∈ named label entries) : sizeOf e.2 < sizeOf entries := by
  obtain ⟨x, hx, rfl⟩ := List.mem_map.mp h
  have hlt := List.sizeOf_lt_of_mem hx
  rw [show sizeOf x = 1 + sizeOf x.1 + sizeOf x.2 from rfl] at hlt
  show sizeOf x.2 < sizeOf entries
  omega

theorem sizeOf_lt_of_mem_paired {pairs : List (Record × Record)} {e : Path × Record}
    (h : e ∈ paired pairs) : sizeOf e.2 < sizeOf pairs := by
  obtain ⟨x, hx, he⟩ := List.mem_flatMap.mp h
  have hlt := List.sizeOf_lt_of_mem hx
  rw [show sizeOf x = 1 + sizeOf x.1 + sizeOf x.2 from rfl] at hlt
  have hcases : e = (["[key]"], x.1) ∨ e = (["[value]"], x.2) := by simpa using he
  rcases hcases with rfl | rfl
  · show sizeOf x.1 < sizeOf pairs
    omega
  · show sizeOf x.2 < sizeOf pairs
    omega

theorem sizeOf_lt_of_mem_parts {r : Record} {e : Path × Record} (h : e ∈ r.parts) :
    sizeOf e.2 < sizeOf r := by
  cases r with
  | tuple slots rest =>
    cases rest with
    | none =>
      have := sizeOf_lt_of_mem_listed h
      simp only [tuple.sizeOf_spec]
      omega
    | some rest =>
      simp only [tuple.sizeOf_spec, Option.some.sizeOf_spec]
      rcases List.mem_append.mp h with h | h
      · have := sizeOf_lt_of_mem_listed h
        omega
      · obtain rfl := List.mem_singleton.mp h
        show sizeOf rest < _
        omega
  | allOf members =>
    have := sizeOf_lt_of_mem_listed h
    simp only [allOf.sizeOf_spec]
    omega
  | anyOf members =>
    have := sizeOf_lt_of_mem_listed h
    simp only [anyOf.sizeOf_spec]
    omega
  | array item =>
    obtain rfl := List.mem_singleton.mp h
    show sizeOf item < _
    simp only [array.sizeOf_spec]
    omega
  | anyOfDiscriminated members tag branches =>
    simp only [anyOfDiscriminated.sizeOf_spec]
    rcases List.mem_append.mp h with h | h
    · have := sizeOf_lt_of_mem_named h
      omega
    · have := sizeOf_lt_of_mem_listed h
      omega
  | optionalField inner =>
    obtain rfl := List.mem_singleton.mp h
    show sizeOf inner < _
    simp only [optionalField.sizeOf_spec]
    omega
  | object properties signatures =>
    simp only [object.sizeOf_spec]
    rcases List.mem_append.mp h with h | h
    · have := sizeOf_lt_of_mem_named h
      omega
    · have := sizeOf_lt_of_mem_paired h
      omega
  | _ => cases h

/-- To prove something of every record, prove it from the parts. -/
theorem parts_induction {motive : Record → Prop}
    (step : ∀ r, (∀ e ∈ r.parts, motive e.2) → motive r) (r : Record) : motive r :=
  (measure sizeOf).wf.induction r fun r ih => step r fun e he => ih e.2 (sizeOf_lt_of_mem_parts he)

/-! ## Records inside a record -/

/-- A record stands inside a record, at any depth, or is the record. -/
def Contains : Record → Record → Prop :=
  Relation.ReflTransGen fun r t => ∃ e ∈ r.parts, e.2 = t

/-- **All records inside a record in depth-first order**, each with its path; the record itself
comes first. -/
def visits (path : Path) (r : Record) : List (Path × Record) :=
  (path, r) :: r.parts.attach.flatMap fun e => visits (path ++ e.1.1) e.1.2
termination_by sizeOf r
decreasing_by exact sizeOf_lt_of_mem_parts e.2

theorem visits_eq (path : Path) (r : Record) :
    r.visits path = (path, r) :: r.parts.flatMap fun e => e.2.visits (path ++ e.1) := by
  rw [visits]
  congr 1
  rw [List.flatMap_def, List.flatMap_def]
  congr 1
  exact @List.attach_map_val _ _ r.parts fun e : Path × Record => visits (path ++ e.1) e.2

/-- What is visited is what stands inside. -/
theorem forall_mem_visits_iff {P : Record → Prop} {path : Path} {r : Record} :
    (∀ x ∈ r.visits path, P x.2) ↔ ∀ t, r.Contains t → P t := by
  induction r using parts_induction generalizing path with | step r ih => ?_
  rw [visits_eq, List.forall_mem_cons, List.forall_mem_flatMap]
  constructor
  · rintro ⟨hr, hparts⟩ t ht
    rcases Relation.ReflTransGen.cases_head ht with rfl | ⟨_, ⟨e, he, rfl⟩, ht⟩
    · exact hr
    · exact (ih e he).mp (hparts e he) t ht
  · intro h
    exact ⟨h r .refl, fun e he => (ih e he).mpr fun t ht => h t (.head ⟨e, he, rfl⟩ ht)⟩

end Record

end ShapeGraph
