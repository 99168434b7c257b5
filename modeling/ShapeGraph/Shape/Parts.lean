import Mathlib.Data.List.Basic
import Mathlib.Logic.Relation
import ShapeGraph.Shape.Basic

/-!
# Parts of shapes

A shape consists of parts, down to shapes that have none; the definition behind a reference is
not a part of it.

* `Shape.parts` — the shapes of which a shape directly consists
* `Shape.parts_induction` — proofs from the parts
* `Shape.all` — a condition on a shape and on every shape inside it
* `Shape.Contains` — a shape stands inside a shape, at any depth
-/

namespace ShapeGraph

namespace Shape

/-- Whether a shape is a reference. -/
def isRef : Shape → Bool
  | .ref .. => true
  | _ => false

theorem eq_ref_of_isRef {s : Shape} (hs : s.isRef = true) :
    ∃ place name, s = .ref place name := by
  cases s with
  | ref place name => exact ⟨place, name, rfl⟩
  | _ => cases hs

/-- The shapes of which a shape directly consists. -/
def parts : Shape → List Shape
  | .tuple slots rest => slots ++ rest.toList
  | .allOf members => members
  | .anyOf members => members
  | .array item => [item]
  | .tagged members _ branches => members ++ branches.map (·.2)
  | .optional inner => [inner]
  | .object properties signatures =>
    properties.map (·.2) ++ signatures.flatMap fun e => [e.1, e.2]
  | _ => []

theorem sizeOf_lt_of_mem_parts {s t : Shape} (h : t ∈ s.parts) : sizeOf t < sizeOf s := by
  have hpair {α β : Type} (e : α × β) [SizeOf α] [SizeOf β] :
      sizeOf e = 1 + sizeOf e.1 + sizeOf e.2 := rfl
  cases s with
  | tuple slots rest =>
    simp only [tuple.sizeOf_spec]
    rcases List.mem_append.mp h with h | h
    · have := List.sizeOf_lt_of_mem h
      omega
    · rw [Option.mem_toList.mp h, Option.some.sizeOf_spec]
      omega
  | allOf members =>
    have := List.sizeOf_lt_of_mem (show t ∈ members from h)
    simp only [allOf.sizeOf_spec]
    omega
  | anyOf members =>
    have := List.sizeOf_lt_of_mem (show t ∈ members from h)
    simp only [anyOf.sizeOf_spec]
    omega
  | array item =>
    rw [List.mem_singleton.mp h, array.sizeOf_spec]
    omega
  | tagged members tag branches =>
    simp only [tagged.sizeOf_spec]
    rcases List.mem_append.mp h with h | h
    · have := List.sizeOf_lt_of_mem h
      omega
    · obtain ⟨e, he, rfl⟩ := List.mem_map.mp h
      have := List.sizeOf_lt_of_mem he
      have := hpair e
      omega
  | optional inner =>
    rw [List.mem_singleton.mp h, optional.sizeOf_spec]
    omega
  | object properties signatures =>
    simp only [object.sizeOf_spec]
    rcases List.mem_append.mp h with h | h
    · obtain ⟨e, he, rfl⟩ := List.mem_map.mp h
      have := List.sizeOf_lt_of_mem he
      have := hpair e
      omega
    · obtain ⟨e, he, ht⟩ := List.mem_flatMap.mp h
      have := List.sizeOf_lt_of_mem he
      have := hpair e
      have hcases : t = e.1 ∨ t = e.2 := by simpa using ht
      rcases hcases with rfl | rfl <;> omega
  | _ => cases h

/-- To prove something of every shape, prove it from the parts. -/
theorem parts_induction {motive : Shape → Prop}
    (step : ∀ s, (∀ t ∈ s.parts, motive t) → motive s) (s : Shape) : motive s :=
  (measure sizeOf).wf.induction s fun s ih => step s fun t ht => ih t (sizeOf_lt_of_mem_parts ht)

/-! ## Conditions on all parts -/

variable (P : Shape → Bool)

mutual

/-- Whether a shape and all shapes inside it are as asked. -/
def all : Shape → Bool
  | .tuple slots none => P (.tuple slots none) && allIn slots
  | .tuple slots (some rest) => P (.tuple slots (some rest)) && (allIn slots && all rest)
  | .allOf members => P (.allOf members) && allIn members
  | .anyOf members => P (.anyOf members) && allIn members
  | .array item => P (.array item) && all item
  | .tagged members tag branches =>
    P (.tagged members tag branches) && (allIn members && allInNamed branches)
  | .optional inner => P (.optional inner) && all inner
  | .object properties signatures =>
    P (.object properties signatures) && (allInNamed properties && allInPairs signatures)
  | s => P s

def allIn : List Shape → Bool
  | [] => true
  | s :: shapes => all s && allIn shapes

def allInNamed : List (String × Shape) → Bool
  | [] => true
  | (_, s) :: entries => all s && allInNamed entries

def allInPairs : List (Shape × Shape) → Bool
  | [] => true
  | (a, b) :: pairs => (all a && all b) && allInPairs pairs

end

theorem allIn_eq (shapes : List Shape) : allIn P shapes = shapes.all (all P) := by
  induction shapes with
  | nil => rfl
  | cons s shapes ih => rw [allIn, ih, List.all_cons]

theorem allInNamed_eq (entries : List (String × Shape)) :
    allInNamed P entries = (entries.map (·.2)).all (all P) := by
  induction entries with
  | nil => rfl
  | cons e entries ih => rw [allInNamed, ih, List.map_cons, List.all_cons]

theorem allInPairs_eq (pairs : List (Shape × Shape)) :
    allInPairs P pairs = (pairs.flatMap fun e => [e.1, e.2]).all (all P) := by
  induction pairs with
  | nil => rfl
  | cons e pairs ih =>
    rw [allInPairs, ih, List.flatMap_cons, List.all_append]
    simp only [List.all_cons, List.all_nil, Bool.and_true]

/-- A condition is met everywhere in a shape when the shape meets it and it is met everywhere in
the parts. -/
theorem all_eq (s : Shape) : s.all P = (P s && s.parts.all (all P)) := by
  cases s with
  | tuple slots rest =>
    cases rest with
    | none => simp only [all, parts, allIn_eq, Option.toList_none, List.append_nil]
    | some t =>
      simp only [all, parts, allIn_eq, Option.toList_some, List.all_append, List.all_cons,
        List.all_nil, Bool.and_true]
  | allOf members => rw [all, allIn_eq]; rfl
  | anyOf members => rw [all, allIn_eq]; rfl
  | array t => simp only [all, parts, List.all_cons, List.all_nil, Bool.and_true]
  | tagged members tag branches => rw [all, allIn_eq, allInNamed_eq, parts, List.all_append]
  | optional t => simp only [all, parts, List.all_cons, List.all_nil, Bool.and_true]
  | object properties signatures =>
    rw [all, allInNamed_eq, allInPairs_eq, parts, List.all_append]
  | _ => exact (Bool.and_true _).symm

variable {P}

theorem of_all {s : Shape} (h : s.all P = true) : P s = true := by
  rw [all_eq, Bool.and_eq_true] at h
  exact h.1

theorem all_of_mem_parts {s t : Shape} (h : s.all P = true) (ht : t ∈ s.parts) :
    t.all P = true := by
  rw [all_eq, Bool.and_eq_true, List.all_eq_true] at h
  exact h.2 t ht

theorem all_of_parts {s : Shape} (hs : P s = true) (h : ∀ t ∈ s.parts, t.all P = true) :
    s.all P = true := by
  rw [all_eq, hs, List.all_eq_true.mpr h]
  rfl

theorem all_mono {Q : Shape → Bool} (hQ : ∀ s, P s = true → Q s = true) {s : Shape}
    (h : s.all P = true) : s.all Q = true := by
  induction s using parts_induction with
  | step s ih => exact all_of_parts (hQ s (of_all h)) fun t ht => ih t ht (all_of_mem_parts h ht)

/-! ## Shapes inside a shape -/

/-- A shape stands inside a shape, at any depth, or is the shape. -/
def Contains : Shape → Shape → Prop := Relation.ReflTransGen fun s t => t ∈ s.parts

theorem of_contains {s t : Shape} (h : s.all P = true) (ht : s.Contains t) : P t = true := by
  induction ht using Relation.ReflTransGen.head_induction_on with
  | refl => exact of_all h
  | head hpart _ ih => exact ih (all_of_mem_parts h hpart)

end Shape

end ShapeGraph
