import ShapeGraph.Shape.Parts

/-!
# Shapes in place of references

Every reference inside a shape can be replaced by a shape; everything else stays.

* `Shape.subst` — shapes in place of the references
* `Shape.parts_subst` — the parts afterwards
* `Shape.subst_congr`, `Shape.subst_ref` — only what is put in counts, and references in their
  own place change nothing
-/

namespace ShapeGraph

namespace Shape

section

variable (f : Nat → String → Shape)

mutual

/-- **A shape with shapes in place of its references.** -/
def subst : Shape → Shape
  | .tuple slots none => .tuple (substAll slots) none
  | .tuple slots (some rest) => .tuple (substAll slots) (some (subst rest))
  | .allOf members => .allOf (substAll members)
  | .anyOf members => .anyOf (substAll members)
  | .array item => .array (subst item)
  | .tagged members tag branches => .tagged (substAll members) tag (substNamed branches)
  | .optional inner => .optional (subst inner)
  | .object properties signatures => .object (substNamed properties) (substPairs signatures)
  | .ref place name => f place name
  | s => s

def substAll : List Shape → List Shape
  | [] => []
  | s :: shapes => subst s :: substAll shapes

def substNamed : List (String × Shape) → List (String × Shape)
  | [] => []
  | (k, s) :: entries => (k, subst s) :: substNamed entries

def substPairs : List (Shape × Shape) → List (Shape × Shape)
  | [] => []
  | (a, b) :: pairs => (subst a, subst b) :: substPairs pairs

end

-- Proofs run side by side; the equations are worked out here, before any of them waits for them.
attribute [local simp] subst substAll substNamed substPairs

theorem substAll_eq (shapes : List Shape) : substAll f shapes = shapes.map (subst f) := by
  induction shapes with
  | nil => rfl
  | cons s shapes ih => rw [substAll, ih, List.map_cons]

theorem substNamed_eq (entries : Entries Shape) :
    substNamed f entries = entries.mapValues (subst f) := by
  induction entries with
  | nil => rfl
  | cons e entries ih => rw [substNamed, ih]; rfl

theorem substPairs_eq (pairs : List (Shape × Shape)) :
    substPairs f pairs = pairs.map fun e => (subst f e.1, subst f e.2) := by
  induction pairs with
  | nil => rfl
  | cons e pairs ih => rw [substPairs, ih, List.map_cons]

/-! ## Each kind -/

theorem subst_tuple (slots : List Shape) (rest : Option Shape) :
    (tuple slots rest).subst f = .tuple (slots.map (subst f)) (rest.map (subst f)) := by
  cases rest with
  | none => rw [subst, substAll_eq, Option.map_none]
  | some rest => rw [subst, substAll_eq, Option.map_some]

theorem subst_allOf (members : List Shape) :
    (allOf members).subst f = .allOf (members.map (subst f)) := by
  rw [subst, substAll_eq]

theorem subst_anyOf (members : List Shape) :
    (anyOf members).subst f = .anyOf (members.map (subst f)) := by
  rw [subst, substAll_eq]

theorem subst_tagged (members : List Shape) (tag : String) (branches : Entries Shape) :
    (tagged members tag branches).subst f =
      .tagged (members.map (subst f)) tag (branches.mapValues (subst f)) := by
  rw [subst, substAll_eq, substNamed_eq]

theorem subst_object (properties : Entries Shape) (signatures : List (Shape × Shape)) :
    (object properties signatures).subst f =
      .object (properties.mapValues (subst f))
        (signatures.map fun e => (subst f e.1, subst f e.2)) := by
  rw [subst, substNamed_eq, substPairs_eq]

end

/-! ## Parts -/

variable {f f' : Nat → String → Shape}

theorem snd_mapValues (entries : Entries Shape) :
    (entries.mapValues (subst f)).map (·.2) = (entries.map (·.2)).map (subst f) := by
  rw [Entries.mapValues, List.map_map, List.map_map]
  rfl

theorem isRef_subst {s : Shape} (hs : s.isRef = false) : (s.subst f).isRef = s.isRef := by
  cases s with
  | ref => cases hs
  | tuple slots rest => rw [subst_tuple]; rfl
  | _ => rfl

/-- The parts of a shape that is no reference are replaced one by one. -/
theorem parts_subst {s : Shape} (hs : s.isRef = false) :
    (s.subst f).parts = s.parts.map (subst f) := by
  cases s with
  | ref => cases hs
  | tuple slots rest =>
    rw [subst_tuple, parts, parts, List.map_append]
    cases rest <;> rfl
  | allOf members => rw [subst_allOf]; rfl
  | anyOf members => rw [subst_anyOf]; rfl
  | tagged members tag branches =>
    rw [subst_tagged, parts, parts, snd_mapValues, List.map_append]
  | object properties signatures =>
    rw [subst_object, parts, parts, snd_mapValues, List.map_append, List.map_flatMap,
      List.flatMap_map]
    rfl
  | _ => rfl

/-- What stands inside a shape stands changed inside the changed one. -/
theorem Contains.subst {s t : Shape} (h : s.Contains t) : (s.subst f).Contains (t.subst f) := by
  induction h with
  | refl => exact .refl
  | @tail s t _ hpart ih =>
    have hs : s.isRef = false := by
      cases s with
      | ref => cases hpart
      | _ => rfl
    have hmem := List.mem_map_of_mem (f := Shape.subst f) hpart
    rw [← parts_subst hs] at hmem
    exact ih.tail hmem

/-- A reference in the changed shape comes from one of the shapes that were put in. -/
theorem contains_subst {s : Shape} {place : Nat} {name : String}
    (h : (s.subst f).Contains (.ref place name)) :
    ∃ i label, s.Contains (.ref i label) ∧ (f i label).Contains (.ref place name) := by
  induction s using parts_induction with | step s ih => ?_
  cases hs : s.isRef with
  | true =>
    obtain ⟨i, label, rfl⟩ := eq_ref_of_isRef hs
    exact ⟨i, label, .refl, h⟩
  | false =>
    rcases Relation.ReflTransGen.cases_head h with heq | ⟨t', ht', h⟩
    · have hs' := isRef_subst (f := f) hs
      rw [heq, hs] at hs'
      cases hs'
    · rw [parts_subst hs] at ht'
      obtain ⟨t, ht, rfl⟩ := List.mem_map.mp ht'
      obtain ⟨i, label, hi, hplace⟩ := ih t ht h
      exact ⟨i, label, .head ht hi, hplace⟩

/-! ## What counts -/

/-- A shape with its parts changed, one by one. -/
def mapParts (h : Shape → Shape) : Shape → Shape
  | .tuple slots rest => .tuple (slots.map h) (rest.map h)
  | .allOf members => .allOf (members.map h)
  | .anyOf members => .anyOf (members.map h)
  | .array item => .array (h item)
  | .tagged members tag branches => .tagged (members.map h) tag (Entries.mapValues h branches)
  | .optional inner => .optional (h inner)
  | .object properties signatures =>
    .object (Entries.mapValues h properties) (signatures.map fun e => (h e.1, h e.2))
  | s => s

theorem mapParts_id (s : Shape) : s.mapParts id = s := by
  cases s with
  | tuple slots rest => rw [mapParts, List.map_id, Option.map_id]; rfl
  | allOf | anyOf => rw [mapParts, List.map_id]
  | tagged members tag branches =>
    rw [mapParts, List.map_id]
    exact congrArg (tagged members tag) (List.map_id branches)
  | object properties signatures =>
    exact congrArg₂ object (List.map_id properties) (List.map_id signatures)
  | _ => rfl

/-- What changes the parts alike changes the shape alike. -/
theorem mapParts_congr {h h' : Shape → Shape} {s : Shape} (hparts : ∀ t ∈ s.parts, h t = h' t) :
    s.mapParts h = s.mapParts h' := by
  have hnamed (entries : Entries Shape) (hes : ∀ t ∈ entries.map (·.2), h t = h' t) :
      entries.mapValues h = entries.mapValues h' :=
    List.map_congr_left fun e he => congrArg (e.1, ·) (hes e.2 (List.mem_map_of_mem he))
  cases s with
  | tuple slots rest =>
    obtain ⟨hslots, hrest⟩ := List.forall_mem_append.mp hparts
    rw [mapParts, mapParts, List.map_congr_left hslots]
    cases rest with
    | none => rfl
    | some t => rw [Option.map_some, Option.map_some, hrest t List.mem_cons_self]
  | allOf members => exact congrArg allOf (List.map_congr_left hparts)
  | anyOf members => exact congrArg anyOf (List.map_congr_left hparts)
  | array t | optional t => rw [mapParts, mapParts, hparts t List.mem_cons_self]
  | tagged members tag branches =>
    obtain ⟨hmembers, hbranches⟩ := List.forall_mem_append.mp hparts
    rw [mapParts, mapParts, List.map_congr_left hmembers, hnamed branches hbranches]
  | object properties signatures =>
    obtain ⟨hproperties, hsignatures⟩ := List.forall_mem_append.mp hparts
    have hpairs : signatures.map (fun e => (h e.1, h e.2)) =
        signatures.map fun e => (h' e.1, h' e.2) := by
      refine List.map_congr_left fun e he => ?_
      have hpair : ∀ t ∈ [e.1, e.2], h t = h' t :=
        fun t ht => hsignatures t (List.mem_flatMap.mpr ⟨e, he, ht⟩)
      rw [hpair e.1 List.mem_cons_self, hpair e.2 (List.mem_cons_of_mem _ List.mem_cons_self)]
    rw [mapParts, mapParts, hnamed properties hproperties, hpairs]
  | _ => rfl

theorem subst_eq {s : Shape} (hs : s.isRef = false) : s.subst f = s.mapParts (subst f) := by
  cases s with
  | ref => cases hs
  | tuple slots rest => exact subst_tuple f slots rest
  | allOf members => exact subst_allOf f members
  | anyOf members => exact subst_anyOf f members
  | tagged members tag branches => exact subst_tagged f members tag branches
  | object properties signatures => exact subst_object f properties signatures
  | _ => rfl

/-- Only what is put in place of the references inside a shape counts. -/
theorem subst_congr {s : Shape}
    (h : ∀ place name, s.Contains (.ref place name) → f place name = f' place name) :
    s.subst f = s.subst f' := by
  induction s using parts_induction with | step s ih => ?_
  cases hs : s.isRef with
  | true =>
    obtain ⟨place, name, rfl⟩ := eq_ref_of_isRef hs
    exact h place name .refl
  | false =>
    rw [subst_eq hs, subst_eq hs]
    exact mapParts_congr fun t ht => ih t ht fun place name hplace => h place name (.head ht hplace)

/-- References in their own place change nothing. -/
theorem subst_ref (s : Shape) : s.subst .ref = s := by
  induction s using parts_induction with | step s ih => ?_
  cases hs : s.isRef with
  | true =>
    obtain ⟨place, name, rfl⟩ := eq_ref_of_isRef hs
    rfl
  | false =>
    rw [subst_eq hs, mapParts_congr ih]
    exact mapParts_id s

end Shape

end ShapeGraph
