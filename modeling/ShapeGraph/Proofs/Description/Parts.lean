import ShapeGraph.Description
import ShapeGraph.Shape.Parts

/-!
# The parts of a description

A description goes through the parts of a shape in a fixed order and puts their texts together.
What it leaves in the state is what the references leave there, one after the other.

* `Shape.shown` — the parts that are described, in order
* `Shape.assemble` — the text of a shape from the texts of its parts
* `describe_eq` — a description is the assembled texts of the parts
* `Shape.mentions`, `describe_state` — the references of a shape, and the state that they leave
-/

namespace ShapeGraph

namespace Shape

open Description

/-! ## Parts -/

/-- The parts of a shape in the order in which they are described. The branches of a tagged union
stand for its members when it has none. -/
def shown : Shape → List Shape
  | .tuple slots rest => slots ++ rest.toList
  | .allOf members => members
  | .anyOf members => members
  | .array item => [item]
  | .tagged [] _ branches => branches.map (·.2)
  | .tagged (s :: members) _ _ => s :: members
  | .optional inner => [inner]
  | .object properties signatures =>
    (sortByName properties).map (·.2) ++ signatures.flatMap fun e => [e.1, e.2]
  | _ => []

/-- The texts of signatures, from those of their keys and values in turn. -/
def signatureTexts : List String → List String
  | k :: v :: parts => ("[key: " ++ k ++ "]: " ++ v) :: signatureTexts parts
  | _ => []

/-- **The text of a shape from the texts of its parts.** -/
def assemble : Shape → List String → String
  | .base type, _ => type.name
  | .any, _ => "any"
  | .nullish, _ => "null"
  | .never, _ => "never"
  | .literal c, _ => c.render
  | .pattern _ _ label, _ => label
  | .date, _ => "Date"
  | .bigint, _ => "BigInt"
  | .stringFormats names, _ => formats "StringFormat" names
  | .numberFormats names, _ => formats "NumberFormat" names
  | .literals cs, _ => join " | " "never" (cs.map (·.render))
  | .tuple slots _, parts =>
    let rest := (parts.drop slots.length).map fun last => "...Array<" ++ last ++ ">"
    "[" ++ ", ".intercalate (parts.take slots.length ++ rest) ++ "]"
  | .allOf _, parts => join " & " "unknown" parts
  | .anyOf _, parts => join " | " "never" parts
  | .array _, parts => "Array<" ++ parts.headD "" ++ ">"
  | .tagged .., parts => join " | " "never" parts
  | .optional _, parts => parts.headD ""
  | .object properties _, parts =>
    let declared := (sortByName properties).zipWith (fun e part => propertyLabel e.1 e.2 ++ part)
      (parts.take properties.length)
    braces (declared ++ signatureTexts (parts.drop properties.length))
  | .ref _ name, _ => name

/-- What is described is a part. -/
theorem mem_parts_of_mem_shown {s t : Shape} (h : t ∈ s.shown) : t ∈ s.parts := by
  cases s with
  | tagged members tag branches =>
    cases members with
    | nil => exact h
    | cons u members => exact List.mem_append_left _ h
  | object properties signatures =>
    have hperm := (sortBy_perm (fun a b => stringLe a.1 b.1) properties).map (·.2)
    rcases List.mem_append.mp h with h | h
    · exact List.mem_append_left _ (hperm.mem_iff.mp h)
    · exact List.mem_append_right _ h
  | _ => exact h

theorem sizeOf_lt_of_mem_shown {s t : Shape} (h : t ∈ s.shown) : sizeOf t < sizeOf s :=
  sizeOf_lt_of_mem_parts (mem_parts_of_mem_shown h)

/-- To prove something of every shape, prove it from the parts that are described. -/
theorem shown_induction {motive : Shape → Prop}
    (step : ∀ s, (∀ t ∈ s.shown, motive t) → motive s) (s : Shape) : motive s :=
  (measure sizeOf).wf.induction s fun s ih => step s fun t ht => ih t (sizeOf_lt_of_mem_shown ht)

/-! ## A description from its parts -/

section

variable {σ : Type} (onRef : Nat → String → σ → String × σ)

theorem describeAll_cons (s : Shape) (shapes : List Shape) (st : σ) :
    describeAll onRef (s :: shapes) st =
      ((describe onRef s st).1 :: (describeAll onRef shapes (describe onRef s st).2).1,
        (describeAll onRef shapes (describe onRef s st).2).2) := rfl

theorem describeAll_append (shapes others : List Shape) (st : σ) :
    describeAll onRef (shapes ++ others) st =
      ((describeAll onRef shapes st).1
          ++ (describeAll onRef others (describeAll onRef shapes st).2).1,
        (describeAll onRef others (describeAll onRef shapes st).2).2) := by
  induction shapes generalizing st with
  | nil => rfl
  | cons s shapes ih =>
    rw [List.cons_append, describeAll_cons, ih, describeAll_cons]
    rfl

theorem length_describeAll (shapes : List Shape) (st : σ) :
    (describeAll onRef shapes st).1.length = shapes.length := by
  induction shapes generalizing st with
  | nil => rfl
  | cons s shapes ih =>
    rw [describeAll_cons]
    exact congrArg (· + 1) (ih _)

theorem describeBranches_eq (branches : List (String × Shape)) (st : σ) :
    describeBranches onRef branches st = describeAll onRef (branches.map (·.2)) st := by
  induction branches generalizing st with
  | nil => rfl
  | cons e branches ih =>
    rw [List.map_cons, describeAll_cons, ← ih]
    rfl

theorem describeProperties_eq (properties : List (String × Shape)) :
    describeProperties onRef properties = properties.map fun e => (e.1, fun st =>
      (propertyLabel e.1 e.2 ++ (describe onRef e.2 st).1, (describe onRef e.2 st).2)) := by
  induction properties with
  | nil => rfl
  | cons e properties ih => rw [describeProperties, ih, List.map_cons]

/-- Properties that are described in turn. -/
theorem inTurn_eq (properties : List (String × Shape)) (st : σ) :
    inTurn (properties.map fun e st =>
        (propertyLabel e.1 e.2 ++ (describe onRef e.2 st).1, (describe onRef e.2 st).2)) st =
      (properties.zipWith (fun e part => propertyLabel e.1 e.2 ++ part)
          (describeAll onRef (properties.map (·.2)) st).1,
        (describeAll onRef (properties.map (·.2)) st).2) := by
  induction properties generalizing st with
  | nil => rfl
  | cons e properties ih =>
    rw [List.map_cons (f := fun e : String × Shape => e.2), describeAll_cons,
      List.zipWith_cons_cons]
    simp only [List.map_cons, inTurn, ih]

theorem describeSignatures_eq (signatures : List (Shape × Shape)) (st : σ) :
    describeSignatures onRef signatures st =
      (signatureTexts (describeAll onRef (signatures.flatMap fun e => [e.1, e.2]) st).1,
        (describeAll onRef (signatures.flatMap fun e => [e.1, e.2]) st).2) := by
  induction signatures generalizing st with
  | nil => rfl
  | cons e signatures ih =>
    simp only [describeSignatures, ih]
    rfl

/-- **A description is the assembled texts of the parts.** -/
theorem describe_eq {s : Shape} (hs : s.isRef = false) (st : σ) :
    describe onRef s st =
      (s.assemble (describeAll onRef s.shown st).1, (describeAll onRef s.shown st).2) := by
  cases s with
  | tuple slots rest =>
    have hlen := length_describeAll onRef slots st
    cases rest with
    | none => simp [describe, shown, assemble, ← hlen]
    | some t =>
      simp only [describe, shown, assemble, Option.toList_some, describeAll_append, describeAll,
        ← hlen, List.take_left, List.drop_left, List.map_cons, List.map_nil]
  | allOf members => rfl
  | anyOf members => rfl
  | array item => rfl
  | tagged members tag branches =>
    cases members with
    | nil => simp only [describe, shown, assemble, describeBranches_eq]
    | cons t members => rfl
  | optional inner => rfl
  | object properties signatures =>
    have hsteps : (sortByName (describeProperties onRef properties)).map (·.2) =
        (sortByName properties).map fun e st =>
          (propertyLabel e.1 e.2 ++ (describe onRef e.2 st).1, (describe onRef e.2 st).2) := by
      rw [describeProperties_eq, sortByName_map, List.map_map]
      rfl
    have hlen := length_describeAll onRef ((sortByName properties).map (·.2)) st
    have hsize : (sortByName properties).length = properties.length := (sortBy_perm _ _).length_eq
    rw [List.length_map, hsize] at hlen
    simp only [describe, shown, assemble, hsteps, inTurn_eq, describeSignatures_eq,
      describeAll_append, ← hlen, List.take_left, List.drop_left]
  | ref place name => cases hs
  | _ => rfl

end

/-! ## References -/

/-- The reference that a shape itself is. -/
def ownMention : Shape → List (Nat × String)
  | .ref place name => [(place, name)]
  | _ => []

/-- The references to which a description comes, in order, where no definition is entered. -/
def mentions (s : Shape) : List (Nat × String) :=
  s.ownMention ++ s.shown.attach.flatMap fun t => mentions t.1
termination_by sizeOf s
decreasing_by exact sizeOf_lt_of_mem_shown t.2

theorem mentions_ref (place : Nat) (name : String) :
    (ref place name).mentions = [(place, name)] := by
  rw [mentions]
  rfl

theorem ownMention_of_not_ref {s : Shape} (hs : s.isRef = false) : s.ownMention = [] := by
  cases s with
  | ref => cases hs
  | _ => rfl

theorem mentions_of_not_ref {s : Shape} (hs : s.isRef = false) :
    s.mentions = s.shown.flatMap mentions := by
  rw [mentions, ownMention_of_not_ref hs, List.nil_append,
    List.flatMap_subtype (g := mentions) fun t _ => rfl, List.unattach_attach]

/-- **The state that a description leaves is what the references leave, one after the other.** -/
theorem describe_state {σ : Type} (onRef : Nat → String → σ → String × σ) (s : Shape) (st : σ) :
    (describe onRef s st).2 = s.mentions.foldl (fun st m => (onRef m.1 m.2 st).2) st := by
  induction s using shown_induction generalizing st with | step s ih => ?_
  cases hs : s.isRef with
  | true =>
    obtain ⟨place, name, rfl⟩ := eq_ref_of_isRef hs
    rw [mentions_ref]
    rfl
  | false =>
    rw [describe_eq onRef hs, mentions_of_not_ref hs]
    have hall : ∀ shapes : List Shape, (∀ t ∈ shapes, ∀ st, (describe onRef t st).2 =
        t.mentions.foldl (fun st m => (onRef m.1 m.2 st).2) st) → ∀ st,
        (describeAll onRef shapes st).2 =
          (shapes.flatMap mentions).foldl (fun st m => (onRef m.1 m.2 st).2) st := by
      intro shapes
      induction shapes with
      | nil => exact fun _ _ => rfl
      | cons t shapes ih =>
        intro h st
        obtain ⟨ht, hshapes⟩ := List.forall_mem_cons.mp h
        rw [describeAll_cons, ih hshapes, ht, List.flatMap_cons, List.foldl_append]
    exact hall s.shown ih st

/-- **What a description carries along can be read through a map**, when that is so for the
references. -/
theorem describe_map {σ τ : Type} {onRef : Nat → String → σ → String × σ}
    {onRef' : Nat → String → τ → String × τ} {f : τ → σ}
    (h : ∀ place name st, onRef place name (f st) = Prod.map id f (onRef' place name st))
    (s : Shape) (st : τ) : describe onRef s (f st) = Prod.map id f (describe onRef' s st) := by
  induction s using shown_induction generalizing st with | step s ih => ?_
  cases hs : s.isRef with
  | true =>
    obtain ⟨place, name, rfl⟩ := eq_ref_of_isRef hs
    exact h place name st
  | false =>
    have hall : ∀ shapes : List Shape, (∀ t ∈ shapes, ∀ st, describe onRef t (f st) =
        Prod.map id f (describe onRef' t st)) → ∀ st, describeAll onRef shapes (f st) =
          Prod.map id f (describeAll onRef' shapes st) := by
      intro shapes
      induction shapes with
      | nil => exact fun _ _ => rfl
      | cons t shapes ih =>
        intro h st
        obtain ⟨ht, hshapes⟩ := List.forall_mem_cons.mp h
        rw [describeAll_cons, describeAll_cons, ht, Prod.map_snd, ih hshapes]
        rfl
    rw [describe_eq onRef hs, describe_eq onRef' hs, hall s.shown ih]
    rfl

end Shape

end ShapeGraph
