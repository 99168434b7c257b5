import ShapeGraph.Proofs.Guarded
import ShapeGraph.Shape.Parts

/-!
# The shapes that parsing comes to

What a shape makes of a value is put together from what its parts make of parts of the value, and
a reference leads to the definition behind it. A condition on all shapes that parsing can come to
can be checked without following the references, on the shape and on every definition.

* `Graph.Uses`, `Graph.Reaches` — the shapes that parsing comes to
* `reaches_all` — a condition that is met everywhere is met by what is reached
-/

namespace ShapeGraph

namespace Graph

variable {g : Graph}

/-! ## From shape to shape -/

/-- `g.Uses s t`: what `s` makes of a value is made of what `t` makes of a part of it. Keys under
signatures are accepted but not parsed, and the declared members of a tagged union do not take
part in decoding. -/
inductive Uses (g : Graph) : Shape → Shape → Prop
  | slot {slots rest t} : t ∈ slots → Uses g (.tuple slots rest) t
  | rest {slots t} : Uses g (.tuple slots (some t)) t
  | conjunct {members t} : t ∈ members → Uses g (.allOf members) t
  | disjunct {members t} : t ∈ members → Uses g (.anyOf members) t
  | item {t} : Uses g (.array t) t
  | branch {members tag branches k t} : (k, t) ∈ branches →
      Uses g (.tagged members tag branches) t
  | inner {t} : Uses g (.optional t) t
  | property {properties signatures k t} : (k, t) ∈ properties →
      Uses g (.object properties signatures) t
  | member {properties signatures t u} : (t, u) ∈ signatures →
      Uses g (.object properties signatures) u
  | target {i name t} : g.shape? i = some t → Uses g (.ref i name) t

/-- The shapes that parsing by a shape can come to, itself among them. -/
def Reaches (g : Graph) : Shape → Shape → Prop := Relation.ReflTransGen g.Uses

/-- A shape uses its own parts and the definitions to which it refers. -/
theorem Uses.cases {s t : Shape} (h : g.Uses s t) :
    t ∈ s.parts ∨ ∃ i name, s = .ref i name ∧ g.shape? i = some t := by
  cases h with
  | slot h => exact .inl (List.mem_append_left _ h)
  | rest => exact .inl (List.mem_append_right _ (List.mem_singleton.mpr rfl))
  | conjunct h => exact .inl h
  | disjunct h => exact .inl h
  | item => exact .inl List.mem_cons_self
  | branch h => exact .inl (List.mem_append_right _ (List.mem_map.mpr ⟨_, h, rfl⟩))
  | inner => exact .inl List.mem_cons_self
  | property h => exact .inl (List.mem_append_left _ (List.mem_map.mpr ⟨_, h, rfl⟩))
  | member h =>
    refine .inl (List.mem_append_right _ (List.mem_flatMap.mpr ⟨_, h, ?_⟩))
    exact List.mem_cons_of_mem _ List.mem_cons_self
  | target h => exact .inr ⟨_, _, rfl, h⟩

theorem Reaches.refl (s : Shape) : g.Reaches s s := Relation.ReflTransGen.refl

/-- What a used shape reaches is reached. -/
theorem Uses.reaches {s t u : Shape} (h : g.Uses s t) (hu : g.Reaches t u) : g.Reaches s u :=
  Relation.ReflTransGen.head h hu

/-- What holds of all that a shape reaches holds of all that a used shape reaches. -/
theorem Uses.forall_reaches {P : Shape → Prop} {s t : Shape} (h : g.Uses s t)
    (hs : ∀ u, g.Reaches s u → P u) : ∀ u, g.Reaches t u → P u :=
  fun u hu => hs u (h.reaches hu)

theorem mem_of_shape? {i : Nat} {s : Shape} (h : g.shape? i = some s) :
    ∃ e ∈ g.definitions, e.2 = s := by
  unfold shape? at h
  obtain ⟨e, he, hs⟩ := Option.map_eq_some_iff.mp h
  exact ⟨e, List.mem_of_getElem? he, hs⟩

/-- **A condition that is met everywhere is met by what is reached.** -/
theorem reaches_all {P : Shape → Bool} (hg : ∀ e ∈ g.definitions, e.2.all P = true) {s t : Shape}
    (hs : s.all P = true) (h : g.Reaches s t) : t.all P = true := by
  induction h with
  | refl => exact hs
  | tail _ hu ih =>
    rcases hu.cases with hpart | ⟨i, name, -, ht⟩
    · exact Shape.all_of_mem_parts ih hpart
    · obtain ⟨e, he, rfl⟩ := mem_of_shape? ht
      exact hg e he

end Graph

end ShapeGraph
