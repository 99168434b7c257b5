import Mathlib.Data.Finset.Card
import Mathlib.Logic.Relation
import ShapeGraph.Decode.Accepts
import ShapeGraph.Shape.Parts

/-!
# Guarded graphs

In a guarded graph a definition that leads back to itself takes a step into the value on the
way: to an item of an array, a slot of a tuple, a property of an object, or a key or value under
a signature. All questions about values go down such a graph for a bounded number of steps.

* `Graph.Guarded` — no definition leads back to itself at the value itself
* `Graph.Part` — what a question about a shape and a value is asked of in turn
* `Guarded.wellFounded_part`, `Guarded.induction` — going down ends
* `Graph.need`, `need_le_budget` — how many references are open at once, at most
-/

namespace ShapeGraph

namespace Shape

/-! ## References at the value itself -/

mutual

/-- The places to which a shape leads without a step into the value. The declared members of a
tagged union are not decoded, so they do not count. -/
def directRefs : Shape → List Nat
  | .ref place _ => [place]
  | .optional inner => directRefs inner
  | .allOf members => directRefsAll members
  | .anyOf members => directRefsAll members
  | .tagged _ _ branches => directRefsBranches branches
  | _ => []

def directRefsAll : List Shape → List Nat
  | [] => []
  | s :: members => directRefs s ++ directRefsAll members

def directRefsBranches : List (String × Shape) → List Nat
  | [] => []
  | (_, s) :: branches => directRefs s ++ directRefsBranches branches

end

theorem directRefsAll_eq (members : List Shape) :
    directRefsAll members = members.flatMap directRefs := by
  induction members with
  | nil => rfl
  | cons s members ih => rw [directRefsAll, ih, List.flatMap_cons]

theorem directRefsBranches_eq (branches : List (String × Shape)) :
    directRefsBranches branches = branches.flatMap fun e => directRefs e.2 := by
  induction branches with
  | nil => rfl
  | cons e branches ih => rw [directRefsBranches, ih, List.flatMap_cons]

end Shape

namespace Graph

/-- A definition leads to a place without a step into the value. -/
def LeadsTo (g : Graph) (i j : Nat) : Prop := ∃ s, g.shape? i = some s ∧ j ∈ s.directRefs

/-- **No definition leads back to itself without a step into the value.** -/
def Guarded (g : Graph) : Prop := ∀ i, ¬ Relation.TransGen g.LeadsTo i i

variable {g : Graph}

/-- Numbers that go down along the references at the value itself show that a graph is guarded. -/
theorem guarded_of_rank (r : Nat → Nat) (hr : ∀ i j, g.LeadsTo i j → r j < r i) : g.Guarded := by
  have hdown : ∀ i j, Relation.TransGen g.LeadsTo i j → r j < r i := by
    intro i j h
    induction h with
    | single h => exact hr _ _ h
    | tail _ h ih => exact Nat.lt_trans (hr _ _ h) ih
  intro i h
  exact Nat.lt_irrefl _ (hdown i i h)

/-- The same over the definitions that there are. -/
theorem guarded_of_ranks (r : Nat → Nat)
    (h : ∀ e ∈ g.definitions.zipIdx, ∀ j ∈ e.1.2.directRefs, r j < r e.2) : g.Guarded := by
  refine guarded_of_rank r fun i j ⟨s, hs, hj⟩ => ?_
  obtain ⟨e, he, rfl⟩ := Option.map_eq_some_iff.mp hs
  exact h (e, i) (List.mem_zipIdx_iff_getElem?.mpr he) j hj

/-- Trees, told apart by their kind. A fork may also have an owner and an age. -/
def trees : Graph :=
  ⟨[("Leaf", .object [("kind", .literal (.string "leaf")),
      ("at", .tuple [.base .number, .optional (.base .number)] none)] []),
    ("Fork", .object [("kind", .literal (.string "fork")), ("parts", .array (.ref 2 "Tree"))]
      [(.literals [.string "owner", .string "age"], .anyOf [.bigint, .ref 3 "Lost"])]),
    ("Tree", .tagged [] "kind" [("leaf", .ref 0 "Leaf"), ("fork", .ref 1 "Fork")])]⟩

/-- A fork leads back to trees, but inside an array; and nothing is defined at place `3`. -/
theorem trees_guarded : trees.Guarded := guarded_of_ranks id (by decide)

/-- A fork of two leaves; one of them has a second number. -/
def soundFork : Value :=
  .object [("kind", .string "fork"),
    ("parts", .array [
      .object [("at", .array [.number (.ofInt 1), .number (.ofInt 2)]), ("kind", .string "leaf")],
      .object [("kind", .string "leaf"), ("at", .array [.number (.ofInt 3)])]]),
    ("age", .bigint 40)]

/-- A fork with a leaf that has no place, no proper owner, and a key that it may not have. -/
def spoiltFork : Value :=
  .object [("kind", .string "fork"),
    ("parts", .array [.object [("kind", .string "leaf"), ("at", .array [.string "here"])]]),
    ("owner", .null), ("colour", .string "red")]

/-! ## Ranks -/

open Classical in
/-- The definitions to which a place leads, itself among them. -/
noncomputable def reach (g : Graph) (i : Nat) : Finset Nat :=
  (Finset.range g.size).filter fun j => Relation.ReflTransGen g.LeadsTo i j

/-- How many definitions can be opened from a place without a step into the value. -/
noncomputable def rank (g : Graph) (i : Nat) : Nat := (g.reach i).card

theorem mem_reach {i j : Nat} :
    j ∈ g.reach i ↔ j < g.size ∧ Relation.ReflTransGen g.LeadsTo i j := by
  classical
  unfold reach
  rw [Finset.mem_filter, Finset.mem_range]

theorem rank_le_size (i : Nat) : g.rank i ≤ g.size := by
  have hsub : g.reach i ⊆ Finset.range g.size :=
    fun _ hj => Finset.mem_range.mpr (mem_reach.mp hj).1
  have h := Finset.card_le_card hsub
  rwa [Finset.card_range] at h

/-- What a definition leads to has a smaller rank: of what it reaches, the definition itself is
missing. -/
theorem Guarded.rank_lt (hg : g.Guarded) {i j : Nat} {s : Shape} (hs : g.shape? i = some s)
    (hj : j ∈ s.directRefs) : g.rank j < g.rank i := by
  have hij : g.LeadsTo i j := ⟨s, hs, hj⟩
  refine Finset.card_lt_card ((Finset.ssubset_iff_of_subset ?_).mpr ⟨i, ?_, ?_⟩)
  · intro k hk
    obtain ⟨hlt, hjk⟩ := mem_reach.mp hk
    exact mem_reach.mpr ⟨hlt, Relation.ReflTransGen.head hij hjk⟩
  · exact mem_reach.mpr ⟨lt_size_of_shape? hs, Relation.ReflTransGen.refl⟩
  · intro hi
    exact hg i (Relation.TransGen.head' hij (mem_reach.mp hi).2)

/-- The largest of some ranks. -/
noncomputable def rankAmong (g : Graph) (places : List Nat) : Nat :=
  places.foldr (fun i b => max (g.rank i) b) 0

/-- The rank of a shape: the largest rank of a place to which it leads. -/
noncomputable def rankOf (g : Graph) (s : Shape) : Nat := g.rankAmong s.directRefs

theorem rankAmong_le_iff {places : List Nat} {b : Nat} :
    g.rankAmong places ≤ b ↔ ∀ i ∈ places, g.rank i ≤ b := by
  induction places with
  | nil => simp [rankAmong]
  | cons i places ih =>
    show max (g.rank i) (g.rankAmong places) ≤ b ↔ _
    rw [Nat.max_le, ih, List.forall_mem_cons]

theorem rank_le_rankOf {s : Shape} {j : Nat} (h : j ∈ s.directRefs) : g.rank j ≤ g.rankOf s :=
  rankAmong_le_iff.mp (Nat.le_refl _) j h

theorem rankOf_le {s : Shape} {b : Nat} (h : ∀ j ∈ s.directRefs, g.rank j ≤ b) :
    g.rankOf s ≤ b :=
  rankAmong_le_iff.mpr h

theorem rankOf_le_size (s : Shape) : g.rankOf s ≤ g.size := rankOf_le fun j _ => rank_le_size j

theorem rankOf_mono {s t : Shape} (h : ∀ j ∈ t.directRefs, j ∈ s.directRefs) :
    g.rankOf t ≤ g.rankOf s :=
  rankOf_le fun j hj => rank_le_rankOf (h j hj)

/-- A reference has the rank of the place it leads to. -/
theorem rankOf_ref (i : Nat) (name : String) : g.rankOf (.ref i name) = g.rank i := by
  unfold rankOf Shape.directRefs
  exact Nat.max_zero _

/-- The definition behind a reference has a smaller rank than the reference. -/
theorem Guarded.rankOf_target_lt (hg : g.Guarded) {i : Nat} {t : Shape}
    (h : g.shape? i = some t) : g.rankOf t < g.rank i := by
  have hpos : 0 < g.rank i :=
    Finset.card_pos.mpr ⟨i, mem_reach.mpr ⟨lt_size_of_shape? h, Relation.ReflTransGen.refl⟩⟩
  have hle : g.rankOf t ≤ g.rank i - 1 := by
    refine rankOf_le fun j hj => ?_
    have := hg.rank_lt h hj
    omega
  omega

/-! ## Going down -/

/-- `g.Part (t, w) (s, v)`: what `s` says of `v` depends on what `t` says of `w`. -/
inductive Part (g : Graph) : Shape × Value → Shape × Value → Prop
  | slot {slots rest items i t} : slots[i]? = some t →
      Part g (t, (Value.array items).item i) (.tuple slots rest, .array items)
  | rest {slots t items w} : w ∈ items.drop slots.length →
      Part g (t, w) (.tuple slots (some t), .array items)
  | conjunct {members t v} : t ∈ members → Part g (t, v) (.allOf members, v)
  | disjunct {members t v} : t ∈ members → Part g (t, v) (.anyOf members, v)
  | item {t items w} : w ∈ items → Part g (t, w) (.array t, .array items)
  | branch {members tag branches k t v} : (k, t) ∈ branches →
      Part g (t, v) (.tagged members tag branches, v)
  | inner {t v} : Part g (t, v) (.optional t, v)
  | property {properties signatures ms k t} : (k, t) ∈ properties →
      Part g (t, (Value.object ms).get k) (.object properties signatures, .object ms)
  | key {properties signatures ms k w t u} : (t, u) ∈ signatures → (k, w) ∈ ms →
      Part g (t, .string k) (.object properties signatures, .object ms)
  | member {properties signatures ms k w t u} : (t, u) ∈ signatures → (k, w) ∈ ms →
      Part g (u, w) (.object properties signatures, .object ms)
  | target {i name t v} : g.shape? i = some t → Part g (t, v) (.ref i name, v)

/-- In what stands at the value itself or in its parts only parts of the shape are asked. -/
theorem Part.mem_parts {s t : Shape} {v w : Value} (h : g.Part (t, w) (s, v))
    (hs : s.isRef = false) : t ∈ s.parts := by
  cases h with
  | slot h => exact List.mem_append_left _ (List.mem_of_getElem? h)
  | rest h => exact List.mem_append_right _ List.mem_cons_self
  | conjunct h | disjunct h => exact h
  | item h | inner => exact List.mem_cons_self
  | branch h => exact List.mem_append_right _ (List.mem_map_of_mem h)
  | property h => exact List.mem_append_left _ (List.mem_map_of_mem h)
  | key h hm =>
    exact List.mem_append_right _ (List.mem_flatMap.mpr ⟨_, h, List.mem_cons_self⟩)
  | member h hm =>
    exact List.mem_append_right _
      (List.mem_flatMap.mpr ⟨_, h, List.mem_cons_of_mem _ List.mem_cons_self⟩)
  | target => cases hs

/-- A part is a part of a shallower value, or of the same value by a shape of no larger rank. -/
theorem Part.descends {t s : Shape} {w v : Value} (h : g.Part (t, w) (s, v)) :
    w.depth < v.depth ∨ (w = v ∧ sizeOf t < sizeOf s ∧ g.rankOf t ≤ g.rankOf s) ∨
      (w = v ∧ ∃ i name, s = .ref i name ∧ g.shape? i = some t) := by
  have hsize (hs : s.isRef = false) := Shape.sizeOf_lt_of_mem_parts (h.mem_parts hs)
  cases h with
  | slot _ => exact Or.inl (Value.depth_item_lt _ _)
  | rest h =>
    have := Value.depth_le_depthItems (List.mem_of_mem_drop h)
    exact Or.inl (by simp only [Value.depth]; omega)
  | item h =>
    have := Value.depth_le_depthItems h
    exact Or.inl (by simp only [Value.depth]; omega)
  | property _ => exact Or.inl (Value.depth_get_lt _ _)
  | key _ _ => exact Or.inl (by simp only [Value.depth]; omega)
  | member _ h =>
    have := Value.depth_le_depthMembers h
    exact Or.inl (by simp only [Value.depth]; omega)
  | conjunct h =>
    refine Or.inr (Or.inl ⟨rfl, hsize rfl, rankOf_mono fun j hj => ?_⟩)
    rw [Shape.directRefs, Shape.directRefsAll_eq]
    exact List.mem_flatMap.mpr ⟨t, h, hj⟩
  | disjunct h =>
    refine Or.inr (Or.inl ⟨rfl, hsize rfl, rankOf_mono fun j hj => ?_⟩)
    rw [Shape.directRefs, Shape.directRefsAll_eq]
    exact List.mem_flatMap.mpr ⟨t, h, hj⟩
  | branch h =>
    refine Or.inr (Or.inl ⟨rfl, hsize rfl, rankOf_mono fun j hj => ?_⟩)
    rw [Shape.directRefs, Shape.directRefsBranches_eq]
    exact List.mem_flatMap.mpr ⟨_, h, hj⟩
  | inner =>
    refine Or.inr (Or.inl ⟨rfl, hsize rfl, rankOf_mono fun j hj => ?_⟩)
    rw [Shape.directRefs]
    exact hj
  | target h => exact Or.inr (Or.inr ⟨rfl, _, _, rfl, h⟩)

/-- What goes down: the depth of the value, then the rank of the shape, then its size. -/
noncomputable def weight (g : Graph) (q : Shape × Value) : Nat × Nat × Nat :=
  (q.2.depth, g.rankOf q.1, sizeOf q.1)

/-- **Going down from part to part ends.** -/
theorem Guarded.wellFounded_part (hg : g.Guarded) : WellFounded g.Part := by
  have hwf := (Prod.lex Nat.lt_wfRel (Prod.lex Nat.lt_wfRel Nat.lt_wfRel)).wf
  refine Subrelation.wf ?_ (InvImage.wf g.weight hwf)
  rintro ⟨t, w⟩ ⟨s, v⟩ h
  -- a step into the value, a smaller shape, or the opening of a definition
  rcases h.descends with hd | ⟨rfl, hsize, hrank⟩ | ⟨rfl, i, name, rfl, ht⟩
  · exact Prod.Lex.left _ _ hd
  · refine Prod.Lex.right _ ?_
    rcases Nat.lt_or_eq_of_le hrank with hlt | heq
    · exact Prod.Lex.left _ _ hlt
    · show Prod.Lex _ _ (g.rankOf t, sizeOf t) (g.rankOf s, sizeOf s)
      rw [heq]
      exact Prod.Lex.right _ hsize
  · refine Prod.Lex.right _ (Prod.Lex.left _ _ ?_)
    show g.rankOf t < g.rankOf (.ref i name)
    rw [rankOf_ref]
    exact hg.rankOf_target_lt ht

/-- To prove something of every shape and value, prove it from the parts. -/
theorem Guarded.induction (hg : g.Guarded) {motive : Shape → Value → Prop}
    (step : ∀ s v, (∀ t w, g.Part (t, w) (s, v) → motive t w) → motive s v) (s : Shape)
    (v : Value) : motive s v := by
  have h := hg.wellFounded_part.induction (C := fun q => motive q.1 q.2) (s, v)
  exact h fun q ih => step q.1 q.2 fun t w hp => ih (t, w) hp

/-! ## How many references are open at once -/

/-- How many references may be open one inside the other when a shape is asked about a value:
those up to the next step into the value, and for every further step all definitions. -/
noncomputable def need (g : Graph) (s : Shape) (v : Value) : Nat :=
  g.rankOf s + g.size * v.depth

/-- A part needs no more than the whole. -/
theorem Guarded.need_part_le (hg : g.Guarded) {t s : Shape} {w v : Value}
    (h : g.Part (t, w) (s, v)) : g.need t w ≤ g.need s v := by
  unfold need
  rcases h.descends with hd | ⟨rfl, _, hrank⟩ | ⟨rfl, i, name, rfl, ht⟩
  · have hsize : g.rankOf t ≤ g.size := rankOf_le_size t
    have hmul : g.size * (w.depth + 1) ≤ g.size * v.depth := Nat.mul_le_mul_left _ hd
    rw [Nat.mul_add, Nat.mul_one] at hmul
    omega
  · omega
  · have := hg.rankOf_target_lt ht
    rw [rankOf_ref]
    omega

/-- The definition behind a reference needs less than the reference. -/
theorem Guarded.need_target_lt (hg : g.Guarded) {i : Nat} {name : String} {t : Shape} {v : Value}
    (h : g.shape? i = some t) : g.need t v < g.need (.ref i name) v := by
  have := hg.rankOf_target_lt h
  unfold need
  rw [rankOf_ref]
  omega

/-- **What is needed is within the budget.** -/
theorem need_le_budget (s : Shape) (v : Value) : g.need s v ≤ g.budget v := by
  have hsize : g.rankOf s ≤ g.size := rankOf_le_size s
  unfold need budget
  calc g.rankOf s + g.size * v.depth
      ≤ g.size * 1 + g.size * v.depth := by omega
    _ = g.size * (1 + v.depth) := (Nat.mul_add _ _ _).symm
    _ ≤ (g.size + 1) * (v.depth + 2) := Nat.mul_le_mul (by omega) (by omega)

/-- What a part needs is within the budget of the whole. -/
theorem Guarded.need_part_le_budget (hg : g.Guarded) {t s : Shape} {w v : Value}
    (h : g.Part (t, w) (s, v)) : g.need t w ≤ g.budget v :=
  Nat.le_trans (hg.need_part_le h) (need_le_budget s v)

end Graph

end ShapeGraph
