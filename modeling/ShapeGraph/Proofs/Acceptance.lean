import ShapeGraph.Proofs.Guarded
import ShapeGraph.Shape.Substitution

/-!
# Acceptance in a guarded graph

In a guarded graph what a shape says of a value is what its parts say of the parts of the value.
How many references may be opened one inside the other does not show.

* `Guarded.accepts_fuel` — all that may be opened, as long as it is enough, gives one answer
* `Guarded.accepts_ref`, `Guarded.accepts_array`, … — one equation for each kind with parts
-/

namespace ShapeGraph

/-! ## Lists -/

theorem all_congr_of_mem {α : Type} {l : List α} {f g : α → Bool}
    (h : ∀ a ∈ l, f a = g a) : l.all f = l.all g := by
  rw [Bool.eq_iff_iff, List.all_eq_true, List.all_eq_true]
  exact forall₂_congr fun a ha => by rw [h a ha]

theorem any_congr_of_mem {α : Type} {l : List α} {f g : α → Bool}
    (h : ∀ a ∈ l, f a = g a) : l.any f = l.any g := by
  rw [Bool.eq_iff_iff, List.any_eq_true, List.any_eq_true]
  exact exists_congr fun a => and_congr_right fun ha => by rw [h a ha]

namespace Shape

/-! ## What each kind asks of its parts -/

section

variable (p : Policy) (onRef : Nat → Value → Bool)

theorem acceptsSlots_drop (slots : List Shape) (items : List Value) (i : Nat) :
    acceptsSlots p onRef slots (items.drop i) =
      (slots.zipIdx i).all fun e => accepts p onRef e.1 ((Value.array items).item e.2) := by
  induction slots generalizing i with
  | nil => rfl
  | cons s slots ih =>
    rw [acceptsSlots, Value.headD_drop, List.tail_drop, ih (i + 1), List.zipIdx_cons,
      List.all_cons]

theorem acceptsSlots_eq (slots : List Shape) (items : List Value) :
    acceptsSlots p onRef slots items =
      slots.zipIdx.all fun e => accepts p onRef e.1 ((Value.array items).item e.2) :=
  acceptsSlots_drop p onRef slots items 0

end

variable {g : Graph} {p : Policy} {a a' : Nat → Value → Bool} {f : Nat → String → Shape}

theorem undeclared_mapValues (properties : Entries Shape) (members : List (String × Value)) :
    undeclared (properties.mapValues (subst f)) members = undeclared properties members := by
  unfold undeclared Entries.has
  simp only [Entries.get?_mapValues, Option.isSome_map]

/-- **A shape with shapes in place of its references answers as the shape does, when all parts of
the question are answered so**, unless it is a reference itself. -/
theorem accepts_subst_congr {s : Shape} {v : Value} (hs : s.isRef = false)
    (h : ∀ t w, g.Part (t, w) (s, v) → accepts p a' (t.subst f) w = accepts p a t w) :
    accepts p a' (s.subst f) v = accepts p a s v := by
  cases s with
  | ref => cases hs
  | optional t => rw [subst, accepts, accepts, h t v .inner]
  | allOf members =>
    rw [subst_allOf, accepts, accepts, acceptsAll_eq, acceptsAll_eq, List.all_map]
    congr 1
    exact all_congr_of_mem fun t ht => h t v (.conjunct ht)
  | anyOf members =>
    rw [subst_anyOf, accepts, accepts, acceptsSome_eq, acceptsSome_eq, List.any_map]
    exact any_congr_of_mem fun t ht => h t v (.disjunct ht)
  | tagged members tag branches =>
    rw [subst_tagged, accepts, accepts]
    congr 2
    funext key
    rw [acceptsBranch_eq, acceptsBranch_eq, Entries.get?_mapValues]
    cases hb : Entries.get? branches key with
    | none => rfl
    | some t => exact h t v (.branch (Entries.mem_of_get? hb))
  | array t =>
    cases v with
    | array items =>
      rw [subst, accepts, accepts]
      exact all_congr_of_mem fun w hw => h t w (.item hw)
    | _ => rfl
  | tuple slots rest =>
    rw [subst_tuple]
    cases v with
    | array items =>
      have hslots :
          acceptsSlots p a' (slots.map (subst f)) items = acceptsSlots p a slots items := by
        rw [acceptsSlots_eq, acceptsSlots_eq, List.zipIdx_map, List.all_map]
        refine all_congr_of_mem fun e he => h e.1 _ (.slot ?_)
        exact List.mem_zipIdx_iff_getElem?.mp he
      cases rest with
      | none => rw [Option.map_none, accepts, accepts, hslots, List.length_map]
      | some t =>
        rw [Option.map_some, accepts, accepts, hslots, List.length_map]
        rw [all_congr_of_mem fun w hw => h t w (.rest hw)]
    | _ => cases rest <;> rfl
  | object properties signatures =>
    rw [subst_object]
    cases v with
    | object ms =>
      rw [accepts, accepts, acceptsProperties_eq, acceptsProperties_eq, undeclared_mapValues,
        Entries.mapValues, List.all_map, List.isEmpty_map]
      congr 1
      · exact all_congr_of_mem fun e he => h e.2 _ (.property he)
      · congr 1
        refine all_congr_of_mem fun m hm => ?_
        have hmem : m ∈ ms := (List.mem_filter.mp hm).1
        rw [acceptsMember_eq, acceptsMember_eq, List.any_map]
        refine any_congr_of_mem fun e he => ?_
        rw [Function.comp_apply, h e.1 _ (.key he hmem), h e.2 _ (.member he hmem)]
    | _ => rfl
  | _ => rfl

/-- Two ways to answer for the references that agree on all parts of a question agree on the
question, unless it is a reference itself. -/
theorem accepts_congr {s : Shape} {v : Value} (hs : s.isRef = false)
    (h : ∀ t w, g.Part (t, w) (s, v) → accepts p a t w = accepts p a' t w) :
    accepts p a s v = accepts p a' s v := by
  have hsame : accepts p a (s.subst .ref) v = accepts p a' s v :=
    accepts_subst_congr hs fun t w hp => by rw [subst_ref, h t w hp]
  rwa [subst_ref] at hsame

end Shape

namespace Graph

variable {g : Graph} {p : Policy}

/-! ## Fuel does not show -/

/-- Any two amounts of fuel that are enough give the same answer. -/
theorem Guarded.accepts_fuel_agree (hg : g.Guarded) (s : Shape) (v : Value) :
    ∀ n m, g.need s v ≤ n → g.need s v ≤ m →
      s.accepts p (g.acceptsRef p n) v = s.accepts p (g.acceptsRef p m) v := by
  induction s, v using hg.induction with | step s v ih => ?_
  intro n m hn hm
  cases hs : s.isRef with
  | true =>
    obtain ⟨i, name, rfl⟩ := Shape.eq_ref_of_isRef hs
    simp only [Shape.accepts]
    cases ht : g.shape? i with
    | none => cases n <;> cases m <;> simp only [acceptsRef, ht]
    | some t =>
      -- a definition is behind the reference, so neither amount is used up
      have hlt : g.need t v < g.need (.ref i name) v := hg.need_target_lt ht
      obtain ⟨n, rfl⟩ : ∃ k, n = k + 1 := ⟨n - 1, by omega⟩
      obtain ⟨m, rfl⟩ : ∃ k, m = k + 1 := ⟨m - 1, by omega⟩
      simp only [acceptsRef, ht]
      exact ih t v (.target ht) n m (by omega) (by omega)
  | false =>
    refine Shape.accepts_congr (g := g) hs fun t w hp => ?_
    have hle := hg.need_part_le hp
    exact ih t w hp n m (Nat.le_trans hle hn) (Nat.le_trans hle hm)

/-- **Every amount of fuel that is enough gives the answer of the graph.** -/
theorem Guarded.accepts_fuel (hg : g.Guarded) {s : Shape} {v : Value} {n : Nat}
    (hn : g.need s v ≤ n) : s.accepts p (g.acceptsRef p n) v = g.accepts p s v :=
  hg.accepts_fuel_agree s v n (g.budget v) hn (need_le_budget s v)

/-- Within the budget of the whole a part gets the answer of the graph. -/
theorem Guarded.accepts_part (hg : g.Guarded) {s t : Shape} {v w : Value}
    (h : g.Part (t, w) (s, v)) : t.accepts p (g.acceptsRef p (g.budget v)) w = g.accepts p t w :=
  hg.accepts_fuel (hg.need_part_le_budget h)

/-! ## Equations -/

/-- A reference says what the definition behind it says; without one it accepts nothing. -/
theorem Guarded.accepts_ref (hg : g.Guarded) (i : Nat) (name : String) (v : Value) :
    g.accepts p (.ref i name) v = (g.shape? i).any fun t => g.accepts p t v := by
  have hpos : 0 < g.budget v := Nat.mul_pos (Nat.succ_pos _) (Nat.succ_pos _)
  obtain ⟨n, hn⟩ : ∃ n, g.budget v = n + 1 := ⟨g.budget v - 1, by omega⟩
  rw [accepts, Shape.accepts, hn, acceptsRef]
  cases ht : g.shape? i with
  | none => rfl
  | some t =>
    have hlt : g.need t v < g.need (.ref i name) v := hg.need_target_lt ht
    have hle : g.need (.ref i name) v ≤ g.budget v := need_le_budget _ v
    exact hg.accepts_fuel (by omega)

theorem accepts_optional (s : Shape) (v : Value) :
    g.accepts p (.optional s) v = (v.isNullish || g.accepts p s v) := rfl

theorem accepts_allOf (members : List Shape) (v : Value) :
    g.accepts p (.allOf members) v = (v.isObject && members.all fun s => g.accepts p s v) := by
  rw [accepts, Shape.accepts, Shape.acceptsAll_eq]
  rfl

theorem accepts_anyOf (members : List Shape) (v : Value) :
    g.accepts p (.anyOf members) v = members.any fun s => g.accepts p s v :=
  Shape.acceptsSome_eq ..

theorem accepts_tagged (members : List Shape) (tag : String) (branches : Entries Shape)
    (v : Value) :
    g.accepts p (.tagged members tag branches) v =
      (v.isObject && (v.get tag).tagKey?.any fun key =>
        (branches.get? key).any fun s => g.accepts p s v) := by
  rw [accepts, Shape.accepts]
  congr 2
  funext key
  exact Shape.acceptsBranch_eq ..

theorem Guarded.accepts_array (hg : g.Guarded) (s : Shape) (items : List Value) :
    g.accepts p (.array s) (.array items) = items.all fun v => g.accepts p s v := by
  rw [accepts, Shape.accepts]
  exact all_congr_of_mem fun w hw => hg.accepts_part (.item hw)

/-- The slots of a tuple are asked about the items at their places, missing ones included. -/
theorem Guarded.acceptsSlots_eq (hg : g.Guarded) (slots : List Shape) (rest : Option Shape)
    (items : List Value) :
    Shape.acceptsSlots p (g.acceptsRef p (g.budget (.array items))) slots items =
      slots.zipIdx.all fun e => g.accepts p e.1 ((Value.array items).item e.2) := by
  rw [Shape.acceptsSlots_eq]
  refine all_congr_of_mem fun e he => ?_
  have hpart : g.Part (e.1, (Value.array items).item e.2) (.tuple slots rest, .array items) :=
    .slot (List.mem_zipIdx_iff_getElem?.mp he)
  exact hg.accepts_part hpart

theorem Guarded.accepts_tuple_closed (hg : g.Guarded) (slots : List Shape)
    (items : List Value) :
    g.accepts p (.tuple slots none) (.array items) =
      ((slots.zipIdx.all fun e => g.accepts p e.1 ((Value.array items).item e.2))
        && decide (items.length ≤ slots.length)) := by
  rw [accepts, Shape.accepts, hg.acceptsSlots_eq slots none]

theorem Guarded.accepts_tuple_open (hg : g.Guarded) (slots : List Shape) (rest : Shape)
    (items : List Value) :
    g.accepts p (.tuple slots (some rest)) (.array items) =
      ((slots.zipIdx.all fun e => g.accepts p e.1 ((Value.array items).item e.2))
        && (items.drop slots.length).all fun v => g.accepts p rest v) := by
  rw [accepts, Shape.accepts, hg.acceptsSlots_eq slots (some rest)]
  rw [all_congr_of_mem fun w hw => hg.accepts_part (.rest hw)]

/-- Whether a signature accepts a member. -/
def admits (g : Graph) (p : Policy) (m : String × Value) (signature : Shape × Shape) : Bool :=
  g.accepts p signature.1 (.string m.1) && g.accepts p signature.2 m.2

/-- Some signature accepts a member when the key and the value are accepted by its two shapes. -/
theorem Guarded.acceptsMember_eq (hg : g.Guarded) {properties : Entries Shape}
    {signatures : List (Shape × Shape)} {ms : List (String × Value)} {m : String × Value}
    (hm : m ∈ Shape.undeclared properties ms) :
    Shape.acceptsMember p (g.acceptsRef p (g.budget (.object ms))) signatures (.string m.1) m.2 =
      signatures.any (g.admits p m) := by
  have hmem : m ∈ ms := (List.mem_filter.mp hm).1
  rw [Shape.acceptsMember_eq]
  refine any_congr_of_mem fun e he => ?_
  have hkey : g.Part (e.1, .string m.1) (.object properties signatures, .object ms) :=
    .key he hmem
  have hvalue : g.Part (e.2, m.2) (.object properties signatures, .object ms) := .member he hmem
  rw [admits, hg.accepts_part hkey, hg.accepts_part hvalue]

theorem Guarded.accepts_object (hg : g.Guarded) (properties : Entries Shape)
    (signatures : List (Shape × Shape)) (ms : List (String × Value)) :
    g.accepts p (.object properties signatures) (.object ms) =
      ((properties.all fun e => g.accepts p e.2 ((Value.object ms).get e.1))
        && (if signatures.isEmpty then !(p.strict && !(Shape.undeclared properties ms).isEmpty)
          else (Shape.undeclared properties ms).all fun m => signatures.any (g.admits p m))) := by
  have hproperties : ∀ e ∈ properties,
      g.Part (e.2, (Value.object ms).get e.1) (.object properties signatures, .object ms) :=
    fun e he => .property he
  rw [accepts, Shape.accepts, Shape.acceptsProperties_eq]
  rw [all_congr_of_mem fun e he => hg.accepts_part (hproperties e he)]
  rw [all_congr_of_mem fun m hm => hg.acceptsMember_eq hm]

end Graph

end ShapeGraph
