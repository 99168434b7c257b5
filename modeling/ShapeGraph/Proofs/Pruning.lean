import ShapeGraph.Proofs.Making

/-!
# Parsing only leaves out

The parsed form of a value holds at every place what the value holds there, or less: parsing
never makes data up and never moves it. Unions merge several such forms of one value and
intersections join them; that is harmless because all of them were taken from the same value.

* `Value.PrunedFrom` — one value holds nothing but what the other one holds at the same place
* `PrunedFrom.merge` — two values pruned from one value are merged to a third
* `Makes.prunedFrom` — what a shape makes of a value is pruned from it
-/

namespace ShapeGraph

namespace Value

/-- `y.PrunedFrom x`: whatever stands in `y` stands in `x` at the same place. Null and what is
missing are not told apart, nor are numerically equal numbers. Items keep their indices, so an
item of `x` can only be left out of `y` if it is nullish; members can go. -/
inductive PrunedFrom : Value → Value → Prop
  | nullish {y x : Value} (hy : y.isNullish = true) (hx : x.isNullish = true) : PrunedFrom y x
  | number {a b : Number} (h : a.same b = true ∨ a = b) : PrunedFrom (.number a) (.number b)
  | bool (b : Bool) : PrunedFrom (.bool b) (.bool b)
  | bigint (n : Int) : PrunedFrom (.bigint n) (.bigint n)
  | string (s : String) : PrunedFrom (.string s) (.string s)
  | date (millis : Int) : PrunedFrom (.date millis) (.date millis)
  | array {ys xs : List Value}
      (h : ∀ i, PrunedFrom ((Value.array ys).item i) ((Value.array xs).item i)) :
      PrunedFrom (.array ys) (.array xs)
  | object {ys xs : List (String × Value)}
      (h : ∀ m ∈ ys, PrunedFrom m.2 ((Value.object xs).get m.1)) :
      PrunedFrom (.object ys) (.object xs)

/-- Induction on how deep values nest. -/
theorem depth_induction {motive : Value → Prop}
    (step : ∀ x, (∀ w, w.depth < x.depth → motive w) → motive x) (x : Value) : motive x :=
  (measure depth).wf.induction x step

theorem prunedFrom_undefined : PrunedFrom .undefined .undefined := .nullish rfl rfl

/-- **A tidy value is pruned from itself.** -/
theorem prunedFrom_self {x : Value} (h : x.isTidy = true) : x.PrunedFrom x := by
  induction x using depth_induction with | step x ih => ?_
  cases x with
  | undefined => exact prunedFrom_undefined
  | null => exact .nullish rfl rfl
  | bool b => exact .bool b
  | number a => exact .number (.inr rfl)
  | bigint n => exact .bigint n
  | string s => exact .string s
  | date t => exact .date t
  | array items => exact .array fun i => ih _ (depth_item_lt items i) (isTidy_item h i)
  | object ms =>
    refine .object fun m hm => ?_
    rw [get_of_mem h hm]
    refine ih _ ?_ ((isTidy_object_iff.mp h).2 m hm)
    have hle : m.2.depth ≤ depthMembers ms := depth_le_depthMembers hm
    rw [depth]
    omega

/-- What is pruned from an object has its members from there. -/
theorem PrunedFrom.member {y x : Value} (h : y.PrunedFrom x) {m : String × Value}
    (hm : m ∈ y.fields) : m.2.PrunedFrom (x.get m.1) := by
  cases h with
  | object h => exact h m hm
  | nullish hy _ =>
    cases y with
    | object ms => cases hy
    | _ => cases hm
  | _ => cases hm

theorem prunedFrom_object {fields : Entries Value} {x : Value} (hx : x.form = .object)
    (h : ∀ m ∈ fields, m.2.PrunedFrom (x.get m.1)) : (object fields).PrunedFrom x := by
  rw [eq_object_of_form hx] at h ⊢
  exact .object h

/-! ## Merging -/

/-- What holds of the members of both sides, and of merged ones, holds of all members. -/
theorem forall_mem_mergeMembers {P : String → Value → Prop}
    (hmerge : ∀ k a b, P k a → P k b → P k (a.merge b)) {left right : List (String × Value)}
    (hl : ∀ m ∈ left, P m.1 m.2) (hr : ∀ m ∈ right, P m.1 m.2) :
    ∀ m ∈ mergeMembers left right, P m.1 m.2 := by
  induction right generalizing left with
  | nil => exact hl
  | cons e right ih =>
    obtain ⟨key, b⟩ := e
    have hb : P key b := hr (key, b) List.mem_cons_self
    rw [mergeMembers]
    refine ih (fun m hm => ?_) fun m hm => hr m (List.mem_cons_of_mem _ hm)
    rcases Entries.mem_insert hm with rfl | hm
    · cases hk : Entries.get? left key with
      | none => exact hb
      | some a => exact hmerge key a b (hl (key, a) (Entries.mem_of_get? hk)) hb
    · exact hl m hm

/-- **Two values pruned from one value are merged to a third.** -/
theorem PrunedFrom.merge {x a b : Value} (ha : a.PrunedFrom x) (hb : b.PrunedFrom x) :
    (a.merge b).PrunedFrom x := by
  -- merged members are no parts of `a` and `b`, so the induction is on what both were pruned from
  induction x using depth_induction generalizing a b with | step x ih => ?_
  cases ha with
  | nullish hy hx =>
    cases hb with
    | nullish hy' _ =>
      refine .nullish (isNullish_iff.mpr ?_) hx
      exact form_merge (isNullish_iff.mp hy) (isNullish_iff.mp hy')
    | _ => cases hx
  | array h =>
    cases hb with
    | nullish _ hx => cases hx
    | array h' =>
      refine .array fun i => ?_
      rw [item_mergeItems]
      exact ih _ (depth_item_lt _ i) (h i) (h' i)
  | object h =>
    cases hb with
    | nullish _ hx => cases hx
    | object h' =>
      have hmembers := forall_mem_mergeMembers (P := fun k w => w.PrunedFrom (Value.get _ k))
        (fun k c d hc hd => ih _ (depth_get_lt _ k) hc hd) h h'
      exact .object hmembers
  | _ =>
    cases hb with
    | nullish _ hx => cases hx
    | _ =>
      first | exact .number ‹_› | exact .bool _ | exact .bigint _ | exact .string _ | exact .date _

end Value

/-- A literal is pruned from the values that it holds for. -/
theorem Literal.prunedFrom_toValue {c : Literal} {v : Value} (h : c.holds v = true) :
    c.toValue.PrunedFrom v := by
  cases c with
  | null => exact .nullish rfl h
  | bool b =>
    cases v with
    | bool b' => rw [beq_iff_eq.mp h]; exact .bool b'
    | _ => cases h
  | number x =>
    cases v with
    | number y => exact .number (.inl h)
    | _ => cases h
  | string s =>
    cases v with
    | string s' => rw [beq_iff_eq.mp h]; exact .string s'
    | _ => cases h

namespace Graph

variable {g : Graph} {p : Policy}

/-- **What a shape makes of a value is pruned from it.** -/
theorem Makes.prunedFrom {s : Shape} {v w : Value} (h : g.Makes p s v w) :
    v.isTidy = true → w.PrunedFrom v := by
  induction h with
  | same => exact Value.prunedFrom_self
  | missing => exact Value.prunedFrom_self
  | literal hc => exact fun _ => Literal.prunedFrom_toValue hc
  | literals hc => exact fun _ => Literal.prunedFrom_toValue (Literal.holds_of_find? hc)
  | optional _ _ ih => exact ih
  | target _ _ ih => exact ih
  | allOf hv _ ih =>
    intro ht
    refine Value.prunedFrom_object hv fun m hm => ?_
    rcases Shape.mem_joinedFields hm with hm | ⟨s, hs, hm⟩
    · cases hm
    · exact (ih s hs ht).member hm
  | @anyOf _ v ha _ ih =>
    intro ht
    refine Value.mergeAll_induction (P := fun w => w.PrunedFrom v)
      (fun a b => Value.PrunedFrom.merge) (map_accepting_ne_nil _ ha) fun w hw => ?_
    obtain ⟨t, hmem, rfl⟩ := List.mem_map.mp hw
    obtain ⟨hmem, hat⟩ := mem_accepting.mp hmem
    exact ih t hmem hat ht
  | @tagged _ tag _ _ _ _ _ hv _ _ _ ih =>
    intro ht
    refine Value.prunedFrom_object hv fun m hm => ?_
    rcases Entries.mem_insert hm with rfl | hm
    · exact Value.prunedFrom_self (Value.isTidy_get ht tag)
    · exact (ih ht).member hm
  | array _ ih =>
    intro ht
    refine .array (Shape.related_items Value.prunedFrom_undefined fun v hv => ?_)
    exact ih v hv (Value.isTidy_array_iff.mp ht v hv)
  | closed hlen _ ih =>
    intro ht
    refine .array (Shape.related_slotItems Value.prunedFrom_undefined (fun e he => ?_) hlen)
    exact ih e he (Value.isTidy_item ht e.2)
  | opened _ _ ih ihrest =>
    intro ht
    refine .array (Shape.related_slotItems_append Value.prunedFrom_undefined (fun e he => ?_)
      fun v hv => ?_)
    · exact ih e he (Value.isTidy_item ht e.2)
    · exact ihrest v hv (Value.isTidy_array_iff.mp ht v (List.mem_of_mem_drop hv))
  | @object _ _ ms _ _ _ ih ihothers =>
    intro ht
    refine .object fun m hm => ?_
    rcases List.mem_append.mp hm with hm | hm
    · obtain ⟨e, he, -, rfl⟩ := Shape.mem_declaredFields.mp hm
      exact ih e he (Value.isTidy_get ht e.1)
    · obtain ⟨m', hm', e, he, hadmits, rfl⟩ := mem_otherFields hm
      have hmem : m' ∈ ms := (Shape.mem_undeclared.mp hm').1
      have htidy := (Value.isTidy_object_iff.mp ht).2 m' hmem
      show (g.parsed p e.2 m'.2).PrunedFrom ((Value.object ms).get m'.1)
      rw [Value.get_of_mem ht hmem]
      exact ihothers m' hm' e he hadmits htidy

theorem Guarded.prunedFrom_parsed (hg : g.Guarded) (s : Shape) (v : Value) (ht : v.isTidy = true)
    (ha : g.accepts p s v = true) : (g.parsed p s v).PrunedFrom v :=
  (hg.makes s v ha).prunedFrom ht

/-- **Parsing only leaves out**: the parsed form of an accepted value is pruned from it. -/
theorem Guarded.parse_prunedFrom (hg : g.Guarded) (p : Policy) (s : Shape) {v : Value}
    (ht : v.isTidy = true) (ha : g.accepts p s v = true) :
    ∃ w, g.parse p s v = .ok w ∧ w.PrunedFrom v :=
  ⟨_, hg.parse_eq ha, hg.prunedFrom_parsed s v ht ha⟩

theorem parse_prunedFrom_soundFork :
    soundFork.isTidy = true ∧ trees.accepts {} (.ref 2 "Tree") soundFork = true ∧
      ∃ w, trees.parse {} (.ref 2 "Tree") soundFork = .ok w ∧ w.PrunedFrom soundFork :=
  have ht : soundFork.isTidy = true := by decide +kernel
  have ha : trees.accepts {} (.ref 2 "Tree") soundFork = true := by decide +kernel
  ⟨ht, ha, trees_guarded.parse_prunedFrom {} (.ref 2 "Tree") ht ha⟩

end Graph

end ShapeGraph
