import ShapeGraph.Proofs.Pruning
import ShapeGraph.Proofs.Reachable

/-!
# Strict parsing loses nothing

Where objects may have declared keys only, the parsed form of an accepted value says at every
place what the value says there: members change their order, what is missing is left out or comes
out as null, and nothing else happens.

There is one exception. An intersection asks its members which keys there may be, and an
intersection without members asks nobody: it accepts every object and makes the empty one of it.

* `Value.Agrees` — two values say the same at every place
* `Value.Restates` — the same with nothing made up, which merging keeps
* `Guarded.parse_agrees` — strict parsing loses nothing
* `parse_allOf_nil_loses` — what an intersection without members does
-/

namespace ShapeGraph

namespace Value

/-- `y.Agrees x`: both values say the same at every place. Null and what is missing are not told
apart, nor are numerically equal numbers, and the order of members does not matter. -/
inductive Agrees : Value → Value → Prop
  | nullish {y x : Value} (hy : y.isNullish = true) (hx : x.isNullish = true) : Agrees y x
  | number {a b : Number} (h : a.same b = true ∨ a = b) : Agrees (.number a) (.number b)
  | bool (b : Bool) : Agrees (.bool b) (.bool b)
  | bigint (n : Int) : Agrees (.bigint n) (.bigint n)
  | string (s : String) : Agrees (.string s) (.string s)
  | date (millis : Int) : Agrees (.date millis) (.date millis)
  | array {ys xs : List Value}
      (h : ∀ i, Agrees ((Value.array ys).item i) ((Value.array xs).item i)) :
      Agrees (.array ys) (.array xs)
  | object {ys xs : List (String × Value)}
      (h : ∀ k, Agrees ((Value.object ys).get k) ((Value.object xs).get k)) :
      Agrees (.object ys) (.object xs)

/-- Whether a value is neither an array nor an object. -/
def isLeaf (v : Value) : Bool := v.items?.isNone && v.members?.isNone

/-- `y.Restates x`: what stands in `y` stands in `x` at the same place, also in members of `y` that
are not read because their key comes again, and where `y` has no member, `x` has nothing. -/
inductive Restates : Value → Value → Prop
  | leaf {y x : Value} (h : y.PrunedFrom x) (hx : x.isLeaf = true) : Restates y x
  | array {ys xs : List Value}
      (h : ∀ i, Restates ((Value.array ys).item i) ((Value.array xs).item i)) :
      Restates (.array ys) (.array xs)
  | object {ys xs : List (String × Value)}
      (h : ∀ m ∈ ys, Restates m.2 ((Value.object xs).get m.1))
      (hrest : ∀ k, k ∉ Entries.keys ys → ((Value.object xs).get k).isNullish = true) :
      Restates (.object ys) (.object xs)

theorem restates_undefined : Restates .undefined .undefined := .leaf prunedFrom_undefined rfl

/-- A member that is not there reads as `undefined`. -/
theorem get_of_not_mem_keys {ms : List (String × Value)} {key : String}
    (h : key ∉ Entries.keys ms) : (object ms).get key = .undefined := by
  show (Entries.get? ms key).getD .undefined = .undefined
  rw [Entries.get?_eq_none_iff.mpr h]
  rfl

/-- What restates a leaf agrees with it. -/
theorem PrunedFrom.agrees {y x : Value} (h : y.PrunedFrom x) (hx : x.isLeaf = true) :
    y.Agrees x := by
  cases h with
  | nullish hy hx => exact .nullish hy hx
  | number h => exact .number h
  | bool b => exact .bool b
  | bigint n => exact .bigint n
  | string s => exact .string s
  | date t => exact .date t
  | array => cases hx
  | object => cases hx

/-- **What restates a value agrees with it.** -/
theorem Restates.agrees {y x : Value} (h : y.Restates x) : y.Agrees x := by
  induction h with
  | leaf h hx => exact h.agrees hx
  | array h ih => exact .array ih
  | @object ys xs h hrest ih =>
    refine .object fun k => ?_
    by_cases hk : k ∈ Entries.keys ys
    · obtain ⟨w, hw⟩ := Option.isSome_iff_exists.mp (Entries.has_iff.mpr hk)
      have hget : (Value.object ys).get k = w := by
        show (Entries.get? ys k).getD .undefined = w
        rw [hw]
        rfl
      rw [hget]
      exact ih (k, w) (Entries.mem_of_get? hw)
    · rw [get_of_not_mem_keys hk]
      exact .nullish rfl (hrest k hk)

/-- **A tidy value restates itself.** -/
theorem restates_self {x : Value} (h : x.isTidy = true) : x.Restates x := by
  induction x using depth_induction with | step x ih => ?_
  cases x with
  | array items => exact .array fun i => ih _ (depth_item_lt items i) (isTidy_item h i)
  | object ms =>
    refine .object (fun m hm => ?_) fun k hk => ?_
    · rw [get_of_mem h hm]
      refine ih _ ?_ ((isTidy_object_iff.mp h).2 m hm)
      have hle : m.2.depth ≤ depthMembers ms := depth_le_depthMembers hm
      rw [depth]
      omega
    · rw [get_of_not_mem_keys hk]
      rfl
  | _ => exact .leaf (prunedFrom_self h) rfl

/-- What restates an object has its members from there. -/
theorem Restates.member {y x : Value} (h : y.Restates x) (hx : x.form = .object)
    {m : String × Value} (hm : m ∈ y.fields) : m.2.Restates (x.get m.1) := by
  cases h with
  | object h => exact h m hm
  | leaf _ hleaf =>
    rw [eq_object_of_form hx] at hleaf
    cases hleaf
  | array => cases hx

/-- What restates an object leaves out nothing but what is missing. -/
theorem Restates.nullish_of_not_mem {y x : Value} (h : y.Restates x) (hx : x.form = .object)
    {key : String} (hk : key ∉ y.fields.keys) : (x.get key).isNullish = true := by
  cases h with
  | object _ hrest => exact hrest key hk
  | leaf _ hleaf =>
    rw [eq_object_of_form hx] at hleaf
    cases hleaf
  | array => cases hx

theorem restates_object {fields : Entries Value} {x : Value} (hx : x.form = .object)
    (h : ∀ m ∈ fields, m.2.Restates (x.get m.1))
    (hrest : ∀ k, k ∉ fields.keys → (x.get k).isNullish = true) :
    (object fields).Restates x := by
  rw [eq_object_of_form hx] at h hrest ⊢
  exact .object h hrest

/-- **Two values that restate one value are merged to a third.** -/
theorem Restates.merge {x a b : Value} (ha : a.Restates x) (hb : b.Restates x) :
    (a.merge b).Restates x := by
  induction x using depth_induction generalizing a b with | step x ih => ?_
  cases ha with
  | leaf h hx =>
    cases hb with
    | leaf h' _ => exact .leaf (h.merge h') hx
    | array => cases hx
    | object => cases hx
  | array h =>
    cases hb with
    | leaf _ hx => cases hx
    | array h' =>
      refine .array fun i => ?_
      rw [item_mergeItems]
      exact ih _ (depth_item_lt _ i) (h i) (h' i)
  | @object ys xs h hrest =>
    cases hb with
    | leaf _ hx => cases hx
    | object h' _ =>
      have hmembers := forall_mem_mergeMembers
        (P := fun k w => w.Restates ((Value.object xs).get k))
        (fun k c d hc hd => ih _ (depth_get_lt _ k) hc hd) h h'
      refine .object hmembers fun k hk => ?_
      exact hrest k fun hl => hk (mem_keys_mergeMembers.mpr (.inl hl))

end Value

/-- A literal restates the values that it holds for. -/
theorem Literal.restates_toValue {c : Literal} {v : Value} (h : c.holds v = true) :
    c.toValue.Restates v := by
  refine .leaf (Literal.prunedFrom_toValue h) ?_
  cases c <;> cases v <;> first | rfl | cases h

/-- Whether a shape is an intersection without members. -/
def Shape.isVacuous : Shape → Bool
  | .allOf [] => true
  | _ => false

namespace Graph

variable {g : Graph} {p : Policy}

/-- What is missing in the result of a property was missing in the object. -/
theorem Guarded.nullish_of_not_declared (hg : g.Guarded) {properties : Entries Shape}
    {v : Value} {e : String × Shape} (he : e ∈ properties)
    (ha : g.accepts p e.2 (v.get e.1) = true)
    (hk : e.1 ∉ (Shape.declaredFields (g.parsed p) properties v).keys) :
    (v.get e.1).isNullish = true := by
  rw [Value.isNullish_iff, ← hg.form_parsed ha]
  cases hu : (g.parsed p e.2 (v.get e.1)).isUndefined with
  | true =>
    cases hw : g.parsed p e.2 (v.get e.1) with
    | undefined => rfl
    | _ => rw [hw] at hu; cases hu
  | false =>
    have hmem := Shape.mem_declaredFields.mpr ⟨e, he, hu, rfl⟩
    exact absurd (List.mem_map.mpr ⟨_, hmem, rfl⟩) hk

/-- A strictly accepted object keeps its undeclared members: there are none, or each of them has a
signature. -/
theorem Guarded.mem_keys_otherFields (hg : g.Guarded) (hp : p.strict = true)
    {properties : Entries Shape} {signatures : List (Shape × Shape)}
    {ms : List (String × Value)}
    (ha : g.accepts p (.object properties signatures) (.object ms) = true) {m : String × Value}
    (hm : m ∈ Shape.undeclared properties ms) :
    m.1 ∈ (g.otherFields p properties signatures ms).keys := by
  rw [hg.accepts_object, Bool.and_eq_true] at ha
  obtain ⟨-, ha⟩ := ha
  cases signatures with
  | nil =>
    have hnil : Shape.undeclared properties ms = [] := by
      simpa [hp] using ha
    rw [hnil] at hm
    cases hm
  | cons e signatures =>
    have hall : ((Shape.undeclared properties ms).all fun m =>
        (e :: signatures).any (g.admits p m)) = true := ha
    obtain ⟨e', he', hadmits⟩ := List.any_eq_true.mp (List.all_eq_true.mp hall m hm)
    obtain ⟨d, hd⟩ := Option.isSome_iff_exists.mp
      (List.find?_isSome.mpr ⟨e', he', hadmits⟩)
    refine List.mem_map.mpr ⟨(m.1, g.parsed p d.2 m.2), List.mem_filterMap.mpr ⟨m, hm, ?_⟩, rfl⟩
    rw [hd]
    rfl

/-- What a shape makes of a strictly accepted value restates it, as long as parsing comes to no
intersection without members. -/
theorem Makes.restates (hg : g.Guarded) (hp : p.strict = true) {s : Shape} {v w : Value}
    (h : g.Makes p s v w) :
    (∀ t, g.Reaches s t → t.isVacuous = false) → v.isTidy = true → w.Restates v := by
  induction h with
  | same => exact fun _ => Value.restates_self
  | missing => exact fun _ => Value.restates_self
  | literal hc => exact fun _ _ => Literal.restates_toValue hc
  | literals hc => exact fun _ _ => Literal.restates_toValue (Literal.holds_of_find? hc)
  | optional _ _ ih => exact fun hs ht => ih (Uses.inner.forall_reaches hs) ht
  | target hi _ ih => exact fun hs ht => ih ((Uses.target hi).forall_reaches hs) ht
  | @allOf members v hv _ ih =>
    intro hs ht
    have hne : members ≠ [] := by
      rintro rfl
      exact Bool.noConfusion (hs _ (Reaches.refl _))
    have hrestates : ∀ t ∈ members, (g.parsed p t v).Restates v := fun t hmem =>
      ih t hmem ((Uses.conjunct hmem).forall_reaches hs) ht
    refine Value.restates_object hv (fun m hm => ?_) fun k hk => ?_
    · rcases Shape.mem_joinedFields hm with hm | ⟨t, hmem, hm⟩
      · cases hm
      · exact (hrestates t hmem).member hv hm
    · -- the members agree on the whole object, so it is enough that there is one
      obtain ⟨t, hmem⟩ := List.exists_mem_of_ne_nil members hne
      refine (hrestates t hmem).nullish_of_not_mem hv fun hmemk => hk ?_
      exact Shape.mem_keys_joinedFields.mpr (.inr ⟨t, hmem, hmemk⟩)
  | @anyOf _ v ha _ ih =>
    intro hs ht
    refine Value.mergeAll_induction (P := fun w => w.Restates v)
      (fun a b => Value.Restates.merge) (map_accepting_ne_nil _ ha) fun w hw => ?_
    obtain ⟨t, hmem, rfl⟩ := List.mem_map.mp hw
    obtain ⟨hmem, hat⟩ := mem_accepting.mp hmem
    exact ih t hmem hat ((Uses.disjunct hmem).forall_reaches hs) ht
  | @tagged _ tag _ _ _ _ _ hv _ hbranch _ ih =>
    intro hs ht
    have hmem := Entries.mem_of_get? hbranch
    have hrestates := ih ((Uses.branch hmem).forall_reaches hs) ht
    refine Value.restates_object hv (fun m hm => ?_) fun k hk => ?_
    · rcases Entries.mem_insert hm with rfl | hm
      · exact Value.restates_self (Value.isTidy_get ht tag)
      · exact hrestates.member hv hm
    · exact hrestates.nullish_of_not_mem hv fun hmemk =>
        hk (Entries.mem_keys_insert.mpr (.inr hmemk))
  | array _ ih =>
    intro hs ht
    refine .array (Shape.related_items Value.restates_undefined fun w hw => ?_)
    exact ih w hw (Uses.item.forall_reaches hs) (Value.isTidy_array_iff.mp ht w hw)
  | closed hlen _ ih =>
    intro hs ht
    refine .array (Shape.related_slotItems Value.restates_undefined (fun e he => ?_) hlen)
    have hslot := List.mem_of_getElem? (List.mem_zipIdx_iff_getElem?.mp he)
    exact ih e he ((Uses.slot hslot).forall_reaches hs) (Value.isTidy_item ht e.2)
  | opened _ _ ih ihrest =>
    intro hs ht
    refine .array (Shape.related_slotItems_append Value.restates_undefined (fun e he => ?_)
      fun w hw => ?_)
    · have hslot := List.mem_of_getElem? (List.mem_zipIdx_iff_getElem?.mp he)
      exact ih e he ((Uses.slot hslot).forall_reaches hs) (Value.isTidy_item ht e.2)
    · have htidy := Value.isTidy_array_iff.mp ht w (List.mem_of_mem_drop hw)
      exact ihrest w hw (Uses.rest.forall_reaches hs) htidy
  | @object properties _ ms ha _ _ ih ihothers =>
    intro hs ht
    have hproperties : ∀ e ∈ properties, g.accepts p e.2 ((Value.object ms).get e.1) = true := by
      rw [hg.accepts_object, Bool.and_eq_true, List.all_eq_true] at ha
      exact ha.1
    refine .object (fun m hm => ?_) fun k hk => ?_
    · rcases List.mem_append.mp hm with hm | hm
      · obtain ⟨e, he, -, rfl⟩ := Shape.mem_declaredFields.mp hm
        exact ih e he ((Uses.property he).forall_reaches hs) (Value.isTidy_get ht e.1)
      · obtain ⟨m', hm', e, he, hadmits, rfl⟩ := mem_otherFields hm
        have hmem : m' ∈ ms := (Shape.mem_undeclared.mp hm').1
        have htidy := (Value.isTidy_object_iff.mp ht).2 m' hmem
        show (g.parsed p e.2 m'.2).Restates ((Value.object ms).get m'.1)
        rw [Value.get_of_mem ht hmem]
        exact ihothers m' hm' e he hadmits ((Uses.member he).forall_reaches hs) htidy
    · -- a key of the object is declared or not; in both cases it is lost only if nothing is there
      rw [Entries.keys, List.map_append, List.mem_append, not_or] at hk
      by_cases hdeclared : k ∈ properties.keys
      · obtain ⟨e, he, rfl⟩ := List.mem_map.mp hdeclared
        exact hg.nullish_of_not_declared he (hproperties e he) hk.1
      · by_cases hms : k ∈ Entries.keys ms
        · obtain ⟨m, hm, rfl⟩ := List.mem_map.mp hms
          have hundeclared := Shape.mem_undeclared.mpr ⟨hm, hdeclared⟩
          exact absurd (hg.mem_keys_otherFields hp ha hundeclared) hk.2
        · rw [Value.get_of_not_mem_keys hms]
          rfl

/-- **Strict parsing loses nothing**: as long as parsing comes to no intersection without members,
the parsed form of a strictly accepted value agrees with it at every place. -/
theorem Guarded.parse_agrees (hg : g.Guarded) (hp : p.strict = true) {s : Shape}
    (hs : ∀ t, g.Reaches s t → t.isVacuous = false) {v : Value} (ht : v.isTidy = true)
    (ha : g.accepts p s v = true) : ∃ w, g.parse p s v = .ok w ∧ w.Agrees v :=
  ⟨_, hg.parse_eq ha, ((hg.makes s v ha).restates hg hp hs ht).agrees⟩

/-- A tree that is also an object with a kind and further members. -/
def annotatedTree : Shape :=
  .allOf [.ref 2 "Tree", .object [("kind", .any)] [(.base .string, .optional .any)]]

theorem annotatedTree_reaches (t : Shape) (h : trees.Reaches annotatedTree t) :
    t.isVacuous = false := by
  have hall : t.all (fun s => !s.isVacuous) = true := reaches_all (by decide) (by decide) h
  exact Bool.not_eq_true' _ ▸ Shape.of_all hall

theorem parse_agrees_soundFork :
    soundFork.isTidy = true ∧ trees.accepts { strict := true } annotatedTree soundFork = true ∧
      ∃ w, trees.parse { strict := true } annotatedTree soundFork = .ok w ∧ w.Agrees soundFork :=
  have ht : soundFork.isTidy = true := by decide +kernel
  have ha : trees.accepts { strict := true } annotatedTree soundFork = true := by decide +kernel
  ⟨ht, ha, trees_guarded.parse_agrees rfl annotatedTree_reaches ht ha⟩

/-- **An intersection without members loses everything**: it accepts an object with any key, also
where only declared keys are allowed, and makes the empty object of it. -/
theorem parse_allOf_nil_loses :
    ({} : Graph).Guarded ∧ (Value.object [("z", .bool true)]).isTidy = true ∧
      ({} : Graph).accepts { strict := true } (.allOf []) (.object [("z", .bool true)]) = true ∧
      ∃ w, ({} : Graph).parse { strict := true } (.allOf []) (.object [("z", .bool true)]) = .ok w ∧
        ¬ w.Agrees (.object [("z", .bool true)]) := by
  refine ⟨guarded_of_ranks id (by decide), by decide, by decide, .object [], rfl, ?_⟩
  intro h
  cases h with
  | nullish hy => cases hy
  | object h =>
    have hz : Value.undefined.Agrees (.bool true) := h "z"
    cases hz with
    | nullish _ hx => cases hx

end Graph

end ShapeGraph
