import ShapeGraph.Proofs.Distinct

/-!
# Tagged unions and plain unions

A tagged union looks up one branch and puts the tag back into what the branch makes; a plain union
asks all its members and merges what the accepting ones make. Where every branch declares the tag
itself, as the string under which it is looked up, at most one branch accepts a value and what it
makes has the tag already. So the look-up is only a faster way to the same result.

* `Graph.DeclaresTag` — a shape is an object that asks for a tag
* `DeclaresTag.get_tag`, `DeclaresTag.get?_parsed` — the tag of what is accepted and of what is made
* `Guarded.accepting_branches` — of all branches only the one looked up accepts the value
* `Guarded.tagged_eq_anyOf` — a tagged union is the plain union of its branches
-/

namespace ShapeGraph

/-- Where names are distinct, a question that singles out a name singles out its entry. -/
theorem Entries.filter_eq_singleton {α : Type} {es : Entries α} (hd : es.keys.Nodup)
    {key : String} {a : α} (ha : es.get? key = some a) {q : String × α → Bool}
    (hq : ∀ e ∈ es, q e = true ↔ e.1 = key) : es.filter q = [(key, a)] := by
  induction es with
  | nil => cases ha
  | cons e es ih =>
    obtain ⟨k, b⟩ := e
    obtain ⟨hk, hd⟩ := List.nodup_cons.mp hd
    obtain ⟨hhead, htail⟩ := List.forall_mem_cons.mp hq
    by_cases hkey : k = key
    · simp only [get?, hkey, if_true, Option.some.injEq] at ha
      have hnone : es.filter q = [] := by
        refine List.filter_eq_nil_iff.mpr fun e he hqe => hk ?_
        rw [hkey, ← (htail e he).mp hqe]
        exact List.mem_map.mpr ⟨e, he, rfl⟩
      rw [List.filter_cons_of_pos (hhead.mpr hkey), hnone, ha, hkey]
    · simp only [get?, hkey, if_false] at ha
      rw [List.filter_cons_of_neg fun hqk => hkey (hhead.mp hqk)]
      exact ih hd ha htail

namespace Graph

variable {g : Graph} {p : Policy}

/-- `g.DeclaresTag tag key s`: the shape is an object, or leads to one by references, that declares
the property `tag` as the string `key`. -/
inductive DeclaresTag (g : Graph) (tag key : String) : Shape → Prop
  | object {properties signatures} (h : (tag, .literal (.string key)) ∈ properties) :
      DeclaresTag g tag key (.object properties signatures)
  | target {i name t} (ht : g.shape? i = some t) (h : DeclaresTag g tag key t) :
      DeclaresTag g tag key (.ref i name)

variable {tag key : String} {s : Shape} {v : Value}

/-- What such a shape accepts is an object with that tag. -/
theorem DeclaresTag.get_tag (h : g.DeclaresTag tag key s) (hg : g.Guarded)
    (ha : g.accepts p s v = true) : v.form = .object ∧ v.get tag = .string key := by
  induction h with
  | @object properties signatures hmem =>
    cases v with
    | object ms =>
      rw [hg.accepts_object, Bool.and_eq_true, List.all_eq_true] at ha
      have hholds : (Literal.string key).holds ((Value.object ms).get tag) = true :=
        ha.1 _ hmem
      refine ⟨rfl, ?_⟩
      cases hv : (Value.object ms).get tag with
      | string t =>
        rw [hv] at hholds
        rw [beq_iff_eq.mp hholds]
      | _ => rw [hv] at hholds; cases hholds
    | _ => cases ha
  | target ht _ ih =>
    rw [hg.accepts_ref, ht] at ha
    exact ih ha

/-- What such a shape makes has that tag. -/
theorem DeclaresTag.get?_parsed (h : g.DeclaresTag tag key s) (hg : g.Guarded)
    (hd : g.isTidy = true) (hs : s.isTidy = true) (ha : g.accepts p s v = true) :
    (g.parsed p s v).fields.get? tag = some (.string key) := by
  induction h with
  | @object properties signatures hmem =>
    cases v with
    | object ms =>
      have hmade : ((Shape.declaredFields (g.parsed p) properties (.object ms)).get? tag).getD
          .undefined = g.parsed p (.literal (.string key)) ((Value.object ms).get tag) :=
        Shape.getD_get?_declaredFields (Shape.nodup_properties hs) hmem
      have hliteral : g.parsed p (.literal (.string key)) ((Value.object ms).get tag) =
          .string key := Settles.parsed_eq fun _ _ => rfl
      rw [hliteral] at hmade
      rw [hg.parsed_object ha]
      show Entries.get? (Shape.declaredFields (g.parsed p) properties (.object ms) ++ _) tag = _
      rw [Entries.get?_append]
      cases hget : Entries.get? (Shape.declaredFields (g.parsed p) properties (.object ms)) tag with
      | some w => rw [hget] at hmade; exact congrArg some hmade
      | none => rw [hget] at hmade; cases hmade
    | _ => cases ha
  | target ht _ ih =>
    rw [hg.parsed_ref ht ha]
    rw [hg.accepts_ref, ht] at ha
    exact ih (isTidy_of_uses hd hs (.target ht)) ha

section

variable {members : List Shape} {branches : Entries Shape}
  (h : ∀ e ∈ branches, g.DeclaresTag tag e.1 e.2)
include h

/-- A branch accepts only values that have its tag. -/
theorem Guarded.tagKey_of_branch (hg : g.Guarded) {e : String × Shape} (he : e ∈ branches)
    (ha : g.accepts p e.2 v = true) : v.form = .object ∧ (v.get tag).tagKey? = some e.1 := by
  obtain ⟨hform, hget⟩ := (h e he).get_tag hg ha
  exact ⟨hform, by rw [hget]; rfl⟩

theorem Guarded.accepts_tagged_eq_anyOf (hg : g.Guarded) (hd : branches.keys.Nodup) :
    g.accepts p (.tagged members tag branches) v =
      g.accepts p (.anyOf (branches.map (·.2))) v := by
  rw [accepts_tagged, accepts_anyOf, Bool.eq_iff_iff, Bool.and_eq_true, Value.isObject_iff,
    List.any_eq_true]
  constructor
  · rintro ⟨-, ha⟩
    obtain ⟨key, -, ha⟩ := (Option.any_eq_true _ _).mp ha
    obtain ⟨t, ht, ha⟩ := (Option.any_eq_true _ _).mp ha
    exact ⟨t, List.mem_map.mpr ⟨(key, t), Entries.mem_of_get? ht, rfl⟩, ha⟩
  · rintro ⟨t, ht, ha⟩
    obtain ⟨e, he, rfl⟩ := List.mem_map.mp ht
    obtain ⟨hform, hkey⟩ := hg.tagKey_of_branch h he ha
    refine ⟨hform, (Option.any_eq_true _ _).mpr ⟨e.1, hkey, ?_⟩⟩
    exact (Option.any_eq_true _ _).mpr ⟨e.2, Entries.get?_of_mem hd he, ha⟩

/-- **Of all branches only the one that is looked up accepts the value.** -/
theorem Guarded.accepting_branches (hg : g.Guarded) (hd : branches.keys.Nodup) {t : Shape}
    (hkey : (v.get tag).tagKey? = some key) (ht : branches.get? key = some t)
    (ha : g.accepts p t v = true) : g.accepting p (branches.map (·.2)) v = [t] := by
  have hbranch : ∀ e ∈ branches, g.accepts p e.2 v = true ↔ e.1 = key := by
    intro e he
    constructor
    · intro hae
      have hkey' := (hg.tagKey_of_branch h he hae).2
      rw [hkey, Option.some.injEq] at hkey'
      exact hkey'.symm
    · intro hk
      have hsame := Entries.get?_of_mem hd he
      rw [hk, ht, Option.some.injEq] at hsame
      rwa [← hsame]
  rw [accepting, List.filter_map]
  show (branches.filter fun e => g.accepts p e.2 v).map (·.2) = [t]
  rw [Entries.filter_eq_singleton hd ht hbranch]
  rfl

end

/-- **A tagged union whose branches declare the tag is the plain union of its branches**: both
accept the same values and make the same of them, the order of keys included. -/
theorem Guarded.tagged_eq_anyOf (hg : g.Guarded) (hd : g.isTidy = true) (p : Policy)
    {members : List Shape} {tag : String} {branches : Entries Shape}
    (hs : (Shape.tagged members tag branches).isTidy = true)
    (h : ∀ e ∈ branches, g.DeclaresTag tag e.1 e.2) (v : Value) :
    g.accepts p (.tagged members tag branches) v =
        g.accepts p (.anyOf (branches.map (·.2))) v ∧
      (g.accepts p (.tagged members tag branches) v = true →
        ∃ w, g.parse p (.tagged members tag branches) v = .ok w ∧
          g.parse p (.anyOf (branches.map (·.2))) v = .ok w) := by
  have hnodup : branches.keys.Nodup := of_decide_eq_true (Shape.of_all hs)
  have hsame : g.accepts p (.tagged members tag branches) v =
      g.accepts p (.anyOf (branches.map (·.2))) v := hg.accepts_tagged_eq_anyOf h hnodup
  refine ⟨hsame, fun ha => ⟨_, hg.parse_eq ha, ?_⟩⟩
  rw [hg.parse_eq (hsame ▸ ha), hg.parsed_anyOf (hsame ▸ ha)]
  rw [accepts_tagged, Bool.and_eq_true, Value.isObject_iff] at ha
  obtain ⟨hform, ha⟩ := ha
  obtain ⟨key, hkey, ha⟩ := (Option.any_eq_true _ _).mp ha
  obtain ⟨t, ht, hat⟩ := (Option.any_eq_true _ _).mp ha
  have hmem := Entries.mem_of_get? ht
  have hdeclares : g.DeclaresTag tag key t := h (key, t) hmem
  rw [hg.accepting_branches h hnodup hkey ht hat, hg.parsed_tagged hform hkey ht hat]
  -- the tag is in the result already, so putting it back changes nothing
  have htag := hdeclares.get?_parsed hg hd (isTidy_of_uses hd hs (.branch hmem)) hat
  rw [(hdeclares.get_tag hg hat).2, Entries.insert_of_get? htag,
    ← Value.eq_object_of_form ((hg.form_parsed hat).trans hform)]
  rfl

theorem tagged_eq_anyOf_soundFork :
    trees.isTidy = true ∧
      (∀ e ∈ ([("leaf", .ref 0 "Leaf"), ("fork", .ref 1 "Fork")] : Entries Shape),
        trees.DeclaresTag "kind" e.1 e.2) ∧
      trees.accepts {} (.tagged [] "kind" [("leaf", .ref 0 "Leaf"), ("fork", .ref 1 "Fork")])
        soundFork = true ∧
      ∃ w, trees.parse {} (.tagged [] "kind" [("leaf", .ref 0 "Leaf"), ("fork", .ref 1 "Fork")])
          soundFork = .ok w ∧
        trees.parse {} (.anyOf [.ref 0 "Leaf", .ref 1 "Fork"]) soundFork = .ok w :=
  have hd : trees.isTidy = true := by decide
  have h : ∀ e ∈ ([("leaf", .ref 0 "Leaf"), ("fork", .ref 1 "Fork")] : Entries Shape),
      trees.DeclaresTag "kind" e.1 e.2 := by
    refine List.forall_mem_cons.mpr ⟨?_, List.forall_mem_singleton.mpr ?_⟩
    · exact .target rfl (.object List.mem_cons_self)
    · exact .target rfl (.object List.mem_cons_self)
  have ha : trees.accepts {} (.tagged [] "kind" [("leaf", .ref 0 "Leaf"), ("fork", .ref 1 "Fork")])
      soundFork = true := by decide +kernel
  have hs : (Shape.tagged [] "kind" [("leaf", .ref 0 "Leaf"), ("fork", .ref 1 "Fork")]).isTidy =
      true := by decide
  ⟨hd, h, ha, (trees_guarded.tagged_eq_anyOf hd {} hs h soundFork).2 ha⟩

end Graph

end ShapeGraph
