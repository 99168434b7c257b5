import ShapeGraph.Proofs.Distinct

/-!
# The keys of a parsed object

A parsed object has its keys from two places. First come the declared properties in the order of
their declaration, without those whose result is missing; then, if there are signatures, the
undeclared keys of the value in the order of the value. Parsing asks the signatures a second time,
and it would leave out a key that none of them admits; accepted objects have no such key.

* `Graph.Carries` — the result of the first signature that admits a member
* `Guarded.forall₂_otherFields` — no undeclared key is lost where there are signatures
* `Guarded.parse_object_accounts` — all keys of a parsed object, and what stands under them
-/

namespace ShapeGraph

/-- Where something is made of every element, what is made stands in the order of the elements. -/
theorem forall₂_filterMap {α β : Type} {R : α → β → Prop} {f : α → Option β} {as : List α}
    (h : ∀ a ∈ as, ∃ b, f a = some b ∧ R a b) : List.Forall₂ R as (as.filterMap f) := by
  induction as with
  | nil => exact .nil
  | cons a as ih =>
    obtain ⟨⟨b, hb, hR⟩, has⟩ := List.forall_mem_cons.mp h
    rw [List.filterMap_cons_some hb]
    exact .cons hR (ih has)

/-- Pairs with the same names, one by one. -/
theorem Entries.keys_eq_of_forall₂ {α β : Type} {R : String × α → String × β → Prop}
    (hR : ∀ e d, R e d → d.1 = e.1) {es : Entries α} {ds : Entries β} (h : List.Forall₂ R es ds) :
    ds.keys = es.keys := by
  induction h with
  | nil => rfl
  | cons hhead _ ih =>
    rw [keys, List.map_cons, hR _ _ hhead]
    exact congrArg (_ :: ·) ih

namespace Graph

variable {g : Graph} {p : Policy}

/-- **The first signature that admits a member makes `w` of its value.** -/
def Carries (g : Graph) (p : Policy) (signatures : List (Shape × Shape)) (m : String × Value)
    (w : Value) : Prop :=
  ∃ before e after, signatures = before ++ e :: after ∧
    (∀ d ∈ before, g.admits p m d = false) ∧ g.admits p m e = true ∧ g.parse p e.2 m.2 = .ok w

/-- What the first signature that admits a member makes of it. -/
theorem Guarded.carries_of_find? (hg : g.Guarded) {signatures : List (Shape × Shape)}
    {m : String × Value} {e : Shape × Shape} (h : signatures.find? (g.admits p m) = some e) :
    g.Carries p signatures m (g.parsed p e.2 m.2) := by
  obtain ⟨hadmits, before, after, hsplit, hbefore⟩ := List.find?_eq_some_iff_append.mp h
  refine ⟨before, e, after, hsplit, fun d hd => ?_, hadmits, hg.parse_eq ?_⟩
  · simpa using hbefore d hd
  · rw [admits, Bool.and_eq_true] at hadmits
    exact hadmits.2

/-- The results of the properties that are not missing are the declared members. -/
theorem filter_results (res : Shape → Value → Value) (properties : Entries Shape) (v : Value) :
    (properties.map fun e => (e.1, res e.2 (v.get e.1))).filter (fun r => !r.2.isUndefined) =
      Shape.declaredFields res properties v := by
  rw [Shape.declaredFields, ← List.filterMap_eq_filter, List.filterMap_map]
  refine List.filterMap_congr fun e _ => ?_
  cases h : (res e.2 (v.get e.1)).isUndefined <;> simp [Option.guard, h]

/-- **No undeclared member is lost where there are signatures**: an accepted object has none that no
signature admits. -/
theorem Guarded.forall₂_otherFields (hg : g.Guarded) {properties : Entries Shape}
    {signatures : List (Shape × Shape)} {ms : List (String × Value)}
    (ha : g.accepts p (.object properties signatures) (.object ms) = true) :
    List.Forall₂ (fun m o => o.1 = m.1 ∧ g.Carries p signatures m o.2)
      (if signatures.isEmpty then [] else Shape.undeclared properties ms)
      (g.otherFields p properties signatures ms) := by
  cases signatures with
  | nil =>
    rw [otherFields_nil]
    exact .nil
  | cons signature signatures =>
    rw [hg.accepts_object, Bool.and_eq_true] at ha
    have hadmitted := List.all_eq_true.mp ha.2
    refine forall₂_filterMap fun m hm => ?_
    obtain ⟨e, he⟩ := Option.isSome_iff_exists.mp
      (List.find?_isSome.mpr (List.any_eq_true.mp (hadmitted m hm)))
    exact ⟨(m.1, g.parsed p e.2 m.2), by rw [he]; rfl, rfl, hg.carries_of_find? he⟩

/-- **The keys of a parsed object, and what stands under them.** First the declared keys whose
result is not missing, in the order of their declaration; then, if there are signatures, every
undeclared key of the value, in its order, with the result of the first signature that admits it.
The two have no key in common, and no key comes twice. -/
theorem Guarded.parse_object_accounts (hg : g.Guarded) (p : Policy) {properties : Entries Shape}
    {signatures : List (Shape × Shape)} {v : Value}
    (ha : g.accepts p (.object properties signatures) v = true) :
    ∃ (ms : List (String × Value)) (results others : Entries Value),
      v = .object ms ∧
      List.Forall₂ (fun e r => r.1 = e.1 ∧ g.parse p e.2 (v.get e.1) = .ok r.2)
        properties results ∧
      List.Forall₂ (fun m o => o.1 = m.1 ∧ g.Carries p signatures m o.2)
        (if signatures.isEmpty then [] else Shape.undeclared properties ms) others ∧
      let fields : Entries Value := results.filter (fun r => !r.2.isUndefined) ++ others
      g.parse p (.object properties signatures) v = .ok (.object fields) ∧
        others.keys =
          (if signatures.isEmpty then []
            else (Entries.keys ms).filter fun k => !properties.has k) ∧
        (∀ k ∈ others.keys, k ∉ properties.keys) ∧
        (properties.keys.Nodup → (Entries.keys ms).Nodup → fields.keys.Nodup) := by
  cases v with
  | object ms =>
    have hothers := hg.forall₂_otherFields ha
    have hparse := hg.parse_eq ha
    rw [hg.parsed_object ha, ← filter_results] at hparse
    refine ⟨ms, _, _, rfl, ?_, hothers, hparse, ?_, ?_, fun hproperties hms => ?_⟩
    · rw [hg.accepts_object, Bool.and_eq_true, List.all_eq_true] at ha
      rw [List.forall₂_map_right_iff]
      exact List.forall₂_same.mpr fun e he => ⟨rfl, hg.parse_eq (ha.1 e he)⟩
    · rw [Entries.keys_eq_of_forall₂ (fun _ _ h => h.1) hothers]
      split
      · rfl
      · rw [Entries.keys, Entries.keys, List.filter_map]
        rfl
    · intro k hk
      obtain ⟨m, hm, rfl⟩ := List.mem_map.mp ((keys_otherFields_sublist ..).subset hk)
      exact (Shape.mem_undeclared.mp hm).2
    · rw [filter_results]
      exact nodup_keys_object hproperties hms
  | _ => cases ha

/-- A fork that may have a name, and two signatures, the second of which admits an age. -/
def namedFork : Shape :=
  .object [("kind", .literal (.string "fork")), ("name", .optional (.base .string)),
      ("parts", .array (.ref 2 "Tree"))]
    [(.literals [.string "owner"], .any), (.literals [.string "age", .string "owner"], .bigint)]

theorem parse_object_accounts_soundFork :
    trees.accepts {} namedFork soundFork = true ∧
      ∃ (results others : Entries Value),
        trees.parse {} namedFork soundFork =
          .ok (.object (results.filter (fun r => !r.2.isUndefined) ++ others)) ∧
        results.keys = ["kind", "name", "parts"] ∧ others.keys = ["age"] := by
  have ha : trees.accepts {} namedFork soundFork = true := by decide +kernel
  obtain ⟨ms, results, others, hms, hresults, -, hparse, hothers, -⟩ :=
    trees_guarded.parse_object_accounts {} ha
  cases hms
  exact ⟨ha, results, others, hparse, Entries.keys_eq_of_forall₂ (fun _ _ h => h.1) hresults,
    hothers⟩

end Graph

end ShapeGraph
