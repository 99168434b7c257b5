import ShapeGraph.Proofs.Making
import ShapeGraph.Proofs.Reachable

/-!
# Distinct names

Objects declare every property once, tagged unions have one branch for each key, and values have
every member once. Shapes and values are lists of named things, so this has to be said; what is
read from a text is like this, and parsing keeps it.

* `Shape.isTidy`, `Graph.isTidy` — no shape has a name twice, at any depth
* `Value.isTidy_merge` — merging makes no key come twice
* `Makes.isTidy` — what a tidy shape makes of a tidy value is tidy
-/

namespace ShapeGraph

/-! ## Tidy shapes -/

namespace Shape

/-- Whether a shape itself has no name twice: an object its properties, a tagged union its
branches. -/
def hasDistinctNames : Shape → Bool
  | .object properties _ => decide (Entries.keys properties).Nodup
  | .tagged _ _ branches => decide (Entries.keys branches).Nodup
  | _ => true

/-- Whether no shape inside a shape has a name twice. -/
def isTidy (s : Shape) : Bool := s.all hasDistinctNames

theorem nodup_properties {properties : Entries Shape} {signatures : List (Shape × Shape)}
    (h : (object properties signatures).isTidy = true) : properties.keys.Nodup :=
  of_decide_eq_true (of_all h)

end Shape

namespace Graph

/-- Whether no definition has a name twice, at any depth. -/
def isTidy (g : Graph) : Bool := g.definitions.all fun e => e.2.isTidy

variable {g : Graph}

/-- What a tidy shape reaches in a tidy graph is tidy. -/
theorem isTidy_of_reaches (hg : g.isTidy = true) {s t : Shape} (hs : s.isTidy = true)
    (h : g.Reaches s t) : t.isTidy = true :=
  reaches_all (List.all_eq_true.mp hg) hs h

theorem isTidy_of_uses (hg : g.isTidy = true) {s t : Shape} (hs : s.isTidy = true)
    (h : g.Uses s t) : t.isTidy = true :=
  isTidy_of_reaches hg hs (h.reaches (Reaches.refl t))

/-- What is asked about a tidy value is asked about tidy values. -/
theorem Part.isTidy_value {s t : Shape} {v w : Value} (h : g.Part (t, w) (s, v))
    (hv : v.isTidy = true) : w.isTidy = true := by
  cases h with
  | slot => exact Value.isTidy_item hv _
  | rest h => exact Value.isTidy_array_iff.mp hv w (List.mem_of_mem_drop h)
  | item h => exact Value.isTidy_array_iff.mp hv w h
  | property => exact Value.isTidy_get hv _
  | key => rfl
  | member _ hm => exact (Value.isTidy_object_iff.mp hv).2 _ hm
  | conjunct | disjunct | branch | inner | target => exact hv

/-- The parts of a tidy question are tidy. -/
theorem Part.isTidy (hd : g.isTidy = true) {s t : Shape} {v w : Value}
    (h : g.Part (t, w) (s, v)) (hs : s.isTidy = true) (hv : v.isTidy = true) :
    t.isTidy = true ∧ w.isTidy = true := by
  refine ⟨?_, h.isTidy_value hv⟩
  cases href : s.isRef with
  | false => exact Shape.all_of_mem_parts hs (h.mem_parts href)
  | true =>
    obtain ⟨i, name, rfl⟩ := Shape.eq_ref_of_isRef href
    cases h with
    | target h => exact isTidy_of_uses hd hs (.target h)

end Graph

/-! ## Merging -/

namespace Value

mutual

/-- **Merging two tidy values makes a tidy value.** -/
theorem isTidy_merge : ∀ a b : Value, a.isTidy = true → b.isTidy = true →
    (a.merge b).isTidy = true
  | a, .object right, ha, hb => by
    cases a with
    | object left => exact isTidy_mergeMembers left right ha (isTidy_object_iff.mp hb).2
    | _ => exact hb
  | a, .array right, ha, hb => by
    cases a with
    | array left =>
      have hitems := isTidy_mergeItems left right (isTidy_array_iff.mp ha) (isTidy_array_iff.mp hb)
      exact isTidy_array_iff.mpr hitems
    | _ => exact hb
  | a, .undefined, ha, _ => by rw [merge_undefined]; exact ha
  | a, .null, _, _ | a, .bool _, _, _ | a, .number _, _, _ | a, .bigint _, _, _
  | a, .string _, _, _ | a, .date _, _, _ => by cases a <;> rfl

theorem isTidy_mergeMembers : ∀ (left : Entries Value) (right : List (String × Value)),
    (object left).isTidy = true → (∀ m ∈ right, m.2.isTidy = true) →
      (object (mergeMembers left right)).isTidy = true
  | left, [], hl, _ => by rw [mergeMembers]; exact hl
  | left, (key, b) :: right, hl, hr => by
    have hb : b.isTidy = true := hr (key, b) List.mem_cons_self
    obtain ⟨hd, hmembers⟩ := isTidy_object_iff.mp hl
    rw [mergeMembers]
    refine isTidy_mergeMembers _ right ?_ fun m hm => hr m (List.mem_cons_of_mem _ hm)
    refine isTidy_object_iff.mpr ⟨Entries.nodup_keys_insert hd key _, fun m hm => ?_⟩
    rcases Entries.mem_insert hm with rfl | hm
    · cases hk : left.get? key with
      | none => exact hb
      | some a => exact isTidy_merge a b (hmembers _ (Entries.mem_of_get? hk)) hb
    · exact hmembers m hm

theorem isTidy_mergeItems : ∀ left right : List Value, (∀ v ∈ left, v.isTidy = true) →
    (∀ v ∈ right, v.isTidy = true) → ∀ v ∈ mergeItems left right, v.isTidy = true
  | left, [], hl, _ => by rw [mergeItems]; exact hl
  | [], b :: right, _, hr => by rw [mergeItems]; exact hr
  | a :: left, b :: right, hl, hr => by
    obtain ⟨ha, hl⟩ := List.forall_mem_cons.mp hl
    obtain ⟨hb, hr⟩ := List.forall_mem_cons.mp hr
    rw [mergeItems]
    exact List.forall_mem_cons.mpr
      ⟨isTidy_merge a b ha hb, isTidy_mergeItems left right hl hr⟩

end

theorem isTidy_fields {v : Value} (h : v.isTidy = true) {m : String × Value}
    (hm : m ∈ v.fields) : m.2.isTidy = true := by
  cases v with
  | object ms => exact (isTidy_object_iff.mp h).2 m hm
  | _ => cases hm

theorem nodup_keys_fields {v : Value} (h : v.isTidy = true) : v.fields.keys.Nodup := by
  cases v with
  | object ms => exact (isTidy_object_iff.mp h).1
  | _ => exact List.nodup_nil

end Value

/-! ## Results -/

namespace Shape

variable {res : Shape → Value → Value}

/-- The members that properties make stand in the order of the properties. -/
theorem keys_declaredFields_sublist (res : Shape → Value → Value) (properties : Entries Shape)
    (v : Value) :
    (declaredFields res properties v).keys.Sublist properties.keys := by
  refine Entries.keys_filterMap_sublist fun e b h => ?_
  simp only at h
  split at h
  · cases h
  · exact congrArg Prod.fst (Option.some.inj h).symm

/-- Under every name stands what the property of that name makes, unless it makes nothing. -/
theorem get?_declaredFields {properties : Entries Shape} (hd : properties.keys.Nodup) (v : Value)
    (k : String) : (declaredFields res properties v).get? k =
      (properties.get? k).bind fun s =>
        if (res s (v.get k)).isUndefined then none else some (res s (v.get k)) := by
  rw [← Entries.get?_filterMap hd fun k s =>
    if (res s (v.get k)).isUndefined then none else some (res s (v.get k))]
  refine congrArg (Entries.get? · k) (List.filterMap_congr fun e _ => ?_)
  dsimp only
  split <;> rfl

/-- A declared property finds its result under its name. -/
theorem getD_get?_declaredFields {properties : Entries Shape} (hd : properties.keys.Nodup)
    {v : Value} {e : String × Shape} (he : e ∈ properties) :
    ((declaredFields res properties v).get? e.1).getD .undefined = res e.2 (v.get e.1) := by
  rw [get?_declaredFields hd, Entries.get?_of_mem hd he, Option.bind_some]
  split
  · next hu => exact (Value.isUndefined_iff.mp hu).symm
  · rfl

theorem nodup_keys_joinedFields {members : List Shape} {before : Entries Value} {v : Value}
    (h : before.keys.Nodup) : (joinedFields res members before v).keys.Nodup := by
  induction members generalizing before with
  | nil => exact h
  | cons s members ih => exact ih (Entries.nodup_keys_insertAll h _)

theorem keys_undeclared_sublist (properties : Entries Shape) (ms : List (String × Value)) :
    (Entries.keys (undeclared properties ms)).Sublist (Entries.keys ms) :=
  List.Sublist.map _ List.filter_sublist

end Shape

namespace Graph

variable {g : Graph} {p : Policy}

/-- The members that signatures make stand in the order of those that are not declared. -/
theorem keys_otherFields_sublist (properties : Entries Shape)
    (signatures : List (Shape × Shape)) (ms : List (String × Value)) :
    (g.otherFields p properties signatures ms).keys.Sublist
      (Entries.keys (Shape.undeclared properties ms)) := by
  refine Entries.keys_filterMap_sublist fun m b h => ?_
  obtain ⟨e, -, rfl⟩ := Option.map_eq_some_iff.mp h
  rfl

/-- Declared members and others have no key in common. -/
theorem nodup_keys_object {properties : Entries Shape} {signatures : List (Shape × Shape)}
    {ms : List (String × Value)} (hp : properties.keys.Nodup) (hms : (Entries.keys ms).Nodup) :
    (Entries.keys (Shape.declaredFields (g.parsed p) properties (.object ms)
      ++ g.otherFields p properties signatures ms)).Nodup := by
  have hdeclared := Shape.keys_declaredFields_sublist (g.parsed p) properties (.object ms)
  have hothers := keys_otherFields_sublist (g := g) (p := p) properties signatures ms
  have hundeclared := Shape.keys_undeclared_sublist properties ms
  rw [Entries.keys, List.map_append, List.nodup_append]
  refine ⟨hdeclared.nodup hp, (hothers.trans hundeclared).nodup hms, ?_⟩
  rintro k hk _ hk' rfl
  obtain ⟨m, hm, rfl⟩ := List.mem_map.mp (hothers.subset hk')
  exact (Shape.mem_undeclared.mp hm).2 (hdeclared.subset hk)

/-- **What a tidy shape makes of a tidy value is tidy.** -/
theorem Makes.isTidy (hd : g.isTidy = true) {s : Shape} {v w : Value} (h : g.Makes p s v w) :
    s.isTidy = true → v.isTidy = true → w.isTidy = true := by
  induction h with
  | same => exact fun _ => id
  | missing => exact fun _ => id
  | @literal c => cases c <;> exact fun _ _ => rfl
  | @literals _ c => cases c <;> exact fun _ _ => rfl
  | optional _ _ ih => exact fun hs => ih (isTidy_of_uses hd hs .inner)
  | target hi _ ih => exact fun hs => ih (isTidy_of_uses hd hs (.target hi))
  | allOf _ _ ih =>
    intro hs ht
    refine Value.isTidy_object_iff.mpr ⟨Shape.nodup_keys_joinedFields List.nodup_nil, ?_⟩
    intro m hm
    rcases Shape.mem_joinedFields hm with hm | ⟨t, hmem, hm⟩
    · cases hm
    · exact Value.isTidy_fields (ih t hmem (isTidy_of_uses hd hs (.conjunct hmem)) ht) hm
  | anyOf ha _ ih =>
    intro hs ht
    refine Value.mergeAll_induction (P := fun w => w.isTidy = true)
      Value.isTidy_merge (map_accepting_ne_nil _ ha) fun w hw => ?_
    obtain ⟨t, hmem, rfl⟩ := List.mem_map.mp hw
    obtain ⟨hmem, hat⟩ := mem_accepting.mp hmem
    exact ih t hmem hat (isTidy_of_uses hd hs (.disjunct hmem)) ht
  | @tagged _ tag _ _ v _ _ _ _ hbranch _ ih =>
    intro hs ht
    have htidy := ih (isTidy_of_uses hd hs (.branch (Entries.mem_of_get? hbranch))) ht
    have hnodup := Entries.nodup_keys_insert (Value.nodup_keys_fields htidy) tag (v.get tag)
    refine Value.isTidy_object_iff.mpr ⟨hnodup, fun m hm => ?_⟩
    rcases Entries.mem_insert hm with rfl | hm
    · exact Value.isTidy_get ht tag
    · exact Value.isTidy_fields htidy hm
  | array _ ih =>
    intro hs ht
    refine Value.isTidy_array_iff.mpr fun w hw => ?_
    obtain ⟨v, hv, rfl⟩ := List.mem_map.mp hw
    exact ih v hv (isTidy_of_uses hd hs .item) (Value.isTidy_array_iff.mp ht v hv)
  | closed _ _ ih =>
    intro hs ht
    refine Value.isTidy_array_iff.mpr (Shape.forall_mem_slotItems fun e he => ?_)
    have hslot := List.mem_of_getElem? (List.mem_zipIdx_iff_getElem?.mp he)
    exact ih e he (isTidy_of_uses hd hs (.slot hslot)) (Value.isTidy_item ht e.2)
  | opened _ _ ih ihrest =>
    intro hs ht
    refine Value.isTidy_array_iff.mpr (List.forall_mem_append.mpr ⟨?_, fun w hw => ?_⟩)
    · refine Shape.forall_mem_slotItems fun e he => ?_
      have hslot := List.mem_of_getElem? (List.mem_zipIdx_iff_getElem?.mp he)
      exact ih e he (isTidy_of_uses hd hs (.slot hslot)) (Value.isTidy_item ht e.2)
    · obtain ⟨v, hv, rfl⟩ := List.mem_map.mp hw
      have htidy := Value.isTidy_array_iff.mp ht v (List.mem_of_mem_drop hv)
      exact ihrest v hv (isTidy_of_uses hd hs .rest) htidy
  | @object properties _ ms _ _ _ ih ihothers =>
    intro hs ht
    obtain ⟨hms, hmembers⟩ := Value.isTidy_object_iff.mp ht
    refine Value.isTidy_object_iff.mpr ⟨nodup_keys_object (Shape.nodup_properties hs) hms, ?_⟩
    refine List.forall_mem_append.mpr ⟨?_, ?_⟩
    · intro m hm
      obtain ⟨e, he, -, rfl⟩ := Shape.mem_declaredFields.mp hm
      exact ih e he (isTidy_of_uses hd hs (.property he)) (Value.isTidy_get ht e.1)
    · intro m hm
      obtain ⟨m', hm', e, he, hadmits, rfl⟩ := mem_otherFields hm
      have htidy := hmembers m' (Shape.mem_undeclared.mp hm').1
      exact ihothers m' hm' e he hadmits (isTidy_of_uses hd hs (.member he)) htidy

theorem Guarded.isTidy_parsed (hg : g.Guarded) (hd : g.isTidy = true) {s : Shape} {v : Value}
    (hs : s.isTidy = true) (hv : v.isTidy = true) (ha : g.accepts p s v = true) :
    (g.parsed p s v).isTidy = true :=
  (hg.makes s v ha).isTidy hd hs hv

end Graph

end ShapeGraph
