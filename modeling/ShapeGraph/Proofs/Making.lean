import ShapeGraph.Proofs.Assembly

/-!
# What a shape makes of a value

One rule for each kind of shape says what it makes of an accepted value, and from what its parts
make. Whatever holds of all parsed forms is proved by induction on the rules, where a rule brings
what acceptance says about its kind.

* `Graph.Makes` — the rules
* `Guarded.makes` — an accepted value has its parsed form by the rules
* `Makes.sound` — the rules make nothing else, and nothing of other values
* `Makes.form_eq` — the rules keep the form of the value
-/

namespace ShapeGraph

/-- Whether a shape makes of every value that it accepts the value itself. -/
def Shape.keepsValues : Shape → Bool
  | .base _ => true
  | .any => true
  | .nullish => true
  | .pattern .. => true
  | .date => true
  | .bigint => true
  | .stringFormats _ => true
  | .numberFormats _ => true
  | _ => false

namespace Graph

variable {g : Graph} {p : Policy}

/-- `g.Makes p s v w`: the shape `s` accepts the value `v` and makes `w` of it. -/
inductive Makes (g : Graph) (p : Policy) : Shape → Value → Value → Prop
  | same {s v} (hs : s.keepsValues = true) (ha : g.accepts p s v = true) : Makes g p s v v
  | literal {c v} (hc : c.holds v = true) : Makes g p (.literal c) v c.toValue
  | literals {cs c v} (hc : cs.find? (·.holds v) = some c) : Makes g p (.literals cs) v c.toValue
  | missing {t v} (hv : v.isNullish = true) : Makes g p (.optional t) v v
  | optional {t v w} (hv : v.isNullish = false) (h : Makes g p t v w) :
      Makes g p (.optional t) v w
  | target {i name t v w} (ht : g.shape? i = some t) (h : Makes g p t v w) :
      Makes g p (.ref i name) v w
  | allOf {members v} (hv : v.form = .object)
      (h : ∀ t ∈ members, Makes g p t v (g.parsed p t v)) :
      Makes g p (.allOf members) v (.object (Shape.joinedFields (g.parsed p) members [] v))
  /-- The members that do not accept the value take no part. -/
  | anyOf {members v} (ha : g.accepts p (.anyOf members) v = true)
      (h : ∀ t ∈ members, g.accepts p t v = true → Makes g p t v (g.parsed p t v)) :
      Makes g p (.anyOf members) v
        (Value.mergeAll ((g.accepting p members v).map fun t => g.parsed p t v))
  | tagged {members tag key t v w} {branches : Entries Shape} (hv : v.form = .object)
      (hkey : (v.get tag).tagKey? = some key) (hbranch : branches.get? key = some t)
      (h : Makes g p t v w) :
      Makes g p (.tagged members tag branches) v (.object (w.fields.insert tag (v.get tag)))
  | array {t items} (h : ∀ v ∈ items, Makes g p t v (g.parsed p t v)) :
      Makes g p (.array t) (.array items) (.array (items.map fun v => g.parsed p t v))
  | closed {slots items} (hlen : items.length ≤ slots.length)
      (h : ∀ e ∈ slots.zipIdx, Makes g p e.1 ((Value.array items).item e.2)
        (g.parsed p e.1 ((Value.array items).item e.2))) :
      Makes g p (.tuple slots none) (.array items)
        (.array (Shape.slotItems (g.parsed p) slots items 0))
  | opened {slots t items}
      (h : ∀ e ∈ slots.zipIdx, Makes g p e.1 ((Value.array items).item e.2)
        (g.parsed p e.1 ((Value.array items).item e.2)))
      (hrest : ∀ v ∈ items.drop slots.length, Makes g p t v (g.parsed p t v)) :
      Makes g p (.tuple slots (some t)) (.array items)
        (.array (Shape.slotItems (g.parsed p) slots items 0
          ++ (items.drop slots.length).map fun v => g.parsed p t v))
  /-- Undeclared members are made by signatures that admit them. -/
  | object {properties : Entries Shape} {signatures ms}
      (ha : g.accepts p (.object properties signatures) (.object ms) = true)
      (h : ∀ e ∈ properties, Makes g p e.2 ((Value.object ms).get e.1)
        (g.parsed p e.2 ((Value.object ms).get e.1)))
      (hothers : ∀ m ∈ Shape.undeclared properties ms, ∀ e ∈ signatures, g.admits p m e = true →
        Makes g p e.2 m.2 (g.parsed p e.2 m.2)) :
      Makes g p (.object properties signatures) (.object ms)
        (.object (Shape.declaredFields (g.parsed p) properties (.object ms)
          ++ g.otherFields p properties signatures ms))

/-- **An accepted value has its parsed form by the rules.** -/
theorem Guarded.makes (hg : g.Guarded) (s : Shape) (v : Value) :
    g.accepts p s v = true → g.Makes p s v (g.parsed p s v) := by
  induction s, v using hg.induction with | step s v ih => ?_
  intro ha
  cases s with
  | never => cases ha
  | literal c =>
    rw [show g.parsed p (.literal c) v = c.toValue from Settles.parsed_eq fun _ _ => rfl]
    exact .literal ha
  | literals cs =>
    obtain ⟨c, hfind, hc⟩ := settles_literals ha
    rw [hc.parsed_eq]
    exact .literals hfind
  | ref i name =>
    cases hi : g.shape? i with
    | none => rw [hg.accepts_ref, hi] at ha; cases ha
    | some t =>
      rw [hg.parsed_ref hi ha]
      rw [hg.accepts_ref, hi] at ha
      exact .target hi (ih t v (.target hi) ha)
  | optional t =>
    by_cases hv : v.isNullish = true
    · rw [parsed_optional_nullish hv]
      exact .missing hv
    · rw [hg.parsed_optional hv ha]
      rw [accepts_optional, Bool.or_eq_true] at ha
      exact .optional (Bool.eq_false_iff.mpr hv) (ih t v .inner (ha.resolve_left hv))
  | allOf members =>
    rw [hg.parsed_allOf ha]
    rw [accepts_allOf, Bool.and_eq_true, Value.isObject_iff, List.all_eq_true] at ha
    exact .allOf ha.1 fun t ht => ih t v (.conjunct ht) (ha.2 t ht)
  | anyOf members =>
    rw [hg.parsed_anyOf ha]
    exact .anyOf ha fun t ht hat => ih t v (.disjunct ht) hat
  | tagged members tag branches =>
    rw [accepts_tagged, Bool.and_eq_true, Value.isObject_iff] at ha
    obtain ⟨hv, ha⟩ := ha
    obtain ⟨key, hkey, ha⟩ := (Option.any_eq_true _ _).mp ha
    obtain ⟨t, hbranch, hat⟩ := (Option.any_eq_true _ _).mp ha
    rw [hg.parsed_tagged hv hkey hbranch hat]
    exact .tagged hv hkey hbranch (ih t v (.branch (Entries.mem_of_get? hbranch)) hat)
  | array t =>
    cases v with
    | array items =>
      rw [hg.parsed_array ha]
      rw [hg.accepts_array, List.all_eq_true] at ha
      exact .array fun v hv => ih t v (.item hv) (ha v hv)
    | _ => cases ha
  | tuple slots rest =>
    cases v with
    | array items =>
      have hslots : ∀ e ∈ slots.zipIdx,
          g.Part (e.1, (Value.array items).item e.2) (.tuple slots rest, .array items) :=
        fun e he => .slot (List.mem_zipIdx_iff_getElem?.mp he)
      cases rest with
      | none =>
        rw [hg.parsed_tuple_closed ha]
        rw [hg.accepts_tuple_closed, Bool.and_eq_true, List.all_eq_true, decide_eq_true_iff] at ha
        exact .closed ha.2 fun e he => ih e.1 _ (hslots e he) (ha.1 e he)
      | some t =>
        rw [hg.parsed_tuple_open ha]
        rw [hg.accepts_tuple_open, Bool.and_eq_true, List.all_eq_true, List.all_eq_true] at ha
        exact .opened (fun e he => ih e.1 _ (hslots e he) (ha.1 e he)) fun v hv =>
          ih t v (.rest hv) (ha.2 v hv)
    | _ => cases rest <;> cases ha
  | object properties signatures =>
    cases v with
    | object ms =>
      rw [hg.parsed_object ha]
      have hproperties := ha
      rw [hg.accepts_object, Bool.and_eq_true, List.all_eq_true] at hproperties
      exact .object ha (fun e he => ih e.2 _ (.property he) (hproperties.1 e he))
        fun m hm e he hadmits =>
          ih e.2 m.2 (.member he (Shape.mem_undeclared.mp hm).1) (accepts_of_admits hadmits)
    | _ => cases ha
  | _ =>
    rw [show g.parsed p _ v = v from Settles.parsed_eq fun _ _ => rfl]
    exact .same rfl ha

/-- **The rules make of a value its parsed form only**, and of accepted values only. -/
theorem Makes.sound (hg : g.Guarded) {s : Shape} {v w : Value} (h : g.Makes p s v w) :
    g.accepts p s v = true ∧ g.parsed p s v = w := by
  induction h with
  | @same s v hs ha =>
    refine ⟨ha, Settles.parsed_eq fun _ _ => ?_⟩
    cases s <;> first | rfl | cases hs
  | literal hc => exact ⟨hc, Settles.parsed_eq fun _ _ => rfl⟩
  | @literals cs c v hc =>
    have ha : g.accepts p (.literals cs) v = true :=
      List.any_eq_true.mpr ⟨c, List.mem_of_find?_eq_some hc, Literal.holds_of_find? hc⟩
    obtain ⟨d, hd, hmade⟩ := settles_literals ha
    rw [hc, Option.some.injEq] at hd
    exact ⟨ha, hd ▸ hmade.parsed_eq⟩
  | missing hv => exact ⟨by rw [accepts_optional, hv, Bool.true_or], parsed_optional_nullish hv⟩
  | @optional t v w hv _ ih =>
    have ha : g.accepts p (.optional t) v = true := by rw [accepts_optional, ih.1, Bool.or_true]
    exact ⟨ha, by rw [hg.parsed_optional (Bool.eq_false_iff.mp hv) ha, ih.2]⟩
  | @target i name t v w ht _ ih =>
    have ha : g.accepts p (.ref i name) v = true := by
      rw [hg.accepts_ref, ht]
      exact ih.1
    exact ⟨ha, by rw [hg.parsed_ref ht ha, ih.2]⟩
  | @allOf members v hv _ ih =>
    have ha : g.accepts p (.allOf members) v = true := by
      rw [accepts_allOf, Bool.and_eq_true, Value.isObject_iff, List.all_eq_true]
      exact ⟨hv, fun t ht => (ih t ht).1⟩
    exact ⟨ha, hg.parsed_allOf ha⟩
  | anyOf ha => exact ⟨ha, hg.parsed_anyOf ha⟩
  | @tagged members tag key t v w branches hv hkey hbranch _ ih =>
    have ha : g.accepts p (.tagged members tag branches) v = true := by
      rw [accepts_tagged, Value.isObject_iff.mpr hv, hkey]
      simp [hbranch, ih.1]
    exact ⟨ha, by rw [hg.parsed_tagged hv hkey hbranch ih.1, ih.2]⟩
  | @array t items _ ih =>
    have ha : g.accepts p (.array t) (.array items) = true := by
      rw [hg.accepts_array, List.all_eq_true]
      exact fun v hv => (ih v hv).1
    exact ⟨ha, hg.parsed_array ha⟩
  | @closed slots items hlen _ ih =>
    have ha : g.accepts p (.tuple slots none) (.array items) = true := by
      rw [hg.accepts_tuple_closed, Bool.and_eq_true, List.all_eq_true, decide_eq_true_iff]
      exact ⟨fun e he => (ih e he).1, hlen⟩
    exact ⟨ha, hg.parsed_tuple_closed ha⟩
  | @opened slots t items _ _ ih ihrest =>
    have ha : g.accepts p (.tuple slots (some t)) (.array items) = true := by
      rw [hg.accepts_tuple_open, Bool.and_eq_true, List.all_eq_true, List.all_eq_true]
      exact ⟨fun e he => (ih e he).1, fun v hv => (ihrest v hv).1⟩
    exact ⟨ha, hg.parsed_tuple_open ha⟩
  | object ha => exact ⟨ha, hg.parsed_object ha⟩

/-- What an accepted value is parsed to is what the rules make of it. -/
theorem Guarded.makes_iff (hg : g.Guarded) {s : Shape} {v w : Value} :
    g.Makes p s v w ↔ g.accepts p s v = true ∧ g.parsed p s v = w :=
  ⟨fun h => h.sound hg, fun ⟨ha, hw⟩ => hw ▸ hg.makes s v ha⟩

theorem Makes.form_eq {s : Shape} {v w : Value} (h : g.Makes p s v w) : w.form = v.form := by
  induction h with
  | literal hc => exact Literal.form_toValue hc
  | literals hc => exact Literal.form_toValue (Literal.holds_of_find? hc)
  | optional _ _ ih => exact ih
  | target _ _ ih => exact ih
  | allOf hv => exact hv.symm
  | tagged hv => exact hv.symm
  | @anyOf _ v ha _ ih =>
    refine Value.mergeAll_induction (P := fun w => w.form = v.form)
      (fun a b => Value.form_merge) (map_accepting_ne_nil _ ha) fun w hw => ?_
    obtain ⟨t, ht, rfl⟩ := List.mem_map.mp hw
    obtain ⟨ht, hat⟩ := mem_accepting.mp ht
    exact ih t ht hat
  | _ => rfl

end Graph

end ShapeGraph
