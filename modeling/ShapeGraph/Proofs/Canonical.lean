import ShapeGraph.Proofs.Distinct

/-!
# Canonical forms

Without unions and intersections, what a shape makes of a value is accepted again and makes
itself: parsing twice is parsing once. A tagged union puts the tag back into what a branch has
made, and the branch has to cope with tags that it did not ask for; so the statement that goes
through the induction is about a result into which any members of the value were put back.

* `Graph.Steady` — the shapes for which this holds
* `Value.restored` — a result with members of the value put back
* `Makes.remakes` — a restored result is accepted and makes the result again
* `Guarded.parse_parsed` — parsing what was parsed changes nothing
-/

namespace ShapeGraph

/-! ## Steady shapes -/

namespace Graph

/-- `g.AdmitsNull s`: the shape is a literal or a set of literals with null among them, or leads
to one by references. Of a missing value such a shape makes null. -/
inductive AdmitsNull (g : Graph) : Shape → Prop
  | literal : AdmitsNull g (.literal .null)
  | literals {cs} (h : .null ∈ cs) : AdmitsNull g (.literals cs)
  | target {i name t} (ht : g.shape? i = some t) (h : AdmitsNull g t) : AdmitsNull g (.ref i name)

/-- What a shape has to be like, by itself, to make the same again of what it has made: it is no
union or intersection, has one signature at most, and no slot makes null of a missing item. -/
def Steady (g : Graph) : Shape → Prop
  | .anyOf _ => False
  | .allOf _ => False
  | .tuple slots _ => ∀ t ∈ slots, ¬ g.AdmitsNull t
  | .object _ signatures => signatures.length ≤ 1
  | _ => True

variable {g : Graph} {p : Policy}

/-- A check of a shape alone; it refuses slots that are references. -/
def isSteady : Shape → Bool
  | .anyOf _ => false
  | .allOf _ => false
  | .tuple slots _ => slots.all fun
    | .literal c => c != .null
    | .literals cs => !cs.contains .null
    | .ref .. => false
    | _ => true
  | .object _ signatures => signatures.length ≤ 1
  | _ => true

theorem steady_of_isSteady {s : Shape} (h : isSteady s = true) : g.Steady s := by
  cases s with
  | anyOf => cases h
  | allOf => cases h
  | object properties signatures =>
    show signatures.length ≤ 1
    exact of_decide_eq_true h
  | tuple slots rest =>
    intro t ht hnull
    have hslot := List.all_eq_true.mp h t ht
    cases hnull with
    | literal => cases hslot
    | literals hmem => simp [hmem] at hslot
    | target => cases hslot
  | _ => exact trivial

/-- Of a missing value a steady shape makes nothing, unless it is to make null of it. -/
theorem Makes.undefined_eq {s : Shape} {v w : Value} (h : g.Makes p s v w) (hv : v = .undefined) :
    (∀ t, g.Reaches s t → g.Steady t) → ¬ g.AdmitsNull s → w = .undefined := by
  induction h with
  | same => exact fun _ _ => hv
  | missing => exact fun _ _ => hv
  | @literal c _ hc =>
    intro _ hnull
    subst hv
    cases c with
    | null => exact absurd .literal hnull
    | _ => cases hc
  | @literals cs c _ hc =>
    intro _ hnull
    subst hv
    have hholds := Literal.holds_of_find? hc
    cases c with
    | null => exact absurd (.literals (List.mem_of_find?_eq_some hc)) hnull
    | _ => cases hholds
  | optional hnot => subst hv; cases hnot
  | target ht _ ih =>
    exact fun hs hnull => ih hv (fun u hu => hs u ((Uses.target ht).reaches hu))
      fun h => hnull (.target ht h)
  | allOf => exact fun hs _ => (hs _ (Reaches.refl _)).elim
  | anyOf => exact fun hs _ => (hs _ (Reaches.refl _)).elim
  | tagged hform => subst hv; cases hform
  | array => cases hv
  | closed => cases hv
  | opened => cases hv
  | object => cases hv

end Graph

/-! ## Literals -/

namespace Literal

/-- A literal that holds for some value holds for its own. -/
theorem holds_toValue_of_holds {c : Literal} {v : Value} (h : c.holds v = true) :
    c.holds c.toValue = true := by
  refine holds_toValue c fun x hc => ?_
  subst hc
  cases v with
  | number y => exact (Number.same_iff.mp h).1
  | _ => cases h

/-- Whatever holds for the value of a literal holds for the values that it stands for. -/
theorem holds_of_holds_toValue {c d : Literal} {v : Value} (hc : c.holds v = true)
    (hd : d.holds c.toValue = true) : d.holds v = true := by
  cases c with
  | null =>
    cases d with
    | null => exact hc
    | _ => cases hd
  | number x =>
    cases v with
    | number y =>
      cases d with
      | number z => exact Number.same_trans hd hc
      | _ => cases hd
    | _ => cases hc
  | bool b =>
    cases v with
    | bool b' => rw [← beq_iff_eq.mp hc]; exact hd
    | _ => cases hc
  | string t =>
    cases v with
    | string t' => rw [← beq_iff_eq.mp hc]; exact hd
    | _ => cases hc

/-- The first literal that holds for a value is the first one for its own value. -/
theorem find?_toValue {cs : List Literal} {c : Literal} {v : Value}
    (h : cs.find? (·.holds v) = some c) : cs.find? (·.holds c.toValue) = some c := by
  have hc := holds_of_find? h
  induction cs with
  | nil => cases h
  | cons d cs ih =>
    rw [List.find?_cons] at h ⊢
    cases hv : d.holds v with
    | true =>
      rw [hv] at h
      cases h
      rw [holds_toValue_of_holds hc]
    | false =>
      rw [hv] at h
      have hd : d.holds c.toValue = false := by
        rw [Bool.eq_false_iff]
        intro hd
        rw [holds_of_holds_toValue hc hd] at hv
        cases hv
      rw [hd]
      exact ih h

end Literal

/-! ## Members put back -/

namespace Value

/-- An object with members put into it; any other value is left alone. -/
def restored (w : Value) (members : List (String × Value)) : Value :=
  match w with
  | .object fields => .object (Entries.insertAll fields members)
  | w => w

/-- Whether all members are members of a value, read under their keys. -/
def Holds (v : Value) (members : List (String × Value)) : Prop :=
  ∀ m ∈ members, v.fields.get? m.1 = some m.2

theorem holds_nil (v : Value) : v.Holds [] := fun _ h => absurd h List.not_mem_nil

@[simp] theorem restored_nil (w : Value) : w.restored [] = w := by
  cases w <;> rfl

theorem form_restored (w : Value) (members : List (String × Value)) :
    (w.restored members).form = w.form := by
  cases w <;> rfl

theorem fields_restored {w : Value} (h : w.form = .object) (members : List (String × Value)) :
    (w.restored members).fields = w.fields.insertAll members := by
  rw [eq_object_of_form h]
  rfl

/-- Putting back what is there changes nothing. -/
theorem restored_self {v : Value} {members : List (String × Value)} (h : v.Holds members) :
    v.restored members = v := by
  cases v with
  | object fields => exact congrArg object (Entries.insertAll_of_get? h)
  | _ => rfl

theorem get_eq_fields (v : Value) (k : String) : v.get k = (v.fields.get? k).getD .undefined := by
  cases v <;> rfl

/-- What is put back reads as in the value from which it comes. -/
theorem get_restored {w v : Value} (hw : w.form = .object) {members : List (String × Value)}
    (h : v.Holds members) (k : String) :
    (w.restored members).get k = v.get k ∨
      k ∉ Entries.keys members ∧ (w.restored members).get k = w.get k := by
  rw [get_eq_fields (w.restored members), fields_restored hw, get_eq_fields v, get_eq_fields w]
  rcases Entries.get?_insertAll w.fields members k with ⟨a, ha, hk⟩ | ⟨hnot, hk⟩
  · rw [hk, h _ ha]
    exact .inl rfl
  · rw [hk]
    exact .inr ⟨hnot, rfl⟩

/-- Under a key that picks a branch something is there. -/
theorem get?_of_tagKey? {v : Value} {k key : String} (h : (v.get k).tagKey? = some key) :
    v.fields.get? k = some (v.get k) := by
  rw [get_eq_fields] at h ⊢
  cases hk : v.fields.get? k with
  | none => rw [hk] at h; cases h
  | some a => rfl

end Value

namespace Graph

variable {g : Graph} {p : Policy}

/-- A shape accepts a value and leaves it as it is. -/
def Leaves (g : Graph) (p : Policy) (s : Shape) (v : Value) : Prop :=
  g.accepts p s v = true ∧ g.parsed p s v = v

/-! ## Objects -/

section

variable {properties : Entries Shape} {signatures : List (Shape × Shape)}
  {ms : List (String × Value)}

/-- The result of an object: what the declared properties make, then what signatures make. -/
def madeFields (g : Graph) (p : Policy) (properties : Entries Shape)
    (signatures : List (Shape × Shape)) (ms : List (String × Value)) : Entries Value :=
  Shape.declaredFields (g.parsed p) properties (.object ms)
    ++ g.otherFields p properties signatures ms

/-- A member that signatures make has no declared key. -/
theorem not_mem_keys_of_mem_otherFields {m : String × Value}
    (h : m ∈ g.otherFields p properties signatures ms) : m.1 ∉ properties.keys := by
  obtain ⟨m', hm', e, -, -, rfl⟩ := mem_otherFields h
  exact (Shape.mem_undeclared.mp hm').2

theorem get_madeFields (hd : properties.keys.Nodup) {e : String × Shape} (he : e ∈ properties) :
    (Value.object (g.madeFields p properties signatures ms)).get e.1 =
      g.parsed p e.2 ((Value.object ms).get e.1) := by
  have hothers : (g.otherFields p properties signatures ms).get? e.1 = none := by
    rw [Entries.get?_eq_none_iff]
    intro hk
    obtain ⟨m, hm, hkey⟩ := List.mem_map.mp hk
    exact not_mem_keys_of_mem_otherFields hm (hkey ▸ List.mem_map_of_mem he)
  show ((g.madeFields p properties signatures ms).get? e.1).getD Value.undefined = _
  rw [madeFields, Entries.get?_append, hothers, Option.or_none]
  exact Shape.getD_get?_declaredFields hd he

/-- What is not declared in the result is what signatures have made. -/
theorem undeclared_madeFields :
    Shape.undeclared properties (g.madeFields p properties signatures ms) =
      g.otherFields p properties signatures ms := by
  have hdeclared : ∀ m ∈ Shape.declaredFields (g.parsed p) properties (.object ms),
      ¬ (!properties.has m.1) = true := by
    intro m hm
    obtain ⟨e, he, -, rfl⟩ := Shape.mem_declaredFields.mp hm
    have hhas : properties.has e.1 = true := Entries.has_iff.mpr (List.mem_map_of_mem he)
    rw [hhas]
    decide
  have hothers : ∀ m ∈ g.otherFields p properties signatures ms,
      (!properties.has m.1) = true := by
    intro m hm
    rw [Bool.not_eq_true', Bool.eq_false_iff, ne_eq, Entries.has_iff]
    exact not_mem_keys_of_mem_otherFields hm
  rw [Shape.undeclared, madeFields, List.filter_append, List.filter_eq_nil_iff.mpr hdeclared,
    List.filter_eq_self.mpr hothers, List.nil_append]

/-- The same with members put back. -/
theorem undeclared_insertAll (members : List (String × Value)) :
    Shape.undeclared properties
        ((g.madeFields p properties signatures ms).insertAll members) =
      (g.otherFields p properties signatures ms).insertAll
        (Shape.undeclared properties members) := by
  have hselect := Entries.select_insertAll (fun k => !properties.has k)
    (g.madeFields p properties signatures ms) members
  rw [← undeclared_madeFields]
  exact hselect

/-- One signature makes something of every member when it admits all. -/
theorem otherFields_singleton {signature : Shape × Shape}
    (h : ∀ m ∈ Shape.undeclared properties ms, g.admits p m signature = true) :
    g.otherFields p properties [signature] ms =
      Entries.mapValues (g.parsed p signature.2) (Shape.undeclared properties ms) := by
  rw [otherFields, Entries.mapValues, ← List.filterMap_eq_map]
  refine List.filterMap_congr fun m hm => ?_
  rw [List.find?_cons, h m hm]
  rfl

/-- **What no signature or one makes of the undeclared members, with members put back, is
accepted and made again.** -/
theorem Guarded.others_stable (hg : g.Guarded) (hlen : signatures.length ≤ 1)
    {members : List (String × Value)} (hmembers : (Value.object ms).Holds members)
    (ha : g.accepts p (.object properties signatures) (.object ms) = true)
    (hstable : ∀ m ∈ Shape.undeclared properties ms, ∀ e ∈ signatures, g.admits p m e = true →
      g.Leaves p e.2 (g.parsed p e.2 m.2)) :
    let made := (g.madeFields p properties signatures ms).insertAll members
    (if signatures.isEmpty then !(p.strict && !(Shape.undeclared properties made).isEmpty)
      else (Shape.undeclared properties made).all fun m => signatures.any (g.admits p m)) = true ∧
      g.otherFields p properties signatures made = g.otherFields p properties signatures ms := by
  have hback : ∀ m ∈ Shape.undeclared properties members, m ∈ Shape.undeclared properties ms := by
    intro m hm
    obtain ⟨hm, hkey⟩ := Shape.mem_undeclared.mp hm
    exact Shape.mem_undeclared.mpr ⟨Entries.mem_of_get? (hmembers m hm), hkey⟩
  rw [hg.accepts_object, Bool.and_eq_true] at ha
  obtain ⟨-, ha⟩ := ha
  rcases signatures with _ | ⟨signature, _ | ⟨_, _⟩⟩
  · intro made
    refine ⟨?_, by rw [otherFields_nil, otherFields_nil]⟩
    have ha : (!(p.strict && !(Shape.undeclared properties ms).isEmpty)) = true := ha
    show (!(p.strict && !(Shape.undeclared properties made).isEmpty)) = true
    cases hp : p.strict with
    | false => rfl
    | true =>
      -- only declared members can be put back
      have hnil : Shape.undeclared properties ms = [] := by simpa [hp] using ha
      have hnil' : Shape.undeclared properties members = [] :=
        List.eq_nil_iff_forall_not_mem.mpr fun m hm => by
          have hm := hback m hm
          rw [hnil] at hm
          cases hm
      rw [undeclared_insertAll, otherFields_nil, hnil']
      rfl
  · intro made
    have hadmits : ∀ m ∈ Shape.undeclared properties ms, g.admits p m signature = true := by
      intro m hm
      have hall : ((Shape.undeclared properties ms).all fun m =>
          [signature].any (g.admits p m)) = true := ha
      have hany := List.all_eq_true.mp hall m hm
      simpa using hany
    have hstable := fun m hm => hstable m hm signature List.mem_cons_self (hadmits m hm)
    have hmade : Shape.undeclared properties made =
        (Entries.mapValues (g.parsed p signature.2) (Shape.undeclared properties ms)).insertAll
          (Shape.undeclared properties members) := by
      rw [undeclared_insertAll, otherFields_singleton hadmits]
    have hadmits' : ∀ m ∈ Shape.undeclared properties made, g.admits p m signature = true := by
      rw [hmade]
      intro m hm
      rcases Entries.mem_insertAll hm with hm | hm
      · obtain ⟨m', hm', rfl⟩ := List.mem_map.mp hm
        have hkey := hadmits m' hm'
        rw [admits, Bool.and_eq_true] at hkey
        rw [admits, hkey.1, (hstable m' hm').1, Bool.and_self]
      · exact hadmits m (hback m hm)
    refine ⟨?_, ?_⟩
    · show ((Shape.undeclared properties made).all fun m => [signature].any (g.admits p m)) = true
      rw [List.all_eq_true]
      intro m hm
      simpa using hadmits' m hm
    · rw [otherFields_singleton hadmits', hmade, otherFields_singleton hadmits]
      refine Entries.mapValues_insertAll_self (fun m hm => (hstable m hm).2) fun m hm => ?_
      have hnot : (!properties.has m.1) = true := (List.mem_filter.mp hm).2
      rw [← hmembers m (List.mem_filter.mp hm).1]
      exact Entries.get?_select (q := fun k => !properties.has k) ms hnot
  · simp at hlen

theorem Guarded.object_stable (hg : g.Guarded) (hd : properties.keys.Nodup)
    (hlen : signatures.length ≤ 1) {members : List (String × Value)}
    (hmembers : (Value.object ms).Holds members)
    (ha : g.accepts p (.object properties signatures) (.object ms) = true)
    (hdeclared : ∀ e ∈ properties, g.Leaves p e.2 (g.parsed p e.2 ((Value.object ms).get e.1)))
    (hothers : ∀ m ∈ Shape.undeclared properties ms, ∀ e ∈ signatures, g.admits p m e = true →
      g.Leaves p e.2 (g.parsed p e.2 m.2)) :
    let made := (g.madeFields p properties signatures ms).insertAll members
    g.accepts p (.object properties signatures) (.object made) = true ∧
      g.parsed p (.object properties signatures) (.object made) =
        .object (g.madeFields p properties signatures ms) := by
  intro made
  obtain ⟨hrest, hsame⟩ := hg.others_stable hlen hmembers ha hothers
  rw [hg.accepts_object, Bool.and_eq_true, List.all_eq_true] at ha
  -- a declared member was put back or made; both are accepted and make the same
  have hproperties : ∀ e ∈ properties, g.accepts p e.2 ((Value.object made).get e.1) = true ∧
      g.parsed p e.2 ((Value.object made).get e.1) =
        g.parsed p e.2 ((Value.object ms).get e.1) := by
    intro e he
    rcases Value.get_restored (w := .object (g.madeFields p properties signatures ms)) rfl hmembers
      e.1 with hget | ⟨-, hget⟩
    · show g.accepts p e.2 (((Value.object _).restored members).get e.1) = true ∧
        g.parsed p e.2 (((Value.object _).restored members).get e.1) = _
      rw [hget]
      exact ⟨ha.1 e he, rfl⟩
    · show g.accepts p e.2 (((Value.object _).restored members).get e.1) = true ∧
        g.parsed p e.2 (((Value.object _).restored members).get e.1) = _
      rw [hget, get_madeFields hd he]
      exact hdeclared e he
  have hacc : g.accepts p (.object properties signatures) (.object made) = true := by
    rw [hg.accepts_object, Bool.and_eq_true, List.all_eq_true]
    exact ⟨fun e he => (hproperties e he).1, hrest⟩
  refine ⟨hacc, ?_⟩
  rw [hg.parsed_object hacc, hsame, Shape.declaredFields_congr fun e he => (hproperties e he).2]
  rfl

end

/-! ## Arrays and tuples

What is made by one policy may be looked at by another one. -/

section

variable {q : Policy} {slots : List Shape} {items : List Value}

theorem Guarded.array_stable (hg : g.Guarded) {t : Shape}
    (hitems : ∀ v ∈ items, g.Leaves q t (g.parsed p t v)) :
    g.Leaves q (.array t) (.array (items.map fun v => g.parsed p t v)) := by
  set made := items.map fun v => g.parsed p t v
  have hacc : g.accepts q (.array t) (.array made) = true := by
    rw [hg.accepts_array, List.all_eq_true]
    exact List.forall_mem_map.mpr fun v hv => (hitems v hv).1
  refine ⟨hacc, ?_⟩
  rw [hg.parsed_array hacc, List.map_map]
  exact congrArg Value.array (List.map_congr_left fun v hv => (hitems v hv).2)

variable
  (hmissing : ∀ e ∈ slots.zipIdx, items.length ≤ e.2 →
    g.parsed p e.1 ((Value.array items).item e.2) = .undefined)
  (hslots : ∀ e ∈ slots.zipIdx, g.Leaves q e.1 (g.parsed p e.1 ((Value.array items).item e.2)))
include hmissing hslots

theorem Guarded.closed_stable (hg : g.Guarded) (hlen : items.length ≤ slots.length) :
    g.Leaves q (.tuple slots none) (.array (Shape.slotItems (g.parsed p) slots items 0)) := by
  set made := Shape.slotItems (g.parsed p) slots items 0
  have hmade : made.length = items.length := by
    rw [Shape.length_slotItems hmissing, Nat.min_eq_left hlen]
  have hitem : ∀ e ∈ slots.zipIdx, (Value.array made).item e.2 =
      g.parsed p e.1 ((Value.array items).item e.2) := fun e he => Shape.item_slotItems hmissing he
  have hacc : g.accepts q (.tuple slots none) (.array made) = true := by
    rw [hg.accepts_tuple_closed, Bool.and_eq_true, List.all_eq_true, decide_eq_true_iff]
    refine ⟨fun e he => ?_, hmade ▸ hlen⟩
    rw [hitem e he]
    exact (hslots e he).1
  refine ⟨hacc, ?_⟩
  rw [hg.parsed_tuple_closed hacc, Shape.slotItems_congr hmade fun e he => ?_]
  rw [hitem e he]
  exact (hslots e he).2

theorem Guarded.opened_stable (hg : g.Guarded) {t : Shape}
    (hrest : ∀ v ∈ items.drop slots.length, g.Leaves q t (g.parsed p t v)) :
    g.Leaves q (.tuple slots (some t)) (.array (Shape.slotItems (g.parsed p) slots items 0
      ++ (items.drop slots.length).map fun v => g.parsed p t v)) := by
  set made := Shape.slotItems (g.parsed p) slots items 0
    ++ (items.drop slots.length).map fun v => g.parsed p t v
  obtain ⟨hmade, hdrop, hitem⟩ := Shape.places_slotItems hmissing fun v => g.parsed p t v
  have hacc : g.accepts q (.tuple slots (some t)) (.array made) = true := by
    rw [hg.accepts_tuple_open, Bool.and_eq_true, List.all_eq_true, List.all_eq_true, hdrop]
    refine ⟨fun e he => ?_, List.forall_mem_map.mpr fun v hv => (hrest v hv).1⟩
    rw [hitem e he]
    exact (hslots e he).1
  refine ⟨hacc, ?_⟩
  rw [hg.parsed_tuple_open hacc, hdrop, List.map_map, Shape.slotItems_congr hmade fun e he => ?_]
  · have hback := List.map_congr_left fun v hv => (hrest v hv).2
    exact congrArg (fun back => Value.array (_ ++ back)) hback
  · rw [hitem e he]
    exact (hslots e he).2

end

/-! ## Every result of a steady shape -/

/-- Whatever members of `v` are put back into `w`, the shape accepts it and makes `w` of it. -/
def Remakes (g : Graph) (p : Policy) (s : Shape) (v w : Value) : Prop :=
  ∀ members, v.Holds members →
    g.accepts p s (w.restored members) = true ∧ g.parsed p s (w.restored members) = w

theorem Remakes.self {s : Shape} {v w : Value} (h : g.Remakes p s v w) : g.Leaves p s w := by
  have hself := h [] (Value.holds_nil v)
  rwa [Value.restored_nil] at hself

/-- **What a steady shape makes of a value it makes again**, also with members of the value put
back. -/
theorem Makes.remakes (hg : g.Guarded) {s : Shape} {v w : Value} (h : g.Makes p s v w) :
    (∀ t, g.Reaches s t → t.isTidy = true ∧ g.Steady t) → g.Remakes p s v w := by
  induction h with
  | @same s v hs ha =>
    intro _ members hmembers
    rw [Value.restored_self hmembers]
    exact (Makes.same hs ha).sound hg
  | @literal c v hc =>
    intro _ members _
    have hself : c.toValue.restored members = c.toValue := by cases c <;> rfl
    rw [hself]
    exact (Makes.literal (Literal.holds_toValue_of_holds hc)).sound hg
  | @literals cs c v hc =>
    intro _ members _
    have hself : c.toValue.restored members = c.toValue := by cases c <;> rfl
    rw [hself]
    exact (Makes.literals (Literal.find?_toValue hc)).sound hg
  | @missing t v hv =>
    intro _ members hmembers
    rw [Value.restored_self hmembers]
    exact (Makes.missing hv).sound hg
  | @optional t v w hv hmakes ih =>
    intro hs members hmembers
    have hagain := ih (Uses.inner.forall_reaches hs) members hmembers
    have hnot : (w.restored members).isNullish = false := by
      rw [Bool.eq_false_iff, ne_eq, Value.isNullish_iff, Value.form_restored, hmakes.form_eq,
        ← Value.isNullish_iff, hv]
      decide
    exact (Makes.optional hnot (hg.makes_iff.mpr hagain)).sound hg
  | @target i name t v w hi _ ih =>
    intro hs members hmembers
    have hagain := ih ((Uses.target hi).forall_reaches hs) members hmembers
    exact (Makes.target hi (hg.makes_iff.mpr hagain)).sound hg
  | allOf => exact fun hs => (hs _ (Reaches.refl _)).2.elim
  | anyOf => exact fun hs => (hs _ (Reaches.refl _)).2.elim
  | @tagged members' tag key t v w branches hv hkey hbranch hmakes ih =>
    intro hs members hmembers
    have hmem := Entries.mem_of_get? hbranch
    have hw : w.form = .object := hmakes.form_eq.trans hv
    -- the tag is one more member that was put back
    have hmembers' : v.Holds ((tag, v.get tag) :: members) :=
      List.forall_mem_cons.mpr ⟨Value.get?_of_tagKey? hkey, hmembers⟩
    have hagain := ih ((Uses.branch hmem).forall_reaches hs) _ hmembers'
    have hrestored : (Value.object (w.fields.insert tag (v.get tag))).restored members =
        w.restored ((tag, v.get tag) :: members) := by
      rw [Value.eq_object_of_form hw]
      rfl
    rw [hrestored]
    generalize hy : w.restored ((tag, v.get tag) :: members) = y at hagain ⊢
    have hform : y.form = .object := by rw [← hy, Value.form_restored, hw]
    have hget : y.get tag = v.get tag := by
      rcases Value.get_restored hw hmembers' tag with hget | ⟨hnot, -⟩
      · rw [← hy, hget]
      · exact absurd List.mem_cons_self hnot
    rw [← hget] at hkey ⊢
    exact (Makes.tagged hform hkey hbranch (hg.makes_iff.mpr hagain)).sound hg
  | @array t items hmakes ih =>
    intro hs members _
    exact hg.array_stable fun v hv => (ih v hv (Uses.item.forall_reaches hs)).self
  | @closed slots items hlen hmakes ih =>
    intro hs members _
    have hsteady : ∀ t ∈ slots, ¬ g.AdmitsNull t := (hs _ (Reaches.refl _)).2
    have hmem : ∀ e ∈ slots.zipIdx, e.1 ∈ slots := fun e he =>
      List.mem_of_getElem? (List.mem_zipIdx_iff_getElem?.mp he)
    have hslot : ∀ e ∈ slots.zipIdx, ∀ u, g.Reaches e.1 u → u.isTidy = true ∧ g.Steady u :=
      fun e he => (Uses.slot (hmem e he)).forall_reaches hs
    refine hg.closed_stable (fun e he hlen => ?_) (fun e he => (ih e he (hslot e he)).self) hlen
    exact (hmakes e he).undefined_eq (Value.item_of_length_le hlen)
      (fun u hu => (hslot e he u hu).2) (hsteady _ (hmem e he))
  | @opened slots t items hmakes _ ih ihrest =>
    intro hs members _
    have hsteady : ∀ t ∈ slots, ¬ g.AdmitsNull t := (hs _ (Reaches.refl _)).2
    have hmem : ∀ e ∈ slots.zipIdx, e.1 ∈ slots := fun e he =>
      List.mem_of_getElem? (List.mem_zipIdx_iff_getElem?.mp he)
    have hslot : ∀ e ∈ slots.zipIdx, ∀ u, g.Reaches e.1 u → u.isTidy = true ∧ g.Steady u :=
      fun e he => (Uses.slot (hmem e he)).forall_reaches hs
    refine hg.opened_stable (fun e he hlen => ?_) (fun e he => (ih e he (hslot e he)).self)
      fun v hv => (ihrest v hv (Uses.rest.forall_reaches hs)).self
    exact (hmakes e he).undefined_eq (Value.item_of_length_le hlen)
      (fun u hu => (hslot e he u hu).2) (hsteady _ (hmem e he))
  | @object properties signatures ms ha _ _ ih ihothers =>
    intro hs members hmembers
    obtain ⟨htidy, hlen⟩ := hs _ (Reaches.refl _)
    exact hg.object_stable (Shape.nodup_properties htidy) hlen hmembers ha
      (fun e he => (ih e he ((Uses.property he).forall_reaches hs)).self)
      fun m hm e he hadmits =>
        (ihothers m hm e he hadmits ((Uses.member he).forall_reaches hs)).self

/-- **Parsing what was parsed changes nothing.** By a steady shape the parsed form of an accepted
value is accepted, and is its own parsed form. -/
theorem Guarded.parse_parsed (hg : g.Guarded) (hd : g.isTidy = true) (p : Policy) {s : Shape}
    (ht : s.isTidy = true) (hs : ∀ t, g.Reaches s t → g.Steady t) {v : Value}
    (ha : g.accepts p s v = true) :
    ∃ w, g.parse p s v = .ok w ∧ g.accepts p s w = true ∧ g.parse p s w = .ok w := by
  have hremakes := (hg.makes s v ha).remakes hg fun t h => ⟨isTidy_of_reaches hd ht h, hs t h⟩
  obtain ⟨hacc, hparsed⟩ := hremakes.self
  refine ⟨_, hg.parse_eq ha, hacc, ?_⟩
  rw [hg.parse_eq hacc, hparsed]

/-- Messages of two kinds. A move has a unit besides, and its branches declare neither the kind nor
the unit; a note may carry anything. -/
def messages : Graph :=
  ⟨[("Move", .tagged [] "unit"
      [("metre", .object [("by", .tuple [.base .number, .optional (.base .number)] none)] []),
        ("step", .object [("by", .base .number)] [])]),
    ("Note", .object [("text", .base .string), ("ends", .literals [.null, .string "never"])]
      [(.base .string, .any)]),
    ("Message", .tagged [] "kind" [("move", .ref 0 "Move"), ("note", .ref 1 "Note")])]⟩

theorem messages_guarded : messages.Guarded := guarded_of_ranks id (by decide)

theorem messages_reaches (t : Shape) (h : messages.Reaches (.ref 2 "Message") t) :
    messages.Steady t :=
  steady_of_isSteady (Shape.of_all (reaches_all (by decide) (by decide) h))

/-- A move with a member that is not asked for. -/
def strayMove : Value :=
  .object [("stray", .bool true), ("kind", .string "move"), ("unit", .string "metre"),
    ("by", .array [.number (.ofInt 3)])]

theorem parse_parsed_strayMove :
    messages.isTidy = true ∧ messages.accepts {} (.ref 2 "Message") strayMove = true ∧
      ∃ w, messages.parse {} (.ref 2 "Message") strayMove = .ok w ∧
        messages.accepts {} (.ref 2 "Message") w = true ∧
        messages.parse {} (.ref 2 "Message") w = .ok w :=
  have hd : messages.isTidy = true := by decide
  have ha : messages.accepts {} (.ref 2 "Message") strayMove = true := by decide +kernel
  ⟨hd, ha, messages_guarded.parse_parsed hd {} rfl messages_reaches ha⟩

end Graph

end ShapeGraph
