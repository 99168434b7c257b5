import ShapeGraph.Proofs.Decoding

/-!
# What is accepted is parsed

Parsing goes the way that acceptance has gone: it asks the same references for the same values,
and each of them one reference deeper. So whatever number of references may be opened, parsing
comes to an end with a result where acceptance said yes. Nothing is asked of the graph here: a
loop that uses up all references has no value accepted.

* `Shape.parses_of_accepts` — one shape, whose references parse what they accept
* `Graph.refsParse` — the references of a graph do
* `Codec.decode_isOk` — decoding has a result exactly for accepted values
-/

namespace ShapeGraph

namespace Shape

/-- References parse what they accept, and keep the form of the value. -/
def RefsParse (a : Nat → Value → Bool) (r : Nat → String → Value → Except ParseFault Value) :
    Prop :=
  ∀ i name v, a i v = true → ∃ w, r i name v = .ok w ∧ w.form = v.form

variable (p : Policy) (a : Nat → Value → Bool) (r : Nat → String → Value → Except ParseFault Value)

/-- What a shape makes of a value; it makes nothing of a value that it does not parse. -/
def made (s : Shape) (v : Value) : Value :=
  match parse p a r s v with
  | .ok w => w
  | .error _ => .undefined

/-- A shape parses a value, and keeps its form. -/
def Parses (s : Shape) (v : Value) : Prop :=
  parse p a r s v = .ok (made p a r s v) ∧ (made p a r s v).form = v.form

variable {p a r}

theorem Parses.of_ok {s : Shape} {v w : Value} (h : parse p a r s v = .ok w)
    (hform : w.form = v.form) : Parses p a r s v := by
  rw [Parses, made, h]
  exact ⟨rfl, hform⟩

/-- The slots of a tuple parse their items. -/
theorem parseSlots_of_parses {slots : List Shape} {items : List Value}
    (h : ∀ s ∈ slots, ∀ v, accepts p a s v = true → Parses p a r s v)
    (ha : acceptsSlots p a slots items = true) :
    parseSlots p a r slots items = .ok (slotItems (made p a r) slots items 0) := by
  rw [acceptsSlots_eq, List.all_eq_true] at ha
  refine parseSlots_ok (i := 0) fun e he => (h e.1 ?_ _ (ha e he)).1
  exact List.mem_of_getElem? (List.mem_zipIdx_iff_getElem?.mp he)

theorem parses_tuple {slots : List Shape} {rest : Option Shape} {items : List Value}
    (h : ∀ s ∈ (Shape.tuple slots rest).parts, ∀ v, accepts p a s v = true → Parses p a r s v)
    (ha : accepts p a (.tuple slots rest) (.array items) = true) :
    Parses p a r (.tuple slots rest) (.array items) := by
  have hslots : ∀ s ∈ slots, ∀ v, accepts p a s v = true → Parses p a r s v := fun s hs =>
    h s (List.mem_append_left _ hs)
  cases rest with
  | none =>
    rw [accepts, Bool.and_eq_true] at ha
    refine .of_ok (w := .array (slotItems (made p a r) slots items 0)) ?_ rfl
    rw [parse, show (Value.array items).items?.getD [] = items from rfl,
      parseSlots_of_parses hslots ha.1]
    rfl
  | some rest =>
    rw [accepts, Bool.and_eq_true, List.all_eq_true] at ha
    have hback := mapM_pure fun v hv =>
      (h rest (List.mem_append_right _ List.mem_cons_self) v (ha.2 v hv)).1
    refine .of_ok (w := .array (slotItems (made p a r) slots items 0
      ++ (items.drop slots.length).map (made p a r rest))) ?_ rfl
    rw [parse, show (Value.array items).items?.getD [] = items from rfl,
      parseSlots_of_parses hslots ha.1]
    simp only [bind, Except.bind]
    rw [hback]
    rfl

theorem parses_object {properties : Entries Shape} {signatures : List (Shape × Shape)}
    {ms : List (String × Value)}
    (h : ∀ s ∈ (Shape.object properties signatures).parts, ∀ v, accepts p a s v = true →
      Parses p a r s v)
    (ha : accepts p a (.object properties signatures) (.object ms) = true) :
    Parses p a r (.object properties signatures) (.object ms) := by
  rw [accepts, Bool.and_eq_true, acceptsProperties_eq, List.all_eq_true] at ha
  have hdeclared := parseProperties_ok fun e he =>
    (h e.2 (List.mem_append_left _ (List.mem_map_of_mem he)) _ (ha.1 e he)).1
  obtain ⟨others, hothers⟩ : ∃ others, (undeclared properties ms).mapM
      (fun m => parseMember p a r signatures m.1 m.2) = .ok others :=
    ⟨_, mapM_pure fun m _ => parseMember_ok fun e he hat =>
      (h e.2 (List.mem_append_right _ (List.mem_flatMap.mpr ⟨e, he, by simp⟩)) m.2 hat).1⟩
  refine .of_ok (w := .object (declaredFields (made p a r) properties (.object ms)
    ++ others.filterMap id)) ?_ rfl
  rw [parse, hdeclared]
  simp only [bind, Except.bind]
  rw [show (Value.object ms).members?.getD [] = ms from rfl, hothers]
  rfl

variable (hr : RefsParse a r)

include hr

/-- **A shape parses what it accepts**, when its references do. -/
theorem parses_of_accepts (s : Shape) :
    ∀ v, accepts p a s v = true → Parses p a r s v := by
  -- the form is carried along: only it tells that members and branches make objects
  induction s using parts_induction with | step s ih => ?_
  intro v ha
  cases s with
  | never => cases ha
  | literal c => exact .of_ok rfl (Literal.form_toValue ha)
  | literals cs =>
    have hsome := List.find?_isSome.mpr (List.any_eq_true.mp ha)
    obtain ⟨c, hfind⟩ := Option.isSome_iff_exists.mp hsome
    refine .of_ok (w := c.toValue) ?_ (Literal.form_toValue (Literal.holds_of_find? hfind))
    rw [parse, hfind]
    rfl
  | ref i name =>
    obtain ⟨w, hw, hform⟩ := hr i name v ha
    exact .of_ok hw hform
  | optional inner =>
    by_cases hv : v.isNullish = true
    · exact .of_ok (w := v) (by rw [parse, if_pos hv]) rfl
    · have hinner := ih inner List.mem_cons_self v
        ((Bool.or_eq_true _ _ ▸ ha : _ ∨ _).resolve_left hv)
      exact .of_ok (by rw [parse, if_neg hv, hinner.1]) hinner.2
  | allOf members =>
    rw [accepts, acceptsAll_eq, Bool.and_eq_true, Value.isObject_iff, List.all_eq_true] at ha
    have hparts : parseAll p a r members [] v = .ok (joinedFields (made p a r) members [] v) :=
      parseAll_ok fun t ht =>
        have h := ih t ht v (ha.2 t ht)
        ⟨h.1, h.2.trans ha.1⟩
    refine .of_ok (w := .object (joinedFields (made p a r) members [] v)) ?_ ha.1.symm
    rw [parse, hparts]
    rfl
  | anyOf members =>
    rw [accepts, acceptsSome_eq, List.any_eq_true] at ha
    have hparts := parseSome_ok ha fun t ht hat => (ih t ht v hat).1
    refine .of_ok hparts ?_
    refine Value.mergeAll_induction (P := fun w => w.form = v.form)
      (fun _ _ => Value.form_merge) ?_ fun w hw => ?_
    · obtain ⟨t, ht, hat⟩ := ha
      exact List.ne_nil_of_mem (List.mem_map_of_mem (List.mem_filter.mpr ⟨ht, hat⟩))
    · obtain ⟨t, ht, rfl⟩ := List.mem_map.mp hw
      obtain ⟨ht, hat⟩ := List.mem_filter.mp ht
      exact (ih t ht v hat).2
  | tagged members tag branches =>
    rw [accepts, Bool.and_eq_true, Option.any_eq_true] at ha
    obtain ⟨hv, key, hkey, ha⟩ := ha
    rw [acceptsBranch_eq, Option.any_eq_true] at ha
    obtain ⟨t, ht, hat⟩ := ha
    have hmem : t ∈ (Shape.tagged members tag branches).parts :=
      List.mem_append_right _ (List.mem_map_of_mem (Entries.mem_of_get? ht))
    obtain ⟨hparse, hform⟩ := ih t hmem v hat
    rw [Value.isObject_iff.mp hv] at hform
    refine .of_ok
      (w := .object (Entries.insert (made p a r t v).fields tag (v.get tag))) ?_
      (Value.isObject_iff.mp hv).symm
    rw [parse, if_pos hv, hkey]
    exact parseBranch_ok ht hparse hform
  | array item =>
    cases v with
    | array items =>
      have hitems := mapM_pure fun w hw =>
        (ih item List.mem_cons_self w (List.all_eq_true.mp ha w hw)).1
      refine .of_ok (w := .array (items.map (made p a r item))) ?_ rfl
      rw [parse, show (Value.array items).items?.getD [] = items from rfl, hitems]
      rfl
    | _ => cases ha
  | tuple slots rest =>
    cases v with
    | array items => exact parses_tuple ih ha
    | _ => cases rest <;> cases ha
  | object properties signatures =>
    cases v with
    | object ms => exact parses_object ih ha
    | _ => cases ha
  | _ => exact .of_ok (w := v) rfl rfl

end Shape

/-! ## In a graph -/

namespace Graph

variable (g : Graph) (p : Policy)

/-- **What a reference accepts it parses**, however many references may be opened behind it. -/
theorem refsParse (fuel : Nat) : Shape.RefsParse (g.acceptsRef p fuel) (g.parseRef p fuel) := by
  induction fuel with
  | zero => exact fun _ _ _ ha => absurd ha Bool.false_ne_true
  | succ fuel ih =>
    intro i name v ha
    rw [acceptsRef] at ha
    rw [parseRef]
    cases hs : g.shape? i with
    | none => rw [hs] at ha; cases ha
    | some s =>
      rw [hs] at ha
      obtain ⟨hw, hform⟩ := Shape.parses_of_accepts ih s v ha
      exact ⟨_, hw, hform⟩

variable {g p}

theorem parse_isOk {s : Shape} {v : Value} (ha : g.accepts p s v = true) :
    ∃ w, g.parse p s v = .ok w :=
  ⟨_, (Shape.parses_of_accepts (g.refsParse p (g.budget v)) s v ha).1⟩

end Graph

namespace Codec

/-- A rejected value is not decoded, whether or not there is something to report. -/
theorem decode_ne_ok {c : Codec} {p : Policy} {v w : Value} (h : c.accepts p v = false) :
    c.decode p v ≠ .ok w := by
  rw [decode, h]
  cases (c.report p v).take maxErrors <;> simp

/-- **Exactly the accepted values are decoded**, in every graph. -/
theorem decode_isOk (c : Codec) (p : Policy) (v : Value) :
    (∃ w, c.decode p v = .ok w) ↔ c.accepts p v = true := by
  constructor
  · rintro ⟨w, hw⟩
    by_contra ha
    exact decode_ne_ok (Bool.eq_false_iff.mpr ha) hw
  · intro ha
    obtain ⟨w, hw⟩ := Graph.parse_isOk ha
    exact ⟨w, decode_of_parse ha hw⟩

end Codec

end ShapeGraph
