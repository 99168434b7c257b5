import ShapeGraph.Proofs.Plain
import ShapeGraph.Proofs.Succeeding

/-!
# The sign of zero

JSON text has no sign on a zero that is written as an integer. Only a rule on numbers could tell
the two zeros apart: without one, a shape accepts a value in its normal form exactly when it accepts
the value, and what it makes of both has one normal form.

* `Shape.hasNumberRule` — the shapes that might tell them apart
* `Graph.Storable` — steady shapes without such a rule
* `Guarded.blind` — nothing depends on the sign of zero
* `Codec.decode_again` — what was decoded and written is decoded to itself
-/

namespace ShapeGraph

/-- Whether a shape holds numbers to rules. -/
def Shape.hasNumberRule : Shape → Bool
  | .numberFormats _ => true
  | _ => false

/-- A shape is steady and leaves numbers alone. -/
def Graph.Storable (g : Graph) (s : Shape) : Prop := g.Steady s ∧ s.hasNumberRule = false

theorem Number.normal_normal (x : Number) : x.normal.normal = x.normal :=
  Number.normal_eq_of_key_eq x.key_normal

namespace Value

/-- A normal form is normal. -/
theorem normal_normal (v : Value) : v.normal.normal = v.normal := by
  induction v using depth_induction with | step v ih => ?_
  cases v with
  | number x => exact congrArg number x.normal_normal
  | array items =>
    rw [normal_array, normal_array, List.map_map]
    refine congrArg array (List.map_congr_left fun v hv => ih v ?_)
    exact Nat.lt_succ_of_le (depth_le_depthItems hv)
  | object ms =>
    rw [normal_object, normal_object, Entries.mapValues, Entries.mapValues, List.map_map]
    refine congrArg object (List.map_congr_left fun m hm => congrArg (Prod.mk m.1) (ih m.2 ?_))
    exact Nat.lt_succ_of_le (depth_le_depthMembers hm)
  | _ => rfl

theorem normal_object_append (xs ys : Entries Value) : (object (xs ++ ys)).normal =
    object (Entries.mapValues normal xs ++ Entries.mapValues normal ys) := by
  rw [normal_object, Entries.mapValues, List.map_append]
  rfl

theorem isNullish_normal (v : Value) : v.normal.isNullish = v.isNullish := by
  cases v <;> rfl

theorem string?_normal (v : Value) : v.normal.string? = v.string? := by
  cases v <;> rfl

end Value

theorem BaseType.holds_normal (type : BaseType) (v : Value) :
    type.holds v.normal = type.holds v := by
  cases v <;> cases type <;> rfl

theorem Literal.holds_normal (c : Literal) (v : Value) : c.holds v.normal = c.holds v := by
  cases v with
  | number x =>
    cases c with
    | number y =>
      have hnan : x.normal.isNaN = x.isNaN := by
        rw [Bool.eq_iff_iff, Number.isNaN_iff_key, Number.isNaN_iff_key, x.key_normal]
      show y.same x.normal = y.same x
      rw [Number.same, Number.same, hnan, x.key_normal]
    | _ => rfl
  | _ => cases c <;> rfl

namespace Shape

variable {res : Shape → Value → Value}

/-! ## Parts of results -/

/-- Slots make the same but for signs when they do so item by item. -/
theorem slotItems_normal {slots : List Shape} {items : List Value}
    (h : ∀ e ∈ slots.zipIdx, (res e.1 ((Value.array items).item e.2).normal).normal =
      (res e.1 ((Value.array items).item e.2)).normal) :
    (slotItems res slots (items.map Value.normal) 0).map Value.normal =
      (slotItems res slots items 0).map Value.normal := by
  rw [slotItems, slotItems, List.map_filterMap, List.map_filterMap]
  refine List.filterMap_congr fun e he => ?_
  have hundefined : (res e.1 ((Value.array items).item e.2).normal).isUndefined =
      (res e.1 ((Value.array items).item e.2)).isUndefined := by
    rw [← Value.isUndefined_normal, h e he, Value.isUndefined_normal]
  simp only [Value.item_normal, List.length_map, hundefined]
  split
  · rfl
  · exact congrArg some (h e he)

theorem declaredFields_normal {properties : Entries Shape} {v : Value}
    (h : ∀ e ∈ properties, (res e.2 (v.get e.1).normal).normal = (res e.2 (v.get e.1)).normal) :
    Entries.mapValues Value.normal (declaredFields res properties v.normal) =
      Entries.mapValues Value.normal (declaredFields res properties v) := by
  rw [declaredFields, declaredFields, Entries.mapValues, Entries.mapValues, List.map_filterMap,
    List.map_filterMap]
  refine List.filterMap_congr fun e he => ?_
  have hundefined : (res e.2 (v.get e.1).normal).isUndefined =
      (res e.2 (v.get e.1)).isUndefined := by
    rw [← Value.isUndefined_normal, h e he, Value.isUndefined_normal]
  simp only [Value.get_normal, hundefined]
  split
  · rfl
  · exact congrArg (fun w => some (e.1, w)) (h e he)

theorem undeclared_normal (properties : Entries Shape) (ms : Entries Value) :
    undeclared properties (ms.mapValues Value.normal) =
      Entries.mapValues Value.normal (undeclared properties ms) := by
  rw [undeclared, Entries.mapValues, List.filter_map]
  rfl

end Shape

namespace Graph

variable {g : Graph} {p : Policy}

/-! ## One step for each kind with parts -/

/-- Nothing that a shape does with a value depends on the signs of zeros. -/
def Blind (g : Graph) (p : Policy) (s : Shape) (v : Value) : Prop :=
  g.accepts p s v.normal = g.accepts p s v ∧
    (g.accepts p s v = true → (g.parsed p s v.normal).normal = (g.parsed p s v).normal)

theorem Guarded.blind_array (hg : g.Guarded) {t : Shape} {items : List Value}
    (h : ∀ v ∈ items, g.Blind p t v) : g.Blind p (.array t) (.array items) := by
  have hacc : g.accepts p (.array t) (Value.array items).normal =
      g.accepts p (.array t) (.array items) := by
    rw [Value.normal_array, hg.accepts_array, hg.accepts_array, List.all_map]
    exact all_congr_of_mem fun v hv => (h v hv).1
  refine ⟨hacc, fun ha => ?_⟩
  have ha' := hacc.trans ha
  rw [Value.normal_array] at ha' ⊢
  rw [hg.parsed_array ha, hg.parsed_array ha', Value.normal_array, Value.normal_array,
    List.map_map, List.map_map, List.map_map]
  rw [hg.accepts_array, List.all_eq_true] at ha
  exact congrArg Value.array (List.map_congr_left fun v hv => (h v hv).2 (ha v hv))

/-- What the slots and the rest of a tuple have to do with the items. -/
theorem Guarded.blind_tuple (hg : g.Guarded) {slots : List Shape} {rest : Option Shape}
    {items : List Value}
    (hslots : ∀ e ∈ slots.zipIdx, g.Blind p e.1 ((Value.array items).item e.2))
    (hrest : ∀ t, rest = some t → ∀ v ∈ items.drop slots.length, g.Blind p t v) :
    g.Blind p (.tuple slots rest) (.array items) := by
  have hfront : (slots.zipIdx.all fun e =>
      g.accepts p e.1 ((Value.array (items.map Value.normal)).item e.2)) =
        slots.zipIdx.all fun e => g.accepts p e.1 ((Value.array items).item e.2) :=
    all_congr_of_mem fun e he => by rw [Value.item_normal, (hslots e he).1]
  rw [Blind, Value.normal_array]
  cases rest with
  | none =>
    have hacc : g.accepts p (.tuple slots none) (.array (items.map Value.normal)) =
        g.accepts p (.tuple slots none) (.array items) := by
      rw [hg.accepts_tuple_closed, hg.accepts_tuple_closed, hfront, List.length_map]
    refine ⟨hacc, fun ha => ?_⟩
    rw [hg.parsed_tuple_closed ha, hg.parsed_tuple_closed (hacc.trans ha), Value.normal_array,
      Value.normal_array]
    rw [hg.accepts_tuple_closed, Bool.and_eq_true, List.all_eq_true] at ha
    rw [Shape.slotItems_normal fun e he => (hslots e he).2 (ha.1 e he)]
  | some t =>
    have hrest := hrest t rfl
    have hacc : g.accepts p (.tuple slots (some t)) (.array (items.map Value.normal)) =
        g.accepts p (.tuple slots (some t)) (.array items) := by
      rw [hg.accepts_tuple_open, hg.accepts_tuple_open, hfront, ← List.map_drop, List.all_map]
      exact congrArg _ (all_congr_of_mem fun v hv => (hrest v hv).1)
    refine ⟨hacc, fun ha => ?_⟩
    rw [hg.parsed_tuple_open ha, hg.parsed_tuple_open (hacc.trans ha), Value.normal_array,
      Value.normal_array, List.map_append, List.map_append, ← List.map_drop, List.map_map,
      List.map_map, List.map_map]
    rw [hg.accepts_tuple_open, Bool.and_eq_true, List.all_eq_true, List.all_eq_true] at ha
    rw [Shape.slotItems_normal fun e he => (hslots e he).2 (ha.1 e he)]
    have hback := List.map_congr_left fun v hv => (hrest v hv).2 (ha.2 v hv)
    exact congrArg (fun back => Value.array (_ ++ back)) hback

theorem Guarded.blind_tagged (hg : g.Guarded) {members : List Shape} {tag : String}
    {branches : Entries Shape} {v : Value}
    (h : ∀ key t, branches.get? key = some t → g.Blind p t v) :
    g.Blind p (.tagged members tag branches) v := by
  have hobject : v.normal.isObject = v.isObject := by
    rw [Bool.eq_iff_iff, Value.isObject_iff, Value.isObject_iff, v.form_normal]
  have hacc : g.accepts p (.tagged members tag branches) v.normal =
      g.accepts p (.tagged members tag branches) v := by
    rw [accepts_tagged, accepts_tagged, hobject, Value.get_normal, Value.tagKey?_normal]
    congr 2
    funext key
    cases hbranch : branches.get? key with
    | none => rfl
    | some t => exact (h key t hbranch).1
  refine ⟨hacc, fun ha => ?_⟩
  rw [accepts_tagged, Bool.and_eq_true, Value.isObject_iff] at ha
  obtain ⟨hv, ha⟩ := ha
  obtain ⟨key, hkey, ha⟩ := (Option.any_eq_true _ _).mp ha
  obtain ⟨t, hbranch, hat⟩ := (Option.any_eq_true _ _).mp ha
  obtain ⟨hsame, hmade⟩ := h key t hbranch
  have hkey' : (v.normal.get tag).tagKey? = some key := by
    rw [Value.get_normal, Value.tagKey?_normal, hkey]
  rw [hg.parsed_tagged hv hkey hbranch hat,
    hg.parsed_tagged (v.form_normal.trans hv) hkey' hbranch (hsame.trans hat), Value.normal_object,
    Value.normal_object, Entries.mapValues_insert, Entries.mapValues_insert,
    ← Value.fields_normal, ← Value.fields_normal, hmade hat, Value.get_normal,
    Value.normal_normal]

theorem Guarded.blind_object (hg : g.Guarded) {properties : Entries Shape}
    {signatures : List (Shape × Shape)} {ms : List (String × Value)}
    (hproperties : ∀ e ∈ properties, g.Blind p e.2 ((Value.object ms).get e.1))
    (hmembers : ∀ e ∈ signatures, ∀ m ∈ ms, g.Blind p e.2 m.2) :
    g.Blind p (.object properties signatures) (.object ms) := by
  have hadmits : ∀ m ∈ Shape.undeclared properties ms, ∀ e ∈ signatures,
      g.admits p (m.1, m.2.normal) e = g.admits p m e := fun m hm e he => by
    rw [admits, admits, (hmembers e he m (Shape.mem_undeclared.mp hm).1).1]
  have hacc : g.accepts p (.object properties signatures) (Value.object ms).normal =
      g.accepts p (.object properties signatures) (.object ms) := by
    rw [Value.normal_object, hg.accepts_object, hg.accepts_object, Shape.undeclared_normal,
      ← Value.normal_object, Entries.mapValues, List.isEmpty_map, List.all_map]
    congr 1
    · exact all_congr_of_mem fun e he => by rw [Value.get_normal, (hproperties e he).1]
    · congr 1
      exact all_congr_of_mem fun m hm => any_congr_of_mem (hadmits m hm)
  refine ⟨hacc, fun ha => ?_⟩
  have hdeclared : ∀ e ∈ properties, (g.parsed p e.2 ((Value.object ms).get e.1).normal).normal =
      (g.parsed p e.2 ((Value.object ms).get e.1)).normal := fun e he => by
    have haccepts := ha
    rw [hg.accepts_object, Bool.and_eq_true, List.all_eq_true] at haccepts
    exact (hproperties e he).2 (haccepts.1 e he)
  have hothers : Entries.mapValues Value.normal
      (g.otherFields p properties signatures (Entries.mapValues Value.normal ms)) =
        Entries.mapValues Value.normal (g.otherFields p properties signatures ms) := by
    rw [otherFields, otherFields, Shape.undeclared_normal, Entries.mapValues, Entries.mapValues,
      Entries.mapValues, List.filterMap_map, List.map_filterMap, List.map_filterMap]
    refine List.filterMap_congr fun m hm => ?_
    show Option.map _ (Option.map _ (signatures.find? (g.admits p (m.1, m.2.normal)))) = _
    rw [find?_congr_of_mem (hadmits m hm)]
    cases hfind : signatures.find? (g.admits p m) with
    | none => rfl
    | some e =>
      have he := List.mem_of_find?_eq_some hfind
      have haccepts := accepts_of_admits (List.find?_some hfind)
      exact congrArg (fun w => some (m.1, w))
        ((hmembers e he m (Shape.mem_undeclared.mp hm).1).2 haccepts)
  have hdeclared := Shape.declaredFields_normal (v := .object ms) hdeclared
  have ha' := hacc.trans ha
  rw [Value.normal_object] at ha' hdeclared ⊢
  rw [hg.parsed_object ha, hg.parsed_object ha', Value.normal_object_append,
    Value.normal_object_append, hdeclared, hothers]

theorem Guarded.blind_optional (hg : g.Guarded) {t : Shape} {v : Value} (h : g.Blind p t v) :
    g.Blind p (.optional t) v := by
  have hacc : g.accepts p (.optional t) v.normal = g.accepts p (.optional t) v := by
    rw [accepts_optional, accepts_optional, v.isNullish_normal, h.1]
  refine ⟨hacc, fun ha => ?_⟩
  by_cases hv : v.isNullish = true
  · rw [parsed_optional_nullish hv, parsed_optional_nullish (v.isNullish_normal.trans hv),
      v.normal_normal]
  · have hv' : ¬ v.normal.isNullish = true := by rwa [v.isNullish_normal]
    rw [hg.parsed_optional hv ha, hg.parsed_optional hv' (hacc.trans ha)]
    rw [accepts_optional, Bool.or_eq_true] at ha
    exact h.2 (ha.resolve_left hv)

theorem Guarded.blind_ref (hg : g.Guarded) {i : Nat} {name : String} {v : Value}
    (h : ∀ t, g.shape? i = some t → g.Blind p t v) : g.Blind p (.ref i name) v := by
  rw [Blind, hg.accepts_ref, hg.accepts_ref]
  cases ht : g.shape? i with
  | none => exact ⟨rfl, fun ha => nomatch ha⟩
  | some t =>
    obtain ⟨hacc, hmade⟩ := h t ht
    refine ⟨hacc, fun ha => ?_⟩
    have hself {w : Value} (hw : g.accepts p t w = true) :
        g.parsed p (.ref i name) w = g.parsed p t w := by
      refine hg.parsed_ref ht ?_
      rw [hg.accepts_ref, ht]
      exact hw
    rw [hself ha, hself (hacc.trans ha)]
    exact hmade ha

/-! ## Shapes without parts -/

theorem blind_of_keepsValues {s : Shape} {v : Value} (hs : s.keepsValues = true)
    (hacc : g.accepts p s v.normal = g.accepts p s v) : g.Blind p s v := by
  have hself (w : Value) : g.parsed p s w = w := by
    refine Settles.parsed_eq fun _ _ => ?_
    cases s <;> first | rfl | cases hs
  refine ⟨hacc, fun _ => ?_⟩
  rw [hself, hself, v.normal_normal]

theorem blind_literals (cs : List Literal) (v : Value) : g.Blind p (.literals cs) v := by
  have hholds : (fun c : Literal => c.holds v.normal) = fun c => c.holds v :=
    funext fun c => c.holds_normal v
  have hacc : g.accepts p (.literals cs) v.normal = g.accepts p (.literals cs) v :=
    congrArg cs.any hholds
  refine ⟨hacc, fun ha => ?_⟩
  obtain ⟨c, hc, hmade⟩ := settles_literals ha
  obtain ⟨d, hd, hmade'⟩ := settles_literals (hacc.trans ha)
  rw [hholds, hc, Option.some.injEq] at hd
  rw [hmade.parsed_eq, hmade'.parsed_eq, hd]

/-- A shape that rejects a value in both forms makes nothing of it. -/
theorem blind_of_rejected {s : Shape} {v : Value} (h : g.accepts p s v = false)
    (h' : g.accepts p s v.normal = false) : g.Blind p s v := by
  refine ⟨h'.trans h.symm, fun ha => ?_⟩
  rw [h] at ha
  cases ha

/-! ## Every storable shape -/

/-- **Without a rule on numbers nothing depends on the sign of zero.** -/
theorem Guarded.blind (hg : g.Guarded) (s : Shape) (v : Value) :
    (∀ t, g.Reaches s t → g.Storable t) → g.Blind p s v := by
  induction s, v using hg.induction with | step s v ih => ?_
  intro hs
  cases s with
  | anyOf => exact (hs _ (Reaches.refl _)).1.elim
  | allOf => exact (hs _ (Reaches.refl _)).1.elim
  | numberFormats => exact (Bool.false_ne_true (hs _ (Reaches.refl _)).2.symm).elim
  | never => exact blind_of_rejected rfl rfl
  | literal c => exact ⟨c.holds_normal v, fun _ => rfl⟩
  | literals cs => exact blind_literals cs v
  | ref i name =>
    exact hg.blind_ref fun t ht => ih t v (.target ht) ((Uses.target ht).forall_reaches hs)
  | optional t => exact hg.blind_optional (ih t v .inner (Uses.inner.forall_reaches hs))
  | tagged members tag branches =>
    refine hg.blind_tagged fun key t hbranch => ?_
    have hmem := Entries.mem_of_get? hbranch
    exact ih t v (.branch hmem) ((Uses.branch hmem).forall_reaches hs)
  | array t =>
    cases v with
    | array items =>
      exact hg.blind_array fun v hv => ih t v (.item hv) (Uses.item.forall_reaches hs)
    | _ => exact blind_of_rejected rfl rfl
  | tuple slots rest =>
    cases v with
    | array items =>
      refine hg.blind_tuple (fun e he => ?_) ?_
      · have hslot := List.mem_zipIdx_iff_getElem?.mp he
        exact ih e.1 _ (.slot hslot) ((Uses.slot (List.mem_of_getElem? hslot)).forall_reaches hs)
      · rintro t rfl v hv
        exact ih t v (.rest hv) (Uses.rest.forall_reaches hs)
    | _ => cases rest <;> exact blind_of_rejected rfl rfl
  | object properties signatures =>
    cases v with
    | object ms =>
      exact hg.blind_object
        (fun e he => ih e.2 _ (.property he) ((Uses.property he).forall_reaches hs))
        fun e he m hm => ih e.2 m.2 (.member he hm) ((Uses.member he).forall_reaches hs)
    | _ => exact blind_of_rejected rfl rfl
  | base type => exact blind_of_keepsValues rfl (type.holds_normal v)
  | any => exact blind_of_keepsValues rfl rfl
  | nullish => exact blind_of_keepsValues rfl v.isNullish_normal
  | pattern _ matched _ =>
    exact blind_of_keepsValues rfl (congrArg (Option.any matched) v.string?_normal)
  | stringFormats formats =>
    exact blind_of_keepsValues rfl
      (congrArg (Option.any (p.formats.allowsString formats)) v.string?_normal)
  | date => exact blind_of_keepsValues rfl (by cases v <;> rfl)
  | bigint => exact blind_of_keepsValues rfl (by cases v <;> rfl)

end Graph

/-! ## Decoding again what was written -/

namespace Codec

variable {c : Codec} {p : Policy}

/-- What is decoded is the parsed form of an accepted value. -/
theorem decode_eq_ok_iff (hg : c.graph.Guarded) {v w : Value} :
    c.decode p v = .ok w ↔ c.accepts p v = true ∧ c.graph.parsed p c.root v = w := by
  constructor
  · intro h
    have ha : c.accepts p v = true := (c.decode_isOk p v).mp ⟨w, h⟩
    rw [decode_of_parse ha (hg.parse_eq ha), Except.ok.injEq] at h
    exact ⟨ha, h⟩
  · rintro ⟨ha, rfl⟩
    exact decode_of_parse ha (hg.parse_eq ha)

/-- **What was decoded and written is decoded to what is written alike.** -/
theorem decode_again (hg : c.graph.Guarded) (hd : c.graph.isTidy = true)
    (ht : c.root.isTidy = true) (hs : ∀ t, c.graph.Reaches c.root t → c.graph.Storable t)
    {v w : Value} (hv : v.isPlain = true) (h : c.decode p v = .ok w) :
    ∃ u, c.decode p (Value.ofJson w.toJson) = .ok u ∧ u.toJson = w.toJson := by
  obtain ⟨ha, rfl⟩ := (decode_eq_ok_iff hg).mp h
  have hsteady := fun t hr => (hs t hr).1
  have hmakes := hg.makes c.root v ha
  obtain ⟨hagain, hsame⟩ :=
    (hmakes.remakes hg fun t hr => ⟨Graph.isTidy_of_reaches hd ht hr, hsteady t hr⟩).self
  have hplain : (c.graph.parsed p c.root v).isPlain = true :=
    hmakes.isPlain_of_present hsteady hv (hmakes.isPlain hsteady (.inr hv))
  obtain ⟨hblind, hmade⟩ := hg.blind c.root (c.graph.parsed p c.root v) hs
  refine ⟨_, (decode_eq_ok_iff hg).mpr ⟨?_, rfl⟩, ?_⟩
  · rw [Value.ofJson_toJson _ hplain]
    exact hblind.trans hagain
  · rw [Value.ofJson_toJson _ hplain, ← Value.toJson_normal, hmade hagain, hsame,
      Value.toJson_normal]

end Codec

end ShapeGraph
