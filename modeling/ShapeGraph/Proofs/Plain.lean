import ShapeGraph.Proofs.Canonical
import ShapeGraph.Proofs.Integers
import ShapeGraph.Proofs.Pruning

/-!
# Plain values

A value is plain when JSON has it: nothing in it is missing, and it has neither dates nor big
integers nor numbers that are not finite. Written as JSON and read again, a plain value is back
with its numbers made normal, that is, without the sign of zero.

* `Value.normal` — a value without the signs of its zeros
* `Value.isPlain` — values that JSON has
* `Value.ofJson_toJson` — writing and reading
* `Makes.isPlain` — what a steady shape makes of a plain value is plain
-/

namespace ShapeGraph

namespace Value

/-! ## Normal values -/

mutual

/-- The value with every number made normal. -/
def normal : Value → Value
  | .number x => .number x.normal
  | .array items => .array (normalItems items)
  | .object members => .object (normalMembers members)
  | .undefined => .undefined
  | .null => .null
  | .bool b => .bool b
  | .bigint n => .bigint n
  | .string s => .string s
  | .date millis => .date millis

def normalItems : List Value → List Value
  | [] => []
  | v :: vs => normal v :: normalItems vs

def normalMembers : List (String × Value) → List (String × Value)
  | [] => []
  | (k, v) :: ms => (k, normal v) :: normalMembers ms

end

theorem normalItems_eq (items : List Value) : normalItems items = items.map normal := by
  induction items with
  | nil => rfl
  | cons v vs ih => rw [normalItems, ih, List.map_cons]

theorem normalMembers_eq (ms : Entries Value) : normalMembers ms = ms.mapValues normal := by
  induction ms with
  | nil => rfl
  | cons m ms ih => rw [normalMembers, ih]; rfl

theorem normal_array (items : List Value) : (array items).normal = array (items.map normal) := by
  rw [normal, normalItems_eq]

theorem normal_object (ms : Entries Value) :
    (object ms).normal = object (ms.mapValues normal) := by
  rw [normal, normalMembers_eq]

theorem form_normal (v : Value) : v.normal.form = v.form := by
  cases v <;> rfl

theorem isUndefined_normal (v : Value) : v.normal.isUndefined = v.isUndefined := by
  cases v <;> rfl

theorem fields_normal (v : Value) : v.normal.fields = Entries.mapValues normal v.fields := by
  cases v with
  | object ms => rw [normal_object]; rfl
  | _ => rfl

theorem get_normal (v : Value) (key : String) : v.normal.get key = (v.get key).normal := by
  rw [get_eq_fields, get_eq_fields, fields_normal, Entries.get?_mapValues]
  cases v.fields.get? key <;> rfl

theorem item_normal (items : List Value) (i : Nat) :
    (array (items.map normal)).item i = ((array items).item i).normal := by
  show (items.map normal)[i]?.getD undefined = (items[i]?.getD undefined).normal
  rw [List.getElem?_map]
  cases items[i]? <;> rfl

theorem tagKey?_normal (v : Value) : v.normal.tagKey? = v.tagKey? := by
  cases v with
  | number x => exact congrArg some x.plain_normal
  | _ => rfl

/-! ## Plain values -/

mutual

/-- Whether a value is one that JSON has. -/
def isPlain : Value → Bool
  | .number x => x.isFinite
  | .array items => isPlainItems items
  | .object members => isPlainMembers members
  | .undefined => false
  | .null => true
  | .bool _ => true
  | .bigint _ => false
  | .string _ => true
  | .date _ => false

def isPlainItems : List Value → Bool
  | [] => true
  | v :: vs => isPlain v && isPlainItems vs

def isPlainMembers : List (String × Value) → Bool
  | [] => true
  | (_, v) :: ms => isPlain v && isPlainMembers ms

end

theorem isPlainItems_eq (items : List Value) : isPlainItems items = items.all isPlain := by
  induction items with
  | nil => rfl
  | cons v vs ih => rw [isPlainItems, ih, List.all_cons]

theorem isPlainMembers_eq (ms : List (String × Value)) :
    isPlainMembers ms = ms.all fun m => m.2.isPlain := by
  induction ms with
  | nil => rfl
  | cons m ms ih => rw [isPlainMembers, ih, List.all_cons]

theorem isPlain_array_iff {items : List Value} :
    (array items).isPlain = true ↔ ∀ v ∈ items, v.isPlain = true := by
  rw [isPlain, isPlainItems_eq, List.all_eq_true]

theorem isPlain_object_iff {ms : List (String × Value)} :
    (object ms).isPlain = true ↔ ∀ m ∈ ms, m.2.isPlain = true := by
  rw [isPlain, isPlainMembers_eq, List.all_eq_true]

theorem isUndefined_of_isPlain {v : Value} (h : v.isPlain = true) : v.isUndefined = false := by
  cases v with
  | undefined => cases h
  | _ => rfl

/-! ## In JSON -/

/-- A value is written as its normal form is. -/
theorem toJson_normal (v : Value) : v.normal.toJson = v.toJson := by
  induction v using depth_induction with | step v ih => ?_
  cases v with
  | number x => exact x.toJson_normal
  | array items =>
    rw [normal_array, toJson, toJson, toJsonItems_eq, toJsonItems_eq, List.map_map]
    refine congrArg Json.arr (List.map_congr_left fun v hv => ih v ?_)
    exact Nat.lt_succ_of_le (depth_le_depthItems hv)
  | object ms =>
    rw [normal_object, toJson, toJson, toJsonMembers_eq, toJsonMembers_eq, Entries.mapValues,
      List.filter_map, List.map_map]
    have hkept : ms.filter ((fun m : String × Value => !m.2.isUndefined) ∘
        fun m => (m.1, m.2.normal)) = ms.filter fun m => !m.2.isUndefined :=
      List.filter_congr fun m _ => congrArg not m.2.isUndefined_normal
    rw [hkept]
    refine congrArg Json.obj (List.map_congr_left fun m hm => congrArg (Prod.mk m.1) (ih m.2 ?_))
    exact Nat.lt_succ_of_le (depth_le_depthMembers (List.mem_filter.mp hm).1)
  | _ => rfl

theorem ofJson_number {x : Number} (h : x.isFinite = true) :
    ofJson x.toJson = .number x.normal := by
  rw [Number.toJson_eq]
  split
  · next hshort =>
    obtain ⟨hx, hlt⟩ := Bool.and_eq_true_iff.mp hshort
    exact congrArg number (Number.ofInt_truncated hx (of_decide_eq_true hlt))
  · next hlong =>
    have hzero : ¬ x.isZero = true := fun hzero => hlong (Number.isShortInteger_of_isZero hzero)
    rw [Number.normal, Number.isNaN_of_isFinite h, if_neg Bool.false_ne_true,
      if_neg hzero]
    rfl

/-- **A plain value that is written and read is back in its normal form.** -/
theorem ofJson_toJson (v : Value) : v.isPlain = true → ofJson v.toJson = v.normal := by
  induction v using depth_induction with | step v ih => ?_
  intro hv
  cases v with
  | number x => exact ofJson_number hv
  | array items =>
    rw [isPlain_array_iff] at hv
    rw [normal_array, toJson, toJsonItems_eq, ofJson, ofJsonItems_eq, List.map_map]
    refine congrArg array (List.map_congr_left fun v h => ih v ?_ (hv v h))
    exact Nat.lt_succ_of_le (depth_le_depthItems h)
  | object ms =>
    rw [isPlain_object_iff] at hv
    have hkept : ms.filter (fun m => !m.2.isUndefined) = ms :=
      List.filter_eq_self.mpr fun m hm => by rw [isUndefined_of_isPlain (hv m hm)]; rfl
    rw [normal_object, toJson, toJsonMembers_eq, hkept, ofJson, ofJsonMembers_eq, List.map_map]
    refine congrArg object (List.map_congr_left fun m h => ?_)
    refine congrArg (Prod.mk m.1) (ih m.2 ?_ (hv m h))
    exact Nat.lt_succ_of_le (depth_le_depthMembers h)
  | null | bool | string => rfl
  | undefined | bigint | date => cases hv

end Value

/-! ## What is made of plain values -/

theorem Number.isFinite_normal {x : Number} (h : x.isNaN = false) :
    x.normal.isFinite = x.isFinite := by
  rw [normal, h, if_neg Bool.false_ne_true]
  split
  · next hzero => rw [isFinite, isFinite, ordinal_of_isZero hzero]; rfl
  · rfl

namespace Literal

/-- A literal that holds for a plain value, or for one that is missing, is plain. -/
theorem isPlain_toValue {c : Literal} {v : Value} (hc : c.holds v = true)
    (hv : v.isUndefined = true ∨ v.isPlain = true) : c.toValue.isPlain = true := by
  cases c with
  | number x =>
    cases v with
    | number y =>
      obtain ⟨hx, hy, hkey⟩ := Number.same_iff.mp hc
      have hfinite : y.isFinite = true := hv.resolve_left Bool.false_ne_true
      show x.isFinite = true
      rw [← Number.isFinite_normal hx, Number.normal_eq_of_key_eq hkey, Number.isFinite_normal hy,
        hfinite]
    | _ => cases hc
  | _ => rfl

end Literal

namespace Value

theorem isPlain_item {items : List Value} (h : (array items).isPlain = true) (i : Nat) :
    ((array items).item i).isUndefined = true ∨ ((array items).item i).isPlain = true := by
  show (items[i]?.getD undefined).isUndefined = true ∨ (items[i]?.getD undefined).isPlain = true
  cases hi : items[i]? with
  | none => exact .inl rfl
  | some v => exact .inr (isPlain_array_iff.mp h v (List.mem_of_getElem? hi))

theorem isPlain_get {v : Value} (h : v.isPlain = true) (key : String) :
    (v.get key).isUndefined = true ∨ (v.get key).isPlain = true := by
  cases v with
  | object ms =>
    show ((Entries.get? ms key).getD undefined).isUndefined = true ∨
      ((Entries.get? ms key).getD undefined).isPlain = true
    cases hm : Entries.get? ms key with
    | none => exact .inl rfl
    | some v => exact .inr (isPlain_object_iff.mp h _ (Entries.mem_of_get? hm))
  | _ => exact .inl rfl

end Value

namespace Graph

variable {g : Graph} {p : Policy}

/-- Of a value that is there a steady shape makes one that is there. -/
theorem Makes.isUndefined {s : Shape} {v w : Value} (h : g.Makes p s v w) :
    (∀ t, g.Reaches s t → g.Steady t) → w.isUndefined = true → v.isUndefined = true := by
  induction h with
  | same => exact fun _ hw => hw
  | missing => exact fun _ hw => hw
  | @literal c => cases c <;> exact fun _ hw => nomatch hw
  | @literals cs c => cases c <;> exact fun _ hw => nomatch hw
  | optional _ _ ih => exact fun hs => ih (Uses.inner.forall_reaches hs)
  | target ht _ ih => exact fun hs => ih ((Uses.target ht).forall_reaches hs)
  | allOf => exact fun _ hw => nomatch hw
  | anyOf => exact fun hs => (hs _ (Reaches.refl _)).elim
  | tagged => exact fun _ hw => nomatch hw
  | array => exact fun _ hw => nomatch hw
  | closed => exact fun _ hw => nomatch hw
  | opened => exact fun _ hw => nomatch hw
  | object => exact fun _ hw => nomatch hw

theorem Makes.isPlain_of_present {s : Shape} {v w : Value} (h : g.Makes p s v w)
    (hs : ∀ t, g.Reaches s t → g.Steady t) (hv : v.isPlain = true)
    (hw : w.isUndefined = true ∨ w.isPlain = true) : w.isPlain = true := by
  refine hw.resolve_left fun hw => ?_
  have hmissing := h.isUndefined hs hw
  rw [Value.isUndefined_of_isPlain hv] at hmissing
  cases hmissing

/-- What slots make of plain items is plain, also behind the end of the items. -/
theorem isPlain_slotItems {slots : List Shape} {items : List Value}
    (hs : ∀ e ∈ slots.zipIdx, ∀ t, g.Reaches e.1 t → g.Steady t)
    (hmakes : ∀ e ∈ slots.zipIdx, g.Makes p e.1 ((Value.array items).item e.2)
      (g.parsed p e.1 ((Value.array items).item e.2)))
    (hitems : (Value.array items).isPlain = true)
    (h : ∀ e ∈ slots.zipIdx, (g.parsed p e.1 ((Value.array items).item e.2)).isUndefined = true ∨
      (g.parsed p e.1 ((Value.array items).item e.2)).isPlain = true) :
    ∀ w ∈ Shape.slotItems (g.parsed p) slots items 0, w.isPlain = true := by
  intro w hw
  obtain ⟨e, he, hkept⟩ := List.mem_filterMap.mp hw
  dsimp only at hkept
  split at hkept
  · cases hkept
  · next hkeep =>
    cases hkept
    by_cases hlen : items.length ≤ e.2
    · refine (h e he).resolve_left fun hundefined => hkeep ?_
      rw [hundefined, Bool.and_true]
      exact decide_eq_true hlen
    · refine (hmakes e he).isPlain_of_present (hs e he) ?_ (h e he)
      have hitem : (Value.array items).item e.2 = items[e.2] := by
        show items[e.2]?.getD .undefined = _
        rw [List.getElem?_eq_getElem (Nat.lt_of_not_le hlen), Option.getD_some]
      rw [hitem]
      exact Value.isPlain_array_iff.mp hitems _ (List.getElem_mem _)

/-- **What a steady shape makes of a plain value is plain.** Where a value is missing, the result
is missing too, or plain. -/
theorem Makes.isPlain {s : Shape} {v w : Value} (h : g.Makes p s v w) :
    (∀ t, g.Reaches s t → g.Steady t) → v.isUndefined = true ∨ v.isPlain = true →
      w.isUndefined = true ∨ w.isPlain = true := by
  induction h with
  | same => exact fun _ hv => hv
  | missing => exact fun _ hv => hv
  | literal hc => exact fun _ hv => .inr (Literal.isPlain_toValue hc hv)
  | literals hc => exact fun _ hv => .inr (Literal.isPlain_toValue (Literal.holds_of_find? hc) hv)
  | optional _ _ ih => exact fun hs => ih (Uses.inner.forall_reaches hs)
  | target ht _ ih => exact fun hs => ih ((Uses.target ht).forall_reaches hs)
  | allOf => exact fun hs => (hs _ (Reaches.refl _)).elim
  | anyOf => exact fun hs => (hs _ (Reaches.refl _)).elim
  | @tagged members tag key t v w branches hform hkey hbranch hmakes ih =>
    intro hs hv
    have hs := (Uses.branch (Entries.mem_of_get? hbranch)).forall_reaches hs
    have hv : v.isPlain = true := by
      refine hv.resolve_left fun hmissing => ?_
      rw [Value.isUndefined_iff.mp hmissing] at hform
      cases hform
    have hw := hmakes.isPlain_of_present hs hv (ih hs (.inr hv))
    rw [Value.eq_object_of_form (hmakes.form_eq.trans hform), Value.isPlain_object_iff] at hw
    refine .inr (Value.isPlain_object_iff.mpr fun m hm => ?_)
    rcases Entries.mem_insert hm with rfl | hm
    · refine (Value.isPlain_get hv tag).resolve_left fun hmissing => ?_
      rw [Value.isUndefined_iff.mp hmissing] at hkey
      cases hkey
    · exact hw m hm
  | @array t items hmakes ih =>
    intro hs hv
    have hs := Uses.item.forall_reaches hs
    have hitems := Value.isPlain_array_iff.mp (hv.resolve_left Bool.false_ne_true)
    refine .inr (Value.isPlain_array_iff.mpr (List.forall_mem_map.mpr fun v hv => ?_))
    exact (hmakes v hv).isPlain_of_present hs (hitems v hv) (ih v hv hs (.inr (hitems v hv)))
  | @closed slots items hlen hmakes ih =>
    intro hs hv
    have hv := hv.resolve_left Bool.false_ne_true
    have hs := fun e (he : e ∈ slots.zipIdx) =>
      (Uses.slot (List.mem_of_getElem? (List.mem_zipIdx_iff_getElem?.mp he))).forall_reaches hs
    exact .inr (Value.isPlain_array_iff.mpr (isPlain_slotItems hs hmakes hv fun e he =>
      ih e he (hs e he) (Value.isPlain_item hv e.2)))
  | @opened slots t items hmakes hmakesrest ih ihrest =>
    intro hs hv
    have hv := hv.resolve_left Bool.false_ne_true
    have hrest := Uses.rest.forall_reaches hs
    have hs := fun e (he : e ∈ slots.zipIdx) =>
      (Uses.slot (List.mem_of_getElem? (List.mem_zipIdx_iff_getElem?.mp he))).forall_reaches hs
    have hitems := Value.isPlain_array_iff.mp hv
    refine .inr (Value.isPlain_array_iff.mpr fun w hw => ?_)
    rcases List.mem_append.mp hw with hw | hw
    · exact isPlain_slotItems hs hmakes hv
        (fun e he => ih e he (hs e he) (Value.isPlain_item hv e.2)) w hw
    · obtain ⟨u, hu, rfl⟩ := List.mem_map.mp hw
      have hplain := hitems u (List.mem_of_mem_drop hu)
      exact (hmakesrest u hu).isPlain_of_present hrest hplain (ihrest u hu hrest (.inr hplain))
  | @object properties signatures ms ha hmakes hothers ih ihothers =>
    intro hs hv
    have hv := hv.resolve_left Bool.false_ne_true
    refine .inr (Value.isPlain_object_iff.mpr fun m hm => ?_)
    rcases List.mem_append.mp hm with hm | hm
    · obtain ⟨e, he, hpresent, rfl⟩ := Shape.mem_declaredFields.mp hm
      refine (ih e he ((Uses.property he).forall_reaches hs)
        (Value.isPlain_get hv e.1)).resolve_left ?_
      rw [hpresent]
      exact Bool.false_ne_true
    · obtain ⟨m', hm', e, he, hadmits, rfl⟩ := mem_otherFields hm
      have hs := (Uses.member he).forall_reaches hs
      have hplain := Value.isPlain_object_iff.mp hv m' (Shape.mem_undeclared.mp hm').1
      exact (hothers m' hm' e he hadmits).isPlain_of_present hs hplain
        (ihothers m' hm' e he hadmits hs (.inr hplain))

end Graph

end ShapeGraph
