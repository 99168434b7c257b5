import ShapeGraph.Proofs.Parsing
import ShapeGraph.Proofs.Tidy

/-!
# Where results stand

What a shape makes of a value is put together from the results of its parts. These lemmas say of
every item and of every member of the whole from which part it comes, and carry a relation between
results and what they were made of over to the places of the whole.

* `Shape.slotItems_cases` — where the items of a parsed tuple come from
* `Shape.places_slotItems` — where missing slots make nothing, all items stand at their places
* `Shape.related_items`, `related_slotItems`, `related_slotItems_append` — a relation carries over
  from the parts to the items
* `Shape.mem_declaredFields`, `Shape.mem_joinedFields`, `Graph.mem_otherFields` — where the
  members of a parsed object come from
-/

namespace ShapeGraph

/-- Behind the end of the items nothing is there. -/
theorem Value.item_of_length_le {items : List Value} {i : Nat} (h : items.length ≤ i) :
    (Value.array items).item i = .undefined := by
  rw [Value.item, List.getElem?_eq_none h]
  rfl

theorem Value.isUndefined_iff {v : Value} : v.isUndefined = true ↔ v = .undefined := by
  cases v <;> simp [isUndefined]

namespace Shape

variable {res : Shape → Value → Value}

/-! ## The items of a parsed tuple -/

/-- The result of a slot stands at the index of the slot. Behind the end of the items indices can
move up, but there every slot has seen `undefined`. -/
theorem slotItems_cases {slots : List Shape} {items : List Value} {first j : Nat} {w : Value}
    (h : (slotItems res slots items first)[j]? = some w) :
    ∃ e ∈ slots.zipIdx first, w = res e.1 ((Value.array items).item e.2) ∧
      (e.2 = first + j ∨ items.length ≤ first + j ∧ items.length ≤ e.2) := by
  induction slots generalizing first j with
  | nil => cases h
  | cons s slots ih =>
    rw [slotItems, List.zipIdx_cons, List.filterMap_cons] at h
    split at h
    · -- the slot makes no item, so the items are at their end
      next hskip =>
      obtain ⟨hlen, -⟩ : items.length ≤ first ∧ _ := by
        simpa using hskip
      obtain ⟨e, he, hw, hplace⟩ := ih h
      have hle := List.le_snd_of_mem_zipIdx he
      refine ⟨e, ?_, hw, .inr ⟨by omega, by omega⟩⟩
      rw [List.zipIdx_cons]
      exact List.mem_cons_of_mem _ he
    · next u hkeep =>
      have hu : u = res s ((Value.array items).item first) := by
        simp only at hkeep
        split at hkeep
        · cases hkeep
        · exact (Option.some.inj hkeep).symm
      rw [List.zipIdx_cons]
      cases j with
      | zero =>
        rw [List.getElem?_cons_zero, Option.some.injEq] at h
        exact ⟨(s, first), List.mem_cons_self, by rw [← h, hu], .inl rfl⟩
      | succ j =>
        rw [List.getElem?_cons_succ] at h
        obtain ⟨e, he, hw, hplace⟩ := ih h
        exact ⟨e, List.mem_cons_of_mem _ he, hw, by omega⟩

/-- What holds of all results of slots holds of the items. -/
theorem forall_mem_slotItems {P : Value → Prop} {slots : List Shape} {items : List Value}
    {first : Nat} (h : ∀ e ∈ slots.zipIdx first, P (res e.1 ((Value.array items).item e.2))) :
    ∀ w ∈ slotItems res slots items first, P w := by
  intro w hw
  obtain ⟨j, hj⟩ := List.getElem?_of_mem hw
  obtain ⟨e, he, rfl, -⟩ := slotItems_cases hj
  exact h e he

/-- A slot with an item makes an item. -/
theorem le_length_slotItems (res : Shape → Value → Value) (slots : List Shape)
    (items : List Value) (first : Nat) :
    min slots.length (items.length - first) ≤ (slotItems res slots items first).length := by
  induction slots generalizing first with
  | nil => simp
  | cons s slots ih =>
    have hrest := ih (first + 1)
    rw [slotItems] at hrest
    rw [slotItems, List.zipIdx_cons, List.filterMap_cons, List.length_cons]
    split
    · next hskip =>
      obtain ⟨hlen, -⟩ : items.length ≤ first ∧ _ := by
        simpa using hskip
      omega
    · rw [List.length_cons]
      omega

theorem length_slotItems_le (res : Shape → Value → Value) (slots : List Shape)
    (items : List Value) (first : Nat) :
    (slotItems res slots items first).length ≤ slots.length := by
  refine Nat.le_trans (List.length_filterMap_le _ _) ?_
  rw [List.length_zipIdx]

/-! ## Slots that make nothing of what is missing -/

/-- Where missing slots make nothing, the slots with an item are left. -/
theorem slotItems_eq_map_take {slots : List Shape} {items : List Value} {first : Nat}
    (h : ∀ e ∈ slots.zipIdx first, items.length ≤ e.2 →
      res e.1 ((Value.array items).item e.2) = .undefined) :
    slotItems res slots items first = ((slots.zipIdx first).take (items.length - first)).map
      fun e => res e.1 ((Value.array items).item e.2) := by
  induction slots generalizing first with
  | nil => simp [slotItems]
  | cons s slots ih =>
    rw [List.zipIdx_cons] at h
    obtain ⟨hs, hslots⟩ := List.forall_mem_cons.mp h
    have hrest := ih hslots
    rw [slotItems] at hrest
    rw [slotItems, List.zipIdx_cons, List.filterMap_cons, hrest]
    rcases Nat.lt_or_ge first items.length with hlt | hge
    · obtain ⟨n, hn⟩ : ∃ n, items.length - first = n + 1 := ⟨items.length - (first + 1), by omega⟩
      have hn' : items.length - (first + 1) = n := by omega
      simp only [hn, hn', List.take_succ_cons, List.map_cons, Nat.not_le.mpr hlt, decide_false,
        Bool.false_and, Bool.false_eq_true, if_false]
    · have hn : items.length - first = 0 := by omega
      have hn' : items.length - (first + 1) = 0 := by omega
      simp [hn, hn', hs hge, hge, Value.isUndefined]

section

variable {slots : List Shape} {items : List Value} (h : ∀ e ∈ slots.zipIdx, items.length ≤ e.2 →
  res e.1 ((Value.array items).item e.2) = .undefined)
include h

theorem length_slotItems :
    (slotItems res slots items 0).length = min items.length slots.length := by
  rw [slotItems_eq_map_take h, List.length_map, List.length_take, List.length_zipIdx, Nat.sub_zero]

/-- Every slot finds its result at its place. -/
theorem item_slotItems {e : Shape × Nat} (he : e ∈ slots.zipIdx) :
    (Value.array (slotItems res slots items 0)).item e.2 =
      res e.1 ((Value.array items).item e.2) := by
  have hslot : slots[e.2]? = some e.1 := List.mem_zipIdx_iff_getElem?.mp he
  rcases Nat.lt_or_ge e.2 items.length with hlt | hge
  · rw [Value.item, slotItems_eq_map_take h, Nat.sub_zero, List.getElem?_map,
      List.getElem?_take_of_lt hlt, List.getElem?_zipIdx, hslot]
    simp
  · have hlen := length_slotItems h
    rw [h e he hge, Value.item_of_length_le (by omega)]

/-- The items of slots and the items behind them stand at their places. -/
theorem places_slotItems (f : Value → Value) :
    let made := slotItems res slots items 0 ++ (items.drop slots.length).map f
    made.length = items.length ∧ made.drop slots.length = (items.drop slots.length).map f ∧
      ∀ e ∈ slots.zipIdx, (Value.array made).item e.2 = res e.1 ((Value.array items).item e.2) := by
  intro made
  have hlen := length_slotItems h
  have hmade : made.length = items.length := by
    rw [List.length_append, List.length_map, List.length_drop, hlen]
    omega
  refine ⟨hmade, ?_, fun e he => ?_⟩
  · rcases Nat.le_total items.length slots.length with hle | hle
    · rw [List.drop_eq_nil_of_le (by omega), List.drop_eq_nil_of_le hle]
      rfl
    · have hfront : (slotItems res slots items 0).length = slots.length := by omega
      rw [← hfront, List.drop_left, hfront]
  · have hlt : e.2 < slots.length :=
      (List.getElem?_eq_some_iff.mp (List.mem_zipIdx_iff_getElem?.mp he)).1
    rcases Nat.lt_or_ge e.2 items.length with hi | hi
    · rw [← item_slotItems h he, Value.item, Value.item, List.getElem?_append_left (by omega)]
    · rw [h e he hi, Value.item_of_length_le (by omega)]

end

/-- Slots make the same of two arrays when they make the same item by item. -/
theorem slotItems_congr {res' : Shape → Value → Value} {slots : List Shape}
    {items made : List Value} (hlen : made.length = items.length) (h : ∀ e ∈ slots.zipIdx,
      res' e.1 ((Value.array made).item e.2) = res e.1 ((Value.array items).item e.2)) :
    slotItems res' slots made 0 = slotItems res slots items 0 := by
  refine List.filterMap_congr fun e he => ?_
  simp only [h e he, hlen]

/-! ## Relations item by item -/

section

variable {R : Value → Value → Prop} {items : List Value}

/-- What every result has to its item, the items have to each other. -/
theorem related_items (hR : R .undefined .undefined) {f : Value → Value}
    (h : ∀ v ∈ items, R (f v) v) (i : Nat) :
    R ((Value.array (items.map f)).item i) ((Value.array items).item i) := by
  simp only [Value.item, List.getElem?_map]
  cases hi : items[i]? with
  | none => exact hR
  | some w => exact h w (List.mem_of_getElem? hi)

variable {slots : List Shape}

/-- An item that a slot has made. -/
theorem related_of_getElem? {i : Nat} {w : Value}
    (h : ∀ e ∈ slots.zipIdx, R (res e.1 ((Value.array items).item e.2))
      ((Value.array items).item e.2))
    (hi : (slotItems res slots items 0)[i]? = some w) : R w ((Value.array items).item i) := by
  obtain ⟨e, he, rfl, hplace⟩ := slotItems_cases hi
  have hrel := h e he
  rcases hplace with hplace | ⟨hi, hplace⟩
  · rwa [hplace, Nat.zero_add] at hrel ⊢
  · rw [Value.item_of_length_le hplace] at hrel ⊢
    rwa [Value.item_of_length_le (by omega)]

theorem related_slotItems (hR : R .undefined .undefined)
    (h : ∀ e ∈ slots.zipIdx, R (res e.1 ((Value.array items).item e.2))
      ((Value.array items).item e.2))
    (hlen : items.length ≤ slots.length) (i : Nat) :
    R ((Value.array (slotItems res slots items 0)).item i) ((Value.array items).item i) := by
  have hle := le_length_slotItems res slots items 0
  cases hi : (slotItems res slots items 0)[i]? with
  | some w =>
    rw [Value.item, hi]
    exact related_of_getElem? h hi
  | none =>
    have hlt := List.getElem?_eq_none_iff.mp hi
    rw [Value.item_of_length_le hlt, Value.item_of_length_le (by omega)]
    exact hR

theorem related_slotItems_append (hR : R .undefined .undefined)
    (h : ∀ e ∈ slots.zipIdx, R (res e.1 ((Value.array items).item e.2))
      ((Value.array items).item e.2))
    {f : Value → Value} (hrest : ∀ v ∈ items.drop slots.length, R (f v) v) (i : Nat) :
    R ((Value.array (slotItems res slots items 0 ++ (items.drop slots.length).map f)).item i)
      ((Value.array items).item i) := by
  have hle := le_length_slotItems res slots items 0
  have hge := length_slotItems_le res slots items 0
  rcases Nat.lt_or_ge i (slotItems res slots items 0).length with hlt | hi
  · rw [Value.item, List.getElem?_append_left hlt, List.getElem?_eq_getElem hlt]
    exact related_of_getElem? h (List.getElem?_eq_getElem hlt)
  · rw [Value.item, List.getElem?_append_right hi, List.getElem?_map, List.getElem?_drop]
    rcases Nat.le_total items.length slots.length with hlen | hlen
    · -- every item is in a slot
      rw [List.getElem?_eq_none (by omega), Value.item_of_length_le (by omega)]
      exact hR
    · -- every slot has an item, so the other items follow at their own indices
      have hfull : (slotItems res slots items 0).length = slots.length := by omega
      obtain ⟨k, rfl⟩ : ∃ k, i = slots.length + k := ⟨i - slots.length, by omega⟩
      rw [hfull, Nat.add_sub_cancel_left, Value.item]
      cases hw : items[slots.length + k]? with
      | none => exact hR
      | some w =>
        refine hrest w (List.mem_of_getElem? (i := k) ?_)
        rw [List.getElem?_drop, hw]

end

/-! ## The members of a parsed object -/

/-- A declared property with a result makes a member. -/
theorem mem_declaredFields {properties : Entries Shape} {v : Value} {m : String × Value} :
    m ∈ declaredFields res properties v ↔
      ∃ e ∈ properties, (res e.2 (v.get e.1)).isUndefined = false ∧
        m = (e.1, res e.2 (v.get e.1)) := by
  simp only [declaredFields, List.mem_filterMap]
  refine exists_congr fun e => and_congr_right fun _ => ?_
  cases (res e.2 (v.get e.1)).isUndefined with
  | true => simp
  | false => simp [eq_comm]

theorem declaredFields_congr {res' : Shape → Value → Value} {properties : Entries Shape}
    {v w : Value} (h : ∀ e ∈ properties, res' e.2 (v.get e.1) = res e.2 (w.get e.1)) :
    declaredFields res' properties v = declaredFields res properties w := by
  refine List.filterMap_congr fun e he => ?_
  simp only [h e he]

theorem mem_undeclared {properties : Entries Shape} {ms : List (String × Value)}
    {m : String × Value} : m ∈ undeclared properties ms ↔ m ∈ ms ∧ m.1 ∉ properties.keys := by
  rw [undeclared, List.mem_filter, Bool.not_eq_true', Bool.eq_false_iff, ne_eq, Entries.has_iff]

/-- The members of an intersection's result come from the results of its members. -/
theorem mem_joinedFields {members : List Shape} {before : Entries Value} {v : Value}
    {m : String × Value} (h : m ∈ joinedFields res members before v) :
    m ∈ before ∨ ∃ s ∈ members, m ∈ (res s v).fields := by
  induction members generalizing before with
  | nil => exact .inl h
  | cons s members ih =>
    rcases ih h with h | ⟨t, ht, h⟩
    · exact (Entries.mem_insertAll h).imp_right fun h => ⟨s, List.mem_cons_self, h⟩
    · exact .inr ⟨t, List.mem_cons_of_mem _ ht, h⟩

/-- No key is lost when the members of an intersection are joined. -/
theorem mem_keys_joinedFields {members : List Shape} {before : Entries Value} {v : Value}
    {key : String} : key ∈ (joinedFields res members before v).keys ↔
      key ∈ before.keys ∨ ∃ s ∈ members, key ∈ (res s v).fields.keys := by
  induction members generalizing before with
  | nil => simp [joinedFields]
  | cons s members ih =>
    have hstep : joinedFields res (s :: members) before v =
        joinedFields res members (before.insertAll (res s v).fields) v := rfl
    rw [hstep, ih, Entries.mem_keys_insertAll, or_assoc, List.exists_mem_cons_iff]

end Shape

namespace Graph

variable {g : Graph} {p : Policy}

/-- A member that is not declared comes from the value, by a signature that admits it. -/
theorem mem_otherFields {properties : Entries Shape} {signatures : List (Shape × Shape)}
    {ms : List (String × Value)} {m : String × Value}
    (h : m ∈ g.otherFields p properties signatures ms) :
    ∃ m' ∈ Shape.undeclared properties ms, ∃ e ∈ signatures, g.admits p m' e = true ∧
      m = (m'.1, g.parsed p e.2 m'.2) := by
  obtain ⟨m', hm', hm⟩ := List.mem_filterMap.mp h
  obtain ⟨e, he, rfl⟩ := Option.map_eq_some_iff.mp hm
  exact ⟨m', hm', e, List.mem_of_find?_eq_some he, List.find?_some he, rfl⟩

theorem accepts_of_admits {m : String × Value} {e : Shape × Shape}
    (h : g.admits p m e = true) : g.accepts p e.2 m.2 = true := by
  rw [admits, Bool.and_eq_true] at h
  exact h.2

end Graph

end ShapeGraph
