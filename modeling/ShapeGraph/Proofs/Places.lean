import ShapeGraph.Proofs.Making

/-!
# Which slot an item comes from

Parsing a tuple puts the result of every slot at the place of the slot, as long as the value has
an item there. Behind the end of the value the slots see `undefined`, and those that make nothing
of it are left out, so the results of slots behind them move up.

* `Shape.slotItems_eq_append` — slots with an item, then the results of missing slots that are
  not `undefined`
* `Value.item_filter_iff` — when leaving out `undefined` moves nothing
* `Guarded.tuple_places` — which items of a parsed tuple stand at the place of their slot
-/

namespace ShapeGraph

namespace Value

/-! ## Leaving out what is undefined -/

theorem item_nil (i : Nat) : (array []).item i = .undefined := rfl

/-- What is left is nowhere `undefined`, except behind its end. -/
theorem length_le_of_item_filter {vs : List Value} {i : Nat}
    (h : (array (vs.filter (!·.isUndefined))).item i = .undefined) :
    (vs.filter (!·.isUndefined)).length ≤ i := by
  by_contra hlt
  have hi : i < (vs.filter (!·.isUndefined)).length := by omega
  rw [item, List.getElem?_eq_getElem hi, Option.getD_some] at h
  have hmem := (List.mem_filter.mp (List.getElem_mem hi)).2
  rw [h] at hmem
  cases hmem

/-- Leaving out what is `undefined` moves nothing exactly if only `undefined` stands behind
`undefined`. -/
theorem item_filter_iff (vs : List Value) :
    (∀ i, (array (vs.filter (!·.isUndefined))).item i = (array vs).item i) ↔
      ∀ i j, i < j → (array vs).item i = .undefined → (array vs).item j = .undefined := by
  constructor
  · intro h i j hij hi
    rw [← h i] at hi
    have hlen := length_le_of_item_filter hi
    rw [← h j, item_of_length_le (by omega)]
  · intro h
    induction vs with
    | nil => exact fun i => rfl
    | cons v vs ih =>
      have htail := ih fun i j hij hi => h (i + 1) (j + 1) (by omega) hi
      by_cases hv : v = .undefined
      · subst hv
        have hall : ∀ i, (array vs).item i = .undefined := fun i => h 0 (i + 1) (by omega) rfl
        -- so nothing of the tail is left
        have hnil : vs.filter (!·.isUndefined) = [] := by
          have hlen := length_le_of_item_filter ((htail 0).trans (hall 0))
          exact List.eq_nil_of_length_eq_zero (by omega)
        intro i
        rw [List.filter_cons, show isUndefined .undefined = true from rfl]
        simp only [Bool.not_true, Bool.false_eq_true, if_false, hnil, item_nil]
        cases i with
        | zero => rfl
        | succ i => exact (hall i).symm
      · have hkeep : v.isUndefined = false := Bool.eq_false_iff.mpr fun hu =>
          hv (isUndefined_iff.mp hu)
        intro i
        rw [List.filter_cons, hkeep]
        simp only [Bool.not_false, if_true]
        cases i with
        | zero => rfl
        | succ i => exact htail i

end Value

namespace Shape

variable {res : Shape → Value → Value}

/-- What slots make of `undefined`, from the first one behind the end of `n` items on. -/
def missingItems (res : Shape → Value → Value) (slots : List Shape) (n : Nat) : List Value :=
  (slots.drop n).map fun s => res s .undefined

/-- The items of slots: first those with an item, then what is left of the others. -/
theorem slotItems_eq_append (slots : List Shape) (items : List Value) (first : Nat) :
    slotItems res slots items first = List.zipWith res slots (items.drop first) ++
      (missingItems res slots (items.length - first)).filter (!·.isUndefined) := by
  induction slots generalizing first with
  | nil => simp [slotItems, missingItems]
  | cons s slots ih =>
    have hrest := ih (first + 1)
    rw [slotItems] at hrest
    rw [slotItems, List.zipIdx_cons, List.filterMap_cons, hrest]
    rcases Nat.lt_or_ge first items.length with hlt | hge
    · have hfront : ¬ items.length ≤ first := Nat.not_le.mpr hlt
      have hitem : (Value.array items).item first = items[first] := by
        rw [Value.item, List.getElem?_eq_getElem hlt, Option.getD_some]
      have hsub : items.length - first = items.length - (first + 1) + 1 := by omega
      simp only [hfront, decide_false, Bool.false_and, Bool.false_eq_true, if_false, hitem,
        List.drop_eq_getElem_cons hlt, List.zipWith_cons_cons, List.cons_append, hsub,
        missingItems, List.drop_succ_cons]
    · -- no slot from here on has an item
      have hitems : items.drop first = [] := List.drop_eq_nil_of_le hge
      have hitems' : items.drop (first + 1) = [] := List.drop_eq_nil_of_le (by omega)
      have hsub : items.length - first = 0 := by omega
      have hsub' : items.length - (first + 1) = 0 := by omega
      simp only [hge, decide_true, Bool.true_and, Value.item_of_length_le hge, hitems, hitems',
        List.zipWith_nil_right, List.nil_append, hsub, hsub', missingItems, List.drop_zero,
        List.map_cons, List.filter_cons]
      cases (res s .undefined).isUndefined <;> rfl

section

variable {slots : List Shape} {items : List Value}

/-- A slot with an item finds its result at its place, whatever follows the items of slots. -/
theorem item_of_lt {i : Nat} {s : Shape} (hs : slots[i]? = some s) (hi : i < items.length)
    (more : List Value) :
    (Value.array (slotItems res slots items 0 ++ more)).item i =
      res s ((Value.array items).item i) := by
  obtain ⟨hlt, rfl⟩ := List.getElem?_eq_some_iff.mp hs
  have hlen : i < (List.zipWith res slots items).length := by
    rw [List.length_zipWith]
    omega
  rw [slotItems_eq_append, List.drop_zero, List.append_assoc, Value.item, Value.item,
    List.getElem?_append_left hlen, List.getElem?_eq_getElem hlen, List.getElem_zipWith,
    List.getElem?_eq_getElem hi, Option.getD_some, Option.getD_some]

/-- Behind the end of the value stands what is left of the results of the missing slots. -/
theorem item_of_ge {i : Nat} (hlen : items.length ≤ slots.length) (hi : items.length ≤ i) :
    (Value.array (slotItems res slots items 0)).item i =
      (Value.array ((missingItems res slots items.length).filter (!·.isUndefined))).item
        (i - items.length) := by
  have hfront : (List.zipWith res slots items).length = items.length := by
    rw [List.length_zipWith, Nat.min_eq_right hlen]
  rw [slotItems_eq_append, List.drop_zero, Nat.sub_zero, Value.item, Value.item,
    List.getElem?_append_right (by omega), hfront]

/-- Items behind those of all slots stand at the places where the value has them. -/
theorem item_of_rest {f : Value → Value} {i : Nat} (hi : slots.length ≤ i)
    (hlt : i < items.length) :
    (Value.array (slotItems res slots items 0 ++ (items.drop slots.length).map f)).item i =
      f ((Value.array items).item i) := by
  have hge := length_slotItems_le res slots items 0
  have hle := le_length_slotItems res slots items 0
  have hfull : (slotItems res slots items 0).length = slots.length := by omega
  rw [Value.item, Value.item, List.getElem?_append_right (by omega), hfull, List.getElem?_map,
    List.getElem?_drop, Nat.add_sub_cancel' hi, List.getElem?_eq_getElem hlt, Option.map_some,
    Option.getD_some, Option.getD_some]

variable (res) in
theorem item_missingItems {n i : Nat} {s : Shape} (hs : slots[i]? = some s) (hi : n ≤ i) :
    (Value.array (missingItems res slots n)).item (i - n) = res s .undefined := by
  rw [Value.item, missingItems, List.getElem?_map, List.getElem?_drop, Nat.add_sub_cancel' hi, hs]
  rfl

theorem item_missingItems_of_none {n i : Nat} (hi : slots[n + i]? = none) :
    (Value.array (missingItems res slots n)).item i = .undefined := by
  rw [Value.item, missingItems, List.getElem?_map, List.getElem?_drop, hi]
  rfl

/-- All slots find their results at their places exactly if nothing is left out in front of
something. -/
theorem item_eq_iff {more : List Value} (hmore : items.length ≤ slots.length → more = []) :
    (∀ i s, slots[i]? = some s →
      (Value.array (slotItems res slots items 0 ++ more)).item i =
        res s ((Value.array items).item i)) ↔
      ∀ i j, i < j → (Value.array (missingItems res slots items.length)).item i = .undefined →
        (Value.array (missingItems res slots items.length)).item j = .undefined := by
  have hbehind : ∀ i s, items.length ≤ i → slots[i]? = some s →
      (Value.array (slotItems res slots items 0 ++ more)).item i =
        (Value.array ((missingItems res slots items.length).filter (!·.isUndefined))).item
          (i - items.length) := by
    intro i s hi hs
    have hlt := (List.getElem?_eq_some_iff.mp hs).1
    rw [hmore (by omega), List.append_nil, item_of_ge (by omega) hi]
  rw [← Value.item_filter_iff]
  constructor
  · intro hall i
    cases hs : slots[items.length + i]? with
    | none =>
      have hend := List.getElem?_eq_none_iff.mp hs
      have hle := List.length_filter_le (!·.isUndefined) (missingItems res slots items.length)
      rw [missingItems, List.length_map, List.length_drop] at hle
      rw [item_missingItems_of_none hs, Value.item_of_length_le]
      exact Nat.le_trans hle (by omega)
    | some s =>
      have hi := Nat.le_add_right items.length i
      have hplace := hall _ s hs
      rw [hbehind _ s hi hs, Value.item_of_length_le hi] at hplace
      have hitem := item_missingItems res hs hi
      rw [Nat.add_sub_cancel_left] at hplace hitem
      rw [hitem, hplace]
  · intro hall i s hs
    rcases Nat.lt_or_ge i items.length with hi | hi
    · exact item_of_lt hs hi more
    · rw [hbehind i s hi hs, hall, item_missingItems res hs hi, Value.item_of_length_le hi]

end

end Shape

namespace Graph

variable {g : Graph} {p : Policy}

/-- No slot that makes something of `undefined` stands behind one that makes nothing of it, from
place `n` on. -/
def NoGap (g : Graph) (p : Policy) (slots : List Shape) (n : Nat) : Prop :=
  ∀ i j s t, n ≤ i → i < j → slots[i]? = some s → slots[j]? = some t →
    g.parse p s .undefined = .ok .undefined → g.parse p t .undefined = .ok .undefined

/-- What slots make of `undefined` has a gap exactly if some result is `undefined` and a later one
is not. -/
theorem noGap_iff {slots : List Shape} {n : Nat}
    (h : ∀ i s, n ≤ i → slots[i]? = some s →
      g.parse p s .undefined = .ok (g.parsed p s .undefined)) :
    g.NoGap p slots n ↔ ∀ i j, i < j →
      (Value.array (Shape.missingItems (g.parsed p) slots n)).item i = .undefined →
        (Value.array (Shape.missingItems (g.parsed p) slots n)).item j = .undefined := by
  constructor
  · intro hgap i j hij hi
    cases ht : slots[n + j]? with
    | none => exact Shape.item_missingItems_of_none ht
    | some t =>
      obtain ⟨s, hs⟩ : ∃ s, slots[n + i]? = some s := by
        have hlt := (List.getElem?_eq_some_iff.mp ht).1
        exact ⟨_, List.getElem?_eq_getElem (by omega)⟩
      have hsi := Shape.item_missingItems (g.parsed p) hs (Nat.le_add_right n i)
      have htj := Shape.item_missingItems (g.parsed p) ht (Nat.le_add_right n j)
      rw [Nat.add_sub_cancel_left] at hsi htj
      have hskip := h _ s (Nat.le_add_right n i) hs
      rw [← hsi, hi] at hskip
      have hmake := hgap _ _ s t (Nat.le_add_right n i) (by omega) hs ht hskip
      rw [h _ t (Nat.le_add_right n j) ht, ← htj] at hmake
      exact Except.ok.inj hmake
  · intro hitems i j s t hi hij hs ht hskip
    have hsi := Shape.item_missingItems (g.parsed p) hs hi
    have htj := Shape.item_missingItems (g.parsed p) ht (Nat.le_trans hi (Nat.le_of_lt hij))
    rw [h i s hi hs] at hskip
    rw [h j t (by omega) ht, ← htj,
      hitems (i - n) (j - n) (by omega) (hsi.trans (Except.ok.inj hskip))]

/-- The slots of an accepted tuple accept the items at their places. -/
theorem Guarded.accepts_slot (hg : g.Guarded) {slots : List Shape} {rest : Option Shape}
    {items : List Value} (ha : g.accepts p (.tuple slots rest) (.array items) = true) {i : Nat}
    {s : Shape} (hs : slots[i]? = some s) :
    g.accepts p s ((Value.array items).item i) = true := by
  have hmem : (s, i) ∈ slots.zipIdx := List.mem_zipIdx_iff_getElem?.mpr hs
  cases rest with
  | none =>
    rw [hg.accepts_tuple_closed, Bool.and_eq_true, List.all_eq_true] at ha
    exact ha.1 (s, i) hmem
  | some t =>
    rw [hg.accepts_tuple_open, Bool.and_eq_true, List.all_eq_true] at ha
    exact ha.1 (s, i) hmem

/-- A tuple is made of the items of its slots and of the items behind them. -/
theorem Guarded.parsed_tuple (hg : g.Guarded) {slots : List Shape} {rest : Option Shape}
    {items : List Value} (ha : g.accepts p (.tuple slots rest) (.array items) = true) :
    ∃ more, g.parsed p (.tuple slots rest) (.array items) =
        .array (Shape.slotItems (g.parsed p) slots items 0 ++ more) ∧
      (items.length ≤ slots.length → more = []) ∧
      ∀ t, rest = some t → more = (items.drop slots.length).map fun v => g.parsed p t v := by
  cases rest with
  | none =>
    refine ⟨[], ?_, fun _ => rfl, fun t ht => by cases ht⟩
    rw [List.append_nil, hg.parsed_tuple_closed ha]
  | some t =>
    refine ⟨_, hg.parsed_tuple_open ha, fun hlen => ?_, fun u hu => by cases hu; rfl⟩
    rw [List.drop_eq_nil_of_le hlen, List.map_nil]

/-- **Parsing a tuple puts results at the places of their slots, unless it closes a gap.** Every
slot with an item and every item behind the slots has its result at its own place. All slots do
exactly if, behind the end of the value, no slot that makes something of `undefined` stands behind
one that makes nothing of it. -/
theorem Guarded.tuple_places (hg : g.Guarded) {slots : List Shape} {rest : Option Shape}
    {v : Value} (ha : g.accepts p (.tuple slots rest) v = true) :
    ∃ items made, v = .array items ∧ g.parse p (.tuple slots rest) v = .ok (.array made) ∧
      (∀ i s, slots[i]? = some s → i < items.length →
        g.parse p s (v.item i) = .ok ((Value.array made).item i)) ∧
      (∀ t, rest = some t → ∀ i, slots.length ≤ i → i < items.length →
        g.parse p t (v.item i) = .ok ((Value.array made).item i)) ∧
      ((∀ i s, slots[i]? = some s → g.parse p s (v.item i) = .ok ((Value.array made).item i)) ↔
        g.NoGap p slots items.length) := by
  obtain ⟨items, rfl⟩ : ∃ items, v = .array items := by
    cases v with
    | array items => exact ⟨items, rfl⟩
    | _ => cases rest <;> cases ha
  obtain ⟨more, hmade, hmore, hrest⟩ := hg.parsed_tuple ha
  have hslot : ∀ i s, slots[i]? = some s → g.parse p s ((Value.array items).item i) =
      .ok (g.parsed p s ((Value.array items).item i)) :=
    fun i s hs => hg.parse_eq (hg.accepts_slot ha hs)
  refine ⟨items, _, rfl, by rw [hg.parse_eq ha, hmade], ?_, ?_, ?_⟩
  · intro i s hs hi
    rw [hslot i s hs, Shape.item_of_lt hs hi]
  · rintro t rfl i hi hlt
    have hacc : g.accepts p t ((Value.array items).item i) = true := by
      rw [hg.accepts_tuple_open, Bool.and_eq_true, List.all_eq_true, List.all_eq_true] at ha
      rw [Value.item, List.getElem?_eq_getElem hlt, Option.getD_some]
      exact ha.2 _ (List.mem_drop_iff_getElem.mpr ⟨i - slots.length, by omega, by congr; omega⟩)
    rw [hrest t rfl, Shape.item_of_rest hi hlt, hg.parse_eq hacc]
  · -- the places behind the end of the value decide
    have hmissing : ∀ i s, items.length ≤ i → slots[i]? = some s →
        g.parse p s .undefined = .ok (g.parsed p s .undefined) := by
      intro i s hi hs
      have hparse := hslot i s hs
      rwa [Value.item_of_length_le hi] at hparse
    rw [noGap_iff hmissing, ← Shape.item_eq_iff hmore]
    refine forall_congr' fun i => forall_congr' fun s => forall_congr' fun hs => ?_
    rw [hslot i s hs, Except.ok.injEq, eq_comm]

/-- A slot for anything, if it is there, and one that is null when it is missing. -/
def looseNote : Shape := .tuple [.optional .any, .literal .null] none

/-- The null of the second slot is the first item when both are missing. -/
theorem parse_looseNote_moves :
    trees.Guarded ∧ trees.accepts {} looseNote (.array []) = true ∧
      trees.parse {} looseNote (.array []) = .ok (.array [.null]) ∧
      trees.parse {} (.optional .any) ((Value.array []).item 0) = .ok .undefined ∧
      (Value.array [.null]).item 0 ≠ .undefined :=
  ⟨trees_guarded, by decide +kernel, by rfl, by rfl, fun h => by cases h⟩

theorem tuple_places_looseNote :
    trees.accepts {} looseNote (.array [.bool true]) = true ∧
      ∃ items made, Value.array [.bool true] = .array items ∧
        trees.parse {} looseNote (.array [.bool true]) = .ok (.array made) ∧
        trees.parse {} (.optional .any) (.bool true) = .ok ((Value.array made).item 0) := by
  have ha : trees.accepts {} looseNote (.array [.bool true]) = true := by decide +kernel
  obtain ⟨items, made, hv, hparse, hslots, -, -⟩ := trees_guarded.tuple_places ha
  refine ⟨ha, items, made, hv, hparse, hslots 0 _ rfl ?_⟩
  cases hv
  decide

end Graph

end ShapeGraph
