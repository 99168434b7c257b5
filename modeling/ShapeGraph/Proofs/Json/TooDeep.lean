import ShapeGraph.Proofs.Json.Reading

/-!
# Texts that nest too deep

A reader that may open only so many brackets at once refuses the text of every deeper tree, also
when it comes to the bracket that is one too many behind items and members that it could read.

* `Refuses` — a reader refuses a text because it nests too deep
* `list_refuses`, `object_refuses` — the two loops
* `refuses_value` — trees that are deeper than brackets may be open
-/

namespace ShapeGraph.Json

variable {α σ : Type}

/-- A reading that is given up because the text nests too deep. -/
def IsTooDeep {β : Type} (r : Except Problem β) : Prop :=
  ∃ p, r = .error p ∧ p.reason = .fault .tooDeep

/-- A reader refuses a text because it nests too deep. -/
def Refuses (read : Text → Except Problem (α × Text)) (w : String) : Prop :=
  ∀ rest, Follows rest → IsTooDeep (read (Utf8.ofString w ++ rest))

section

variable {β γ : Type} {r : Except Problem β}

theorem IsTooDeep.bind (h : IsTooDeep r) (f : β → Except Problem γ) : IsTooDeep (r >>= f) := by
  obtain ⟨p, rfl, hp⟩ := h
  exact ⟨p, rfl, hp⟩

theorem IsTooDeep.map (h : IsTooDeep r) (f : β → γ) : IsTooDeep (r.map f) := by
  obtain ⟨p, rfl, hp⟩ := h
  exact ⟨p, rfl, hp⟩

/-- A step in front of a problem keeps its reason. -/
theorem IsTooDeep.located (h : IsTooDeep r) (step : Step) : IsTooDeep (Json.located step r) := by
  obtain ⟨p, rfl, hp⟩ := h
  exact ⟨p.under step, rfl, hp⟩

end

/-! ## The two loops -/

/-- A list with an item that nests too deep, behind items that do not. -/
theorem list_refuses {item : Text → Except Problem (α × Text)} {us vs : List String} {w : String}
    {as : List α} (h : List.Forall₂ (fun w a => Opens w ∧ Takes item w a) us as) (hw : Opens w)
    (hrefuses : Refuses item w) (rest : Text) :
    IsTooDeep
      (list item (Utf8.ofString (",".intercalate (us ++ w :: vs)) ++ some ']' :: rest)) := by
  have hends := follows_flatMap vs Utf8.ofString (Follows.bracket rest)
  have hitem : ∀ fuel i, IsTooDeep (itemThen item fuel i (Utf8.ofString w ++
      ((vs.flatMap fun w => some ',' :: Utf8.ofString w) ++ some ']' :: rest))) := by
    intro fuel i
    exact ((hrefuses _ hends).located (.index i)).bind _
  cases h with
  | nil =>
    rw [List.nil_append, ofString_commas_cons, List.append_assoc, list, items_first hw]
    exact hitem _ 0
  | @cons u a us as h hs =>
    obtain ⟨fuel, hfuel⟩ := exists_fuel u (us ++ w :: vs) (some ']') rest
    have hlen : fuel + 1 + (us ++ w :: vs).length = fuel + 1 + vs.length + 1 + us.length := by
      rw [List.length_append, List.length_cons]
      omega
    have hnext : IsTooDeep (items item (fuel + 1 + vs.length + 1) (0 + 1 + us.length)
        (some ',' :: (Utf8.ofString w ++
          ((vs.flatMap fun w => some ',' :: Utf8.ofString w) ++ some ']' :: rest)))) := by
      rw [items_next (by omega) hw]
      exact hitem _ _
    rw [List.cons_append, ofString_commas_cons, List.append_assoc, list, hfuel, hlen,
      items_first h.1, itemThen_takes h.2 (follows_flatMap _ _ (.bracket rest)),
      List.flatMap_append, List.flatMap_cons, List.append_assoc, List.append_assoc, List.cons_append,
      items_run hs (Nat.succ_ne_zero 0) (.comma _)]
    exact (hnext.map _).map _

/-- An object with a member that nests too deep, behind members that do not. -/
theorem object_refuses {step : σ → String → Except Reason (Text → Except Problem (σ × Text))}
    {s s' : σ} {ms more : List (String × String)} {k w : String}
    {read : Text → Except Problem (σ × Text)} (h : Folds step s ms s')
    (hstep : step s' k = .ok read) (hrefuses : Refuses read w) (rest : Text) :
    IsTooDeep (object step s (Utf8.ofString (",".intercalate
      ((ms ++ (k, w) :: more).map memberText)) ++ some '\x7d' :: rest)) := by
  have hends := follows_flatMap more (fun m => Utf8.ofString (memberText m)) (Follows.brace rest)
  have hmember : ∀ fuel, IsTooDeep (memberThen step read fuel k (Utf8.ofString w ++
      ((more.flatMap fun m => some ',' :: Utf8.ofString (memberText m)) ++
        some '\x7d' :: rest))) := by
    intro fuel
    exact ((hrefuses _ hends).located (.key k)).bind _
  cases h with
  | nil =>
    rw [List.nil_append, List.map_cons, ofString_commas_cons, List.append_assoc, object,
      List.flatMap_map, members_first hstep]
    exact hmember _
  | @cons _ s₁ _ k₁ w₁ ms read₁ hstep₁ h₁ hs =>
    obtain ⟨fuel, hfuel⟩ := exists_fuel (memberText (k₁, w₁))
      ((ms ++ (k, w) :: more).map memberText) (some '\x7d') rest
    have hlen : fuel + 1 + ((ms ++ (k, w) :: more).map memberText).length =
        fuel + 1 + more.length + 1 + ms.length := by
      rw [List.length_map, List.length_append, List.length_cons]
      omega
    rw [List.cons_append, List.map_cons, ofString_commas_cons, List.append_assoc, object, hfuel,
      hlen, List.flatMap_map, members_first hstep₁,
      memberThen_takes h₁ (follows_flatMap _ (fun m => Utf8.ofString (memberText m)) (.brace rest)),
      List.flatMap_append, List.flatMap_cons, List.append_assoc, List.append_assoc,
      List.cons_append, members_run hs (.comma _), members_next hstep]
    exact hmember _

/-! ## Trees -/

/-- The first part that nests deeper than `d`. -/
theorem exists_first_deeper {β : Type} {f : β → Nat} {l : List β} {d : Nat}
    (h : ¬ ∀ b ∈ l, f b ≤ d) :
    ∃ us b vs, l = us ++ b :: vs ∧ (∀ u ∈ us, f u ≤ d) ∧ d < f b := by
  have hsome : (l.find? fun b => decide (d < f b)).isSome = true := by
    rw [List.find?_isSome]
    push Not at h
    obtain ⟨b, hb, hlt⟩ := h
    exact ⟨b, hb, decide_eq_true hlt⟩
  obtain ⟨b, hb⟩ := Option.isSome_iff_exists.mp hsome
  obtain ⟨hlt, us, vs, rfl, hus⟩ := List.find?_eq_some_iff_append.mp hb
  refine ⟨us, b, vs, rfl, fun u hu => ?_, of_decide_eq_true hlt⟩
  have hnot := hus u hu
  rw [Bool.not_eq_true', decide_eq_false_iff_not] at hnot
  exact Nat.le_of_not_lt hnot

/-- **A tree that is deeper than brackets may be open is refused.** -/
theorem refuses_value {j : Json} (hj : j.IsExact) {d : Nat} (hd : d < j.depth) :
    Refuses (value d) j.compact := by
  induction hj generalizing d with
  | @number j hj h =>
    cases j with
    | int n | float x => cases hd
    | _ => cases hj
  | null => cases hd
  | bool b => cases hd
  | str s => cases hd
  | @arr items hitems ih =>
    intro rest _
    rw [ofString_compact_arr, List.cons_append, List.append_assoc, List.singleton_append]
    cases d with
    | zero => exact ⟨_, rfl, rfl⟩
    | succ d =>
      have hdeep : ¬ ∀ j ∈ items, j.depth ≤ d := fun h =>
        Nat.not_le.mpr hd (depth_arr_le_iff.mpr h)
      obtain ⟨us, w, vs, rfl, hus, hw⟩ := exists_first_deeper hdeep
      obtain ⟨hexact, hexact'⟩ := List.forall_mem_append.mp hitems
      have hfront : List.Forall₂ (fun w a => Opens w ∧ Takes (value d) w a)
          (us.map compact) us := by
        rw [List.forall₂_map_left_iff, List.forall₂_same]
        exact fun u hu => ⟨opens_compact (hexact u hu), takes_value (hexact u hu) (hus u hu)⟩
      have hmem : w ∈ us ++ w :: vs := List.mem_append_right us List.mem_cons_self
      rw [value_list, List.map_append, List.map_cons]
      exact (list_refuses hfront (opens_compact (hitems w hmem)) (ih w hmem hw) rest).map _
  | @obj members hmembers ih =>
    intro rest _
    rw [ofString_compact_obj, List.cons_append, List.append_assoc, List.singleton_append]
    cases d with
    | zero => exact ⟨_, rfl, rfl⟩
    | succ d =>
      have hdeep : ¬ ∀ m ∈ members, m.2.depth ≤ d := fun h =>
        Nat.not_le.mpr hd (depth_obj_le_iff.mpr h)
      obtain ⟨us, m, vs, rfl, hus, hm⟩ :=
        exists_first_deeper (f := fun m : String × Json => m.2.depth) hdeep
      obtain ⟨hexact, hexact'⟩ := List.forall_mem_append.mp hmembers
      have hfront := folds_treeMember (d := d)
        (fun u hu => takes_value (hexact u hu) (hus u hu)) []
      have hmem : m ∈ us ++ m :: vs := List.mem_append_right us List.mem_cons_self
      have hrefuses : Refuses (fun t => (value d t).map fun e =>
          ((m.1, e.1) :: (us.reverse ++ []), e.2)) m.2.compact :=
        fun rest hrest => (ih m hmem hm rest hrest).map _
      rw [value_object, List.map_append, List.map_cons]
      exact (object_refuses hfront rfl hrefuses rest).map _

end ShapeGraph.Json
