import ShapeGraph.Value.Basic

/-!
# Merging two values

When several members of a union accept one value, their results are merged. Objects are merged
key by key and arrays index by index, up to the longer one; of anything else the right value is
taken. What is `undefined` on the right erases nothing.

* `Value.merge` — the merge
* `mem_keys_mergeMembers`, `keys_mergeMembers` — the keys of the left object, then the other keys of
  the right one
* `length_mergeItems` — the longer length
* `get?_mergeMembers`, `getElem?_mergeItems` — what stands under a key, and at an index
-/

namespace ShapeGraph.Value

mutual

/-- The right value merged over the left one. -/
def merge : Value → Value → Value
  | a, .undefined => a
  | .object left, .object right => .object (mergeMembers left right)
  | .array left, .array right => .array (mergeItems left right)
  | _, b => b

/-- Every right member merged into the left ones: in place under a known key, at the end under
a new one. -/
def mergeMembers : Entries Value → List (String × Value) → Entries Value
  | left, [] => left
  | left, (key, b) :: right =>
    mergeMembers
      (left.insert key (match left.get? key with
        | some a => merge a b
        | none => b))
      right

/-- Items merged index by index; the longer list ends the result. -/
def mergeItems : List Value → List Value → List Value
  | left, [] => left
  | [], b :: right => b :: right
  | a :: left, b :: right => merge a b :: mergeItems left right

end

@[simp] theorem merge_undefined (a : Value) : merge a .undefined = a := by
  cases a <;> rfl

@[simp] theorem undefined_merge (b : Value) : merge .undefined b = b := by
  cases b <;> rfl

/-! ## Keys and lengths -/

theorem length_mergeItems (left right : List Value) :
    (mergeItems left right).length = max left.length right.length := by
  induction right generalizing left with
  | nil => simp [mergeItems]
  | cons b right ih =>
    cases left with
    | nil => simp [mergeItems]
    | cons a left =>
      simp only [mergeItems, List.length_cons, ih]
      omega

theorem mem_keys_mergeMembers {left : Entries Value} {right : List (String × Value)}
    {key : String} :
    key ∈ (mergeMembers left right).keys ↔ key ∈ left.keys ∨ key ∈ Entries.keys right := by
  induction right generalizing left with
  | nil => exact ⟨.inl, fun h => h.resolve_right List.not_mem_nil⟩
  | cons m right ih =>
    obtain ⟨k, b⟩ := m
    have hcons : key ∈ Entries.keys ((k, b) :: right) ↔ key = k ∨ key ∈ Entries.keys right :=
      List.mem_cons
    rw [mergeMembers, ih, Entries.mem_keys_insert, hcons, or_assoc]
    exact or_left_comm

theorem keys_mergeMembers {left : Entries Value} {right : List (String × Value)}
    (h : (Entries.keys right).Nodup) :
    (mergeMembers left right).keys =
      left.keys ++ (Entries.keys right).filter fun k => !left.has k := by
  induction right generalizing left with
  | nil => simp [mergeMembers, Entries.keys]
  | cons m right ih =>
    obtain ⟨key, b⟩ := m
    simp only [Entries.keys, List.map_cons, List.nodup_cons] at h
    have hk : key ∉ Entries.keys right := h.1
    rw [mergeMembers, ih h.2]
    have congr : ∀ es : Entries Value, (∀ k, k ≠ key → es.has k = left.has k) →
        (Entries.keys right).filter (fun k => !es.has k) =
          (Entries.keys right).filter (fun k => !left.has k) := by
      intro es hes
      apply List.filter_congr
      intro k hkr
      rw [hes k (fun e => hk (e ▸ hkr))]
    rw [congr]
    · by_cases hm : key ∈ left.keys
      · rw [Entries.keys_insert_of_mem hm]
        simp [Entries.keys, Entries.has_iff.mpr hm]
      · rw [Entries.keys_insert_of_not_mem hm]
        have : left.has key = false := by
          rw [Bool.eq_false_iff]
          exact fun e => hm (Entries.has_iff.mp e)
        simp [Entries.keys, this]
    · intro k hne
      simp [Entries.has, Entries.get?_insert, hne]

/-! ## Reading -/

theorem get?_mergeMembers (left : Entries Value) {right : List (String × Value)}
    (h : (Entries.keys right).Nodup) (k : String) :
    Entries.get? (mergeMembers left right) k =
      Option.merge merge (left.get? k) (Entries.get? right k) := by
  induction right generalizing left with
  | nil => cases hk : left.get? k <;> simp [mergeMembers, Entries.get?, hk]
  | cons m right ih =>
    obtain ⟨key, b⟩ := m
    obtain ⟨hkey, hd⟩ := List.nodup_cons.mp h
    rw [mergeMembers, ih _ hd, Entries.get?_insert, Entries.get?]
    by_cases hk : k = key
    · -- the key does not come again on the right
      subst hk
      rw [if_pos rfl, if_pos rfl, Entries.get?_eq_none_iff.mpr hkey]
      cases left.get? k <;> rfl
    · rw [if_neg hk, if_neg fun e => hk e.symm]

theorem getElem?_mergeItems (left right : List Value) (i : Nat) :
    (mergeItems left right)[i]? = Option.merge merge left[i]? right[i]? := by
  induction right generalizing left i with
  | nil => cases hi : left[i]? <;> simp [mergeItems, hi]
  | cons b right ih =>
    cases left with
    | nil => cases hi : (b :: right)[i]? <;> simp [mergeItems, hi]
    | cons a left =>
      cases i with
      | zero => rfl
      | succ i => exact ih left i

/-- What is not there is `undefined`, and merged like that. -/
theorem getD_merge (a b : Option Value) :
    (Option.merge merge a b).getD .undefined = (a.getD .undefined).merge (b.getD .undefined) := by
  cases a <;> cases b <;> simp [Option.merge]

/-- Objects are merged key by key, where what is not there is `undefined`. -/
theorem get_mergeMembers (left : Entries Value) {right : List (String × Value)}
    (h : (Entries.keys right).Nodup) (k : String) :
    (object (mergeMembers left right)).get k =
      ((object left).get k).merge ((object right).get k) := by
  simp only [get]
  rw [get?_mergeMembers left h, getD_merge]

/-- Arrays are merged index by index, where what is not there is `undefined`. -/
theorem item_mergeItems (left right : List Value) (i : Nat) :
    (array (mergeItems left right)).item i =
      ((array left).item i).merge ((array right).item i) := by
  simp only [item]
  rw [getElem?_mergeItems, getD_merge]

end ShapeGraph.Value
