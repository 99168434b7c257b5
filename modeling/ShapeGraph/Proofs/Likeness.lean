import Mathlib.Data.List.Forall2
import ShapeGraph.Proofs.Union

/-!
# Values that are alike but for the order of keys

Two values are like each other when they differ in the order in which their objects have keys, and
in their numbers as far as a given relation lets them. What is put together from such values
in the same way is like each other again: by merging, by putting in members, and by whatever shapes
put together from the results of their parts. Objects are compared member by member here, since what
is said of their keys follows where keys are distinct.

* `Value.Like` — the relation, over a relation of numbers
* `Value.LikeFields` — the same keys, and values like each other under each
* `LikeFields.object` — under distinct keys this makes objects like each other
* `Like.merge`, `like_mergeAll` — merging keeps values like each other
* `Shape.like_declaredFields`, `Shape.like_joinedFields` — so do the parts of results
-/

namespace ShapeGraph

/-! ## Optional values -/

section

variable {α β : Type} {R : α → β → Prop}

theorem isSome_eq_of_rel {o : Option α} {o' : Option β} (h : Option.Rel R o o') :
    o.isSome = o'.isSome := by
  cases h <;> rfl

theorem rel_or {o q : Option α} {o' q' : Option β} (h : Option.Rel R o o')
    (h' : Option.Rel R q q') : Option.Rel R (o.or q) (o'.or q') := by
  cases h with
  | none => exact h'
  | some h => exact .some h

/-- Entries with the same names have related contents under a name, or none. -/
theorem Entries.rel_get? {es : Entries α} {fs : Entries β} (hkeys : es.keys.Perm fs.keys)
    {k : String} (h : ∀ {a b}, (k, a) ∈ es → (k, b) ∈ fs → R a b) :
    Option.Rel R (es.get? k) (fs.get? k) := by
  cases ha : es.get? k with
  | none =>
    have hnot := Entries.get?_eq_none_iff.mp ha
    rw [Entries.get?_eq_none_iff.mpr fun hmem => hnot (hkeys.mem_iff.mpr hmem)]
    exact .none
  | some a =>
    have hmem := Entries.mem_of_get? ha
    have hkey : k ∈ fs.keys := hkeys.mem_iff.mp (List.mem_map_of_mem hmem)
    obtain ⟨b, hb⟩ := Option.isSome_iff_exists.mp (Entries.has_iff.mpr hkey)
    rw [hb]
    exact .some (h hmem (Entries.mem_of_get? hb))

end

namespace Value

/-! ## The relation -/

/-- `a.Like R b`: the values are the same up to the order in which objects have their keys, with
numbers related by `R`. -/
inductive Like (R : Number → Number → Prop) : Value → Value → Prop
  | undefined : Like R .undefined .undefined
  | null : Like R .null .null
  | number {x y : Number} (h : R x y) : Like R (.number x) (.number y)
  | bool (b : Bool) : Like R (.bool b) (.bool b)
  | bigint (n : Int) : Like R (.bigint n) (.bigint n)
  | string (s : String) : Like R (.string s) (.string s)
  | date (millis : Int) : Like R (.date millis) (.date millis)
  | array {xs ys : List Value} (hlen : xs.length = ys.length)
      (h : ∀ i, Like R ((Value.array xs).item i) ((Value.array ys).item i)) :
      Like R (.array xs) (.array ys)
  | object {xs ys : List (String × Value)} (hkeys : (Entries.keys xs).Perm (Entries.keys ys))
      (h : ∀ k, Like R ((Value.object xs).get k) ((Value.object ys).get k)) :
      Like R (.object xs) (.object ys)

variable {R : Number → Number → Prop} {a b c d : Value}

theorem Like.refl (hR : ∀ x, R x x) (v : Value) : v.Like R v := by
  induction v using depth_induction with | step v ih => ?_
  cases v with
  | array items => exact .array rfl fun i => ih _ (depth_item_lt items i)
  | object ms => exact .object (.refl _) fun k => ih _ (depth_get_lt ms k)
  | undefined => exact .undefined
  | null => exact .null
  | bool b => exact .bool b
  | number x => exact .number (hR x)
  | bigint n => exact .bigint n
  | string s => exact .string s
  | date millis => exact .date millis

theorem Like.trans (hR : ∀ {x y z}, R x y → R y z → R x z) (h : a.Like R b) (h' : b.Like R c) :
    a.Like R c := by
  induction h generalizing c with
  | number h =>
    cases h' with
    | number h' => exact .number (hR h h')
  | array hlen _ ih =>
    cases h' with
    | array hlen' h' => exact .array (hlen.trans hlen') fun i => ih i (h' i)
  | object hkeys _ ih =>
    cases h' with
    | object hkeys' h' => exact .object (hkeys.trans hkeys') fun k => ih k (h' k)
  | _ => exact h'

theorem Like.isUndefined_eq (h : a.Like R b) : a.isUndefined = b.isUndefined := by
  cases h <;> rfl

theorem Like.form_eq (h : a.Like R b) : a.form = b.form := by
  cases h <;> rfl

theorem Like.item (h : a.Like R b) (i : Nat) : (a.item i).Like R (b.item i) := by
  cases h with
  | array _ h => exact h i
  | _ => exact .undefined

theorem Like.get (h : a.Like R b) (k : String) : (a.get k).Like R (b.get k) := by
  cases h with
  | object _ h => exact h k
  | _ => exact .undefined

theorem getD_like {o o' : Option Value} (h : Option.Rel (Like R) o o') :
    (o.getD .undefined).Like R (o'.getD .undefined) := by
  cases h with
  | none => exact .undefined
  | some h => exact h

/-- **What is like a tidy value is tidy.** -/
theorem Like.isTidy (h : a.Like R b) : a.isTidy = true → b.isTidy = true := by
  induction h with
  | @array xs ys hlen _ ih =>
    intro ht
    refine isTidy_array_iff.mpr fun v hv => ?_
    obtain ⟨i, hi⟩ := List.getElem?_of_mem hv
    have hitem : (Value.array ys).item i = v := congrArg (·.getD Value.undefined) hi
    exact hitem ▸ ih i (isTidy_item ht i)
  | @object xs ys hkeys _ ih =>
    intro ht
    have hd : (Entries.keys ys).Nodup := hkeys.nodup_iff.mp (isTidy_object_iff.mp ht).1
    refine isTidy_object_iff.mpr ⟨hd, fun m hm => ?_⟩
    have hget : (Value.object ys).get m.1 = m.2 :=
      congrArg (·.getD Value.undefined) (Entries.get?_of_mem hd hm)
    exact hget ▸ ih m.1 (isTidy_get ht m.1)
  | _ => exact fun _ => rfl

/-! ## Items -/

theorem like_array_of_forall₂ {xs ys : List Value} (h : List.Forall₂ (Like R) xs ys) :
    (array xs).Like R (array ys) := by
  refine .array h.length_eq fun i => ?_
  induction h generalizing i with
  | nil => exact .undefined
  | cons hhead _ ih =>
    cases i with
    | zero => exact hhead
    | succ i => exact ih i

theorem Like.forall₂_items {xs ys : List Value} (h : (Value.array xs).Like R (Value.array ys)) :
    List.Forall₂ (Like R) xs ys := by
  cases h with
  | array hlen h =>
    refine List.forall₂_iff_get.mpr ⟨hlen, fun i hx hy => ?_⟩
    have hitem := h i
    rw [Value.item, Value.item, List.getElem?_eq_getElem hx, List.getElem?_eq_getElem hy] at hitem
    exact hitem

/-! ## Members -/

/-- The same keys, and values like each other under each. -/
def LikeFields (R : Number → Number → Prop) (xs ys : Entries Value) : Prop :=
  ∀ k, Option.Rel (Like R) (xs.get? k) (ys.get? k)

theorem Like.fields (h : a.Like R b) : LikeFields R a.fields b.fields := by
  intro k
  cases h with
  | @object xs ys hkeys h =>
    have hk := h k
    rw [Value.get, Value.get] at hk
    show Option.Rel (Like R) (Entries.get? xs k) (Entries.get? ys k)
    cases hx : Entries.get? xs k with
    | none =>
      have hnot : k ∉ Entries.keys ys := fun hmem =>
        Entries.get?_eq_none_iff.mp hx (hkeys.mem_iff.mpr hmem)
      rw [Entries.get?_eq_none_iff.mpr hnot]
      exact .none
    | some v =>
      have hmem : k ∈ Entries.keys ys :=
        hkeys.mem_iff.mp (List.mem_map_of_mem (Entries.mem_of_get? hx))
      obtain ⟨w, hy⟩ := Option.isSome_iff_exists.mp (Entries.has_iff.mpr hmem)
      rw [hx, hy] at hk
      rw [hy]
      exact .some hk
  | _ => exact .none

section

variable {xs ys xs' ys' : Entries Value}

theorem LikeFields.mem_keys_iff (h : LikeFields R xs ys) {k : String} :
    k ∈ xs.keys ↔ k ∈ ys.keys := by
  rw [← Entries.has_iff, ← Entries.has_iff, Entries.has, Entries.has, isSome_eq_of_rel (h k)]

/-- Objects with members like each other are so, where keys are distinct. -/
theorem LikeFields.object (h : LikeFields R xs ys) (hx : xs.keys.Nodup) (hy : ys.keys.Nodup) :
    (object xs).Like R (object ys) :=
  .object ((List.perm_ext_iff_of_nodup hx hy).mpr fun _ => h.mem_keys_iff) fun k =>
    getD_like (h k)

theorem LikeFields.append (h : LikeFields R xs ys) (h' : LikeFields R xs' ys') :
    LikeFields R (xs ++ xs') (ys ++ ys') := by
  intro k
  rw [Entries.get?_append, Entries.get?_append]
  exact rel_or (h k) (h' k)

theorem LikeFields.insert (h : LikeFields R xs ys) {k : String} (hv : a.Like R b) :
    LikeFields R (xs.insert k a) (ys.insert k b) := by
  intro j
  rw [Entries.get?_insert, Entries.get?_insert]
  split
  · exact .some hv
  · exact h j

/-- Under distinct names what is put in is what is found. -/
theorem get?_insertAll_of_nodup {α : Type} {es pairs : Entries α} (hd : pairs.keys.Nodup)
    (k : String) : (es.insertAll pairs).get? k = (pairs.get? k).or (es.get? k) := by
  rcases Entries.get?_insertAll es pairs k with ⟨a, ha, hget⟩ | ⟨hnot, hget⟩
  · rw [hget, Entries.get?_of_mem hd ha]
    rfl
  · rw [hget, Entries.get?_eq_none_iff.mpr hnot]
    rfl

theorem LikeFields.insertAll (h : LikeFields R xs ys) (h' : LikeFields R xs' ys')
    (hx : xs'.keys.Nodup) (hy : ys'.keys.Nodup) :
    LikeFields R (xs.insertAll xs') (ys.insertAll ys') := by
  intro k
  rw [get?_insertAll_of_nodup hx, get?_insertAll_of_nodup hy]
  exact rel_or (h' k) (h k)

/-- Members that are changed or dropped, each under its key. -/
theorem LikeFields.filterMap {ms ms' : Entries Value} (hd : ms.keys.Nodup) (hd' : ms'.keys.Nodup)
    {f f' : String × Value → Option Value}
    (h : ∀ k, Option.Rel (Like R) ((ms.get? k).bind fun v => f (k, v))
      ((ms'.get? k).bind fun v => f' (k, v))) :
    LikeFields R (List.filterMap (fun m => (f m).map fun w => (m.1, w)) ms)
      (List.filterMap (fun m => (f' m).map fun w => (m.1, w)) ms') := by
  intro k
  rw [Entries.get?_filterMap hd fun k v => f (k, v),
    Entries.get?_filterMap hd' fun k v => f' (k, v)]
  exact h k

end

/-! ## Merging -/

/-- **Values like each other are merged to such.** -/
theorem Like.merge (hab : a.Like R b) (hcd : c.Like R d) (ha : a.isTidy = true)
    (hc : c.isTidy = true) : (a.merge c).Like R (b.merge d) := by
  have hb := hab.isTidy ha
  have hd := hcd.isTidy hc
  -- on what is put on top: only an array or an object keeps anything of what it is put on
  induction hcd generalizing a b with
  | undefined => rwa [merge_undefined, merge_undefined]
  | @array xs ys hlen h ih =>
    cases hab with
    | @array xs' ys' hlen' h' =>
      refine .array ?_ fun i => ?_
      · rw [length_mergeItems, length_mergeItems, hlen, hlen']
      · rw [item_mergeItems, item_mergeItems]
        exact ih i (h' i) (isTidy_item ha i) (isTidy_item hc i) (isTidy_item hb i)
          (isTidy_item hd i)
    | _ => exact .array hlen h
  | @object xs ys hkeys h ih =>
    cases hab with
    | @object xs' ys' hkeys' h' =>
      have hleft := (isTidy_object_iff.mp (isTidy_merge _ _ ha hc)).1
      have hright := (isTidy_object_iff.mp (isTidy_merge _ _ hb hd)).1
      refine .object ((List.perm_ext_iff_of_nodup hleft hright).mpr fun k => ?_) fun k => ?_
      · show k ∈ (mergeMembers xs' xs).keys ↔ k ∈ (mergeMembers ys' ys).keys
        rw [mem_keys_mergeMembers, mem_keys_mergeMembers, hkeys.mem_iff]
        exact or_congr_left hkeys'.mem_iff
      · rw [get_mergeMembers _ (isTidy_object_iff.mp hc).1,
          get_mergeMembers _ (isTidy_object_iff.mp hd).1]
        exact ih k (h' k) (isTidy_get ha k) (isTidy_get hc k) (isTidy_get hb k) (isTidy_get hd k)
    | _ => exact .object hkeys h
  | number h => cases hab <;> exact .number h
  | null => cases hab <;> exact .null
  | bool x => cases hab <;> exact .bool x
  | bigint n => cases hab <;> exact .bigint n
  | string s => cases hab <;> exact .string s
  | date millis => cases hab <;> exact .date millis

/-- Lists of values like each other are merged to such. -/
theorem like_mergeAll {vs ws : List Value} (h : List.Forall₂ (Like R) vs ws)
    (hvs : ∀ v ∈ vs, v.isTidy = true) : (mergeAll vs).Like R (mergeAll ws) := by
  have hfold : ∀ {vs ws : List Value}, List.Forall₂ (Like R) vs ws →
      (∀ v ∈ vs, v.isTidy = true) → ∀ a b : Value, a.Like R b → a.isTidy = true →
        (vs.foldl Value.merge a).Like R (ws.foldl Value.merge b) := by
    intro vs ws h
    induction h with
    | nil => exact fun _ a b hab _ => hab
    | @cons v w _ _ hhead _ ih =>
      intro hvs a b hab ha
      obtain ⟨hv, hvs⟩ := List.forall_mem_cons.mp hvs
      exact ih hvs _ _ (hab.merge hhead ha hv) (isTidy_merge a v ha hv)
  cases h with
  | nil => exact .undefined
  | cons hhead htail =>
    obtain ⟨hv, hvs⟩ := List.forall_mem_cons.mp hvs
    exact hfold htail hvs _ _ hhead hv

end Value

/-! ## What shapes make -/

namespace Shape

open Value

variable {R : Number → Number → Prop} {res res' : Shape → Value → Value} {v v' : Value}

/-- Properties of the same names that make values like each other make such members. -/
theorem like_declaredFields {properties properties' : Entries Shape}
    (hd : properties.keys.Nodup) (hkeys : properties.keys.Perm properties'.keys)
    (h : ∀ {k s s'}, (k, s) ∈ properties → (k, s') ∈ properties' →
      (res s (v.get k)).Like R (res' s' (v'.get k))) :
    LikeFields R (declaredFields res properties v) (declaredFields res' properties' v') := by
  intro k
  rw [get?_declaredFields hd, get?_declaredFields (hkeys.nodup_iff.mp hd)]
  have hrel := Entries.rel_get? (R := fun s s' => (res s (v.get k)).Like R (res' s' (v'.get k)))
    hkeys h
  generalize properties.get? k = o at hrel ⊢
  generalize properties'.get? k = o' at hrel ⊢
  cases hrel with
  | none => exact .none
  | some hlike =>
    rw [Option.bind_some, Option.bind_some, hlike.isUndefined_eq]
    split
    · exact .none
    · exact .some hlike

/-- Members of intersections that make objects like each other are joined to such members. -/
theorem like_joinedFields {members members' : List Shape}
    (h : List.Forall₂ (fun s s' => (res s v).Like R (res' s' v') ∧ (res s v).isTidy = true)
      members members') {before before' : Entries Value}
    (hbefore : LikeFields R before before') :
    LikeFields R (joinedFields res members before v) (joinedFields res' members' before' v') := by
  induction h generalizing before before' with
  | nil => exact hbefore
  | cons hhead _ ih =>
    obtain ⟨hlike, htidy⟩ := hhead
    exact ih (hbefore.insertAll hlike.fields (nodup_keys_fields htidy)
      (nodup_keys_fields (hlike.isTidy htidy)))

end Shape

end ShapeGraph
