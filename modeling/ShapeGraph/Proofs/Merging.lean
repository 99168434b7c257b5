import ShapeGraph.Proofs.Flattening

/-!
# What stands where in a merged value

Merging goes down two values together as long as both are objects or both are arrays. Where they
part, the right value counts, unless it is missing there. So a leaf of the right value is found in
the merged one, a leaf of the left value is found there if nothing on the right stands in its way,
and no key and no item is lost where the two go together.

* `Value.lookup?` — what a value has at a place
* `Value.Nests` — two values go on together
* `child?_merge` — one step into a merged value
* `lookup?_merge_of_right`, `lookup?_merge_of_left`, `lookup?_merge_of_both` — many steps
* `merge_self` — merging a value over itself changes nothing
-/

namespace ShapeGraph.Value

/-! ## Places in a value -/

/-- A step into an object or an array. -/
inductive Step
  | key (k : String)
  | index (i : Nat)
  deriving DecidableEq, Repr

/-- What stands behind a step. A member or an item that is `undefined` is there nevertheless. -/
def child? : Value → Step → Option Value
  | .object ms, .key k => Entries.get? ms k
  | .array items, .index i => items[i]?
  | _, _ => none

/-- **What a value has at a place.** -/
def lookup? : Value → List Step → Option Value
  | v, [] => some v
  | v, step :: path => (v.child? step).bind fun w => w.lookup? path

/-- Two values go on together: both are objects, or both are arrays. -/
inductive Nests : Value → Value → Prop
  | objects (as bs : List (String × Value)) : Nests (.object as) (.object bs)
  | arrays (xs ys : List Value) : Nests (.array xs) (.array ys)

theorem lookup?_cons_eq_some_iff {v u : Value} {step : Step} {path : List Step} :
    v.lookup? (step :: path) = some u ↔ ∃ w, v.child? step = some w ∧ w.lookup? path = some u :=
  Option.bind_eq_some_iff

theorem isTidy_child {v w : Value} {step : Step} (hv : v.isTidy = true)
    (h : v.child? step = some w) : w.isTidy = true := by
  cases v with
  | object ms =>
    cases step with
    | key k => exact (isTidy_object_iff.mp hv).2 (k, w) (Entries.mem_of_get? h)
    | index => cases h
  | array items =>
    cases step with
    | key => cases h
    | index i => exact isTidy_array_iff.mp hv w (List.mem_of_getElem? h)
  | _ => cases h

/-- Two values with something behind the same step go on together. -/
theorem nests_of_child {a b c d : Value} {step : Step} (ha : a.child? step = some c)
    (hb : b.child? step = some d) : a.Nests b := by
  cases step with
  | key k =>
    cases a with
    | object as =>
      cases b with
      | object bs => exact .objects as bs
      | _ => cases hb
    | _ => cases ha
  | index i =>
    cases a with
    | array xs =>
      cases b with
      | array ys => exact .arrays xs ys
      | _ => cases hb
    | _ => cases ha

theorem Nests.not_leaf {a b : Value} (h : a.Nests b) : a.isLeaf = false := by
  cases h <;> rfl

/-! ## One step -/

/-- **Where two values part, the right one counts.** -/
theorem merge_of_not_nests {a b : Value} (h : ¬ a.Nests b) (hb : b.isUndefined = false) :
    a.merge b = b := by
  cases b with
  | undefined => cases hb
  | object bs =>
    cases a with
    | object as => exact absurd (.objects as bs) h
    | _ => rfl
  | array ys =>
    cases a with
    | array xs => exact absurd (.arrays xs ys) h
    | _ => rfl
  | _ => exact merge_leaf a rfl rfl

/-- **One step into a merged value**: what stands there in one of the two, or both merged. -/
theorem child?_merge {a b : Value} (h : a.Nests b) (hb : b.isTidy = true) (step : Step) :
    (a.merge b).child? step = Option.merge merge (a.child? step) (b.child? step) := by
  cases h with
  | objects as bs =>
    cases step with
    | key k => exact get?_mergeMembers as (isTidy_object_iff.mp hb).1 k
    | index => rfl
  | arrays xs ys =>
    cases step with
    | key => rfl
    | index i => exact getElem?_mergeItems xs ys i

/-! ## Many steps -/

/-- **A leaf of the right value is there in the merged one**, unless it is `undefined`. -/
theorem lookup?_merge_of_right {a b v : Value} {path : List Step} (hb : b.isTidy = true)
    (h : b.lookup? path = some v) (hv : v.isLeaf = true) (hu : v.isUndefined = false) :
    (a.merge b).lookup? path = some v := by
  induction path generalizing a b with
  | nil =>
    cases h
    rw [merge_leaf a hv hu]
    rfl
  | cons step path ih =>
    obtain ⟨d, hd, h'⟩ := lookup?_cons_eq_some_iff.mp h
    by_cases hnests : a.Nests b
    · rw [lookup?_cons_eq_some_iff, child?_merge hnests hb, hd]
      cases hc : a.child? step with
      | none => exact ⟨d, rfl, h'⟩
      | some c => exact ⟨c.merge d, rfl, ih (isTidy_child hb hd) h'⟩
    · have hb : b.isUndefined = false := by
        cases b with
        | undefined => cases hd
        | _ => rfl
      rw [merge_of_not_nests hnests hb]
      exact h

/-- **A leaf of the left value is there in the merged one**, if on the way to it the right value
has nothing other than what goes on together with the left one. -/
theorem lookup?_merge_of_left {a b v : Value} {path : List Step} (hb : b.isTidy = true)
    (h : a.lookup? path = some v) (hv : v.isLeaf = true)
    (hway : ∀ front w, front <+: path → b.lookup? front = some w → w.isUndefined = false →
      ∃ u, a.lookup? front = some u ∧ u.Nests w) :
    (a.merge b).lookup? path = some v := by
  induction path generalizing a b with
  | nil =>
    cases h
    cases hu : b.isUndefined with
    | true =>
      rw [isUndefined_iff.mp hu, merge_undefined]
      rfl
    | false =>
      obtain ⟨u, hu, hnests⟩ := hway [] b List.nil_prefix rfl hu
      cases hu
      rw [hnests.not_leaf] at hv
      cases hv
  | cons step path ih =>
    obtain ⟨c, hc, h'⟩ := lookup?_cons_eq_some_iff.mp h
    cases hu : b.isUndefined with
    | true =>
      rw [isUndefined_iff.mp hu, merge_undefined]
      exact h
    | false =>
      obtain ⟨u, hu, hnests⟩ := hway [] b List.nil_prefix rfl hu
      cases hu
      rw [lookup?_cons_eq_some_iff, child?_merge hnests hb, hc]
      cases hd : b.child? step with
      | none => exact ⟨c, rfl, h'⟩
      | some d =>
        refine ⟨c.merge d, rfl, ih (isTidy_child hb hd) h' fun front w hfront hw hwu => ?_⟩
        -- what is on the way behind the step is on the whole way
        obtain ⟨u, hu, hnests'⟩ := hway (step :: front) w (List.cons_prefix_cons.mpr ⟨rfl, hfront⟩)
          (lookup?_cons_eq_some_iff.mpr ⟨d, hd, hw⟩) hwu
        obtain ⟨c', hc', hu⟩ := lookup?_cons_eq_some_iff.mp hu
        rw [hc] at hc'
        cases hc'
        exact ⟨u, hu, hnests'⟩

/-- **Where both values have something, the merged value has it merged.** -/
theorem lookup?_merge_of_both {a b u w : Value} {path : List Step} (hb : b.isTidy = true)
    (ha : a.lookup? path = some u) (h : b.lookup? path = some w) :
    (a.merge b).lookup? path = some (u.merge w) ∧ w.isTidy = true := by
  induction path generalizing a b with
  | nil =>
    cases ha
    cases h
    exact ⟨rfl, hb⟩
  | cons step path ih =>
    obtain ⟨c, hc, ha⟩ := lookup?_cons_eq_some_iff.mp ha
    obtain ⟨d, hd, h⟩ := lookup?_cons_eq_some_iff.mp h
    obtain ⟨hmerged, hw⟩ := ih (isTidy_child hb hd) ha h
    rw [lookup?_cons_eq_some_iff, child?_merge (nests_of_child hc hd) hb, hc, hd]
    exact ⟨⟨_, rfl, hmerged⟩, hw⟩

/-! ## A value over itself -/

/-- **Merging a value over itself changes nothing.** -/
theorem merge_self {v : Value} (h : v.isTidy = true) : v.merge v = v := by
  induction v using depth_induction with | step v ih => ?_
  cases v with
  | undefined => rfl
  | array items =>
    refine array_ext ?_ fun i => ?_
    · rw [length_mergeItems, Nat.max_self]
    · rw [item_mergeItems]
      exact ih _ (depth_item_lt items i) (isTidy_item h i)
  | object ms =>
    have hms := (isTidy_object_iff.mp h).1
    have hkeys : Entries.keys (mergeMembers ms ms) = Entries.keys ms := by
      rw [keys_mergeMembers hms, List.filter_eq_nil_iff.mpr, List.append_nil]
      intro k hk
      rw [Entries.has_iff.mpr hk]
      exact Bool.false_ne_true
    refine object_ext (hkeys ▸ hms) hkeys fun k => ?_
    rw [get_mergeMembers ms hms]
    exact ih _ (depth_get_lt ms k) (isTidy_get h k)
  | _ => rfl

/-- **What stands where in a merged value.** Leaves of the right value are there; leaves of the left
value are there if the right value leaves the way to them free; where both have objects, the keys
of the left one come first, and then the others of the right one; where both have arrays, the longer
one gives the length. A value merged over itself is itself. -/
theorem lookup?_merge (a : Value) {b : Value} (hb : b.isTidy = true) :
    (∀ path v, b.lookup? path = some v → v.isLeaf = true → v.isUndefined = false →
      (a.merge b).lookup? path = some v) ∧
    (∀ path v, a.lookup? path = some v → v.isLeaf = true →
      (∀ front w, front <+: path → b.lookup? front = some w → w.isUndefined = false →
        ∃ u, a.lookup? front = some u ∧ u.Nests w) →
      (a.merge b).lookup? path = some v) ∧
    (∀ path as bs, a.lookup? path = some (.object as) → b.lookup? path = some (.object bs) →
      ∃ ms, (a.merge b).lookup? path = some (.object ms) ∧
        Entries.keys ms =
          Entries.keys as ++ (Entries.keys bs).filter fun k => !Entries.has as k) ∧
    (∀ path xs ys, a.lookup? path = some (.array xs) → b.lookup? path = some (.array ys) →
      ∃ items, (a.merge b).lookup? path = some (.array items) ∧
        items.length = max xs.length ys.length) ∧
    b.merge b = b := by
  refine ⟨fun path v => lookup?_merge_of_right hb, fun path v => lookup?_merge_of_left hb, ?_, ?_,
    merge_self hb⟩
  · intro path as bs ha hbs
    obtain ⟨hmerged, htidy⟩ := lookup?_merge_of_both hb ha hbs
    exact ⟨_, hmerged, keys_mergeMembers (isTidy_object_iff.mp htidy).1⟩
  · intro path xs ys ha hys
    exact ⟨_, (lookup?_merge_of_both hb ha hys).1, length_mergeItems xs ys⟩

/-- Two pages, the second of which is blank, and a third one that is torn out. -/
def draft : Value :=
  .object [("title", .string "Leaves"), ("pages", .array [.object [("at", .number (.ofInt 1))],
    .undefined, .null]), ("by", .null)]

/-- A text for the first page, and nothing new about the title. -/
def revision : Value :=
  .object [("pages", .array [.object [("text", .string "Oak")], .undefined]),
    ("title", .undefined), ("by", .array [.string "me"])]

theorem lookup?_merge_draft :
    revision.isTidy = true ∧
      (draft.merge revision).lookup? [.key "pages", .index 0, .key "text"] = some (.string "Oak") ∧
      (draft.merge revision).lookup? [.key "pages", .index 2] = some .null ∧
      (∃ ms, (draft.merge revision).lookup? [.key "pages", .index 0] = some (.object ms) ∧
        Entries.keys ms = ["at", "text"]) ∧
      (∃ items, (draft.merge revision).lookup? [.key "pages"] = some (.array items) ∧
        items.length = 3) ∧
      revision.merge revision = revision := by
  have ht : revision.isTidy = true := by decide +kernel
  obtain ⟨hright, hleft, hobjects, harrays, hself⟩ := lookup?_merge draft ht
  have hpages := harrays [.key "pages"] _ _ rfl rfl
  have hpage := hobjects [.key "pages", .index 0] _ _ rfl rfl
  refine ⟨ht, hright _ _ rfl rfl rfl, hleft _ _ rfl rfl fun front w hfront hw _ => ?_, hpage,
    hpages, hself⟩
  -- the objects and their pages go together, and there is no third page on the right
  rcases List.prefix_cons_iff.mp hfront with rfl | ⟨rest, rfl, hrest⟩
  · cases hw
    exact ⟨_, rfl, .objects _ _⟩
  · rcases List.prefix_cons_iff.mp hrest with rfl | ⟨rest, rfl, -⟩
    · cases hw
      exact ⟨_, rfl, .arrays _ _⟩
    · cases hw

end ShapeGraph.Value
