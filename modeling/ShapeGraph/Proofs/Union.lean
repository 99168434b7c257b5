import ShapeGraph.Proofs.Distinct
import ShapeGraph.Proofs.Pruning

/-!
# The order of the members of a union

A union merges what its accepting members make of a value, later ones over earlier ones. Merging
is neither commutative nor associative, but here all operands are pruned from one value. Reading a
place then passes through the merge, and at a leaf all of them say the same. So the order in which
a union names its members shows in the order of keys only, and naming a member twice does not show.

* `Value.Alike` — two values differ in the order of keys only
* `get_mergeAll`, `item_mergeAll` — a place of the merged value holds what the places hold merged
* `alike_mergeAll` — the same pruned values in any order are merged to values that are alike
* `Guarded.anyOf_alike_of_mem_iff` — the order and repetition of members do not matter
-/

namespace ShapeGraph

namespace Value

/-- `y.Alike x`: the values are the same up to the order in which objects have their keys and the
sign of zero. -/
inductive Alike : Value → Value → Prop
  | undefined : Alike .undefined .undefined
  | null : Alike .null .null
  | number {a b : Number} (h : a.same b = true ∨ a = b) : Alike (.number a) (.number b)
  | bool (b : Bool) : Alike (.bool b) (.bool b)
  | bigint (n : Int) : Alike (.bigint n) (.bigint n)
  | string (s : String) : Alike (.string s) (.string s)
  | date (millis : Int) : Alike (.date millis) (.date millis)
  | array {ys xs : List Value} (hlen : ys.length = xs.length)
      (h : ∀ i, Alike ((Value.array ys).item i) ((Value.array xs).item i)) :
      Alike (.array ys) (.array xs)
  | object {ys xs : List (String × Value)} (hkeys : (Entries.keys ys).Perm (Entries.keys xs))
      (h : ∀ k, Alike ((Value.object ys).get k) ((Value.object xs).get k)) :
      Alike (.object ys) (.object xs)

/-! ## Reading a merged value -/

theorem get_merge {a b : Value} (ha : a.form = .object) (hb : b.form = .object)
    (ht : b.isTidy = true) (k : String) : (a.merge b).get k = (a.get k).merge (b.get k) := by
  rw [eq_object_of_form ha, eq_object_of_form hb]
  exact get_mergeMembers _ (nodup_keys_fields ht) k

theorem mem_keys_merge {a b : Value} (ha : a.form = .object) (hb : b.form = .object) {k : String} :
    k ∈ (a.merge b).fields.keys ↔ k ∈ a.fields.keys ∨ k ∈ b.fields.keys := by
  rw [eq_object_of_form ha, eq_object_of_form hb]
  exact mem_keys_mergeMembers

/-- The items of an array; other values have none. -/
def items (v : Value) : List Value := v.items?.getD []

theorem eq_array_of_form {v : Value} (h : v.form = .array) : v = .array v.items := by
  cases v with
  | array items => rfl
  | _ => cases h

theorem item_merge {a b : Value} (ha : a.form = .array) (hb : b.form = .array) (i : Nat) :
    (a.merge b).item i = (a.item i).merge (b.item i) := by
  rw [eq_array_of_form ha, eq_array_of_form hb]
  exact item_mergeItems _ _ i

theorem lt_length_merge {a b : Value} (ha : a.form = .array) (hb : b.form = .array) {i : Nat} :
    i < (a.merge b).items.length ↔ i < a.items.length ∨ i < b.items.length := by
  rw [eq_array_of_form ha, eq_array_of_form hb]
  show i < (mergeItems a.items b.items).length ↔ _
  rw [length_mergeItems, lt_max_iff]
  rfl

/-! ## Reading a list of merged values -/

section

variable {Q : Value → Prop} (hQ : ∀ a b, Q a → Q b → Q (a.merge b))
include hQ

/-- What passes through the merge of two values passes through the merge of all. -/
theorem read_mergeAll (read : Value → Value)
    (hread : ∀ a b, Q a → Q b → read (a.merge b) = (read a).merge (read b)) {vs : List Value}
    (hne : vs ≠ []) (h : ∀ v ∈ vs, Q v) : read (mergeAll vs) = mergeAll (vs.map read) := by
  have hfold : ∀ (ws : List Value) (v : Value), Q v → (∀ w ∈ ws, Q w) →
      read (ws.foldl merge v) = (ws.map read).foldl merge (read v) := by
    intro ws
    induction ws with
    | nil => exact fun v _ _ => rfl
    | cons w ws ih =>
      intro v hv hws
      obtain ⟨hw, hws⟩ := List.forall_mem_cons.mp hws
      rw [List.foldl_cons, List.map_cons, List.foldl_cons, ← hread v w hv hw]
      exact ih _ (hQ v w hv hw) hws
  cases vs with
  | nil => exact absurd rfl hne
  | cons v vs =>
    obtain ⟨hv, hvs⟩ := List.forall_mem_cons.mp h
    exact hfold vs v hv hvs

/-- What two merged values have when one of them has it, all merged values have when some of them
has it. -/
theorem has_mergeAll {P : Value → Prop}
    (hP : ∀ a b, Q a → Q b → (P (a.merge b) ↔ P a ∨ P b)) {vs : List Value}
    (hne : vs ≠ []) (h : ∀ v ∈ vs, Q v) : P (mergeAll vs) ↔ ∃ v ∈ vs, P v := by
  have hfold : ∀ (ws : List Value) (v : Value), Q v → (∀ w ∈ ws, Q w) →
      (P (ws.foldl merge v) ↔ ∃ w ∈ v :: ws, P w) := by
    intro ws
    induction ws with
    | nil => intro v _ _; simp
    | cons w ws ih =>
      intro v hv hws
      obtain ⟨hw, hws⟩ := List.forall_mem_cons.mp hws
      rw [List.foldl_cons, ih _ (hQ v w hv hw) hws]
      simp only [List.exists_mem_cons_iff, hP v w hv hw, or_assoc]
  cases vs with
  | nil => exact absurd rfl hne
  | cons v vs =>
    obtain ⟨hv, hvs⟩ := List.forall_mem_cons.mp h
    exact hfold vs v hv hvs

end

/-- What is missing takes no part in a merge. -/
theorem mergeAll_filter (vs : List Value) :
    mergeAll (vs.filter fun v => !v.isUndefined) = mergeAll vs := by
  have hfold : ∀ (ws : List Value) (v : Value),
      (ws.filter fun w => !w.isUndefined).foldl merge v = ws.foldl merge v := by
    intro ws
    induction ws with
    | nil => exact fun v => rfl
    | cons w ws ih =>
      intro v
      cases w with
      | undefined => rw [List.filter_cons_of_neg (by decide), ih, List.foldl_cons, merge_undefined]
      | _ => rw [List.filter_cons_of_pos rfl, List.foldl_cons, List.foldl_cons, ih]
  induction vs with
  | nil => rfl
  | cons v vs ih =>
    cases v with
    | undefined =>
      rw [List.filter_cons_of_neg (by decide), ih]
      -- the merge of all starts with the second value, as if it were merged over nothing
      cases vs with
      | nil => rfl
      | cons w vs => rw [mergeAll, mergeAll, List.foldl_cons, undefined_merge]
    | _ =>
      rw [List.filter_cons_of_pos rfl]
      exact hfold vs _

/-! ## Merging the same values in another order -/

/-- What is nullish but not missing is null. -/
theorem eq_null {v : Value} (h : v.isNullish = true) (hu : v.isUndefined = false) : v = .null := by
  cases v with
  | null => rfl
  | undefined => cases hu
  | _ => cases h

/-- At a leaf all pruned values say the same, unless something is missing. -/
theorem PrunedFrom.alike {a b x : Value} (ha : a.PrunedFrom x) (hb : b.PrunedFrom x)
    (hua : a.isUndefined = false) (hub : b.isUndefined = false) (harray : x.form ≠ .array)
    (hobject : x.form ≠ .object) : a.Alike b := by
  cases ha with
  | nullish ha hx =>
    cases hb with
    | nullish hb _ =>
      rw [eq_null ha hua, eq_null hb hub]
      exact .null
    | _ => cases hx
  | @number m x h =>
    cases hb with
    | nullish _ hx => cases hx
    | @number n _ h' =>
      refine .number ?_
      rcases h with h | rfl
      · rcases h' with h' | rfl
        · exact .inl (Number.same_trans h (Number.same_comm n x ▸ h'))
        · exact .inl h
      · rcases h' with h' | rfl
        · exact .inl (Number.same_comm n m ▸ h')
        · exact .inr rfl
  | array => exact absurd rfl harray
  | object => exact absurd rfl hobject
  | _ =>
    cases hb with
    | nullish _ hx => cases hx
    | _ => first | exact .bool _ | exact .bigint _ | exact .string _ | exact .date _

theorem PrunedFrom.form_eq {y x : Value} (h : y.PrunedFrom x) : y.form = x.form := by
  cases h with
  | nullish hy hx => rw [isNullish_iff.mp hy, isNullish_iff.mp hx]
  | _ => rfl

theorem PrunedFrom.item {y x : Value} (h : y.PrunedFrom x) (hx : x.form = .array) (i : Nat) :
    (y.item i).PrunedFrom (x.item i) := by
  cases h with
  | array h => exact h i
  | nullish _ hx' => rw [isNullish_iff.mp hx'] at hx; cases hx
  | _ => cases hx

/-- A member that is there is pruned from the member of the object. -/
theorem PrunedFrom.get {y x : Value} (h : y.PrunedFrom x) (hx : x.form = .object) (k : String) :
    (y.get k).isUndefined = true ∨ (y.get k).PrunedFrom (x.get k) := by
  rw [eq_object_of_form (h.form_eq.trans hx)]
  show (((y.fields.get? k).getD .undefined).isUndefined = true ∨ _)
  cases hk : y.fields.get? k with
  | none => exact .inl rfl
  | some w =>
    have hmem : (k, w) ∈ y.fields := Entries.mem_of_get? hk
    refine .inr ?_
    show ((y.fields.get? k).getD .undefined).PrunedFrom (x.get k)
    rw [hk]
    exact h.member hmem

/-- A tidy value that is pruned from `x` and not missing. -/
structure Extract (x v : Value) : Prop where
  pruned : v.PrunedFrom x
  tidy : v.isTidy = true
  present : v.isUndefined = false

theorem Extract.merge {x a b : Value} (ha : Extract x a) (hb : Extract x b) :
    Extract x (a.merge b) where
  pruned := ha.pruned.merge hb.pruned
  tidy := isTidy_merge a b ha.tidy hb.tidy
  present := by
    have hb := hb.present
    cases b with
    | undefined => cases hb
    | array => cases a <;> rfl
    | object => cases a <;> rfl
    | _ => cases a <;> rfl

theorem Extract.mergeAll {x : Value} {vs : List Value} (hne : vs ≠ [])
    (h : ∀ v ∈ vs, Extract x v) : Extract x (mergeAll vs) :=
  mergeAll_induction (fun _ _ => Extract.merge) hne h

/-- Values pruned from `x`, of which some may be missing, are merged to values that are alike in
whatever order they come and however often. -/
def MergesAlike (x : Value) : Prop :=
  ∀ vs ws : List Value, (∀ v, v ∈ vs ↔ v ∈ ws) →
    (∀ v ∈ vs, v.isUndefined = true ∨ v.PrunedFrom x) → (∀ v ∈ vs, v.isTidy = true) →
      (Value.mergeAll vs).Alike (Value.mergeAll ws)

/-- The values at one place are the same in any order. -/
theorem mem_map_iff_of_mem_iff {vs ws : List Value} (h : ∀ v, v ∈ vs ↔ v ∈ ws)
    (read : Value → Value) (v : Value) : v ∈ vs.map read ↔ v ∈ ws.map read := by
  rw [List.mem_map, List.mem_map]
  exact exists_congr fun u => and_congr_left fun _ => h u

section

variable {x : Value} {vs ws : List Value} (hvne : vs ≠ []) (hwne : ws ≠ [])
  (hsame : ∀ v, v ∈ vs ↔ v ∈ ws) (hvs : ∀ v ∈ vs, Extract x v)
include hvne hwne hsame hvs

theorem alike_mergeAll_array (hx : x.form = .array) (h : ∀ i, MergesAlike (x.item i)) :
    (mergeAll vs).Alike (mergeAll ws) := by
  have hws : ∀ v ∈ ws, Extract x v := fun v hv => hvs v ((hsame v).mpr hv)
  have hform : ∀ v, Extract x v → v.form = .array := fun v hv => hv.pruned.form_eq.trans hx
  have hv := hform _ (Extract.mergeAll hvne hvs)
  have hw := hform _ (Extract.mergeAll hwne hws)
  have hlength : ∀ i, i < (mergeAll vs).items.length ↔ i < (mergeAll ws).items.length := by
    intro i
    have hP : ∀ a b, Extract x a → Extract x b →
        (i < (a.merge b).items.length ↔ i < a.items.length ∨ i < b.items.length) :=
      fun a b ha hb => lt_length_merge (hform a ha) (hform b hb)
    rw [has_mergeAll (P := fun v => i < v.items.length) (fun _ _ => Extract.merge) hP hvne hvs,
      has_mergeAll (P := fun v => i < v.items.length) (fun _ _ => Extract.merge) hP hwne hws]
    exact exists_congr fun v => and_congr_left fun _ => hsame v
  have hitem : ∀ i, ((mergeAll vs).item i).Alike ((mergeAll ws).item i) := by
    intro i
    have hread : ∀ a b, Extract x a → Extract x b →
        (a.merge b).item i = (a.item i).merge (b.item i) :=
      fun a b ha hb => item_merge (hform a ha) (hform b hb) i
    rw [read_mergeAll (fun _ _ => Extract.merge) (fun v => v.item i) hread hvne hvs,
      read_mergeAll (fun _ _ => Extract.merge) (fun v => v.item i) hread hwne hws]
    refine h i _ _ (mem_map_iff_of_mem_iff hsame _) (List.forall_mem_map.mpr fun v hv => ?_)
      (List.forall_mem_map.mpr fun v hv => isTidy_item (hvs v hv).tidy i)
    exact .inr ((hvs v hv).pruned.item hx i)
  rw [eq_array_of_form hv, eq_array_of_form hw] at hitem ⊢
  refine .array ?_ hitem
  have hle := hlength (mergeAll vs).items.length
  have hge := hlength (mergeAll ws).items.length
  omega

theorem alike_mergeAll_object (hx : x.form = .object) (h : ∀ k, MergesAlike (x.get k)) :
    (mergeAll vs).Alike (mergeAll ws) := by
  have hws : ∀ v ∈ ws, Extract x v := fun v hv => hvs v ((hsame v).mpr hv)
  have hform : ∀ v, Extract x v → v.form = .object := fun v hv => hv.pruned.form_eq.trans hx
  have hv := Extract.mergeAll hvne hvs
  have hw := Extract.mergeAll hwne hws
  have hkeys : ∀ k, k ∈ (mergeAll vs).fields.keys ↔ k ∈ (mergeAll ws).fields.keys := by
    intro k
    have hP : ∀ a b, Extract x a → Extract x b →
        (k ∈ (a.merge b).fields.keys ↔ k ∈ a.fields.keys ∨ k ∈ b.fields.keys) :=
      fun a b ha hb => mem_keys_merge (hform a ha) (hform b hb)
    rw [has_mergeAll (P := fun v => k ∈ v.fields.keys) (fun _ _ => Extract.merge) hP hvne hvs,
      has_mergeAll (P := fun v => k ∈ v.fields.keys) (fun _ _ => Extract.merge) hP hwne hws]
    exact exists_congr fun v => and_congr_left fun _ => hsame v
  have hget : ∀ k, ((mergeAll vs).get k).Alike ((mergeAll ws).get k) := by
    intro k
    have hread : ∀ a b, Extract x a → Extract x b → (a.merge b).get k = (a.get k).merge (b.get k) :=
      fun a b ha hb => get_merge (hform a ha) (hform b hb) hb.tidy k
    rw [read_mergeAll (fun _ _ => Extract.merge) (fun v => v.get k) hread hvne hvs,
      read_mergeAll (fun _ _ => Extract.merge) (fun v => v.get k) hread hwne hws]
    refine h k _ _ (mem_map_iff_of_mem_iff hsame _) (List.forall_mem_map.mpr fun v hv => ?_)
      (List.forall_mem_map.mpr fun v hv => isTidy_get (hvs v hv).tidy k)
    exact (hvs v hv).pruned.get hx k
  have hperm := (List.perm_ext_iff_of_nodup (nodup_keys_fields hv.tidy)
    (nodup_keys_fields hw.tidy)).mpr hkeys
  rw [eq_object_of_form (hform _ hv), eq_object_of_form (hform _ hw)] at hget ⊢
  exact .object hperm hget

end

/-- **The same pruned values, in any order and any number, are merged to values that are alike.** -/
theorem alike_mergeAll (x : Value) : MergesAlike x := by
  -- the places of merged values are merged values again, so the induction is on what all of them
  -- were pruned from
  induction x using depth_induction with | step x ih => ?_
  intro vs ws hsame hpruned htidy
  have hpresent : ∀ v, v ∈ vs.filter (fun v => !v.isUndefined) ↔
      v ∈ ws.filter (fun v => !v.isUndefined) := by
    intro v
    rw [List.mem_filter, List.mem_filter, hsame v]
  have hvs : ∀ v ∈ vs.filter (fun v => !v.isUndefined), Extract x v := by
    intro v hv
    obtain ⟨hv, hu⟩ := List.mem_filter.mp hv
    have hu : v.isUndefined = false := by simpa using hu
    exact ⟨(hpruned v hv).resolve_left (Bool.eq_false_iff.mp hu), htidy v hv, hu⟩
  rw [← mergeAll_filter vs, ← mergeAll_filter ws]
  generalize vs.filter (fun v => !v.isUndefined) = vs at hpresent hvs ⊢
  generalize ws.filter (fun v => !v.isUndefined) = ws at hpresent ⊢
  by_cases hnil : vs = []
  · have hnil' : ws = [] := List.eq_nil_iff_forall_not_mem.mpr fun v hv => by
      rw [← hpresent v, hnil] at hv
      cases hv
    rw [hnil, hnil']
    exact .undefined
  have hnil' : ws ≠ [] := by
    rintro rfl
    exact hnil (List.eq_nil_iff_forall_not_mem.mpr fun v hv =>
      List.not_mem_nil ((hpresent v).mp hv))
  cases x with
  | array items =>
    exact alike_mergeAll_array hnil hnil' hpresent hvs rfl fun i => ih _ (depth_item_lt items i)
  | object ms =>
    exact alike_mergeAll_object hnil hnil' hpresent hvs rfl fun k => ih _ (depth_get_lt ms k)
  | _ =>
    have hv := Extract.mergeAll hnil hvs
    have hw := Extract.mergeAll hnil' fun v hv => hvs v ((hpresent v).mpr hv)
    exact hv.pruned.alike hw.pruned hv.present hw.present (by simp [form]) (by simp [form])

end Value

namespace Graph

variable {g : Graph}

/-- **The order and the repetition of the members of a union do not matter.** Two unions with the
same members accept the same values, and what they make of a value differs in the order of keys
and the sign of zero only. -/
theorem Guarded.anyOf_alike_of_mem_iff (hg : g.Guarded) (hd : g.isTidy = true) (p : Policy)
    {members members' : List Shape} (h : ∀ s, s ∈ members ↔ s ∈ members')
    (hs : ∀ s ∈ members, s.isTidy = true) {v : Value} (ht : v.isTidy = true) :
    g.accepts p (.anyOf members) v = g.accepts p (.anyOf members') v ∧
      (g.accepts p (.anyOf members) v = true →
        ∃ w w', g.parse p (.anyOf members) v = .ok w ∧ g.parse p (.anyOf members') v = .ok w' ∧
          w.Alike w') := by
  have hsame : g.accepts p (.anyOf members) v = g.accepts p (.anyOf members') v := by
    rw [accepts_anyOf, accepts_anyOf, Bool.eq_iff_iff, List.any_eq_true, List.any_eq_true]
    exact exists_congr fun s => and_congr_left fun _ => h s
  refine ⟨hsame, fun ha => ?_⟩
  have ha' : g.accepts p (.anyOf members') v = true := hsame ▸ ha
  refine ⟨_, _, hg.parse_eq ha, hg.parse_eq ha', ?_⟩
  rw [hg.parsed_anyOf ha, hg.parsed_anyOf ha']
  refine Value.alike_mergeAll v _ _ (fun w => ?_) (List.forall_mem_map.mpr fun s hmem => ?_)
    (List.forall_mem_map.mpr fun s hmem => ?_)
  · rw [List.mem_map, List.mem_map]
    refine exists_congr fun s => and_congr_left fun _ => ?_
    rw [mem_accepting, mem_accepting, h s]
  · exact .inr (hg.prunedFrom_parsed s v ht (mem_accepting.mp hmem).2)
  · obtain ⟨hmem, has⟩ := mem_accepting.mp hmem
    exact (hg.makes s v has).isTidy hd (hs s hmem) ht

/-- What a fork is, and what it shows of itself in two other respects. -/
def forkViews : List Shape :=
  [.ref 2 "Tree", .object [("age", .bigint), ("kind", .any)] [],
    .object [("parts", .array (.object [("at", .any)] []))] []]

/-- The same shapes, some of them twice, in another order. -/
def shuffledForkViews : List Shape :=
  [.object [("parts", .array (.object [("at", .any)] []))] [],
    .object [("age", .bigint), ("kind", .any)] [], .ref 2 "Tree",
    .object [("parts", .array (.object [("at", .any)] []))] [], .ref 2 "Tree"]

theorem anyOf_alike_soundFork :
    trees.isTidy = true ∧ (∀ s, s ∈ forkViews ↔ s ∈ shuffledForkViews) ∧
      (∀ s ∈ forkViews, s.isTidy = true) ∧ soundFork.isTidy = true ∧
      trees.accepts {} (.anyOf forkViews) soundFork = true ∧
      ∃ w w', trees.parse {} (.anyOf forkViews) soundFork = .ok w ∧
        trees.parse {} (.anyOf shuffledForkViews) soundFork = .ok w' ∧ w.Alike w' :=
  have hd : trees.isTidy = true := by decide
  have h : ∀ s, s ∈ forkViews ↔ s ∈ shuffledForkViews := by
    intro s
    simp only [forkViews, shuffledForkViews, List.mem_cons, List.not_mem_nil, or_false]
    tauto
  have hs : ∀ s ∈ forkViews, s.isTidy = true := List.all_eq_true.mp (by decide)
  have ht : soundFork.isTidy = true := by decide +kernel
  have ha : trees.accepts {} (.anyOf forkViews) soundFork = true := by decide +kernel
  ⟨hd, h, hs, ht, ha, (trees_guarded.anyOf_alike_of_mem_iff hd {} h hs ht).2 ha⟩

end Graph

end ShapeGraph
