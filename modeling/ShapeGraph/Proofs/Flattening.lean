import ShapeGraph.Proofs.Definitions
import ShapeGraph.Proofs.Lossless
import ShapeGraph.Proofs.Union

/-!
# Unions in unions

Merging is not associative: a scalar between two objects replaces the first one, and so which of
them are merged first decides what is left. What the members of a union make of one value is all
pruned from that value, though, and of such values any place holds an array in all of them, or an
object in all, or in none. There merging is associative, to the order of keys. So a union among the
members of a union can be replaced by its own members.

* `merge_assoc_of_pruned` — merging values pruned from one value is associative
* `mergeAll_flatten` — what was merged before can be merged one by one
* `Guarded.anyOf_flatten` — a union among the members of a union
-/

namespace ShapeGraph

/-- Entries under the same distinct names, with the same under each, are the same. -/
theorem Entries.ext_of_keys {α : Type} {es fs : Entries α} (hes : es.keys.Nodup)
    (hkeys : es.keys = fs.keys) (h : ∀ k ∈ es.keys, es.get? k = fs.get? k) : es = fs := by
  have hfs : fs.keys.Nodup := hkeys ▸ hes
  rw [eq_filterMap_keys hes, eq_filterMap_keys hfs, ← hkeys]
  exact List.filterMap_congr fun k hk => by rw [h k hk]

namespace Value

/-! ## Values known by their places -/

theorem array_ext {xs ys : List Value} (hlen : xs.length = ys.length)
    (h : ∀ i, (array xs).item i = (array ys).item i) : array xs = array ys := by
  refine congrArg array (List.ext_getElem hlen fun i hx hy => ?_)
  have hi := h i
  simpa only [item, List.getElem?_eq_getElem hx, List.getElem?_eq_getElem hy,
    Option.getD_some] using hi

theorem object_ext {xs ys : List (String × Value)} (hxs : (Entries.keys xs).Nodup)
    (hkeys : Entries.keys xs = Entries.keys ys)
    (h : ∀ k, (object xs).get k = (object ys).get k) : object xs = object ys := by
  refine congrArg object (Entries.ext_of_keys hxs hkeys fun k hk => ?_)
  -- the key is there on both sides, so what is read stands there
  obtain ⟨v, hv⟩ := Option.isSome_iff_exists.mp (Entries.has_iff.mpr hk)
  obtain ⟨w, hw⟩ := Option.isSome_iff_exists.mp (Entries.has_iff.mpr (hkeys ▸ hk))
  have hk := h k
  simp only [get, hv, hw, Option.getD_some] at hk
  rw [hv, hw, hk]

/-! ## Merging three values -/

/-- A leaf that is not missing replaces what it is merged over. -/
theorem merge_leaf (a : Value) {b : Value} (hb : b.isLeaf = true) (hu : b.isUndefined = false) :
    a.merge b = b := by
  cases b with
  | undefined => cases hu
  | array => cases hb
  | object => cases hb
  | _ => cases a <;> rfl

/-- The keys of three merged objects do not depend on which are merged first. -/
theorem keys_mergeMembers_assoc (as : List (String × Value)) {bs cs : List (String × Value)}
    (hb : (object bs).isTidy = true) (hc : (object cs).isTidy = true) :
    Entries.keys (mergeMembers (mergeMembers as bs) cs) =
      Entries.keys (mergeMembers as (mergeMembers bs cs)) := by
  have hbs := (isTidy_object_iff.mp hb).1
  have hcs := (isTidy_object_iff.mp hc).1
  have hbcs : (Entries.keys (mergeMembers bs cs)).Nodup :=
    (isTidy_object_iff.mp (isTidy_merge _ _ hb hc)).1
  have hhas : ∀ k, Entries.has (mergeMembers as bs) k = (Entries.has as k || Entries.has bs k) := by
    intro k
    rw [Bool.eq_iff_iff, Bool.or_eq_true, Entries.has_iff, Entries.has_iff, Entries.has_iff]
    exact mem_keys_mergeMembers
  rw [keys_mergeMembers hcs, keys_mergeMembers hbs, keys_mergeMembers hbcs, keys_mergeMembers hcs,
    List.filter_append, List.filter_filter, List.append_assoc]
  simp only [hhas, Bool.not_or]

/-- **Merging values pruned from one value is associative**, also where some of them are missing. -/
theorem merge_assoc_of_pruned {x a b c : Value} (ha : a.isUndefined = true ∨ a.PrunedFrom x)
    (hb : b.isUndefined = true ∨ b.PrunedFrom x) (hc : c.isUndefined = true ∨ c.PrunedFrom x)
    (hta : a.isTidy = true) (htb : b.isTidy = true) (htc : c.isTidy = true) :
    (a.merge b).merge c = a.merge (b.merge c) := by
  -- places of merged values are merged places, so the induction is on what all were pruned from
  induction x using depth_induction generalizing a b c with | step x ih => ?_
  rcases ha with ha | ha
  · rw [isUndefined_iff.mp ha, undefined_merge, undefined_merge]
  rcases hb with hb | hb
  · rw [isUndefined_iff.mp hb, undefined_merge, merge_undefined]
  cases c with
  | undefined => rw [merge_undefined, merge_undefined]
  | array cs =>
    have hc := hc.resolve_left Bool.false_ne_true
    have hx : x.form = .array := hc.form_eq.symm
    obtain ⟨as, rfl⟩ : ∃ as, a = Value.array as := ⟨_, eq_array_of_form (ha.form_eq.trans hx)⟩
    obtain ⟨bs, rfl⟩ : ∃ bs, b = Value.array bs := ⟨_, eq_array_of_form (hb.form_eq.trans hx)⟩
    refine array_ext ?_ fun i => ?_
    · simp only [length_mergeItems, Nat.max_assoc]
    · simp only [item_mergeItems]
      refine ih _ ?_ (.inr (ha.item hx i)) (.inr (hb.item hx i)) (.inr (hc.item hx i))
        (isTidy_item hta i) (isTidy_item htb i) (isTidy_item htc i)
      rw [eq_array_of_form hx]
      exact depth_item_lt _ i
  | object cs =>
    have hc := hc.resolve_left Bool.false_ne_true
    have hx : x.form = .object := hc.form_eq.symm
    obtain ⟨as, rfl⟩ : ∃ as, a = Value.object as := ⟨_, eq_object_of_form (ha.form_eq.trans hx)⟩
    obtain ⟨bs, rfl⟩ : ∃ bs, b = Value.object bs := ⟨_, eq_object_of_form (hb.form_eq.trans hx)⟩
    have htbc : ((object bs).merge (object cs)).isTidy = true := isTidy_merge _ _ htb htc
    have htabc := isTidy_merge _ _ (isTidy_merge _ _ hta htb) htc
    refine object_ext (isTidy_object_iff.mp htabc).1 (keys_mergeMembers_assoc as htb htc)
      fun k => ?_
    -- reading under a key passes through all four merges
    show (((object as).merge (object bs)).merge (object cs)).get k =
      ((object as).merge ((object bs).merge (object cs))).get k
    rw [get_merge rfl rfl htc, get_merge rfl rfl htb, get_merge rfl rfl htbc, get_merge rfl rfl htc]
    refine ih _ ?_ (ha.get hx k) (hb.get hx k) (hc.get hx k) (isTidy_get hta k) (isTidy_get htb k)
      (isTidy_get htc k)
    rw [eq_object_of_form hx]
    exact depth_get_lt _ k
  | _ => rw [merge_leaf _ rfl rfl, merge_leaf _ rfl rfl, merge_leaf _ rfl rfl]

/-! ## Merging some values first -/

/-- A tidy value that is pruned from `x`; it may be missing. -/
structure Pruning (x v : Value) : Prop where
  pruned : v.PrunedFrom x
  tidy : v.isTidy = true

variable {x : Value}

theorem Pruning.merge {a b : Value} (ha : Pruning x a) (hb : Pruning x b) :
    Pruning x (a.merge b) where
  pruned := ha.pruned.merge hb.pruned
  tidy := isTidy_merge a b ha.tidy hb.tidy

/-- Merging over `a` what was merged is merging one by one over `a`. -/
theorem merge_foldl {a b : Value} {vs : List Value} (ha : Pruning x a) (hb : Pruning x b)
    (hvs : ∀ v ∈ vs, Pruning x v) : a.merge (vs.foldl merge b) = vs.foldl merge (a.merge b) := by
  induction vs generalizing b with
  | nil => rfl
  | cons v vs ih =>
    obtain ⟨hv, hvs⟩ := List.forall_mem_cons.mp hvs
    rw [List.foldl_cons, List.foldl_cons, ih (hb.merge hv) hvs,
      merge_assoc_of_pruned (.inr ha.pruned) (.inr hb.pruned) (.inr hv.pruned) ha.tidy hb.tidy
        hv.tidy]

/-- **What was merged before can be merged one by one**, if it is all pruned from one value. -/
theorem mergeAll_flatten {front inner : List Value} (back : List Value) (hne : inner ≠ [])
    (hfront : ∀ v ∈ front, Pruning x v) (hinner : ∀ v ∈ inner, Pruning x v) :
    mergeAll (front ++ mergeAll inner :: back) = mergeAll (front ++ (inner ++ back)) := by
  obtain ⟨b, inner, rfl⟩ := List.exists_cons_of_ne_nil hne
  cases front with
  | nil => exact (List.foldl_append ..).symm
  | cons a front =>
    obtain ⟨hb, hinner⟩ := List.forall_mem_cons.mp hinner
    have hmerged : Pruning x (mergeAll (a :: front)) :=
      mergeAll_induction (fun _ _ => Pruning.merge) (List.cons_ne_nil a front) hfront
    show List.foldl merge a (front ++ mergeAll (b :: inner) :: back) =
      List.foldl merge a (front ++ (b :: inner ++ back))
    rw [List.foldl_append, List.foldl_append, List.foldl_cons, List.foldl_append]
    exact congrArg (List.foldl merge · back) (merge_foldl hmerged hb hinner)

end Value

/-! ## Unions -/

namespace Graph

variable {g : Graph} {p : Policy}

theorem accepting_append (members others : List Shape) (v : Value) :
    g.accepting p (members ++ others) v = g.accepting p members v ++ g.accepting p others v :=
  List.filter_append ..

theorem accepting_singleton (s : Shape) (v : Value) :
    g.accepting p [s] v = if g.accepts p s v then [s] else [] :=
  List.filter_cons

/-- A union that does not accept a value has no member that does. -/
theorem accepting_eq_nil {members : List Shape} {v : Value}
    (h : g.accepts p (.anyOf members) v = false) : g.accepting p members v = [] := by
  rw [accepts_anyOf, List.any_eq_false] at h
  exact List.filter_eq_nil_iff.mpr h

/-- **A union among the members of a union can be replaced by its own members.** The two accept the
same values and make the same of them, to the order of keys. -/
theorem Guarded.anyOf_flatten (hg : g.Guarded) (hd : g.isTidy = true) (p : Policy)
    {front inner back : List Shape} (hfront : ∀ s ∈ front, s.isTidy = true)
    (hinner : ∀ s ∈ inner, s.isTidy = true) {v : Value} (ht : v.isTidy = true) :
    g.accepts p (.anyOf (front ++ [.anyOf inner] ++ back)) v =
        g.accepts p (.anyOf (front ++ inner ++ back)) v ∧
      (g.accepts p (.anyOf (front ++ inner ++ back)) v = true →
        ∃ w, g.parse p (.anyOf (front ++ [.anyOf inner] ++ back)) v = .ok w ∧
          g.parse p (.anyOf (front ++ inner ++ back)) v = .ok w) := by
  have hsame : g.accepts p (.anyOf (front ++ [.anyOf inner] ++ back)) v =
      g.accepts p (.anyOf (front ++ inner ++ back)) v := by
    simp only [accepts_anyOf, List.any_append, List.any_cons, List.any_nil, Bool.or_false]
  refine ⟨hsame, fun ha => ?_⟩
  have hpruned : ∀ members : List Shape, (∀ s ∈ members, s.isTidy = true) →
      ∀ w ∈ (g.accepting p members v).map fun s => g.parsed p s v, Value.Pruning v w := by
    intro members hmembers
    refine List.forall_mem_map.mpr fun s hs => ?_
    obtain ⟨hmem, has⟩ := mem_accepting.mp hs
    exact ⟨hg.prunedFrom_parsed s v ht has, hg.isTidy_parsed hd (hmembers s hmem) ht has⟩
  have hmade : g.parsed p (.anyOf (front ++ [.anyOf inner] ++ back)) v =
      g.parsed p (.anyOf (front ++ inner ++ back)) v := by
    rw [hg.parsed_anyOf ha, hg.parsed_anyOf (hsame.trans ha)]
    simp only [accepting_append, accepting_singleton, List.map_append, List.append_assoc]
    cases hinneraccepts : g.accepts p (.anyOf inner) v with
    | false =>
      -- the inner union takes no part, and neither do its members
      rw [accepting_eq_nil hinneraccepts]
      rfl
    | true =>
      have hflat := Value.mergeAll_flatten ((g.accepting p back v).map fun s => g.parsed p s v)
        (map_accepting_ne_nil (fun s => g.parsed p s v) hinneraccepts) (hpruned front hfront)
        (hpruned inner hinner)
      rwa [← hg.parsed_anyOf hinneraccepts] at hflat
  exact ⟨_, hg.parse_eq (hsame.trans ha), hmade ▸ hg.parse_eq ha⟩

/-- What a fork is in two respects, one of which shows in two ways. -/
theorem anyOf_flatten_soundFork :
    trees.isTidy = true ∧
      (∀ s ∈ [Shape.object [("age", .bigint)] []], s.isTidy = true) ∧
      (∀ s ∈ forkViews, s.isTidy = true) ∧ soundFork.isTidy = true ∧
      trees.accepts {}
        (.anyOf ([.object [("age", .bigint)] []] ++ forkViews ++ [.never])) soundFork = true ∧
      ∃ w, trees.parse {}
          (.anyOf ([.object [("age", .bigint)] []] ++ [.anyOf forkViews] ++ [.never])) soundFork =
            .ok w ∧
        trees.parse {} (.anyOf ([.object [("age", .bigint)] []] ++ forkViews ++ [.never]))
          soundFork = .ok w :=
  have hd : trees.isTidy = true := by decide
  have hfront : ∀ s ∈ [Shape.object [("age", .bigint)] []], s.isTidy = true :=
    List.all_eq_true.mp (by decide)
  have hinner : ∀ s ∈ forkViews, s.isTidy = true := List.all_eq_true.mp (by decide)
  have ht : soundFork.isTidy = true := by decide +kernel
  have ha : trees.accepts {}
      (.anyOf ([.object [("age", .bigint)] []] ++ forkViews ++ [.never])) soundFork = true := by
    decide +kernel
  ⟨hd, hfront, hinner, ht, ha, (trees_guarded.anyOf_flatten hd {} hfront hinner ht).2 ha⟩

end Graph

end ShapeGraph
