import Mathlib.Data.List.Forall2
import ShapeGraph.Proofs.Distinct

/-!
# Shapes in another order

Some of what a shape lists can be listed in another order: the properties and the signatures of an
object, the branches of a tagged union, the literals of a set, the names of formats. A shape is
rearranged when this is done to it and, at any depth, to the shapes inside it.

Properties and branches are told apart by their names, so for them it is said that the names are
the same in some order, and that under each name a rearranged shape stands. Signatures have no
names: first they are moved, then each is rearranged where it stands. Which moves are meant is left
open, since not all of them are harmless.

* `Shape.Rearranged`, `Graph.Rearranged` — rearranged shapes, and graphs of such
* `Rearranged.refl` — nothing has to be moved
* `Rearranged.isTidy`, `Rearranged.guarded` — what stays as it is
-/

namespace ShapeGraph

/-! ## Lists side by side -/

section

variable {α β γ : Type} {xs : List α} {ys : List β}

theorem forall_mem_zip_self {R : α → α → Prop} (h : ∀ a ∈ xs, R a a) :
    ∀ {a b}, (a, b) ∈ xs.zip xs → R a b :=
  (List.forall₂_iff_zip.mp (List.forall₂_same.mpr h)).2

/-- Beside itself a list has every member next to itself. -/
theorem mem_zip_self {a b : α} (h : (a, b) ∈ xs.zip xs) : a ∈ xs ∧ b = a :=
  forall_mem_zip_self (R := fun a b => a ∈ xs ∧ b = a) (fun _ ha => ⟨ha, rfl⟩) h

/-- What stands in a second list stands beside something in a first one of the same length. -/
theorem exists_mem_zip (h : xs.length = ys.length) {b : β} (hb : b ∈ ys) :
    ∃ a ∈ xs, (a, b) ∈ xs.zip ys := by
  rw [← List.map_snd_zip (Nat.le_of_eq h.symm)] at hb
  obtain ⟨⟨a, b⟩, hab, rfl⟩ := List.mem_map.mp hb
  exact ⟨a, (List.of_mem_zip hab).1, hab⟩

theorem map_eq_map_of_zip {f : α → γ} {f' : β → γ} (hlen : xs.length = ys.length)
    (h : ∀ {a b}, (a, b) ∈ xs.zip ys → f' b = f a) : ys.map f' = xs.map f := by
  have hzip := List.forall₂_iff_zip.mpr ⟨hlen, h⟩
  clear hlen h
  induction hzip with
  | nil => rfl
  | cons hhead _ ih => rw [List.map_cons, List.map_cons, hhead, ih]

theorem all_eq_all_of_zip {f : α → Bool} {f' : β → Bool} (hlen : xs.length = ys.length)
    (h : ∀ {a b}, (a, b) ∈ xs.zip ys → f' b = f a) : ys.all f' = xs.all f := by
  have hmap := congrArg (fun bs => bs.all id) (map_eq_map_of_zip hlen h)
  rwa [List.all_map, List.all_map] at hmap

theorem any_eq_any_of_zip {f : α → Bool} {f' : β → Bool} (hlen : xs.length = ys.length)
    (h : ∀ {a b}, (a, b) ∈ xs.zip ys → f' b = f a) : ys.any f' = xs.any f := by
  have hmap := congrArg (fun bs => bs.any id) (map_eq_map_of_zip hlen h)
  rwa [List.any_map, List.any_map] at hmap

/-- Lists that are related place by place are so with their indices. -/
theorem forall₂_zipIdx {R : α × Nat → β × Nat → Prop} (hlen : xs.length = ys.length)
    (h : ∀ {i a b}, xs[i]? = some a → (a, b) ∈ xs.zip ys → R (a, i) (b, i)) :
    List.Forall₂ R xs.zipIdx ys.zipIdx := by
  refine List.forall₂_iff_zip.mpr ⟨?_, fun {e e'} he => ?_⟩
  · rw [List.length_zipIdx, List.length_zipIdx, hlen]
  · obtain ⟨i, hi⟩ := List.getElem?_of_mem he
    obtain ⟨he, he'⟩ := List.getElem?_zip_eq_some.mp hi
    rw [List.getElem?_zipIdx, Option.map_eq_some_iff] at he he'
    obtain ⟨a, ha, rfl⟩ := he
    obtain ⟨b, hb, rfl⟩ := he'
    rw [Nat.zero_add]
    exact h ha (List.mem_of_getElem? (List.getElem?_zip_eq_some.mpr ⟨ha, hb⟩))

theorem all_zipIdx_eq_of_zip {f : α × Nat → Bool} {f' : β × Nat → Bool}
    (hlen : xs.length = ys.length)
    (h : ∀ {i a b}, xs[i]? = some a → (a, b) ∈ xs.zip ys → f' (b, i) = f (a, i)) :
    ys.zipIdx.all f' = xs.zipIdx.all f := by
  have hrel := forall₂_zipIdx (R := fun e e' => f' e' = f e) hlen h
  exact all_eq_all_of_zip hrel.length_eq (List.forall₂_iff_zip.mp hrel).2

end

/-! ## Shapes -/

/-- A relation of lists of signatures that says how their order may change. -/
abbrev Moves := List (Shape × Shape) → List (Shape × Shape) → Prop

namespace Shape

/-- Whether a shape lists nothing. -/
def isPlain : Shape → Bool
  | .base _ | .any | .nullish | .never | .literal _ | .pattern .. | .date | .bigint
  | .ref .. => true
  | _ => false

/-- **A shape and the same shape with what it lists in another order**, at any depth. -/
inductive Rearranged (moves : Moves) : Shape → Shape → Prop
  | plain {s} (hs : s.isPlain = true) : Rearranged moves s s
  | stringFormats {names names'} (h : names.Perm names') :
      Rearranged moves (.stringFormats names) (.stringFormats names')
  | numberFormats {names names'} (h : names.Perm names') :
      Rearranged moves (.numberFormats names) (.numberFormats names')
  | literals {cs cs'} (h : cs.Perm cs') : Rearranged moves (.literals cs) (.literals cs')
  | closed {slots slots'} (hlen : slots.length = slots'.length)
      (h : ∀ {s s'}, (s, s') ∈ slots.zip slots' → Rearranged moves s s') :
      Rearranged moves (.tuple slots none) (.tuple slots' none)
  | opened {slots slots' rest rest'} (hlen : slots.length = slots'.length)
      (h : ∀ {s s'}, (s, s') ∈ slots.zip slots' → Rearranged moves s s')
      (hrest : Rearranged moves rest rest') :
      Rearranged moves (.tuple slots (some rest)) (.tuple slots' (some rest'))
  | allOf {members members'} (hlen : members.length = members'.length)
      (h : ∀ {s s'}, (s, s') ∈ members.zip members' → Rearranged moves s s') :
      Rearranged moves (.allOf members) (.allOf members')
  | anyOf {members members'} (hlen : members.length = members'.length)
      (h : ∀ {s s'}, (s, s') ∈ members.zip members' → Rearranged moves s s') :
      Rearranged moves (.anyOf members) (.anyOf members')
  | array {s s'} (h : Rearranged moves s s') : Rearranged moves (.array s) (.array s')
  | optional {s s'} (h : Rearranged moves s s') : Rearranged moves (.optional s) (.optional s')
  | tagged {members members' tag} {branches branches' : Entries Shape}
      (hlen : members.length = members'.length)
      (hmembers : ∀ {s s'}, (s, s') ∈ members.zip members' → Rearranged moves s s')
      (hkeys : branches.keys.Perm branches'.keys)
      (h : ∀ {k s s'}, (k, s) ∈ branches → (k, s') ∈ branches' → Rearranged moves s s') :
      Rearranged moves (.tagged members tag branches) (.tagged members' tag branches')
  | object {properties properties' : Entries Shape} {signatures moved signatures'}
      (hkeys : properties.keys.Perm properties'.keys)
      (h : ∀ {k s s'}, (k, s) ∈ properties → (k, s') ∈ properties' → Rearranged moves s s')
      (hmoves : moves signatures moved) (hlen : moved.length = signatures'.length)
      (hkey : ∀ {e e'}, (e, e') ∈ moved.zip signatures' → Rearranged moves e.1 e'.1)
      (hvalue : ∀ {e e'}, (e, e') ∈ moved.zip signatures' → Rearranged moves e.2 e'.2) :
      Rearranged moves (.object properties signatures) (.object properties' signatures')

variable {moves : Moves}

theorem parts_of_isPlain {s : Shape} (h : s.isPlain = true) : s.parts = [] := by
  cases s <;> first | rfl | cases h

/-- Contents under the same distinct names, compared name by name. -/
theorem forall_same_name {α β : Type} {R : α → β → Prop} {es : Entries α} {es' : Entries β}
    (hd : es'.keys.Nodup) (h : ∀ e ∈ es, ∃ b, es'.get? e.1 = some b ∧ R e.2 b) :
    ∀ {k a b}, (k, a) ∈ es → (k, b) ∈ es' → R a b := by
  intro k a b ha hb
  obtain ⟨c, hc, hR⟩ := h _ ha
  rw [Entries.get?_of_mem hd hb] at hc
  exact Option.some.inj hc ▸ hR

/-- **A tidy shape is rearranged when nothing is moved.** -/
theorem Rearranged.refl (hmoves : ∀ ss, moves ss ss) {s : Shape} (hs : s.isTidy = true) :
    s.Rearranged moves s := by
  induction s using parts_induction with | step s ih => ?_
  have ih : ∀ t ∈ s.parts, t.Rearranged moves t :=
    fun t ht => ih t ht (all_of_mem_parts hs ht)
  have hnamed {es : Entries Shape} (hd : es.keys.Nodup)
      (hes : ∀ t ∈ es.map (·.2), t.Rearranged moves t) :
      ∀ {k a b}, (k, a) ∈ es → (k, b) ∈ es → a.Rearranged moves b :=
    forall_same_name hd fun e he =>
      ⟨e.2, Entries.get?_of_mem hd he, hes e.2 (List.mem_map_of_mem he)⟩
  cases s with
  | stringFormats => exact .stringFormats (.refl _)
  | numberFormats => exact .numberFormats (.refl _)
  | literals => exact .literals (.refl _)
  | tuple slots rest =>
    obtain ⟨hslots, hrest⟩ := List.forall_mem_append.mp ih
    cases rest with
    | none => exact .closed rfl (forall_mem_zip_self hslots)
    | some rest =>
      exact .opened rfl (forall_mem_zip_self hslots) (hrest rest (Option.mem_toList.mpr rfl))
  | allOf members => exact .allOf rfl (forall_mem_zip_self ih)
  | anyOf members => exact .anyOf rfl (forall_mem_zip_self ih)
  | array t => exact .array (ih t List.mem_cons_self)
  | optional t => exact .optional (ih t List.mem_cons_self)
  | tagged members tag branches =>
    obtain ⟨hmembers, hbranches⟩ := List.forall_mem_append.mp ih
    exact .tagged rfl (forall_mem_zip_self hmembers) (.refl _)
      (hnamed (of_decide_eq_true (of_all hs)) hbranches)
  | object properties signatures =>
    obtain ⟨hproperties, hsignatures⟩ := List.forall_mem_append.mp ih
    refine .object (.refl _) (hnamed (nodup_properties hs) hproperties) (hmoves _) rfl ?_ ?_
    · exact forall_mem_zip_self (R := fun e e' => e.1.Rearranged moves e'.1) fun e he =>
        hsignatures e.1 (List.mem_flatMap.mpr ⟨e, he, List.mem_cons_self⟩)
    · exact forall_mem_zip_self (R := fun e e' => e.2.Rearranged moves e'.2) fun e he =>
        hsignatures e.2 (List.mem_flatMap.mpr ⟨e, he, List.mem_cons_of_mem _ List.mem_cons_self⟩)
  | _ => exact .plain rfl

/-- A tidy object is rearranged when nothing but its signatures is moved. -/
theorem Rearranged.object_of_moves (hmoves : ∀ ss, moves ss ss) {properties : Entries Shape}
    {ss ts : List (Shape × Shape)} (h : moves ss ts) (hperm : ss.Perm ts)
    (hs : (Shape.object properties ss).isTidy = true) :
    (Shape.object properties ss).Rearranged moves (Shape.object properties ts) := by
  have hparts : ∀ t ∈ (Shape.object properties ss).parts, t.Rearranged moves t :=
    fun t ht => .refl hmoves (all_of_mem_parts hs ht)
  obtain ⟨hproperties, hsignatures⟩ := List.forall_mem_append.mp hparts
  refine .object (.refl _) (forall_same_name (nodup_properties hs) fun e he => ?_) h rfl ?_ ?_
  · exact ⟨e.2, Entries.get?_of_mem (nodup_properties hs) he,
      hproperties e.2 (List.mem_map_of_mem he)⟩
  · exact forall_mem_zip_self (R := fun e e' => e.1.Rearranged moves e'.1) fun e he =>
      hsignatures e.1 (List.mem_flatMap.mpr ⟨e, hperm.mem_iff.mpr he, List.mem_cons_self⟩)
  · exact forall_mem_zip_self (R := fun e e' => e.2.Rearranged moves e'.2) fun e he =>
      hsignatures e.2 (List.mem_flatMap.mpr ⟨e, hperm.mem_iff.mpr he,
        List.mem_cons_of_mem _ List.mem_cons_self⟩)

/-- Every rearranged entry comes from an entry of the same name. -/
theorem exists_mem_of_keys_perm {es es' : Entries Shape} (h : es.keys.Perm es'.keys) {k : String}
    {s' : Shape} (hs' : (k, s') ∈ es') : ∃ s, (k, s) ∈ es := by
  obtain ⟨e, he, rfl⟩ := List.mem_map.mp (h.mem_iff.mpr (List.mem_map_of_mem hs'))
  exact ⟨e.2, he⟩

/-- **The parts of a rearranged shape are rearranged parts of the shape.** -/
theorem Rearranged.exists_part (hperm : ∀ {ss ts}, moves ss ts → ss.Perm ts) {s s' : Shape}
    (h : s.Rearranged moves s') {t' : Shape} (ht : t' ∈ s'.parts) :
    ∃ t ∈ s.parts, t.Rearranged moves t' := by
  cases h with
  | plain hs =>
    rw [parts_of_isPlain hs] at ht
    cases ht
  | stringFormats | numberFormats | literals => cases ht
  | closed hlen h =>
    rw [parts, Option.toList_none, List.append_nil] at ht ⊢
    obtain ⟨t, hmem, hzip⟩ := exists_mem_zip hlen ht
    exact ⟨t, hmem, h hzip⟩
  | opened hlen h hrest =>
    rcases List.mem_append.mp ht with ht | ht
    · obtain ⟨t, hmem, hzip⟩ := exists_mem_zip hlen ht
      exact ⟨t, List.mem_append_left _ hmem, h hzip⟩
    · obtain rfl := List.mem_singleton.mp ht
      exact ⟨_, List.mem_append_right _ List.mem_cons_self, hrest⟩
  | allOf hlen h | anyOf hlen h =>
    obtain ⟨t, hmem, hzip⟩ := exists_mem_zip hlen ht
    exact ⟨t, hmem, h hzip⟩
  | array h | optional h =>
    obtain rfl := List.mem_singleton.mp ht
    exact ⟨_, List.mem_cons_self, h⟩
  | tagged hlen hmembers hkeys h =>
    rcases List.mem_append.mp ht with ht | ht
    · obtain ⟨t, hmem, hzip⟩ := exists_mem_zip hlen ht
      exact ⟨t, List.mem_append_left _ hmem, hmembers hzip⟩
    · obtain ⟨e, he, rfl⟩ := List.mem_map.mp ht
      obtain ⟨t, hmem⟩ := exists_mem_of_keys_perm hkeys he
      exact ⟨t, List.mem_append_right _ (List.mem_map_of_mem hmem), h hmem he⟩
  | @object properties _ signatures _ _ hkeys h hmoves hlen hkey hvalue =>
    rcases List.mem_append.mp ht with ht | ht
    · obtain ⟨e, he, rfl⟩ := List.mem_map.mp ht
      obtain ⟨t, hmem⟩ := exists_mem_of_keys_perm hkeys he
      exact ⟨t, List.mem_append_left _ (List.mem_map_of_mem hmem), h hmem he⟩
    · obtain ⟨e', he', ht⟩ := List.mem_flatMap.mp ht
      obtain ⟨e, he, hzip⟩ := exists_mem_zip hlen he'
      have hmem : ∀ t ∈ [e.1, e.2], t ∈ parts (.object properties signatures) := fun t ht =>
        List.mem_append_right _ (List.mem_flatMap.mpr ⟨e, (hperm hmoves).mem_iff.mpr he, ht⟩)
      have hcases : t' = e'.1 ∨ t' = e'.2 := by simpa using ht
      rcases hcases with rfl | rfl
      · exact ⟨e.1, hmem _ List.mem_cons_self, hkey hzip⟩
      · exact ⟨e.2, hmem _ (List.mem_cons_of_mem _ List.mem_cons_self), hvalue hzip⟩

theorem Rearranged.hasDistinctNames {s s' : Shape} (h : s.Rearranged moves s')
    (hs : s.hasDistinctNames = true) : s'.hasDistinctNames = true := by
  cases h with
  | plain => exact hs
  | tagged _ _ hkeys _ => exact decide_eq_true (hkeys.nodup_iff.mp (of_decide_eq_true hs))
  | object hkeys => exact decide_eq_true (hkeys.nodup_iff.mp (of_decide_eq_true hs))
  | _ => rfl

/-- A rearranged tidy shape is tidy. -/
theorem Rearranged.isTidy (hperm : ∀ {ss ts}, moves ss ts → ss.Perm ts) {s s' : Shape}
    (h : s.Rearranged moves s') (hs : s.isTidy = true) : s'.isTidy = true := by
  induction s' using parts_induction generalizing s with | step s' ih => ?_
  refine all_of_parts (h.hasDistinctNames (of_all hs)) fun t' ht' => ?_
  obtain ⟨t, ht, h⟩ := h.exists_part hperm ht'
  exact ih t' ht' h (all_of_mem_parts hs ht)

/-- A rearranged shape leads where the shape leads. -/
theorem Rearranged.directRefs {s s' : Shape} (h : s.Rearranged moves s') {i : Nat}
    (hi : i ∈ s'.directRefs) : i ∈ s.directRefs := by
  induction h with
  | plain => exact hi
  | optional _ ih => exact ih hi
  | allOf hlen _ ih | anyOf hlen _ ih =>
    rw [Shape.directRefs, directRefsAll_eq] at hi ⊢
    obtain ⟨t', ht', hi⟩ := List.mem_flatMap.mp hi
    obtain ⟨t, ht, hzip⟩ := exists_mem_zip hlen ht'
    exact List.mem_flatMap.mpr ⟨t, ht, ih hzip hi⟩
  | tagged _ _ hkeys _ _ ih =>
    rw [Shape.directRefs, directRefsBranches_eq] at hi ⊢
    obtain ⟨e, he, hi⟩ := List.mem_flatMap.mp hi
    obtain ⟨t, ht⟩ := exists_mem_of_keys_perm hkeys he
    exact List.mem_flatMap.mpr ⟨_, ht, ih ht he hi⟩
  | _ => cases hi

end Shape

/-! ## Graphs -/

namespace Graph

variable {moves : Moves} {g g' : Graph}

/-- **A graph and the same graph with rearranged definitions**, every one under its name and at its
place. -/
structure Rearranged (moves : Moves) (g g' : Graph) : Prop where
  names : g'.names = g.names
  shapes : ∀ {i s s'}, g.shape? i = some s → g'.shape? i = some s' → s.Rearranged moves s'

/-- A tidy graph is rearranged when nothing is moved. -/
theorem Rearranged.refl (hmoves : ∀ ss, moves ss ss) (hd : g.isTidy = true) :
    g.Rearranged moves g where
  names := rfl
  shapes := by
    intro i s s' hs hs'
    obtain rfl := Option.some.inj (hs.symm.trans hs')
    obtain ⟨e, he, rfl⟩ := mem_of_shape? hs
    exact .refl hmoves (List.all_eq_true.mp hd e he)

theorem Rearranged.size (h : g.Rearranged moves g') : g'.size = g.size := by
  rw [← length_names, h.names, length_names]

/-- Both graphs have a definition at the same places. -/
theorem Rearranged.shape? (h : g.Rearranged moves g') (i : Nat) :
    Option.Rel (Shape.Rearranged moves) (g.shape? i) (g'.shape? i) := by
  have hsize := h.size
  cases hs : g.shape? i with
  | none =>
    cases hs' : g'.shape? i with
    | none => exact .none
    | some s' =>
      obtain ⟨s, hi⟩ := exists_shape?_of_lt (hsize ▸ lt_size_of_shape? hs')
      rw [hs] at hi
      cases hi
  | some s =>
    obtain ⟨s', hs'⟩ := exists_shape?_of_lt (hsize ▸ lt_size_of_shape? hs)
    rw [hs']
    exact .some (h.shapes hs hs')

theorem Rearranged.exists_shape? (h : g.Rearranged moves g') {i : Nat} {s' : Shape}
    (hs' : g'.shape? i = some s') : ∃ s, g.shape? i = some s ∧ s.Rearranged moves s' := by
  have hrel := h.shape? i
  rw [hs'] at hrel
  cases hs : g.shape? i with
  | none => rw [hs] at hrel; cases hrel
  | some s => exact ⟨s, rfl, h.shapes hs hs'⟩

/-- A rearranged tidy graph is tidy. -/
theorem Rearranged.isTidy (hperm : ∀ {ss ts}, moves ss ts → ss.Perm ts)
    (h : g.Rearranged moves g') (hd : g.isTidy = true) : g'.isTidy = true := by
  refine List.all_eq_true.mpr fun e he => ?_
  obtain ⟨i, hi⟩ := List.getElem?_of_mem he
  have hs' : g'.shape? i = some e.2 := by rw [Graph.shape?, hi]; rfl
  obtain ⟨s, hs, hrel⟩ := h.exists_shape? hs'
  obtain ⟨d, hmem, rfl⟩ := mem_of_shape? hs
  exact hrel.isTidy hperm (List.all_eq_true.mp hd d hmem)

/-- A rearranged guarded graph is guarded. -/
theorem Rearranged.guarded (h : g.Rearranged moves g') (hg : g.Guarded) : g'.Guarded := by
  have hleads : ∀ i j, g'.LeadsTo i j → g.LeadsTo i j := by
    rintro i j ⟨s', hs', hj⟩
    obtain ⟨s, hs, hrel⟩ := h.exists_shape? hs'
    exact ⟨s, hs, hrel.directRefs hj⟩
  exact fun i hi => hg i (Relation.TransGen.mono hleads i i hi)

end Graph

end ShapeGraph
