import ShapeGraph.Proofs.Reordering
import ShapeGraph.Proofs.Reporting

/-!
# The order of keys

Nothing that is asked of a value depends on the order in which its objects have their keys. Two
values that differ in that order only are both accepted or both rejected; what is made of them
differs in that order only; and the same is reported of both, in another order.

* `Shuffled` — the same list in another order, up to a relation of its members
* `Value.Reordered` — values that differ in the order of keys, at any depth
* `DecodeError.Reordered` — errors that differ so in what was received
* `Guarded.accepts_reordered`, `Guarded.parsed_reordered`, `Guarded.report_reordered`
* `Guarded.decode_reordered` — all three together
-/

namespace ShapeGraph

/-! ## Shuffled lists -/

/-- The second list has what the first one has in some order, up to a relation. -/
def Shuffled {α β : Type} (R : α → β → Prop) (xs : List α) (ys : List β) : Prop :=
  ∃ zs, xs.Perm zs ∧ List.Forall₂ R zs ys

namespace Shuffled

variable {α β γ δ : Type} {R : α → β → Prop} {S : γ → δ → Prop} {xs xs' : List α} {ys ys' : List β}

theorem of_forall₂ (h : List.Forall₂ R xs ys) : Shuffled R xs ys := ⟨xs, .refl _, h⟩

theorem nil : Shuffled R [] [] := of_forall₂ .nil

theorem singleton {a : α} {b : β} (h : R a b) : Shuffled R [a] [b] := of_forall₂ (.cons h .nil)

theorem self {R : α → α → Prop} (h : ∀ a ∈ xs, R a a) : Shuffled R xs xs :=
  of_forall₂ (List.forall₂_same.mpr h)

theorem append (h : Shuffled R xs ys) (h' : Shuffled R xs' ys') :
    Shuffled R (xs ++ xs') (ys ++ ys') := by
  obtain ⟨zs, hperm, hrel⟩ := h
  obtain ⟨zs', hperm', hrel'⟩ := h'
  exact ⟨zs ++ zs', hperm.append hperm', List.rel_append hrel hrel'⟩

theorem isEmpty_eq (h : Shuffled R xs ys) : ys.isEmpty = xs.isEmpty := by
  obtain ⟨zs, hperm, hrel⟩ := h
  rw [Bool.eq_iff_iff, List.isEmpty_iff_length_eq_zero, List.isEmpty_iff_length_eq_zero,
    hperm.length_eq, hrel.length_eq]

theorem exists_left (h : Shuffled R xs ys) {b : β} (hb : b ∈ ys) : ∃ a ∈ xs, R a b := by
  obtain ⟨zs, hperm, hrel⟩ := h
  obtain ⟨a, ha, hzip⟩ := exists_mem_zip hrel.length_eq hb
  exact ⟨a, hperm.mem_iff.mpr ha, List.forall₂_zip hrel hzip⟩

theorem exists_right (h : Shuffled R xs ys) {a : α} (ha : a ∈ xs) : ∃ b ∈ ys, R a b := by
  obtain ⟨zs, hperm, hrel⟩ := h
  obtain ⟨b, hb, hzip⟩ := exists_mem_zip hrel.flip.length_eq (hperm.mem_iff.mp ha)
  exact ⟨b, hb, List.forall₂_zip hrel.flip hzip⟩

/-- What is asked of all members has one answer. -/
theorem all_eq (h : Shuffled R xs ys) {f : α → Bool} {f' : β → Bool}
    (hf : ∀ {a b}, a ∈ xs → R a b → f' b = f a) : ys.all f' = xs.all f := by
  rw [Bool.eq_iff_iff, List.all_eq_true, List.all_eq_true]
  constructor
  · intro hall a ha
    obtain ⟨b, hb, hrel⟩ := h.exists_right ha
    rw [← hf ha hrel]
    exact hall b hb
  · intro hall b hb
    obtain ⟨a, ha, hrel⟩ := h.exists_left hb
    rw [hf ha hrel]
    exact hall a ha

theorem filter (h : Shuffled R xs ys) {q : α → Bool} {q' : β → Bool}
    (hq : ∀ {a b}, R a b → q' b = q a) : Shuffled R (xs.filter q) (ys.filter q') := by
  obtain ⟨zs, hperm, hrel⟩ := h
  refine ⟨zs.filter q, hperm.filter q, List.rel_filter (fun a b hab => ?_) hrel⟩
  show q a = true ↔ q' b = true
  rw [hq hab]

theorem map (h : Shuffled R xs ys) {f : α → γ} {f' : β → δ}
    (hf : ∀ {a b}, R a b → S (f a) (f' b)) : Shuffled S (xs.map f) (ys.map f') := by
  obtain ⟨zs, hperm, hrel⟩ := h
  exact ⟨zs.map f, hperm.map f, List.rel_map (@hf) hrel⟩

theorem flatMap (h : Shuffled R xs ys) {f : α → List γ} {f' : β → List δ}
    (hf : ∀ {a b}, a ∈ xs → R a b → Shuffled S (f a) (f' b)) :
    Shuffled S (xs.flatMap f) (ys.flatMap f') := by
  obtain ⟨zs, hperm, hrel⟩ := h
  replace hf : ∀ {a b}, a ∈ zs → R a b → Shuffled S (f a) (f' b) :=
    fun ha => hf (hperm.mem_iff.mpr ha)
  have hmoved : Shuffled S (zs.flatMap f) (ys.flatMap f') := by
    clear hperm
    induction hrel with
    | nil => exact nil
    | cons hhead _ ih =>
      rw [List.flatMap_cons, List.flatMap_cons]
      exact (hf List.mem_cons_self hhead).append (ih fun ha => hf (List.mem_cons_of_mem _ ha))
  obtain ⟨ws, hperm', hrel'⟩ := hmoved
  exact ⟨ws, (hperm.flatMap_right f).trans hperm', hrel'⟩

/-- Lists made of the members of one list. -/
theorem flatMap_self {f : α → List γ} {f' : α → List δ}
    (hf : ∀ a ∈ xs, Shuffled S (f a) (f' a)) : Shuffled S (xs.flatMap f) (xs.flatMap f') := by
  refine (self (R := Eq) fun _ _ => rfl).flatMap fun {a b} ha hab => ?_
  subst hab
  exact hf a ha

end Shuffled

/-! ## Reordered values -/

namespace Value

/-- **The values differ in the order in which their objects have keys, at any depth.** -/
def Reordered : Value → Value → Prop := Like Eq

theorem Reordered.refl (v : Value) : v.Reordered v := Like.refl (fun _ => rfl) v

/-- Members under one key with values like each other. -/
def LikeMembers (R : Number → Number → Prop) (m m' : String × Value) : Prop :=
  m'.1 = m.1 ∧ m.2.Like R m'.2

/-- **Objects are like each other when their members are, in some order.** -/
theorem like_object_iff {R : Number → Number → Prop} {ms ms' : List (String × Value)}
    (hd : (Entries.keys ms).Nodup) :
    (object ms).Like R (object ms') ↔ Shuffled (LikeMembers R) ms ms' := by
  constructor
  · intro h
    cases h with
    | object hkeys h =>
      have hd' : (Entries.keys ms').Nodup := hkeys.nodup_iff.mp hd
      have hread : ∀ {ms : List (String × Value)}, (Entries.keys ms).Nodup → ∀ m ∈ ms,
          (Value.object ms).get m.1 = m.2 := fun hd m hm =>
        congrArg (·.getD Value.undefined) (Entries.get?_of_mem hd hm)
      refine ⟨(Entries.keys ms').map fun k => (k, (Value.object ms).get k), ?_, ?_⟩
      · have hself : ms = (Entries.keys ms).map fun k => (k, (Value.object ms).get k) := by
          rw [Entries.keys, List.map_map]
          refine (List.map_id ms).symm.trans (List.map_congr_left fun m hm => ?_)
          exact Prod.ext rfl (hread hd m hm).symm
        nth_rewrite 1 [hself]
        exact hkeys.map _
      · rw [Entries.keys, List.map_map, List.forall₂_map_left_iff, List.forall₂_same]
        exact fun m hm => ⟨rfl, hread hd' m hm ▸ h m.1⟩
  · intro h
    have hkeys : (Entries.keys ms).Perm (Entries.keys ms') := by
      obtain ⟨zs, hperm, hrel⟩ := h
      have hzs : Entries.keys ms' = Entries.keys zs :=
        map_eq_map_of_zip hrel.length_eq fun hzip => (List.forall₂_zip hrel hzip).1
      rw [hzs]
      exact hperm.map _
    refine LikeFields.object (fun k => Entries.rel_get? hkeys fun {a b} ha hb => ?_) hd
      (hkeys.nodup_iff.mp hd)
    obtain ⟨⟨j, a'⟩, ha', rfl, hlike⟩ := h.exists_left hb
    obtain rfl : a' = a := Entries.eq_of_mem hd ha' ha
    exact hlike

theorem Reordered.tagKey?_eq {v v' : Value} (h : v.Reordered v') : v'.tagKey? = v.tagKey? := by
  cases h with
  | number h => rw [h]
  | _ => rfl

theorem Reordered.isNullish_eq {v v' : Value} (h : v.Reordered v') :
    v'.isNullish = v.isNullish := by
  cases h <;> rfl

theorem Reordered.isObject_eq {v v' : Value} (h : v.Reordered v') : v'.isObject = v.isObject := by
  cases h <;> rfl

end Value

theorem Literal.holds_reordered {v v' : Value} (h : v.Reordered v') (c : Literal) :
    c.holds v' = c.holds v := by
  cases h with
  | number h => rw [h]
  | array | object => cases c <;> rfl
  | _ => rfl

/-- The undeclared members of reordered objects are the same in some order. -/
theorem Shape.shuffled_undeclared {properties : Entries Shape} {ms ms' : List (String × Value)}
    (h : Shuffled (Value.LikeMembers Eq) ms ms') :
    Shuffled (Value.LikeMembers Eq) (undeclared properties ms) (undeclared properties ms') :=
  h.filter fun hm => by rw [hm.1]

namespace Graph

variable {g : Graph} {p : Policy}

/-! ## Acceptance -/

/-- What has to be known of the parts of a question: the order of keys does not show in whether they
are accepted. -/
def PartsAcceptReordered (g : Graph) (p : Policy) (s : Shape) (v : Value) : Prop :=
  ∀ {t w}, g.Part (t, w) (s, v) → ∀ {w'}, w.Reordered w' → g.accepts p t w' = g.accepts p t w

theorem accepts_reordered_of_keepsValues {s : Shape} {v v' : Value} (hs : s.keepsValues = true)
    (h : v.Reordered v') : g.accepts p s v' = g.accepts p s v := by
  cases h with
  | number h => rw [h]
  | array | object =>
    cases s with
    | base type => cases type <;> rfl
    | _ => first | rfl | cases hs
  | _ => rfl

theorem PartsAcceptReordered.items {t : Shape} {xs ys : List Value}
    (hparts : ∀ {w w'}, w ∈ xs → w.Reordered w' → g.accepts p t w' = g.accepts p t w)
    (h : List.Forall₂ Value.Reordered xs ys) :
    (ys.all fun w => g.accepts p t w) = xs.all fun w => g.accepts p t w :=
  (Shuffled.of_forall₂ h).all_eq fun hw hrel => hparts hw hrel

theorem PartsAcceptReordered.tuple (hg : g.Guarded) {slots : List Shape} {rest : Option Shape}
    {xs ys : List Value} (hparts : g.PartsAcceptReordered p (.tuple slots rest) (.array xs))
    (h : (Value.array xs).Reordered (.array ys)) :
    g.accepts p (.tuple slots rest) (.array ys) = g.accepts p (.tuple slots rest) (.array xs) := by
  have hitems : List.Forall₂ Value.Reordered xs ys := h.forall₂_items
  have hslots : (slots.zipIdx.all fun e => g.accepts p e.1 ((Value.array ys).item e.2)) =
      slots.zipIdx.all fun e => g.accepts p e.1 ((Value.array xs).item e.2) :=
    all_congr_of_mem fun e he =>
      hparts (.slot (List.mem_zipIdx_iff_getElem?.mp he)) (Value.Like.item h e.2)
  cases rest with
  | none => rw [hg.accepts_tuple_closed, hg.accepts_tuple_closed, hslots, hitems.length_eq]
  | some t =>
    rw [hg.accepts_tuple_open, hg.accepts_tuple_open, hslots]
    congr 1
    exact items (fun hw => hparts (.rest hw)) (List.forall₂_drop _ hitems)

theorem PartsAcceptReordered.admits {properties : Entries Shape}
    {signatures : List (Shape × Shape)} {ms : List (String × Value)}
    (hparts : g.PartsAcceptReordered p (.object properties signatures) (.object ms))
    {e : Shape × Shape} (he : e ∈ signatures) {m m' : String × Value} (hm : m ∈ ms)
    (h : Value.LikeMembers Eq m m') : g.admits p m' e = g.admits p m e := by
  rw [Graph.admits, Graph.admits, h.1, hparts (.member he hm) h.2]

theorem PartsAcceptReordered.object (hg : g.Guarded) {properties : Entries Shape}
    {signatures : List (Shape × Shape)} {ms ms' : List (String × Value)}
    (hparts : g.PartsAcceptReordered p (.object properties signatures) (.object ms))
    (hd : (Entries.keys ms).Nodup) (h : (Value.object ms).Reordered (.object ms')) :
    g.accepts p (.object properties signatures) (.object ms') =
      g.accepts p (.object properties signatures) (.object ms) := by
  have hothers : Shuffled (Value.LikeMembers Eq) (Shape.undeclared properties ms)
      (Shape.undeclared properties ms') :=
    Shape.shuffled_undeclared ((Value.like_object_iff hd).mp h)
  rw [hg.accepts_object, hg.accepts_object, hothers.isEmpty_eq]
  congr 1
  · exact all_congr_of_mem fun e he => hparts (.property he) (Value.Like.get h e.1)
  · congr 1
    refine hothers.all_eq fun hm hrel => any_congr_of_mem fun e he => ?_
    exact hparts.admits he (Shape.mem_undeclared.mp hm).1 hrel

/-- **A value in another order of keys is accepted when the value is.** -/
theorem Guarded.accepts_reordered (hg : g.Guarded) (s : Shape) (v : Value) :
    ∀ {v'}, v.isTidy = true → v.Reordered v' → g.accepts p s v' = g.accepts p s v := by
  induction s, v using hg.induction with | step s v ih => ?_
  intro v' hv h
  have hparts : g.PartsAcceptReordered p s v := fun hp => ih _ _ hp (hp.isTidy_value hv)
  cases s with
  | never => rfl
  | literal c => exact Literal.holds_reordered h c
  | literals cs => exact any_congr_of_mem fun c _ => Literal.holds_reordered h c
  | ref i name =>
    rw [hg.accepts_ref, hg.accepts_ref]
    cases ht : g.shape? i with
    | none => rfl
    | some t => exact hparts (.target ht) h
  | optional t => rw [accepts_optional, accepts_optional, h.isNullish_eq, hparts .inner h]
  | allOf members =>
    rw [accepts_allOf, accepts_allOf, h.isObject_eq]
    congr 1
    exact all_congr_of_mem fun t ht => hparts (.conjunct ht) h
  | anyOf members =>
    rw [accepts_anyOf, accepts_anyOf]
    exact any_congr_of_mem fun t ht => hparts (.disjunct ht) h
  | tagged members tag branches =>
    have htag : (v'.get tag).tagKey? = (v.get tag).tagKey? :=
      Value.Reordered.tagKey?_eq (Value.Like.get h tag)
    rw [accepts_tagged, accepts_tagged, h.isObject_eq, htag]
    congr 2
    funext key
    cases hb : Entries.get? branches key with
    | none => rfl
    | some t => exact hparts (.branch (Entries.mem_of_get? hb)) h
  | array t =>
    cases v with
    | array xs =>
      cases v' with
      | array ys =>
        rw [hg.accepts_array, hg.accepts_array]
        exact PartsAcceptReordered.items (fun hw => hparts (.item hw)) (Value.Like.forall₂_items h)
      | _ => cases h
    | _ => cases h; rfl
  | tuple slots rest =>
    cases v with
    | array xs =>
      cases v' with
      | array ys => exact hparts.tuple hg h
      | _ => cases h
    | _ => cases h; cases rest <;> rfl
  | object properties signatures =>
    cases v with
    | object ms =>
      cases v' with
      | object ms' => exact hparts.object hg (Value.isTidy_object_iff.mp hv).1 h
      | _ => cases h
    | _ => cases h; rfl
  | _ => exact accepts_reordered_of_keepsValues rfl h

/-! ## Results -/

/-- What has to be known of the parts of a question: of parts that are accepted reordered values are
made when they are reordered. -/
def PartsMakeReordered (g : Graph) (p : Policy) (s : Shape) (v : Value) : Prop :=
  ∀ {t w}, g.Part (t, w) (s, v) → ∀ {w'}, w.Reordered w' → g.accepts p t w = true →
    (g.parsed p t w).Reordered (g.parsed p t w')

section

variable (hg : g.Guarded) (hd : g.isTidy = true) {v v' : Value} (hv : v.isTidy = true)
  (h : v.Reordered v')
include hg hd hv h

theorem PartsMakeReordered.allOf {members : List Shape}
    (hparts : g.PartsMakeReordered p (.allOf members) v)
    (hs : (Shape.allOf members).isTidy = true) (ha : g.accepts p (.allOf members) v = true) :
    (g.parsed p (.allOf members) v).Reordered (g.parsed p (.allOf members) v') := by
  have ha' := (hg.accepts_reordered (p := p) _ v hv h).trans ha
  rw [hg.parsed_allOf ha, hg.parsed_allOf ha']
  rw [accepts_allOf, Bool.and_eq_true, List.all_eq_true] at ha
  refine Value.LikeFields.object (Shape.like_joinedFields (List.forall₂_same.mpr fun t ht => ?_)
    fun _ => .none) (Shape.nodup_keys_joinedFields List.nodup_nil)
    (Shape.nodup_keys_joinedFields List.nodup_nil)
  exact ⟨hparts (.conjunct ht) h (ha.2 t ht),
    hg.isTidy_parsed hd (isTidy_of_uses hd hs (.conjunct ht)) hv (ha.2 t ht)⟩

theorem PartsMakeReordered.anyOf {members : List Shape}
    (hparts : g.PartsMakeReordered p (.anyOf members) v)
    (hs : (Shape.anyOf members).isTidy = true) (ha : g.accepts p (.anyOf members) v = true) :
    (g.parsed p (.anyOf members) v).Reordered (g.parsed p (.anyOf members) v') := by
  have ha' := (hg.accepts_reordered (p := p) _ v hv h).trans ha
  rw [hg.parsed_anyOf ha, hg.parsed_anyOf ha']
  refine Value.like_mergeAll (forall₂_accepting rfl ?_ ?_) ?_
  · intro t t' hzip
    obtain ⟨-, rfl⟩ := mem_zip_self hzip
    exact hg.accepts_reordered _ v hv h
  · intro t t' hzip hat
    obtain ⟨ht, rfl⟩ := mem_zip_self hzip
    exact hparts (.disjunct ht) h hat
  · refine List.forall_mem_map.mpr fun t ht => ?_
    obtain ⟨ht, hat⟩ := mem_accepting.mp ht
    exact hg.isTidy_parsed hd (isTidy_of_uses hd hs (.disjunct ht)) hv hat

theorem PartsMakeReordered.tagged {members : List Shape} {tag : String} {branches : Entries Shape}
    (hparts : g.PartsMakeReordered p (.tagged members tag branches) v)
    (hs : (Shape.tagged members tag branches).isTidy = true)
    (ha : g.accepts p (.tagged members tag branches) v = true) :
    (g.parsed p (.tagged members tag branches) v).Reordered
      (g.parsed p (.tagged members tag branches) v') := by
  rw [accepts_tagged, Bool.and_eq_true, Value.isObject_iff] at ha
  obtain ⟨hform, ha⟩ := ha
  obtain ⟨key, hkey, ha⟩ := (Option.any_eq_true _ _).mp ha
  obtain ⟨t, ht, hat⟩ := (Option.any_eq_true _ _).mp ha
  have htag := Value.Like.get h tag
  have hat' := (hg.accepts_reordered (p := p) t v hv h).trans hat
  rw [hg.parsed_tagged hform hkey ht hat, hg.parsed_tagged ((Value.Like.form_eq h).symm.trans hform)
    ((Value.Reordered.tagKey?_eq htag).trans hkey) ht hat']
  have hpart : g.Uses (.tagged members tag branches) t := .branch (Entries.mem_of_get? ht)
  have hmade := hparts (.branch (Entries.mem_of_get? ht)) h hat
  have htidy := hg.isTidy_parsed hd (isTidy_of_uses hd hs hpart) hv hat
  exact (hmade.fields.insert htag).object
    (Entries.nodup_keys_insert (Value.nodup_keys_fields htidy) _ _)
    (Entries.nodup_keys_insert (Value.nodup_keys_fields (hmade.isTidy htidy)) _ _)

end

theorem PartsMakeReordered.slots {slots : List Shape} {rest : Option Shape} {xs ys : List Value}
    (hparts : g.PartsMakeReordered p (.tuple slots rest) (.array xs))
    (h : (Value.array xs).Reordered (.array ys))
    (ha : ∀ e ∈ slots.zipIdx, g.accepts p e.1 ((Value.array xs).item e.2) = true) :
    List.Forall₂ Value.Reordered (Shape.slotItems (g.parsed p) slots xs 0)
      (Shape.slotItems (g.parsed p) slots ys 0) := by
  refine forall₂_slotItems Value.Like.isUndefined_eq rfl (Value.Like.forall₂_items h).length_eq ?_
  intro i t t' hslot hzip
  obtain ⟨-, rfl⟩ := mem_zip_self hzip
  exact hparts (.slot hslot) (Value.Like.item h i)
    (ha (_, i) (List.mem_zipIdx_iff_getElem?.mpr hslot))

theorem forall₂_map_reordered {t : Shape} {xs ys : List Value}
    (hparts : ∀ {w w'}, w ∈ xs → w.Reordered w' → (g.parsed p t w).Reordered (g.parsed p t w'))
    (h : List.Forall₂ Value.Reordered xs ys) : List.Forall₂ Value.Reordered
      (xs.map fun w => g.parsed p t w) (ys.map fun w => g.parsed p t w) := by
  rw [List.forall₂_map_left_iff, List.forall₂_map_right_iff]
  refine List.forall₂_iff_zip.mpr ⟨h.length_eq, fun {w w'} hzip => ?_⟩
  exact hparts (List.of_mem_zip hzip).1 (List.forall₂_zip h hzip)

theorem PartsMakeReordered.object (hg : g.Guarded) {properties : Entries Shape}
    {signatures : List (Shape × Shape)} {ms ms' : List (String × Value)}
    (hparts : g.PartsMakeReordered p (.object properties signatures) (.object ms))
    (hs : (Shape.object properties signatures).isTidy = true)
    (hv : (Value.object ms).isTidy = true) (h : (Value.object ms).Reordered (.object ms'))
    (ha : g.accepts p (.object properties signatures) (.object ms) = true) :
    (g.parsed p (.object properties signatures) (.object ms)).Reordered
      (g.parsed p (.object properties signatures) (.object ms')) := by
  have hp := Shape.nodup_properties hs
  have hms := (Value.isTidy_object_iff.mp hv).1
  have hms' := (Value.isTidy_object_iff.mp (Value.Like.isTidy h hv)).1
  have ha' := (hg.accepts_reordered (p := p) _ _ hv h).trans ha
  rw [hg.parsed_object ha, hg.parsed_object ha']
  rw [hg.accepts_object, Bool.and_eq_true, List.all_eq_true] at ha
  refine Value.LikeFields.object (.append ?_ ?_) (nodup_keys_object hp hms)
    (nodup_keys_object hp hms')
  · refine Shape.like_declaredFields hp (.refl _) fun {k t t'} ht ht' => ?_
    obtain rfl : t = t' := Entries.eq_of_mem hp ht ht'
    exact hparts (.property ht) (Value.Like.get h k) (ha.1 _ ht)
  · have hd := (Shape.keys_undeclared_sublist properties ms).nodup hms
    have hd' := (Shape.keys_undeclared_sublist properties ms').nodup hms'
    have hothers := (Value.like_object_iff hd).mpr
      (Shape.shuffled_undeclared ((Value.like_object_iff hms).mp h))
    rw [otherFields_eq, otherFields_eq]
    refine .filterMap hd hd' fun k => ?_
    have hk : Option.Rel Value.Reordered
      (Entries.get? (Shape.undeclared properties ms) k)
      (Entries.get? (Shape.undeclared properties ms') k) := hothers.fields k
    generalize hw : Entries.get? (Shape.undeclared properties ms) k = o at hk
    generalize Entries.get? (Shape.undeclared properties ms') k = o' at hk ⊢
    cases hk with
    | none => exact .none
    | @some w w' hlike =>
      have hmem : (k, w) ∈ ms := (Shape.mem_undeclared.mp (Entries.mem_of_get? hw)).1
      have haccepts : g.PartsAcceptReordered p (.object properties signatures) (.object ms) :=
        fun hp => hg.accepts_reordered _ _ (hp.isTidy_value hv)
      refine rel_madeBy_of_zip rfl ?_ ?_
      · intro e e' hzip
        obtain ⟨he, rfl⟩ := mem_zip_self hzip
        exact haccepts.admits he hmem ⟨rfl, hlike⟩
      · intro e e' hzip hadmits
        obtain ⟨he, rfl⟩ := mem_zip_self hzip
        exact hparts (.member he hmem) hlike (accepts_of_admits hadmits)

/-- **Of values in another order of keys values in another order of keys are made.** -/
theorem Guarded.parsed_reordered (hg : g.Guarded) (hd : g.isTidy = true) (s : Shape) (v : Value) :
    ∀ {v'}, s.isTidy = true → v.isTidy = true → v.Reordered v' → g.accepts p s v = true →
      (g.parsed p s v).Reordered (g.parsed p s v') := by
  induction s, v using hg.induction with | step s v ih => ?_
  intro v' hs hv h ha
  have hparts : g.PartsMakeReordered p s v := fun hp _ hw =>
    ih _ _ hp (hp.isTidy hd hs hv).1 (hp.isTidy hd hs hv).2 hw
  have ha' : g.accepts p s v' = true := (hg.accepts_reordered s v hv h).trans ha
  cases s with
  | never => cases ha
  | literal c =>
    rw [((Makes.literal ha).sound hg).2, ((Makes.literal ha').sound hg).2]
    exact .refl _
  | literals cs =>
    obtain ⟨c, hfind, hc⟩ := settles_literals ha
    have hfind' : cs.find? (·.holds v') = some c := by
      rw [← hfind]
      exact find?_congr_of_mem fun c _ => Literal.holds_reordered h c
    rw [hc.parsed_eq, ((Makes.literals hfind').sound hg).2]
    exact .refl _
  | ref i name =>
    cases ht : g.shape? i with
    | none => rw [hg.accepts_ref, ht] at ha; cases ha
    | some t =>
      rw [hg.parsed_ref ht ha, hg.parsed_ref ht ha']
      rw [hg.accepts_ref, ht] at ha
      exact hparts (.target ht) h ha
  | optional t =>
    by_cases hnull : v.isNullish = true
    · rw [parsed_optional_nullish hnull, parsed_optional_nullish (h.isNullish_eq.trans hnull)]
      exact h
    · have hnull' : ¬ v'.isNullish = true := by rwa [h.isNullish_eq]
      rw [hg.parsed_optional hnull ha, hg.parsed_optional hnull' ha']
      rw [accepts_optional, Bool.or_eq_true] at ha
      exact hparts .inner h (ha.resolve_left hnull)
  | allOf members => exact hparts.allOf hg hd hv h hs ha
  | anyOf members => exact hparts.anyOf hg hd hv h hs ha
  | tagged members tag branches => exact hparts.tagged hg hd hv h hs ha
  | array t =>
    cases v with
    | array xs =>
      cases v' with
      | array ys =>
        rw [hg.parsed_array ha, hg.parsed_array ha']
        rw [hg.accepts_array, List.all_eq_true] at ha
        exact Value.like_array_of_forall₂ (forall₂_map_reordered
          (fun hw hrel => hparts (.item hw) hrel (ha _ hw)) (Value.Like.forall₂_items h))
      | _ => cases h
    | _ => cases ha
  | tuple slots rest =>
    cases v with
    | array xs =>
      cases v' with
      | array ys =>
        cases rest with
        | none =>
          rw [hg.parsed_tuple_closed ha, hg.parsed_tuple_closed ha']
          rw [hg.accepts_tuple_closed, Bool.and_eq_true, List.all_eq_true] at ha
          exact Value.like_array_of_forall₂ (hparts.slots h ha.1)
        | some t =>
          rw [hg.parsed_tuple_open ha, hg.parsed_tuple_open ha']
          rw [hg.accepts_tuple_open, Bool.and_eq_true, List.all_eq_true, List.all_eq_true] at ha
          refine Value.like_array_of_forall₂ (List.rel_append (hparts.slots h ha.1) ?_)
          exact forall₂_map_reordered (fun hw hrel => hparts (.rest hw) hrel (ha.2 _ hw))
            (List.forall₂_drop _ (Value.Like.forall₂_items h))
      | _ => cases h
    | _ => cases rest <;> cases ha
  | object properties signatures =>
    cases v with
    | object ms =>
      cases v' with
      | object ms' => exact hparts.object hg hs hv h ha
      | _ => cases h
    | _ => cases ha
  | _ =>
    rw [((Makes.same rfl ha).sound hg).2, ((Makes.same rfl ha').sound hg).2]
    exact h

end Graph

end ShapeGraph
