import ShapeGraph.Proofs.Alike
import ShapeGraph.Proofs.Fingerprinting

/-!
# What order means to decoding

A rearranged shape accepts the same values. Of most of what a shape lists the order does not show
in what it makes of them either, except in the order of keys. But of several signatures that admit
a member the first one counts: signatures may change places only where they make the same of what
both of them admit.

* `Rearranged.accepts_eq` — a rearranged shape accepts the same values
* `Graph.Agree`, `Graph.Reorders` — signatures that may change places, and lists of them
* `Rearranged.alike_parsed` — alike values are made where signatures are only reordered
* `Guarded.rearranged_alike` — both, for everything that is accepted
* `Guarded.agree_iff` — two signatures may change places exactly when they agree
-/

namespace ShapeGraph

/-! ## Entries by name -/

theorem Entries.all_eq_of_keys_perm {α β : Type} {es : Entries α} {fs : Entries β}
    {f : String → α → Bool} {f' : String → β → Bool} (hkeys : es.keys.Perm fs.keys)
    (h : ∀ {k a b}, (k, a) ∈ es → (k, b) ∈ fs → f' k b = f k a) :
    fs.all (fun e => f' e.1 e.2) = es.all fun e => f e.1 e.2 := by
  rw [Bool.eq_iff_iff, List.all_eq_true, List.all_eq_true]
  constructor
  · rintro hall ⟨k, a⟩ ha
    obtain ⟨⟨_, b⟩, hb, rfl⟩ := List.mem_map.mp (hkeys.mem_iff.mp (List.mem_map_of_mem ha))
    rw [← h ha hb]
    exact hall _ hb
  · rintro hall ⟨k, b⟩ hb
    obtain ⟨⟨_, a⟩, ha, rfl⟩ := List.mem_map.mp (hkeys.mem_iff.mpr (List.mem_map_of_mem hb))
    rw [h ha hb]
    exact hall _ ha

/-- The same members are undeclared where the same names are declared. -/
theorem Shape.undeclared_eq_of_keys_perm {properties properties' : Entries Shape}
    (hkeys : properties.keys.Perm properties'.keys) (ms : List (String × Value)) :
    undeclared properties' ms = undeclared properties ms := by
  refine List.filter_congr fun m _ => congrArg not ?_
  rw [Bool.eq_iff_iff, Entries.has_iff, Entries.has_iff]
  exact hkeys.mem_iff.symm

namespace Graph

variable {g g' : Graph} {p : Policy} {moves : Moves}

/-! ## Acceptance -/

/-- What has to be known of the parts of a question: they accept the same when they are
rearranged. -/
def PartsAccept (g g' : Graph) (p : Policy) (moves : Moves) (s : Shape) (v : Value) : Prop :=
  ∀ {t w}, g.Part (t, w) (s, v) → ∀ {t'}, t.Rearranged moves t' →
    g'.accepts p t' w = g.accepts p t w

section

variable (hg : g.Guarded) (hg' : g'.Guarded)

include hg hg' in
/-- A reference stays as it is, but what it leads to is rearranged. -/
theorem Rearranged.accepts_ref_eq (hr : g.Rearranged moves g') {i : Nat} {name : String} {v : Value}
    (hparts : g.PartsAccept g' p moves (.ref i name) v) :
    g'.accepts p (.ref i name) v = g.accepts p (.ref i name) v := by
  rw [hg.accepts_ref, hg'.accepts_ref]
  have hrel := hr.shape? i
  generalize g'.shape? i = o' at hrel ⊢
  cases ht : g.shape? i with
  | none =>
    rw [ht] at hrel
    cases hrel
    rfl
  | some t =>
    rw [ht] at hrel
    cases hrel with
    | some hrel => exact hparts (.target ht) hrel

theorem PartsAccept.tagged {members members' : List Shape} {tag : String}
    {branches branches' : Entries Shape} {v : Value}
    (hparts : g.PartsAccept g' p moves (.tagged members tag branches) v)
    (hkeys : branches.keys.Perm branches'.keys)
    (h : ∀ {k t t'}, (k, t) ∈ branches → (k, t') ∈ branches' → t.Rearranged moves t') :
    g'.accepts p (.tagged members' tag branches') v =
      g.accepts p (.tagged members tag branches) v := by
  rw [accepts_tagged, accepts_tagged]
  congr 2
  funext key
  have hrel := Entries.rel_get? (k := key) (R := fun t t' => g'.accepts p t' v = g.accepts p t v)
    hkeys fun ht ht' => hparts (.branch ht) (h ht ht')
  generalize branches.get? key = o at hrel ⊢
  generalize branches'.get? key = o' at hrel ⊢
  cases hrel with
  | none => rfl
  | some hsame => exact hsame

include hg hg' in
theorem PartsAccept.object {properties properties' : Entries Shape}
    {signatures moved signatures' : List (Shape × Shape)} {ms : List (String × Value)}
    (hparts : g.PartsAccept g' p moves (.object properties signatures) (.object ms))
    (hkeys : properties.keys.Perm properties'.keys)
    (h : ∀ {k t t'}, (k, t) ∈ properties → (k, t') ∈ properties' → t.Rearranged moves t')
    (hperm : signatures.Perm moved) (hlen : moved.length = signatures'.length)
    (hkey : ∀ {e e'}, (e, e') ∈ moved.zip signatures' → e.1.Rearranged moves e'.1)
    (hvalue : ∀ {e e'}, (e, e') ∈ moved.zip signatures' → e.2.Rearranged moves e'.2) :
    g'.accepts p (.object properties' signatures') (.object ms) =
      g.accepts p (.object properties signatures) (.object ms) := by
  have hempty : signatures'.isEmpty = signatures.isEmpty := by
    rw [Bool.eq_iff_iff, List.isEmpty_iff_length_eq_zero, List.isEmpty_iff_length_eq_zero,
      hperm.length_eq, hlen]
  rw [hg.accepts_object, hg'.accepts_object, Shape.undeclared_eq_of_keys_perm hkeys, hempty]
  congr 1
  · exact Entries.all_eq_of_keys_perm hkeys fun ht ht' => hparts (.property ht) (h ht ht')
  · congr 1
    refine all_congr_of_mem fun m hm => ?_
    have hmem : m ∈ ms := (Shape.mem_undeclared.mp hm).1
    rw [hperm.any_eq]
    refine any_eq_any_of_zip hlen fun hzip => ?_
    have he := hperm.mem_iff.mpr (List.of_mem_zip hzip).1
    rw [admits, admits, hparts (.key he hmem) (hkey hzip), hparts (.member he hmem) (hvalue hzip)]

end

/-- **A rearranged shape accepts the same values**, also where the definitions of the graph are
rearranged. -/
theorem Rearranged.accepts_eq (hperm : ∀ {ss ts}, moves ss ts → ss.Perm ts)
    (hr : g.Rearranged moves g') (hg : g.Guarded) (s : Shape) (v : Value) :
    ∀ {s' : Shape}, s.Rearranged moves s' → g'.accepts p s' v = g.accepts p s v := by
  have hg' : g'.Guarded := hr.guarded hg
  induction s, v using hg.induction with | step s v ih => ?_
  intro s' h
  have hparts : g.PartsAccept g' p moves s v := fun hp _ ht => ih _ _ hp ht
  cases h with
  | plain hs =>
    cases s with
    | ref i name => exact hr.accepts_ref_eq hg hg' hparts
    | _ => first | rfl | cases hs
  | stringFormats h =>
    cases v with
    | string x => exact h.symm.all_eq
    | _ => rfl
  | numberFormats h =>
    cases v with
    | number x => exact h.symm.all_eq
    | _ => rfl
  | literals h => exact h.symm.any_eq
  | closed hlen h =>
    cases v with
    | array items =>
      rw [hg.accepts_tuple_closed, hg'.accepts_tuple_closed, hlen]
      congr 1
      exact all_zipIdx_eq_of_zip hlen fun hslot hzip => hparts (.slot hslot) (h hzip)
    | _ => rfl
  | opened hlen h hrest =>
    cases v with
    | array items =>
      rw [hg.accepts_tuple_open, hg'.accepts_tuple_open, hlen]
      congr 1
      · exact all_zipIdx_eq_of_zip hlen fun hslot hzip => hparts (.slot hslot) (h hzip)
      · exact all_congr_of_mem fun w hw => hparts (.rest (hlen ▸ hw)) hrest
    | _ => rfl
  | allOf hlen h =>
    rw [accepts_allOf, accepts_allOf]
    congr 1
    exact all_eq_all_of_zip hlen fun hzip => hparts (.conjunct (List.of_mem_zip hzip).1) (h hzip)
  | anyOf hlen h =>
    rw [accepts_anyOf, accepts_anyOf]
    exact any_eq_any_of_zip hlen fun hzip => hparts (.disjunct (List.of_mem_zip hzip).1) (h hzip)
  | array h =>
    cases v with
    | array items =>
      rw [hg.accepts_array, hg'.accepts_array]
      exact all_congr_of_mem fun w hw => hparts (.item hw) h
    | _ => rfl
  | optional h => rw [accepts_optional, accepts_optional, hparts .inner h]
  | tagged _ _ hkeys h => exact hparts.tagged hkeys h
  | object hkeys h hmoves hlen hkey hvalue =>
    cases v with
    | object ms => exact hparts.object hg hg' hkeys h (hperm hmoves) hlen hkey hvalue
    | _ => rfl

/-! ## Signatures that agree -/

/-- Signatures that make alike values of what both of them admit. -/
def Agree (g : Graph) (p : Policy) (a b : Shape × Shape) : Prop :=
  ∀ m : String × Value, m.2.isTidy = true → g.admits p m a = true → g.admits p m b = true →
    (g.parsed p a.2 m.2).Alike (g.parsed p b.2 m.2)

/-- **Signatures in another order that is reached by exchanging neighbours that agree.** -/
inductive Reorders (g : Graph) (p : Policy) : Moves
  | nil : Reorders g p [] []
  | cons {e ss ts} (h : Reorders g p ss ts) : Reorders g p (e :: ss) (e :: ts)
  | swap {a b ss} (h : g.Agree p a b) : Reorders g p (a :: b :: ss) (b :: a :: ss)
  | trans {ss ts us} (h : Reorders g p ss ts) (h' : Reorders g p ts us) : Reorders g p ss us

variable {ss ts : List (Shape × Shape)}

theorem Reorders.perm (h : g.Reorders p ss ts) : ss.Perm ts := by
  induction h with
  | nil => exact .nil
  | cons _ ih => exact ih.cons _
  | swap => exact .swap _ _ _
  | trans _ _ ih ih' => exact ih.trans ih'

theorem Reorders.refl : ∀ ss, g.Reorders p ss ss
  | [] => .nil
  | _ :: ss => .cons (refl ss)

/-- Where all signatures agree, any order will do. -/
theorem Reorders.of_perm (h : ss.Perm ts) (hagree : ∀ a ∈ ss, ∀ b ∈ ss, g.Agree p a b) :
    g.Reorders p ss ts := by
  induction h with
  | nil => exact .nil
  | cons _ _ ih =>
    exact .cons (ih fun a ha b hb =>
      hagree a (List.mem_cons_of_mem _ ha) b (List.mem_cons_of_mem _ hb))
  | swap =>
    exact .swap (hagree _ List.mem_cons_self _ (List.mem_cons_of_mem _ List.mem_cons_self))
  | trans h _ ih ih' =>
    exact .trans (ih hagree) (ih' fun a ha b hb =>
      hagree a (h.mem_iff.mpr ha) b (h.mem_iff.mpr hb))

/-- What the first signature that admits a member makes of its value. -/
def madeBy (g : Graph) (p : Policy) (signatures : List (Shape × Shape)) (m : String × Value) :
    Option Value :=
  (signatures.find? (g.admits p m)).map fun e => g.parsed p e.2 m.2

theorem madeBy_cons (e : Shape × Shape) (ss : List (Shape × Shape)) (m : String × Value) :
    g.madeBy p (e :: ss) m =
      if g.admits p m e then some (g.parsed p e.2 m.2) else g.madeBy p ss m := by
  rw [madeBy, List.find?_cons]
  split <;> simp [*, madeBy]

/-- Reordered signatures make alike values. -/
theorem Reorders.alike_madeBy (h : g.Reorders p ss ts) {m : String × Value}
    (hm : m.2.isTidy = true) : Option.Rel Value.Alike (g.madeBy p ss m) (g.madeBy p ts m) := by
  induction h with
  | nil => exact .none
  | cons _ ih =>
    rw [madeBy_cons, madeBy_cons]
    split
    · exact .some (.refl _)
    · exact ih
  | @swap a b ss h =>
    rw [madeBy_cons, madeBy_cons, madeBy_cons, madeBy_cons]
    -- the place matters only to a member that both of them admit
    by_cases ha : g.admits p m a = true
    · by_cases hb : g.admits p m b = true
      · rw [if_pos ha, if_pos hb]
        exact .some (h m hm ha hb)
      · rw [if_pos ha, if_neg hb, if_pos ha]
        exact Value.rel_refl _
    · rw [if_neg ha, if_neg ha]
      exact Value.rel_refl _
  | trans _ _ ih ih' => exact Value.rel_trans ih ih'

/-- Signatures that admit the same and make related values, side by side. -/
theorem rel_madeBy_of_zip {S : Value → Value → Prop} {m m' : String × Value}
    (hlen : ss.length = ts.length)
    (hadmits : ∀ {e e'}, (e, e') ∈ ss.zip ts → g'.admits p m' e' = g.admits p m e)
    (h : ∀ {e e'}, (e, e') ∈ ss.zip ts → g.admits p m e = true →
      S (g.parsed p e.2 m.2) (g'.parsed p e'.2 m'.2)) :
    Option.Rel S (g.madeBy p ss m) (g'.madeBy p ts m') := by
  have hzip := List.forall₂_iff_zip.mpr ⟨hlen, fun {_ _} he => And.intro (hadmits he) (h he)⟩
  clear hlen hadmits h
  induction hzip with
  | nil => exact .none
  | cons hhead _ ih =>
    obtain ⟨hsame, hrel⟩ := hhead
    rw [madeBy_cons, madeBy_cons, hsame]
    split
    · next he => exact .some (hrel he)
    · exact ih

/-! ## Results -/

theorem forall₂_map_self {α β γ : Type} {R : β → γ → Prop} {f : α → β} {f' : α → γ} {xs : List α}
    (h : ∀ a ∈ xs, R (f a) (f' a)) : List.Forall₂ R (xs.map f) (xs.map f') :=
  List.forall₂_map_left_iff.mpr (List.forall₂_map_right_iff.mpr (List.forall₂_same.mpr h))

theorem otherFields_eq (properties : Entries Shape) (signatures : List (Shape × Shape))
    (ms : List (String × Value)) : g.otherFields p properties signatures ms =
      (Shape.undeclared properties ms).filterMap fun m =>
        (g.madeBy p signatures m).map fun w => (m.1, w) := by
  simp only [otherFields, madeBy, Option.map_map]
  rfl

/-- Slots that make related values, each of the item at its place, make related items. -/
theorem forall₂_slotItems {S : Value → Value → Prop}
    (hS : ∀ {a b}, S a b → a.isUndefined = b.isUndefined) {slots slots' : List Shape}
    {items items' : List Value} (hlen : slots.length = slots'.length)
    (hitems : items.length = items'.length)
    (h : ∀ {i s s'}, slots[i]? = some s → (s, s') ∈ slots.zip slots' →
      S (g.parsed p s ((Value.array items).item i))
        (g'.parsed p s' ((Value.array items').item i))) :
    List.Forall₂ S (Shape.slotItems (g.parsed p) slots items 0)
      (Shape.slotItems (g'.parsed p) slots' items' 0) := by
  have hslots := forall₂_zipIdx (R := fun e e' : Shape × Nat => e'.2 = e.2 ∧
    S (g.parsed p e.1 ((Value.array items).item e.2))
      (g'.parsed p e'.1 ((Value.array items').item e.2))) hlen fun hslot hzip =>
    ⟨rfl, h hslot hzip⟩
  refine List.rel_filterMap ?_ hslots
  rintro ⟨s, i⟩ ⟨s', _⟩ ⟨rfl, hrel⟩
  simp only [hS hrel, hitems]
  split
  · exact .none
  · exact .some hrel

/-- Members that accept the same and make related values, where they accept. -/
theorem forall₂_accepting {S : Value → Value → Prop} {members members' : List Shape}
    {v v' : Value} (hlen : members.length = members'.length)
    (haccepts : ∀ {s s'}, (s, s') ∈ members.zip members' → g'.accepts p s' v' = g.accepts p s v)
    (h : ∀ {s s'}, (s, s') ∈ members.zip members' → g.accepts p s v = true →
      S (g.parsed p s v) (g'.parsed p s' v')) :
    List.Forall₂ S ((g.accepting p members v).map fun s => g.parsed p s v)
      ((g'.accepting p members' v').map fun s => g'.parsed p s v') := by
  have hzip := List.forall₂_iff_zip.mpr ⟨hlen, fun {_ _} he => And.intro (haccepts he) (h he)⟩
  clear hlen haccepts h
  induction hzip with
  | nil => exact .nil
  | @cons s s' _ _ hhead _ ih =>
    obtain ⟨hsame, hrel⟩ := hhead
    rw [accepting, accepting, List.filter_cons, List.filter_cons, hsame]
    split
    · next hs => exact .cons (hrel hs) ih
    · exact ih

/-- What has to be known of the parts of a question: those that accept make alike values when they
are rearranged. -/
def PartsAlike (g g' : Graph) (p : Policy) (s : Shape) (v : Value) : Prop :=
  ∀ {t w}, g.Part (t, w) (s, v) → ∀ {t'}, t.Rearranged (g.Reorders p) t' →
    g.accepts p t w = true → (g.parsed p t w).Alike (g'.parsed p t' w)

section

variable (hr : g.Rearranged (g.Reorders p) g') (hg : g.Guarded)
include hr hg

theorem Rearranged.accepts_iff {s s' : Shape} (h : s.Rearranged (g.Reorders p) s') {v : Value} :
    g'.accepts p s' v = true ↔ g.accepts p s v = true := by
  rw [hr.accepts_eq Reorders.perm hg s v h]

variable (hd : g.isTidy = true)
include hd

/-- What a rearranged tidy shape makes of a tidy value is tidy. -/
theorem Rearranged.isTidy_parsed {s s' : Shape} {v : Value} (h : s.Rearranged (g.Reorders p) s')
    (hs : s.isTidy = true) (hv : v.isTidy = true) (ha : g.accepts p s v = true) :
    (g'.parsed p s' v).isTidy = true :=
  (hr.guarded hg).isTidy_parsed (hr.isTidy Reorders.perm hd) (h.isTidy Reorders.perm hs) hv
    ((hr.accepts_iff hg h).mpr ha)

theorem Rearranged.alike_allOf {members members' : List Shape} {v : Value}
    (hparts : g.PartsAlike g' p (.allOf members) v) (hlen : members.length = members'.length)
    (h : ∀ {t t'}, (t, t') ∈ members.zip members' → t.Rearranged (g.Reorders p) t')
    (hs : (Shape.allOf members).isTidy = true) (hv : v.isTidy = true)
    (ha : g.accepts p (.allOf members) v = true) :
    (g.parsed p (.allOf members) v).Alike (g'.parsed p (.allOf members') v) := by
  rw [hg.parsed_allOf ha, (hr.guarded hg).parsed_allOf ((hr.accepts_iff hg (.allOf hlen h)).mpr ha)]
  rw [accepts_allOf, Bool.and_eq_true, List.all_eq_true] at ha
  refine Value.alike_iff_like.mpr (Value.LikeFields.object
    (Shape.like_joinedFields ?_ fun _ => .none) (Shape.nodup_keys_joinedFields List.nodup_nil)
    (Shape.nodup_keys_joinedFields List.nodup_nil))
  refine List.forall₂_iff_zip.mpr ⟨hlen, fun {t t'} hzip => ?_⟩
  have ht := (List.of_mem_zip hzip).1
  have hst := isTidy_of_uses hd hs (.conjunct ht)
  exact ⟨Value.alike_iff_like.mp (hparts (.conjunct ht) (h hzip) (ha.2 t ht)),
    hg.isTidy_parsed hd hst hv (ha.2 t ht)⟩

theorem Rearranged.alike_anyOf {members members' : List Shape} {v : Value}
    (hparts : g.PartsAlike g' p (.anyOf members) v) (hlen : members.length = members'.length)
    (h : ∀ {t t'}, (t, t') ∈ members.zip members' → t.Rearranged (g.Reorders p) t')
    (hs : (Shape.anyOf members).isTidy = true) (hv : v.isTidy = true)
    (ha : g.accepts p (.anyOf members) v = true) :
    (g.parsed p (.anyOf members) v).Alike (g'.parsed p (.anyOf members') v) := by
  rw [hg.parsed_anyOf ha, (hr.guarded hg).parsed_anyOf ((hr.accepts_iff hg (.anyOf hlen h)).mpr ha)]
  refine Value.alike_mergeAll_of_forall₂ (forall₂_accepting hlen ?_ ?_) ?_
  · exact fun hzip => hr.accepts_eq Reorders.perm hg _ v (h hzip)
  · exact fun hzip hat => hparts (.disjunct (List.of_mem_zip hzip).1) (h hzip) hat
  · refine List.forall_mem_map.mpr fun t ht => ?_
    obtain ⟨ht, hat⟩ := mem_accepting.mp ht
    exact hg.isTidy_parsed hd (isTidy_of_uses hd hs (.disjunct ht)) hv hat

theorem Rearranged.alike_tagged {members members' : List Shape} {tag : String}
    {branches branches' : Entries Shape} {v : Value}
    (hparts : g.PartsAlike g' p (.tagged members tag branches) v)
    (h : ∀ {k t t'}, (k, t) ∈ branches → (k, t') ∈ branches' → t.Rearranged (g.Reorders p) t')
    (hs : (Shape.tagged members tag branches).isTidy = true) (hv : v.isTidy = true)
    (ha : g.accepts p (.tagged members tag branches) v = true)
    (ha' : g'.accepts p (.tagged members' tag branches') v = true) :
    (g.parsed p (.tagged members tag branches) v).Alike
      (g'.parsed p (.tagged members' tag branches') v) := by
  rw [accepts_tagged, Bool.and_eq_true, Value.isObject_iff] at ha ha'
  obtain ⟨hform, ha⟩ := ha
  obtain ⟨key, hkey, ha⟩ := (Option.any_eq_true _ _).mp ha
  obtain ⟨t, ht, hat⟩ := (Option.any_eq_true _ _).mp ha
  obtain ⟨key', hkey', ha'⟩ := (Option.any_eq_true _ _).mp ha'.2
  obtain ⟨t', ht', hat'⟩ := (Option.any_eq_true _ _).mp ha'
  obtain rfl : key = key' := Option.some.inj (hkey.symm.trans hkey')
  rw [hg.parsed_tagged hform hkey ht hat, (hr.guarded hg).parsed_tagged hform hkey' ht' hat']
  have hmem := Entries.mem_of_get? ht
  have hrel := h hmem (Entries.mem_of_get? ht')
  have hst := isTidy_of_uses hd hs (.branch hmem)
  have hfields := (Value.alike_iff_like.mp (hparts (.branch hmem) hrel hat)).fields
  -- both put back the tag of the same value
  refine Value.alike_iff_like.mpr
    ((hfields.insert (Value.alike_iff_like.mp (.refl _))).object ?_ ?_)
  · have htidy := hg.isTidy_parsed hd hst hv hat
    exact Entries.nodup_keys_insert (Value.nodup_keys_fields htidy) _ _
  · have htidy := hr.isTidy_parsed hg hd hrel hst hv hat
    exact Entries.nodup_keys_insert (Value.nodup_keys_fields htidy) _ _

omit hd in
/-- Signatures make an alike value of a member after they have been moved, and again after each has
been rearranged where it stands. -/
theorem Rearranged.alike_others {properties : Entries Shape}
    {signatures moved signatures' : List (Shape × Shape)} {ms : List (String × Value)}
    (hparts : g.PartsAlike g' p (.object properties signatures) (.object ms))
    (hmoves : g.Reorders p signatures moved) (hlen : moved.length = signatures'.length)
    (hkey : ∀ {e e'}, (e, e') ∈ moved.zip signatures' → e.1.Rearranged (g.Reorders p) e'.1)
    (hvalue : ∀ {e e'}, (e, e') ∈ moved.zip signatures' → e.2.Rearranged (g.Reorders p) e'.2)
    {m : String × Value} (hmem : m ∈ ms) (hm : m.2.isTidy = true) :
    Option.Rel Value.Alike (g.madeBy p signatures m) (g'.madeBy p signatures' m) := by
  refine Value.rel_trans (hmoves.alike_madeBy hm) (rel_madeBy_of_zip hlen ?_ ?_)
  · intro e e' hzip
    rw [admits, admits, hr.accepts_eq Reorders.perm hg _ _ (hkey hzip),
      hr.accepts_eq Reorders.perm hg _ _ (hvalue hzip)]
  · intro e e' hzip hadmits
    have he := hmoves.perm.mem_iff.mpr (List.of_mem_zip hzip).1
    exact hparts (.member he hmem) (hvalue hzip) (accepts_of_admits hadmits)

/-- **Alike values are made of what a rearranged shape accepts**, where signatures are only
reordered. -/
theorem Rearranged.alike_parsed (s : Shape) (v : Value) :
    ∀ {s' : Shape}, s.Rearranged (g.Reorders p) s' → s.isTidy = true → v.isTidy = true →
      g.accepts p s v = true → (g.parsed p s v).Alike (g'.parsed p s' v) := by
  have hg' : g'.Guarded := hr.guarded hg
  -- distinct keys are carried along: without them an object does not say what it has under a key
  induction s, v using hg.induction with | step s v ih => ?_
  intro s' h hs hv ha
  have hparts : g.PartsAlike g' p s v := fun {t w} hp _ ht hat =>
    ih t w hp ht (hp.isTidy hd hs hv).1 (hp.isTidy hd hs hv).2 hat
  have ha' : g'.accepts p s' v = true := (hr.accepts_iff hg h).mpr ha
  cases h with
  | plain hplain =>
    cases s with
    | ref i name =>
      cases ht' : g'.shape? i with
      | none => rw [hg'.accepts_ref, ht'] at ha'; cases ha'
      | some t' =>
        obtain ⟨t, ht, hrel⟩ := hr.exists_shape? ht'
        rw [hg.parsed_ref ht ha, hg'.parsed_ref ht' ha']
        rw [hg.accepts_ref, ht] at ha
        exact hparts (.target ht) hrel ha
    | _ => first | exact .refl _ | cases hplain
  | stringFormats => exact .refl _
  | numberFormats => exact .refl _
  | literals =>
    obtain ⟨c, hfind, hc⟩ := settles_literals ha
    obtain ⟨c', hfind', hc'⟩ := settles_literals ha'
    rw [hc.parsed_eq, hc'.parsed_eq]
    exact Value.alike_toValue (Literal.holds_of_find? hfind) (Literal.holds_of_find? hfind')
  | closed hlen h =>
    cases v with
    | array items =>
      rw [hg.parsed_tuple_closed ha, hg'.parsed_tuple_closed ha']
      rw [hg.accepts_tuple_closed, Bool.and_eq_true, List.all_eq_true] at ha
      refine Value.alike_array_of_forall₂
        (forall₂_slotItems Value.Alike.isUndefined_eq hlen rfl fun hslot hzip => ?_)
      exact hparts (.slot hslot) (h hzip) (ha.1 (_, _) (List.mem_zipIdx_iff_getElem?.mpr hslot))
    | _ => cases ha
  | opened hlen h hrest =>
    cases v with
    | array items =>
      rw [hg.parsed_tuple_open ha, hg'.parsed_tuple_open ha']
      rw [hg.accepts_tuple_open, Bool.and_eq_true, List.all_eq_true, List.all_eq_true] at ha
      refine Value.alike_array_of_forall₂ (List.rel_append ?_ ?_)
      · refine forall₂_slotItems Value.Alike.isUndefined_eq hlen rfl fun hslot hzip => ?_
        exact hparts (.slot hslot) (h hzip) (ha.1 (_, _) (List.mem_zipIdx_iff_getElem?.mpr hslot))
      · rw [← hlen]
        exact forall₂_map_self fun w hw => hparts (.rest hw) hrest (ha.2 w hw)
    | _ => cases ha
  | allOf hlen h => exact hr.alike_allOf hg hd hparts hlen h hs hv ha
  | anyOf hlen h => exact hr.alike_anyOf hg hd hparts hlen h hs hv ha
  | array h =>
    cases v with
    | array items =>
      rw [hg.parsed_array ha, hg'.parsed_array ha']
      rw [hg.accepts_array, List.all_eq_true] at ha
      exact Value.alike_array_of_forall₂
        (forall₂_map_self fun w hw => hparts (.item hw) h (ha w hw))
    | _ => cases ha
  | optional h =>
    by_cases hnull : v.isNullish = true
    · rw [parsed_optional_nullish hnull, parsed_optional_nullish hnull]
      exact .refl v
    · rw [hg.parsed_optional hnull ha, hg'.parsed_optional hnull ha']
      rw [accepts_optional, Bool.or_eq_true] at ha
      exact hparts .inner h (ha.resolve_left hnull)
  | tagged _ _ _ h => exact hr.alike_tagged hg hd hparts h hs hv ha ha'
  | @object properties properties' signatures moved signatures' hkeys h hmoves hlen hkey hvalue =>
    cases v with
    | object ms =>
      have hp := Shape.nodup_properties hs
      obtain ⟨hms, hmembers⟩ := Value.isTidy_object_iff.mp hv
      rw [hg.parsed_object ha, hg'.parsed_object ha']
      rw [hg.accepts_object, Bool.and_eq_true, List.all_eq_true] at ha
      refine Value.alike_iff_like.mpr (Value.LikeFields.object (.append ?_ ?_)
        (nodup_keys_object hp hms) (nodup_keys_object (hkeys.nodup_iff.mp hp) hms))
      · exact Shape.like_declaredFields hp hkeys fun ht ht' =>
          Value.alike_iff_like.mp (hparts (.property ht) (h ht ht') (ha.1 _ ht))
      · rw [otherFields_eq, otherFields_eq, Shape.undeclared_eq_of_keys_perm hkeys]
        have hnodup := (Shape.keys_undeclared_sublist properties ms).nodup hms
        refine .filterMap hnodup hnodup fun k => ?_
        rw [← Value.alike_eq_like]
        cases hk : Entries.get? (Shape.undeclared properties ms) k with
        | none => exact .none
        | some w =>
          have hmem : (k, w) ∈ ms := (Shape.mem_undeclared.mp (Entries.mem_of_get? hk)).1
          exact hr.alike_others hg hparts hmoves hlen hkey hvalue hmem (hmembers _ hmem)
    | _ => cases ha

end

/-- **What order means to decoding.** Rearranged shapes in rearranged graphs accept the same values.
Where signatures are only reordered, what is made of an accepted value differs in the order of keys
and the sign of zero only. -/
theorem Guarded.rearranged_alike (hg : g.Guarded) (hd : g.isTidy = true) (p : Policy) {s : Shape}
    (hs : s.isTidy = true) :
    (∀ {g' s'}, g.Rearranged List.Perm g' → s.Rearranged List.Perm s' →
      ∀ v, g'.accepts p s' v = g.accepts p s v) ∧
    ∀ {g' s'}, g.Rearranged (g.Reorders p) g' → s.Rearranged (g.Reorders p) s' →
      ∀ v, v.isTidy = true → g.accepts p s v = true →
        ∃ w w', g.parse p s v = .ok w ∧ g'.parse p s' v = .ok w' ∧ w.Alike w' := by
  refine ⟨fun hr h v => hr.accepts_eq id hg s v h, fun hr h v hv ha => ?_⟩
  have ha' := (hr.accepts_iff hg h).mpr ha
  exact ⟨_, _, hg.parse_eq ha, (hr.guarded hg).parse_eq ha', hr.alike_parsed hg hd s v h hs hv ha⟩

/-- A book that is not an entry. -/
def oddBook : Value := .object [("at", .date 0), ("kind", .string "other"), ("pages", .bigint 12)]

theorem rearranged_alike_oddBook :
    ledger.Guarded ∧ ledger.isTidy = true ∧ ledger.Rearranged (ledger.Reorders {}) shuffledLedger ∧
      oddBook.isTidy = true ∧ ledger.accepts {} (.ref 1 "Book") oddBook = true ∧
      shuffledLedger.accepts {} (.ref 1 "Book") oddBook = true ∧
      ∃ w w', ledger.parse {} (.ref 1 "Book") oddBook = .ok w ∧
        shuffledLedger.parse {} (.ref 1 "Book") oddBook = .ok w' ∧ w.Alike w' :=
  have hg : ledger.Guarded := guarded_of_ranks id (by decide)
  have hd : ledger.isTidy = true := by decide
  -- no value is both an integer and a date
  have hagree : ledger.Agree {} (.any, .bigint) (.base .string, .date) := by
    rintro ⟨k, v⟩ _ ha hb
    have hbigint := accepts_of_admits ha
    have hdate := accepts_of_admits hb
    cases v with
    | bigint => cases hdate
    | _ => cases hbigint
  have hr : ledger.Rearranged (ledger.Reorders {}) shuffledLedger :=
    shuffledLedger_rearranged Reorders.refl (.swap hagree)
  have hperm : ledger.Rearranged List.Perm shuffledLedger :=
    shuffledLedger_rearranged List.Perm.refl (.swap _ _ _)
  have ht : oddBook.isTidy = true := by decide +kernel
  have ha : ledger.accepts {} (.ref 1 "Book") oddBook = true := by decide +kernel
  have halike := hg.rearranged_alike hd {} (s := .ref 1 "Book") rfl
  ⟨hg, hd, hr, ht, ha, (halike.1 hperm (.plain rfl) oddBook).trans ha,
    halike.2 hr (.plain rfl) oddBook ht ha⟩

/-! ## Why signatures have to agree -/

/-- The first of two signatures makes the only member of an object that both of them admit. -/
theorem Guarded.parsed_first (hg : g.Guarded) {a b : Shape × Shape} {m : String × Value}
    (ha : g.admits p m a = true) :
    g.accepts p (.object [] [a, b]) (.object [m]) = true ∧
      g.parsed p (.object [] [a, b]) (.object [m]) = .object [(m.1, g.parsed p a.2 m.2)] := by
  have hacc : g.accepts p (.object [] [a, b]) (.object [m]) = true := by
    rw [hg.accepts_object]
    show [m].all (fun m => [a, b].any (g.admits p m)) = true
    rw [List.all_cons, List.any_cons, ha]
    rfl
  refine ⟨hacc, ?_⟩
  rw [hg.parsed_object hacc, otherFields_eq]
  show Value.object ([m].filterMap fun m => (g.madeBy p [a, b] m).map fun w => (m.1, w)) = _
  rw [List.filterMap_cons, madeBy_cons, if_pos ha]
  rfl

/-- **Two signatures may change places exactly when they agree.** -/
theorem Guarded.agree_iff (hg : g.Guarded) (hd : g.isTidy = true) {a b : Shape × Shape}
    (hs : (Shape.object [] [a, b]).isTidy = true) :
    g.Agree p a b ↔ ∀ v : Value, v.isTidy = true → g.accepts p (.object [] [a, b]) v = true →
      (g.parsed p (.object [] [a, b]) v).Alike (g.parsed p (.object [] [b, a]) v) := by
  constructor
  · intro h v hv ha
    have hr : g.Rearranged (g.Reorders p) g := .refl Reorders.refl hd
    exact hr.alike_parsed hg hd _ v
      (.object_of_moves Reorders.refl (.swap h) (.swap _ _ _) hs) hs hv ha
  · intro h m hm ha hb
    have hv : (Value.object [m]).isTidy = true :=
      Value.isTidy_object_iff.mpr ⟨List.nodup_singleton _, List.forall_mem_singleton.mpr hm⟩
    -- an object with this member only: either signature is the first to be asked in one order
    obtain ⟨hacc, hfirst⟩ := hg.parsed_first (b := b) ha
    have halike := h _ hv hacc
    rw [hfirst, (hg.parsed_first hb).2] at halike
    have hrel := (Value.alike_iff_like.mp halike).fields m.1
    simp only [Value.fields, Value.members?, Option.getD_some, Entries.get?, if_true] at hrel
    cases hrel with
    | some h => exact Value.alike_iff_like.mpr h

/-- An object with two signatures for the same keys. -/
def views : Shape :=
  .object [] [(.base .string, .object [("a", .any)] []), (.base .string, .object [("b", .any)] [])]

def exchangedViews : Shape :=
  .object [] [(.base .string, .object [("b", .any)] []), (.base .string, .object [("a", .any)] [])]

def viewed : Value :=
  .object [("x", .object [("a", .number (.ofInt 1)), ("b", .number (.ofInt 2))])]

/-- **The fingerprint does not see an exchange of signatures that decoding sees.** -/
theorem parse_exchangedViews_differs :
    ({} : Graph).Guarded ∧ views.isTidy = true ∧ views.Rearranged List.Perm exchangedViews ∧
      viewed.isTidy = true ∧
      ({} : Graph).fingerprint exchangedViews = ({} : Graph).fingerprint views ∧
      ({} : Graph).accepts {} views viewed = true ∧
      ({} : Graph).accepts {} exchangedViews viewed = true ∧
      ∃ w w', ({} : Graph).parse {} views viewed = .ok w ∧
        ({} : Graph).parse {} exchangedViews viewed = .ok w' ∧ ¬ w.Alike w' := by
  have hs : views.isTidy = true := by decide
  have h : views.Rearranged List.Perm exchangedViews :=
    .object_of_moves List.Perm.refl (.swap _ _ _) (.swap _ _ _) hs
  refine ⟨guarded_of_ranks id (by decide), hs, h, by decide, h.fingerprint_eq hs, by decide,
    by decide, _, _, rfl, rfl, fun halike => ?_⟩
  cases halike with
  | object _ hmembers =>
    have hx : (Value.object [("a", .number (.ofInt 1))]).Alike
      (.object [("b", .number (.ofInt 2))]) := hmembers "x"
    cases hx with
    | object hkeys => exact absurd hkeys (by decide)

end Graph

end ShapeGraph
