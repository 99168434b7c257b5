import ShapeGraph.Proofs.KeyOrder

/-!
# Reports and the order of keys

An object speaks of its undeclared members in the order in which it has them, so in another order of
keys a report has its errors in another order. They are the same errors, and received values differ
in the order of keys only. A union that fails gathers such reports.

* `DecodeError.Reordered` — one error on a value and on the value in another order of keys
* `Guarded.report_reordered` — the errors are the same, in some order
* `Guarded.decode_reordered` — decoding does not depend on the order of keys
-/

namespace ShapeGraph

/-- **The errors say the same**, at the same place, of values that differ in the order of keys; a
union has the same errors in some order. -/
inductive DecodeError.Reordered : DecodeError → DecodeError → Prop
  | mismatch {message path v v'} (h : v.Reordered v') :
      Reordered (.mismatch message path v) (.mismatch message path v')
  | union {path v v' errors moved errors'} (h : v.Reordered v') (hperm : errors.Perm moved)
      (hlen : moved.length = errors'.length)
      (herrors : ∀ {e e'}, (e, e') ∈ moved.zip errors' → Reordered e e') :
      Reordered (.union path v errors) (.union path v' errors')

theorem DecodeError.Reordered.union_of_shuffled {path : Path} {v v' : Value}
    {errors errors' : List DecodeError} (h : v.Reordered v')
    (herrors : Shuffled Reordered errors errors') :
    Reordered (.union path v errors) (.union path v' errors') := by
  obtain ⟨moved, hperm, hrel⟩ := herrors
  exact .union h hperm hrel.length_eq (List.forall₂_zip hrel)

/-- One mismatch on a value and on the value in another order of keys. -/
theorem shuffled_mismatch {message : String} {path : Path} {v v' : Value} (h : v.Reordered v') :
    Shuffled DecodeError.Reordered [.mismatch message path v] [.mismatch message path v'] :=
  .singleton (.mismatch h)

namespace Graph

variable {g : Graph} {p : Policy}

/-- A shape without parts has one thing to say. -/
theorem report_of_parts_nil {s : Shape} (hs : s.keepsValues = true ∨ s = .never ∨
    (∃ c, s = .literal c) ∨ ∃ cs, s = .literals cs) (path : Path) (v : Value) :
    g.report p s path v = if g.accepts p s v then [] else [.mismatch s.expectation path v] := by
  rcases hs with hs | rfl | ⟨c, rfl⟩ | ⟨cs, rfl⟩
  · cases s <;> first | rfl | cases hs
  · rfl
  · rfl
  · rfl

/-- What has to be known of the parts of a question: they are accepted alike in another order of
keys, and the same is reported of them. -/
structure PartsReordered (g : Graph) (p : Policy) (s : Shape) (v : Value) : Prop where
  accepts : g.PartsAcceptReordered p s v
  report : ∀ {t w}, g.Part (t, w) (s, v) → ∀ {w'}, w.Reordered w' → ∀ path,
    Shuffled DecodeError.Reordered (g.report p t path w) (g.report p t path w')

variable {s t : Shape} {v v' w w' : Value}

theorem PartsReordered.complaint (h : g.PartsReordered p s v) (hpart : g.Part (t, w) (s, v))
    (hw : w.Reordered w') (path : Path) :
    Shuffled DecodeError.Reordered (g.complaint p t path w) (g.complaint p t path w') := by
  rw [Graph.complaint, Graph.complaint, h.accepts hpart hw]
  split
  · exact .nil
  · exact h.report hpart hw path

/-- Items that differ in the order of keys, each complained of at its place. -/
theorem shuffled_itemComplaints {xs ys : List Value} {offset : Nat} {path : Path}
    (hcomplaint : ∀ {w w'}, w ∈ xs → w.Reordered w' → ∀ path,
      Shuffled DecodeError.Reordered (g.complaint p t path w) (g.complaint p t path w'))
    (h : List.Forall₂ Value.Reordered xs ys) :
    Shuffled DecodeError.Reordered
      ((xs.zipIdx offset).flatMap fun e => g.complaint p t (path ++ [Path.index e.2]) e.1)
      ((ys.zipIdx offset).flatMap fun e => g.complaint p t (path ++ [Path.index e.2]) e.1) := by
  induction h generalizing offset with
  | nil => exact .nil
  | cons hhead _ ih =>
    rw [List.zipIdx_cons, List.zipIdx_cons, List.flatMap_cons, List.flatMap_cons]
    exact (hcomplaint List.mem_cons_self hhead _).append
      (ih fun hw => hcomplaint (List.mem_cons_of_mem _ hw))

theorem PartsReordered.slots {slots : List Shape} {rest : Option Shape} {xs ys : List Value}
    (hparts : g.PartsReordered p (.tuple slots rest) (.array xs))
    (h : (Value.array xs).Reordered (.array ys)) (path : Path) :
    Shuffled DecodeError.Reordered (g.slotComplaints p slots path xs)
      (g.slotComplaints p slots path ys) :=
  .flatMap_self fun e he =>
    hparts.complaint (.slot (List.mem_zipIdx_iff_getElem?.mp he)) (Value.Like.item h e.2) _

theorem shuffled_overflow (slots : List Shape) (path : Path) {xs ys : List Value}
    (h : List.Forall₂ Value.Reordered xs ys) :
    Shuffled DecodeError.Reordered (overflow slots path xs) (overflow slots path ys) := by
  have hdrop := List.forall₂_drop slots.length h
  rw [overflow, overflow]
  generalize xs.drop slots.length = xs at hdrop ⊢
  generalize ys.drop slots.length = ys at hdrop ⊢
  cases hdrop with
  | nil => exact .nil
  | cons hhead _ => exact shuffled_mismatch hhead

theorem PartsReordered.tagged {members : List Shape} {tag : String} {branches : Entries Shape}
    (hparts : g.PartsReordered p (.tagged members tag branches) v) (h : v.Reordered v')
    (path : Path) :
    Shuffled DecodeError.Reordered (g.report p (.tagged members tag branches) path v)
      (g.report p (.tagged members tag branches) path v') := by
  have htag := Value.Like.get h tag
  rw [report_tagged, report_tagged, h.isObject_eq, Value.Reordered.tagKey?_eq htag]
  split
  · cases hb : (v.get tag).tagKey?.bind branches.get? with
    | none => exact shuffled_mismatch htag
    | some t =>
      obtain ⟨key, -, ht⟩ := Option.bind_eq_some_iff.mp hb
      exact hparts.report (.branch (Entries.mem_of_get? ht)) h path
  · exact shuffled_mismatch h

theorem PartsReordered.memberComplaint {properties : Entries Shape}
    {signatures : List (Shape × Shape)} {ms : List (String × Value)}
    (hparts : g.PartsReordered p (.object properties signatures) (.object ms)) (path : Path)
    {m m' : String × Value} (hm : m ∈ ms) (h : Value.LikeMembers Eq m m') :
    Shuffled DecodeError.Reordered (g.memberComplaint p signatures path m)
      (g.memberComplaint p signatures path m') := by
  have hsame : signatures.any (g.admits p m') = signatures.any (g.admits p m) :=
    any_congr_of_mem fun e he => PartsAcceptReordered.admits (@hparts.accepts) he hm h
  rw [Graph.memberComplaint, Graph.memberComplaint, hsame]
  split
  · exact .nil
  · refine .flatMap_self fun e he => ?_
    rw [signatureComplaint, signatureComplaint, h.1]
    split
    · exact hparts.report (.member he hm) h.2 _
    · exact hparts.report (.key he hm) (.refl _) _

theorem PartsReordered.object (hg : g.Guarded) {properties : Entries Shape}
    {signatures : List (Shape × Shape)} {ms ms' : List (String × Value)}
    (hparts : g.PartsReordered p (.object properties signatures) (.object ms))
    (hd : (Entries.keys ms).Nodup) (h : (Value.object ms).Reordered (.object ms')) (path : Path) :
    Shuffled DecodeError.Reordered (g.report p (.object properties signatures) path (.object ms))
      (g.report p (.object properties signatures) path (.object ms')) := by
  have hothers : Shuffled (Value.LikeMembers Eq) (Shape.undeclared properties ms)
      (Shape.undeclared properties ms') :=
    Shape.shuffled_undeclared ((Value.like_object_iff hd).mp h)
  have hextra : Shuffled (Value.LikeMembers Eq) (extraKeys p properties signatures ms)
      (extraKeys p properties signatures ms') := by
    rw [extraKeys, extraKeys]
    split
    · exact hothers
    · exact .nil
  rw [hg.report_object, hg.report_object, hextra.isEmpty_eq]
  split
  · refine .append (.flatMap_self fun e he => ?_) ?_
    · exact hparts.complaint (.property he) (Value.Like.get h e.1) _
    · split
      · exact .nil
      · exact hothers.flatMap fun hm hrel =>
          hparts.memberComplaint path (Shape.mem_undeclared.mp hm).1 hrel
  · refine hextra.map fun {m m'} hm => ?_
    rw [hm.1]
    exact .mismatch hm.2

/-- **Of a value in another order of keys the same errors are reported, in some order.** -/
theorem Guarded.report_reordered (hg : g.Guarded) (s : Shape) (v : Value) :
    ∀ {v'}, v.isTidy = true → v.Reordered v' → ∀ path,
      Shuffled DecodeError.Reordered (g.report p s path v) (g.report p s path v') := by
  induction s, v using hg.induction with | step s v ih => ?_
  intro v' hv h path
  have hparts : g.PartsReordered p s v :=
    ⟨fun hp => hg.accepts_reordered _ _ (hp.isTidy_value hv),
      fun hp => ih _ _ hp (hp.isTidy_value hv)⟩
  have hleaf (hs : s.keepsValues = true ∨ s = .never ∨ (∃ c, s = .literal c) ∨
      ∃ cs, s = .literals cs) :
      Shuffled DecodeError.Reordered (g.report p s path v) (g.report p s path v') := by
    rw [report_of_parts_nil hs, report_of_parts_nil hs, hg.accepts_reordered s v hv h]
    split
    · exact .nil
    · exact shuffled_mismatch h
  cases s with
  | never => exact hleaf (.inr (.inl rfl))
  | literal c => exact hleaf (.inr (.inr (.inl ⟨c, rfl⟩)))
  | literals cs => exact hleaf (.inr (.inr (.inr ⟨cs, rfl⟩)))
  | ref i name =>
    cases ht : g.shape? i with
    | none =>
      rw [report_ref_none _ _ _ ht, report_ref_none _ _ _ ht]
      exact shuffled_mismatch h
    | some t =>
      rw [hg.report_ref _ _ _ ht, hg.report_ref _ _ _ ht]
      exact hparts.report (.target ht) h path
  | optional t =>
    rw [report_optional, report_optional, h.isNullish_eq]
    split
    · exact .nil
    · exact hparts.report .inner h path
  | allOf members =>
    rw [report_allOf, report_allOf, h.isObject_eq]
    split
    · exact .flatMap_self fun t ht => hparts.complaint (.conjunct ht) h path
    · exact shuffled_mismatch h
  | anyOf members =>
    rw [report_anyOf, report_anyOf, hg.accepts_reordered _ v hv h]
    split
    · exact .nil
    · exact .singleton (.union_of_shuffled h (.flatMap_self fun t ht =>
        hparts.report (.disjunct ht) h []))
  | tagged members tag branches => exact hparts.tagged h path
  | array t =>
    cases v with
    | array xs =>
      cases v' with
      | array ys =>
        rw [hg.report_array, hg.report_array]
        exact shuffled_itemComplaints (fun hw hrel => hparts.complaint (.item hw) hrel)
          (Value.Like.forall₂_items h)
      | _ => cases h
    | _ =>
      have hother := h
      cases h
      exact shuffled_mismatch hother
  | tuple slots rest =>
    cases v with
    | array xs =>
      cases v' with
      | array ys =>
        have hitems := Value.Like.forall₂_items h
        cases rest with
        | none =>
          rw [hg.report_tuple_closed, hg.report_tuple_closed]
          exact (hparts.slots h path).append (shuffled_overflow slots path hitems)
        | some t =>
          rw [hg.report_tuple_open, hg.report_tuple_open]
          exact (hparts.slots h path).append (shuffled_itemComplaints
            (fun hw hrel => hparts.complaint (.rest hw) hrel) (List.forall₂_drop _ hitems))
      | _ => cases h
    | _ =>
      have hother := h
      cases h
      cases rest <;> exact shuffled_mismatch hother
  | object properties signatures =>
    cases v with
    | object ms =>
      cases v' with
      | object ms' => exact hparts.object hg (Value.isTidy_object_iff.mp hv).1 h path
      | _ => cases h
    | _ =>
      have hother := h
      cases h
      exact shuffled_mismatch hother
  | _ => exact hleaf (.inl rfl)

/-- **Decoding does not depend on the order of keys.** A value in another order of keys is accepted
when the value is; then results are made of both that differ in the order of keys only; and the same
errors are reported of both, in some order. -/
theorem Guarded.decode_reordered (hg : g.Guarded) (hd : g.isTidy = true) (p : Policy) {s : Shape}
    (hs : s.isTidy = true) {v v' : Value} (hv : v.isTidy = true) (h : v.Reordered v') :
    g.accepts p s v' = g.accepts p s v ∧
      (g.accepts p s v = true → ∃ w w', g.parse p s v = .ok w ∧ g.parse p s v' = .ok w' ∧
        w.Reordered w') ∧
      ∀ path, Shuffled DecodeError.Reordered (g.report p s path v) (g.report p s path v') := by
  have hsame : g.accepts p s v' = g.accepts p s v := hg.accepts_reordered s v hv h
  refine ⟨hsame, fun ha => ?_, hg.report_reordered s v hv h⟩
  exact ⟨_, _, hg.parse_eq ha, hg.parse_eq (hsame.trans ha), hg.parsed_reordered hd s v hs hv h ha⟩

/-- The sound fork with its keys turned around, and those of one leaf. -/
def turnedFork : Value :=
  .object [("age", .bigint 40),
    ("parts", .array [
      .object [("kind", .string "leaf"), ("at", .array [.number (.ofInt 1), .number (.ofInt 2)])],
      .object [("kind", .string "leaf"), ("at", .array [.number (.ofInt 3)])]]),
    ("kind", .string "fork")]

theorem reordered_turnedFork : soundFork.Reordered turnedFork := by
  have hsame : ∀ m : String × Value, Value.LikeMembers Eq m m := fun m =>
    ⟨rfl, Value.Reordered.refl m.2⟩
  refine (Value.like_object_iff (by decide)).mpr ⟨_, (List.reverse_perm _).symm, ?_⟩
  refine .cons (hsame _) (.cons ⟨rfl, ?_⟩ (.cons (hsame _) .nil))
  refine Value.like_array_of_forall₂ (.cons ?_ (.cons (Value.Reordered.refl _) .nil))
  refine (Value.like_object_iff (by decide)).mpr ⟨_, (List.reverse_perm _).symm, ?_⟩
  exact .cons (hsame _) (.cons (hsame _) .nil)

/-- The spoilt fork with its keys turned around. -/
def turnedSpoiltFork : Value :=
  .object [("colour", .string "red"), ("owner", .null),
    ("parts", .array [.object [("kind", .string "leaf"), ("at", .array [.string "here"])]]),
    ("kind", .string "fork")]

theorem reordered_turnedSpoiltFork : spoiltFork.Reordered turnedSpoiltFork := by
  refine (Value.like_object_iff (by decide)).mpr ⟨_, (List.reverse_perm _).symm, ?_⟩
  exact List.forall₂_same.mpr fun m _ => ⟨rfl, Value.Reordered.refl m.2⟩

theorem decode_turnedForks :
    trees.isTidy = true ∧ soundFork.isTidy = true ∧ spoiltFork.isTidy = true ∧
      soundFork.Reordered turnedFork ∧ spoiltFork.Reordered turnedSpoiltFork ∧
      (∃ w w', trees.parse {} (.ref 2 "Tree") soundFork = .ok w ∧
        trees.parse {} (.ref 2 "Tree") turnedFork = .ok w' ∧ w.Reordered w') ∧
      Shuffled DecodeError.Reordered (trees.report {} (.ref 2 "Tree") [] spoiltFork)
        (trees.report {} (.ref 2 "Tree") [] turnedSpoiltFork) :=
  have hd : trees.isTidy = true := by decide
  have hsound : soundFork.isTidy = true := by decide +kernel
  have hspoilt : spoiltFork.isTidy = true := by decide +kernel
  have ha : trees.accepts {} (.ref 2 "Tree") soundFork = true := by decide +kernel
  ⟨hd, hsound, hspoilt, reordered_turnedFork, reordered_turnedSpoiltFork,
    (trees_guarded.decode_reordered hd {} rfl hsound reordered_turnedFork).2.1 ha,
    (trees_guarded.decode_reordered hd {} rfl hspoilt reordered_turnedSpoiltFork).2.2 []⟩

end Graph

end ShapeGraph
