import ShapeGraph.Proofs.Canonical
import ShapeGraph.Proofs.Strictness

/-!
# Lenient results under strictness

A lenient policy lets objects have keys that they do not declare, but does not keep them. So what is
left by a lenient parse can stand before the strict policy: it is accepted, and nothing is dropped
from it any more. Unions and intersections are another matter, as each member keeps its own keys.

* `Shape.isTagged` — tagged unions, which put back a tag that a branch may not declare
* `Guarded.accepts_string_strictly` — keys are accepted strictly as they are leniently
* `Guarded.object_again` — the same for what is left of an object
* `Makes.again` — what is made leniently is made again strictly
* `Guarded.parse_strictly_of_parse_leniently` — a lenient result is parsed strictly to itself
-/

namespace ShapeGraph

/-- Whether a shape is a tagged union. -/
def Shape.isTagged : Shape → Bool
  | .tagged .. => true
  | _ => false

namespace Graph

variable {g : Graph} {p : Policy}

/-- **A text is accepted strictly when it is leniently**: strictness is about objects. -/
theorem Guarded.accepts_string_strictly (hg : g.Guarded) (s : Shape) (v : Value) :
    ∀ k, v = .string k → g.accepts p.leniently s v = true → g.accepts p.strictly s v = true := by
  induction s, v using hg.induction with | step s v ih => ?_
  intro k hv h
  cases s with
  | ref i name =>
    rw [hg.accepts_ref] at h ⊢
    obtain ⟨t, ht, h⟩ := (Option.any_eq_true _ _).mp h
    exact (Option.any_eq_true _ _).mpr ⟨t, ht, ih t v (.target ht) k hv h⟩
  | optional t =>
    rw [accepts_optional, Bool.or_eq_true] at h ⊢
    exact h.imp_right (ih t v .inner k hv)
  | anyOf members =>
    rw [accepts_anyOf, List.any_eq_true] at h ⊢
    obtain ⟨t, ht, h⟩ := h
    exact ⟨t, ht, ih t v (.disjunct ht) k hv h⟩
  | tuple slots rest => subst hv; cases rest <;> cases h
  | allOf => subst hv; cases h
  | tagged => subst hv; cases h
  | array => subst hv; cases h
  | object => subst hv; cases h
  | _ => exact h

/-! ## Objects -/

section

variable {properties : Entries Shape} {signatures : List (Shape × Shape)}
  {ms : List (String × Value)}

/-- The undeclared members of a lenient result are made by the signature, and admitted by it
strictly; without a signature there are none. -/
theorem Guarded.others_again (hg : g.Guarded) (hlen : signatures.length ≤ 1)
    (ha : g.accepts p.leniently (.object properties signatures) (.object ms) = true)
    (hothers : ∀ m ∈ Shape.undeclared properties ms, ∀ e ∈ signatures,
      g.admits p.leniently m e = true → g.Leaves p.strictly e.2 (g.parsed p.leniently e.2 m.2)) :
    let made := g.madeFields p.leniently properties signatures ms
    (if signatures.isEmpty then !(p.strictly.strict && !(Shape.undeclared properties made).isEmpty)
      else (Shape.undeclared properties made).all fun m =>
        signatures.any (g.admits p.strictly m)) = true ∧
      g.otherFields p.strictly properties signatures made =
        g.otherFields p.leniently properties signatures ms := by
  rw [hg.accepts_object, Bool.and_eq_true] at ha
  obtain ⟨-, ha⟩ := ha
  rcases signatures with _ | ⟨signature, _ | ⟨_, _⟩⟩
  · intro made
    rw [undeclared_madeFields, otherFields_nil, otherFields_nil]
    exact ⟨rfl, rfl⟩
  · intro made
    have hadmits :
        ∀ m ∈ Shape.undeclared properties ms, g.admits p.leniently m signature = true := by
      intro m hm
      have hany := List.all_eq_true.mp ha m hm
      simpa using hany
    have hmade : Shape.undeclared properties made =
        Entries.mapValues (g.parsed p.leniently signature.2) (Shape.undeclared properties ms) := by
      rw [undeclared_madeFields, otherFields_singleton hadmits]
    have hadmits' : ∀ m ∈ Shape.undeclared properties made,
        g.admits p.strictly m signature = true := by
      rw [hmade]
      intro m hm
      obtain ⟨m', hm', rfl⟩ := List.mem_map.mp hm
      have hkey := hadmits m' hm'
      have hvalue := hothers m' hm' signature List.mem_cons_self hkey
      rw [admits, Bool.and_eq_true] at hkey
      rw [admits, hg.accepts_string_strictly _ _ m'.1 rfl hkey.1, hvalue.1, Bool.and_self]
    refine ⟨?_, ?_⟩
    · show ((Shape.undeclared properties made).all fun m =>
        [signature].any (g.admits p.strictly m)) = true
      rw [List.all_eq_true]
      intro m hm
      simpa using hadmits' m hm
    · rw [otherFields_singleton hadmits', hmade, otherFields_singleton hadmits,
        Entries.mapValues, Entries.mapValues, List.map_map]
      refine List.map_congr_left fun m hm => ?_
      have hvalue := hothers m hm signature List.mem_cons_self (hadmits m hm)
      exact Prod.ext rfl hvalue.2
  · simp at hlen

/-- **What a lenient parse leaves of an object is accepted strictly and left as it is**, when the
same holds for its members. -/
theorem Guarded.object_again (hg : g.Guarded) (hd : properties.keys.Nodup)
    (hlen : signatures.length ≤ 1)
    (ha : g.accepts p.leniently (.object properties signatures) (.object ms) = true)
    (hdeclared : ∀ e ∈ properties,
      g.Leaves p.strictly e.2 (g.parsed p.leniently e.2 ((Value.object ms).get e.1)))
    (hothers : ∀ m ∈ Shape.undeclared properties ms, ∀ e ∈ signatures,
      g.admits p.leniently m e = true → g.Leaves p.strictly e.2 (g.parsed p.leniently e.2 m.2)) :
    g.Leaves p.strictly (.object properties signatures)
      (.object (g.madeFields p.leniently properties signatures ms)) := by
  set made := g.madeFields p.leniently properties signatures ms
  have hget : ∀ e ∈ properties, (Value.object made).get e.1 =
      g.parsed p.leniently e.2 ((Value.object ms).get e.1) := fun e he => get_madeFields hd he
  obtain ⟨hrest, hsame⟩ := hg.others_again hlen ha hothers
  have hacc : g.accepts p.strictly (.object properties signatures) (.object made) = true := by
    rw [hg.accepts_object, Bool.and_eq_true, List.all_eq_true]
    refine ⟨fun e he => ?_, hrest⟩
    rw [hget e he]
    exact (hdeclared e he).1
  refine ⟨hacc, ?_⟩
  rw [hg.parsed_object hacc, hsame, Shape.declaredFields_congr fun e he => ?_]
  · rfl
  · rw [hget e he]
    exact (hdeclared e he).2

end

/-! ## Every lenient result -/

/-- **What a steady shape makes leniently it makes again strictly**, when no tags are put back. -/
theorem Makes.again (hg : g.Guarded) {s : Shape} {v w : Value} (h : g.Makes p.leniently s v w) :
    (∀ t, g.Reaches s t → t.isTidy = true ∧ g.Steady t ∧ t.isTagged = false) →
      g.Makes p.strictly s w w := by
  induction h with
  | @same s v hs ha =>
    refine fun _ => .same hs ?_
    -- values that are kept are no objects or are all accepted
    cases s <;> first | exact ha | cases hs
  | literal hc => exact fun _ => .literal (Literal.holds_toValue_of_holds hc)
  | literals hc => exact fun _ => .literals (Literal.find?_toValue hc)
  | missing hv => exact fun _ => .missing hv
  | @optional t v w hv hmakes ih =>
    intro hs
    refine .optional ?_ (ih (Uses.inner.forall_reaches hs))
    rw [Bool.eq_false_iff, ne_eq, Value.isNullish_iff] at hv ⊢
    rwa [hmakes.form_eq]
  | target hi _ ih => exact fun hs => .target hi (ih ((Uses.target hi).forall_reaches hs))
  | allOf => exact fun hs => (hs _ (Reaches.refl _)).2.1.elim
  | anyOf => exact fun hs => (hs _ (Reaches.refl _)).2.1.elim
  | tagged => exact fun hs => Bool.noConfusion (hs _ (Reaches.refl _)).2.2
  | array _ ih =>
    intro hs
    have hitems := fun v hv => (ih v hv (Uses.item.forall_reaches hs)).sound hg
    exact hg.makes_iff.mpr (hg.array_stable hitems)
  | @closed slots items hlen hmakes ih =>
    intro hs
    have hmem : ∀ e ∈ slots.zipIdx, e.1 ∈ slots := fun e he =>
      List.mem_of_getElem? (List.mem_zipIdx_iff_getElem?.mp he)
    have hslot : ∀ e ∈ slots.zipIdx, ∀ u, g.Reaches e.1 u → _ :=
      fun e he => (Uses.slot (hmem e he)).forall_reaches hs
    refine hg.makes_iff.mpr (hg.closed_stable (fun e he hlen => ?_)
      (fun e he => (ih e he (hslot e he)).sound hg) hlen)
    exact (hmakes e he).undefined_eq (Value.item_of_length_le hlen)
      (fun u hu => (hslot e he u hu).2.1) ((hs _ (Reaches.refl _)).2.1 _ (hmem e he))
  | @opened slots t items hmakes _ ih ihrest =>
    intro hs
    have hmem : ∀ e ∈ slots.zipIdx, e.1 ∈ slots := fun e he =>
      List.mem_of_getElem? (List.mem_zipIdx_iff_getElem?.mp he)
    have hslot : ∀ e ∈ slots.zipIdx, ∀ u, g.Reaches e.1 u → _ :=
      fun e he => (Uses.slot (hmem e he)).forall_reaches hs
    refine hg.makes_iff.mpr (hg.opened_stable (fun e he hlen => ?_)
      (fun e he => (ih e he (hslot e he)).sound hg)
      fun v hv => (ihrest v hv (Uses.rest.forall_reaches hs)).sound hg)
    exact (hmakes e he).undefined_eq (Value.item_of_length_le hlen)
      (fun u hu => (hslot e he u hu).2.1) ((hs _ (Reaches.refl _)).2.1 _ (hmem e he))
  | @object properties signatures ms ha _ _ ih ihothers =>
    intro hs
    obtain ⟨htidy, hlen, -⟩ := hs _ (Reaches.refl _)
    exact hg.makes_iff.mpr (hg.object_again (Shape.nodup_properties htidy) hlen ha
      (fun e he => (ih e he ((Uses.property he).forall_reaches hs)).sound hg)
      fun m hm e he hadmits =>
        (ihothers m hm e he hadmits ((Uses.member he).forall_reaches hs)).sound hg)

/-- **A lenient parse removes all that strictness objects to.** What is parsed leniently by a steady
shape without tagged unions is accepted strictly, and is parsed strictly to itself. -/
theorem Guarded.parse_strictly_of_parse_leniently (hg : g.Guarded) (hd : g.isTidy = true)
    (p : Policy) {s : Shape} (ht : s.isTidy = true)
    (hs : ∀ t, g.Reaches s t → g.Steady t ∧ t.isTagged = false) {v : Value}
    (ha : g.accepts p.leniently s v = true) :
    ∃ w, g.parse p.leniently s v = .ok w ∧ g.accepts p.strictly s w = true ∧
      g.parse p.strictly s w = .ok w := by
  have hagain := (hg.makes s v ha).again hg fun t h => ⟨isTidy_of_reaches hd ht h, hs t h⟩
  obtain ⟨hacc, hparsed⟩ := hagain.sound hg
  refine ⟨_, hg.parse_eq ha, hacc, ?_⟩
  rw [hg.parse_eq hacc, hparsed]

/-- Pages with a span that may lack its end, and pages inside of pages; a book keeps them by
name. -/
def pages : Graph :=
  ⟨[("Page", .object [("span", .tuple [.base .number, .optional (.base .number)] none),
      ("inner", .array (.ref 0 "Page"))] []),
    ("Book", .object [("title", .optional (.base .string))] [(.base .string, .ref 0 "Page")])]⟩

theorem pages_guarded : pages.Guarded := guarded_of_ranks id (by decide)

/-- A book with notes in its pages that are not asked for. -/
def annotatedBook : Value :=
  .object [("first", .object [("note", .bool true), ("span", .array [.number (.ofInt 1)]),
      ("inner", .array [.object [("inner", .array []), ("note", .null),
        ("span", .array [.number (.ofInt 2), .number (.ofInt 3)])]])]),
    ("title", .null)]

theorem pages_reaches (t : Shape) (h : pages.Reaches (.ref 1 "Book") t) :
    pages.Steady t ∧ t.isTagged = false := by
  have hall : t.all (fun t => isSteady t && !t.isTagged) = true :=
    reaches_all (by decide) (by decide) h
  have hboth := Shape.of_all hall
  rw [Bool.and_eq_true, Bool.not_eq_true'] at hboth
  exact ⟨steady_of_isSteady hboth.1, hboth.2⟩

theorem parse_strictly_annotatedBook :
    pages.isTidy = true ∧
      pages.accepts ({} : Policy).leniently (.ref 1 "Book") annotatedBook = true ∧
      pages.accepts ({} : Policy).strictly (.ref 1 "Book") annotatedBook = false ∧
      ∃ w, pages.parse ({} : Policy).leniently (.ref 1 "Book") annotatedBook = .ok w ∧
        pages.accepts ({} : Policy).strictly (.ref 1 "Book") w = true ∧
        pages.parse ({} : Policy).strictly (.ref 1 "Book") w = .ok w :=
  have hd : pages.isTidy = true := by decide
  have ha : pages.accepts ({} : Policy).leniently (.ref 1 "Book") annotatedBook = true := by
    decide +kernel
  ⟨hd, ha, by decide +kernel,
    pages_guarded.parse_strictly_of_parse_leniently hd {} rfl pages_reaches ha⟩

end Graph

end ShapeGraph
