import ShapeGraph.Proofs.Diagnosis
import ShapeGraph.Proofs.Distinct
import ShapeGraph.Proofs.Location

/-!
# What strictness adds

A strict policy forbids undeclared keys in objects without signatures, and nothing else. So what it
accepts is accepted without it too; and where it makes the difference, the report says so, if need
be inside of unions, which gather what their members say.

* `Policy.strictly`, `Policy.leniently` — a policy with and without strictness
* `Guarded.accepts_leniently` — strictness does not make anything accepted
* `DecodeError.Within` — an error that stands in another one, at any depth
* `Guarded.exists_exposes` — where strictness makes the difference, an undeclared key is told
* `Graph.Refuses` — an object tells a key that it does not declare
* `Guarded.accepts_strictly_or_refuses` — strictness rejects undeclared keys only, and says which
-/

namespace ShapeGraph

/-- A policy with strictness. -/
def Policy.strictly (p : Policy) : Policy := { p with strict := true }

/-- A policy without strictness. -/
def Policy.leniently (p : Policy) : Policy := { p with strict := false }

/-- `e.Within x r d`: the error `d` is `e`, or it stands in it, in unions of unions. The path of `d`
is told from `r`, which is what the union directly around it received, or `x` when `d` is `e`. -/
inductive DecodeError.Within (e : DecodeError) (x : Value) : Value → DecodeError → Prop
  | self : Within e x x e
  | inside {r path w errors d} : Within e x r (.union path w errors) → d ∈ errors → Within e x w d

theorem DecodeError.Within.trans {e d c : DecodeError} {x r q : Value} (h : e.Within x r d)
    (h' : d.Within r q c) : e.Within x q c := by
  induction h' with
  | self => exact h
  | inside _ hd ih => exact .inside ih hd

/-- An error tells an undeclared key, itself or inside of unions. -/
def DecodeError.Exposes (e : DecodeError) : Prop :=
  ∀ x, ∃ r d, e.Within x r d ∧ d.message? = some Shape.extraProperty

theorem DecodeError.exposes_extra (path : Path) (v : Value) :
    (mismatch Shape.extraProperty path v).Exposes :=
  fun _ => ⟨_, _, .self, rfl⟩

theorem DecodeError.Exposes.union {errors : List DecodeError} {e : DecodeError} (h : e.Exposes)
    (he : e ∈ errors) (path : Path) (v : Value) : (DecodeError.union path v errors).Exposes := by
  intro x
  obtain ⟨r, d, hd, hmessage⟩ := h v
  have hstep : (DecodeError.union path v errors).Within x v e := .inside .self he
  exact ⟨r, d, hstep.trans hd, hmessage⟩

namespace Graph

variable {g : Graph} {p : Policy} {s t : Shape} {path : Path} {v w x : Value} {e : DecodeError}

/-! ## Acceptance -/

/-- What admits a member strictly admits it. -/
theorem admits_leniently {m : String × Value} {f : Shape × Shape}
    (hkey : g.accepts p.strictly f.1 (.string m.1) = true →
      g.accepts p.leniently f.1 (.string m.1) = true)
    (hvalue : g.accepts p.strictly f.2 m.2 = true → g.accepts p.leniently f.2 m.2 = true)
    (h : g.admits p.strictly m f = true) : g.admits p.leniently m f = true := by
  rw [admits, Bool.and_eq_true] at h ⊢
  exact ⟨hkey h.1, hvalue h.2⟩

/-- **Strictness does not make anything accepted.** -/
theorem Guarded.accepts_leniently (hg : g.Guarded) (s : Shape) (v : Value) :
    g.accepts p.strictly s v = true → g.accepts p.leniently s v = true := by
  induction s, v using hg.induction with | step s v ih => ?_
  intro h
  cases s with
  | ref i name =>
    rw [hg.accepts_ref] at h ⊢
    obtain ⟨t, ht, h⟩ := (Option.any_eq_true _ _).mp h
    exact (Option.any_eq_true _ _).mpr ⟨t, ht, ih t v (.target ht) h⟩
  | optional t =>
    rw [accepts_optional, Bool.or_eq_true] at h ⊢
    exact h.imp_right (ih t v .inner)
  | allOf members =>
    rw [accepts_allOf, Bool.and_eq_true, List.all_eq_true] at h ⊢
    exact ⟨h.1, fun t ht => ih t v (.conjunct ht) (h.2 t ht)⟩
  | anyOf members =>
    rw [accepts_anyOf, List.any_eq_true] at h ⊢
    obtain ⟨t, ht, h⟩ := h
    exact ⟨t, ht, ih t v (.disjunct ht) h⟩
  | tagged members tag branches =>
    rw [accepts_tagged, Bool.and_eq_true] at h ⊢
    obtain ⟨hv, h⟩ := h
    obtain ⟨key, hkey, h⟩ := (Option.any_eq_true _ _).mp h
    obtain ⟨t, ht, h⟩ := (Option.any_eq_true _ _).mp h
    have hlenient := ih t v (.branch (Entries.mem_of_get? ht)) h
    exact ⟨hv, (Option.any_eq_true _ _).mpr
      ⟨key, hkey, (Option.any_eq_true _ _).mpr ⟨t, ht, hlenient⟩⟩⟩
  | array t =>
    cases v with
    | array items =>
      rw [hg.accepts_array, List.all_eq_true] at h ⊢
      exact fun w hw => ih t w (.item hw) (h w hw)
    | _ => cases h
  | tuple slots rest =>
    cases v with
    | array items =>
      cases rest with
      | none =>
        rw [hg.accepts_tuple_closed, Bool.and_eq_true, List.all_eq_true] at h ⊢
        exact ⟨fun e he => ih e.1 _ (.slot (List.mem_zipIdx_iff_getElem?.mp he)) (h.1 e he), h.2⟩
      | some t =>
        rw [hg.accepts_tuple_open, Bool.and_eq_true, List.all_eq_true, List.all_eq_true] at h ⊢
        exact ⟨fun e he => ih e.1 _ (.slot (List.mem_zipIdx_iff_getElem?.mp he)) (h.1 e he),
          fun w hw => ih t w (.rest hw) (h.2 w hw)⟩
    | _ => cases rest <;> cases h
  | object properties signatures =>
    cases v with
    | object ms =>
      rw [hg.accepts_object, Bool.and_eq_true, List.all_eq_true] at h ⊢
      refine ⟨fun e he => ih e.2 _ (.property he) (h.1 e he), ?_⟩
      cases signatures with
      | nil => rfl
      | cons f signatures =>
        refine List.all_eq_true.mpr fun m hm => ?_
        have hmem : m ∈ ms := (List.mem_filter.mp hm).1
        obtain ⟨e, he, hadmits⟩ := List.any_eq_true.mp (List.all_eq_true.mp h.2 m hm)
        exact List.any_eq_true.mpr ⟨e, he, admits_leniently (ih e.1 _ (.key he hmem))
          (ih e.2 _ (.member he hmem)) hadmits⟩
    | _ => cases h
  | _ => exact h

/-! ## Undeclared keys are told -/

/-- What has to be known of the parts of a question: where strictness makes the difference for a
part, the container takes an error from it that tells an undeclared key. -/
def PartsExpose (g : Graph) (p : Policy) (s : Shape) (v : Value) : Prop :=
  ∀ t w, g.Part (t, w) (s, v) → g.accepts p.leniently t w = true →
    g.accepts p.strictly t w = false → ∀ path, ∃ e ∈ g.complaint p.strictly t path w, e.Exposes

/-- Of parts that all accept leniently, but not all strictly, one is told of. -/
theorem PartsExpose.among {α : Type} {l : List α} {t : α → Shape} {w : α → Value}
    (h : g.PartsExpose p s v) (hpart : ∀ a ∈ l, g.Part (t a, w a) (s, v))
    (hlenient : ∀ a ∈ l, g.accepts p.leniently (t a) (w a) = true)
    (hstrict : (l.all fun a => g.accepts p.strictly (t a) (w a)) = false) (place : α → Path) :
    ∃ e ∈ l.flatMap fun a => g.complaint p.strictly (t a) (place a) (w a), e.Exposes := by
  obtain ⟨a, ha, hrejected⟩ := List.all_eq_false.mp hstrict
  obtain ⟨e, he, hexposes⟩ := h (t a) (w a) (hpart a ha) (hlenient a ha)
    (Bool.eq_false_iff.mpr hrejected) (place a)
  exact ⟨e, List.mem_flatMap.mpr ⟨a, ha, he⟩, hexposes⟩

theorem PartsExpose.slots {slots : List Shape} {rest : Option Shape} {items : List Value}
    (h : g.PartsExpose p (.tuple slots rest) (.array items))
    (hlenient : ∀ e ∈ slots.zipIdx,
      g.accepts p.leniently e.1 ((Value.array items).item e.2) = true)
    (hstrict : (slots.zipIdx.all fun e =>
      g.accepts p.strictly e.1 ((Value.array items).item e.2)) = false) (path : Path) :
    ∃ e ∈ g.slotComplaints p.strictly slots path items, e.Exposes :=
  h.among (fun _ he => .slot (List.mem_zipIdx_iff_getElem?.mp he)) hlenient hstrict _

/-- Items of one shape, from an index on. -/
theorem PartsExpose.items {t : Shape} {items : List Value} (h : g.PartsExpose p s v)
    (hpart : ∀ w ∈ items, g.Part (t, w) (s, v))
    (hlenient : ∀ w ∈ items, g.accepts p.leniently t w = true)
    (hstrict : (items.all fun w => g.accepts p.strictly t w) = false) (n : Nat) (path : Path) :
    ∃ e ∈ (items.zipIdx n).flatMap fun e => g.complaint p.strictly t (path ++ [Path.index e.2]) e.1,
      e.Exposes := by
  rw [← List.zipIdx_map_fst n items, List.all_map] at hstrict
  exact h.among (fun e he => hpart e.1 (List.fst_mem_of_mem_zipIdx he))
    (fun e he => hlenient e.1 (List.fst_mem_of_mem_zipIdx he)) hstrict _

theorem PartsExpose.tuple (hg : g.Guarded) {slots : List Shape} {rest : Option Shape}
    {items : List Value} (h : g.PartsExpose p (.tuple slots rest) (.array items))
    (hlenient : g.accepts p.leniently (.tuple slots rest) (.array items) = true)
    (hstrict : g.accepts p.strictly (.tuple slots rest) (.array items) = false) (path : Path) :
    ∃ e ∈ g.report p.strictly (.tuple slots rest) path (.array items), e.Exposes := by
  cases rest with
  | none =>
    rw [hg.accepts_tuple_closed, Bool.and_eq_true, List.all_eq_true] at hlenient
    rw [hg.accepts_tuple_closed, hlenient.2, Bool.and_true] at hstrict
    obtain ⟨e, he, hexposes⟩ := h.slots hlenient.1 hstrict path
    rw [hg.report_tuple_closed]
    exact ⟨e, List.mem_append_left _ he, hexposes⟩
  | some t =>
    rw [hg.accepts_tuple_open, Bool.and_eq_true, List.all_eq_true, List.all_eq_true] at hlenient
    rw [hg.accepts_tuple_open, Bool.and_eq_false_iff] at hstrict
    rw [hg.report_tuple_open]
    rcases hstrict with hstrict | hstrict
    · obtain ⟨e, he, hexposes⟩ := h.slots hlenient.1 hstrict path
      exact ⟨e, List.mem_append_left _ he, hexposes⟩
    · obtain ⟨e, he, hexposes⟩ := h.items (fun _ => .rest) hlenient.2 hstrict slots.length path
      exact ⟨e, List.mem_append_right _ he, hexposes⟩

/-- A signature that admits a member, but not strictly, tells an undeclared key. -/
theorem PartsExpose.signature {properties : Entries Shape} {signatures : List (Shape × Shape)}
    {ms : List (String × Value)} {m : String × Value} {f : Shape × Shape}
    (h : g.PartsExpose p (.object properties signatures) (.object ms)) (hf : f ∈ signatures)
    (hm : m ∈ ms) (hlenient : g.admits p.leniently m f = true)
    (hstrict : g.admits p.strictly m f = false) (path : Path) :
    ∃ e ∈ g.signatureComplaint p.strictly path m f, e.Exposes := by
  rw [admits, Bool.and_eq_true] at hlenient
  rw [signatureComplaint]
  cases hkey : g.accepts p.strictly f.1 (.string m.1) with
  | true =>
    rw [admits, hkey, Bool.true_and] at hstrict
    obtain ⟨e, he, hexposes⟩ := h f.2 m.2 (.member hf hm) hlenient.2 hstrict (path ++ [m.1])
    exact ⟨e, mem_report_of_mem_complaint he, hexposes⟩
  | false =>
    obtain ⟨e, he, hexposes⟩ := h f.1 _ (.key hf hm) hlenient.1 hkey (path ++ [m.1])
    exact ⟨e, mem_report_of_mem_complaint he, hexposes⟩

theorem PartsExpose.object (hg : g.Guarded) {properties : Entries Shape}
    {signatures : List (Shape × Shape)} {ms : List (String × Value)}
    (h : g.PartsExpose p (.object properties signatures) (.object ms))
    (hlenient : g.accepts p.leniently (.object properties signatures) (.object ms) = true)
    (hstrict : g.accepts p.strictly (.object properties signatures) (.object ms) = false)
    (path : Path) :
    ∃ e ∈ g.report p.strictly (.object properties signatures) path (.object ms), e.Exposes := by
  rw [hg.report_object]
  cases hextra : extraKeys p.strictly properties signatures ms with
  | cons m others =>
    -- the object itself tells all of its undeclared keys
    exact ⟨_, List.mem_map_of_mem List.mem_cons_self, DecodeError.exposes_extra _ _⟩
  | nil =>
    rw [hg.accepts_object, Bool.and_eq_true, List.all_eq_true] at hlenient
    rw [hg.accepts_object, Bool.and_eq_false_iff] at hstrict
    rw [List.isEmpty_nil, if_pos rfl]
    rcases hstrict with hstrict | hstrict
    · obtain ⟨e, he, hexposes⟩ :=
        h.among (fun _ => .property) hlenient.1 hstrict fun f => path ++ [f.1]
      exact ⟨e, List.mem_append_left _ he, hexposes⟩
    · cases signatures with
      | nil =>
        have hnone : Shape.undeclared properties ms = [] := hextra
        rw [hnone] at hstrict
        cases hstrict
      | cons f signatures =>
        obtain ⟨m, hm, hstrict⟩ := List.all_eq_false.mp hstrict
        have hmem : m ∈ ms := (List.mem_filter.mp hm).1
        obtain ⟨f', hf', hadmits⟩ := List.any_eq_true.mp (List.all_eq_true.mp hlenient.2 m hm)
        have hrefused := Bool.eq_false_iff.mpr
          (List.any_eq_false.mp (Bool.eq_false_iff.mpr hstrict) f' hf')
        obtain ⟨e, he, hexposes⟩ := h.signature hf' hmem hadmits hrefused path
        refine ⟨e, List.mem_append_right _ (List.mem_flatMap.mpr ⟨m, hm, ?_⟩), hexposes⟩
        rw [memberComplaint, if_neg hstrict]
        exact List.mem_flatMap.mpr ⟨f', hf', he⟩

/-- **Where strictness makes the difference, an undeclared key is told**, in the report itself or
inside of unions. -/
theorem Guarded.exists_exposes (hg : g.Guarded) (s : Shape) (v : Value) :
    g.accepts p.leniently s v = true → g.accepts p.strictly s v = false →
      ∀ path, ∃ e ∈ g.report p.strictly s path v, e.Exposes := by
  induction s, v using hg.induction with | step s v ih => ?_
  intro hlenient hstrict path
  -- what a rejected part reports, a container takes from it
  have hparts : g.PartsExpose p s v := by
    intro t w hp hlenient hstrict path
    rw [complaint, hstrict]
    exact ih t w hp hlenient hstrict path
  cases s with
  | ref i name =>
    rw [hg.accepts_ref] at hlenient hstrict
    obtain ⟨t, ht, hlenient⟩ := (Option.any_eq_true _ _).mp hlenient
    rw [ht] at hstrict
    rw [hg.report_ref name path v ht]
    exact ih t v (.target ht) hlenient hstrict path
  | optional t =>
    rw [accepts_optional, Bool.or_eq_false_iff] at hstrict
    rw [accepts_optional, hstrict.1, Bool.false_or] at hlenient
    rw [report_optional, hstrict.1]
    exact ih t v .inner hlenient hstrict.2 path
  | allOf members =>
    rw [accepts_allOf, Bool.and_eq_true, List.all_eq_true] at hlenient
    rw [accepts_allOf, hlenient.1, Bool.true_and] at hstrict
    rw [report_allOf, if_pos hlenient.1]
    exact hparts.among (fun _ => .conjunct) hlenient.2 hstrict fun _ => path
  | anyOf members =>
    rw [report_anyOf, hstrict]
    rw [accepts_anyOf] at hlenient hstrict
    obtain ⟨t, ht, hlenient⟩ := List.any_eq_true.mp hlenient
    have hstrict := Bool.eq_false_iff.mpr (List.any_eq_false.mp hstrict t ht)
    obtain ⟨e, he, hexposes⟩ := ih t v (.disjunct ht) hlenient hstrict []
    exact ⟨_, List.mem_singleton_self _,
      hexposes.union (List.mem_flatMap.mpr ⟨t, ht, he⟩) path v⟩
  | tagged members tag branches =>
    rw [accepts_tagged, Bool.and_eq_true] at hlenient
    obtain ⟨hv, hlenient⟩ := hlenient
    obtain ⟨key, hkey, hlenient⟩ := (Option.any_eq_true _ _).mp hlenient
    obtain ⟨t, ht, hlenient⟩ := (Option.any_eq_true _ _).mp hlenient
    rw [accepts_tagged, hv, hkey, Bool.true_and, Option.any_some, ht, Option.any_some] at hstrict
    rw [report_tagged, if_pos hv, hkey, Option.bind_some, ht]
    exact ih t v (.branch (Entries.mem_of_get? ht)) hlenient hstrict path
  | array t =>
    cases v with
    | array items =>
      rw [hg.accepts_array, List.all_eq_true] at hlenient
      rw [hg.accepts_array] at hstrict
      rw [hg.report_array]
      exact hparts.items (fun _ => .item) hlenient hstrict 0 path
    | _ => cases hlenient
  | tuple slots rest =>
    cases v with
    | array items => exact hparts.tuple hg hlenient hstrict path
    | _ => cases rest <;> cases hlenient
  | object properties signatures =>
    cases v with
    | object ms => exact hparts.object hg hlenient hstrict path
    | _ => cases hlenient
  | _ =>
    -- the others do not look at strictness
    exact absurd (hlenient.symm.trans hstrict) Bool.noConfusion

/-! ## Whose keys are told -/

/-- `g.Asks q q'`: the question `q` of a shape about a value comes to the question `q'`. -/
def Asks (g : Graph) : Shape × Value → Shape × Value → Prop :=
  Relation.ReflTransGen fun q q' => g.Part q' q

/-- **The error `e`, whose path is told from `r`, speaks of a key of an object**, and it is raised
by an object shape that is asked about that object and does not declare the key. -/
def Refuses (g : Graph) (p : Policy) (q : Shape × Value) (r : Value) (e : DecodeError) : Prop :=
  ∃ properties ms path k w,
    g.Asks q (.object properties [], .object ms) ∧
    e ∈ g.report p (.object properties []) path (.object ms) ∧
    e = .mismatch Shape.extraProperty (path ++ [k]) w ∧
    r.walk? path = some (.object ms) ∧ (k, w) ∈ ms ∧ k ∉ Entries.keys properties

theorem Asks.head {q : Shape × Value} (h : g.Part (t, w) (s, v)) (ht : g.Asks (t, w) q) :
    g.Asks (s, v) q :=
  Relation.ReflTransGen.head h ht

theorem Asks.isTidy {q : Shape × Value} (h : g.Asks (s, v) q) (hv : v.isTidy = true) :
    q.2.isTidy = true := by
  induction h with
  | refl => exact hv
  | tail _ hpart ih => exact hpart.isTidy_value ih

/-- The segments of a child lead to what it is asked about. -/
theorem Child.walk? {step : Path} (h : g.Child step (t, w) (s, v)) (hv : v.isTidy = true) :
    v.walk? step = some w := by
  have hstep : ∀ {segment : String}, v.step? segment = some w → v.walk? [segment] = some w := by
    intro segment hstep
    rw [Value.walk?, hstep]
    rfl
  cases h with
  | slot => exact hstep (Value.step?_index _ _)
  | rest _ hw | item hw =>
    refine hstep ((Value.step?_index _ _).trans ?_)
    rw [Value.item, hw]
    rfl
  | property => exact hstep rfl
  | member _ hm => exact hstep (Value.step?_member hv hm)
  | conjunct | branch | inner | target => rfl

/-- An undeclared key is told by an object shape, at the place of the object. -/
theorem Raises.exists_undeclared (h : g.Raises p s path v e) (hv : v.isTidy = true)
    (he : e.message? = some Shape.extraProperty) :
    ∃ properties ms rest m, g.Asks (s, v) (.object properties [], .object ms) ∧ p.strict = true ∧
      v.walk? rest = some (.object ms) ∧ m ∈ Shape.undeclared properties ms ∧
      e = .mismatch Shape.extraProperty (path ++ (rest ++ [m.1])) m.2 := by
  have hnot {message : String} (hmessage : Shape.IsExpectation message)
      (he : some message = some Shape.extraProperty) : False :=
    hmessage.ne_extraProperty (Option.some.inj he)
  induction h with
  | @expected s => exact (hnot s.isExpectation_expectation he).elim
  | @tag _ _ branches => exact (hnot (Shape.isExpectation_knownTags branches) he).elim
  | @overflow slots => exact (hnot (Shape.isExpectation_tooManyItems slots.length) he).elim
  | extra hstrict hm => exact ⟨_, _, [], _, .refl, hstrict, rfl, hm, rfl⟩
  | union => cases he
  | key _ _ _ ih =>
    -- there is no object in a key
    obtain ⟨_, _, _, _, -, -, hwalk, -⟩ := ih rfl he
    obtain ⟨-, hobject⟩ := Value.eq_of_walk?_string hwalk
    cases hobject
  | @part _ _ _ step _ _ _ hchild _ ih =>
    obtain ⟨properties, ms, rest, m, hasks, hstrict, hwalk, hm, rfl⟩ :=
      ih (hchild.part.isTidy_value hv) he
    refine ⟨properties, ms, step ++ rest, m, hasks.head hchild.part, hstrict, ?_, hm, ?_⟩
    · rw [Value.walk?_append, hchild.walk? hv]
      exact hwalk
    · simp only [List.append_assoc]

/-- A union among the errors is what a union of shapes says that is asked about what it received. -/
theorem Raises.exists_anyOf {q : Path} {errors : List DecodeError}
    (h : g.Raises p s path v (.union q w errors)) :
    ∃ members, g.Asks (s, v) (.anyOf members, w) ∧
      errors = members.flatMap fun t => g.report p t [] w := by
  generalize he : DecodeError.union q w errors = e at h
  induction h with
  | @union members =>
    cases he
    exact ⟨members, .refl, rfl⟩
  | key hf hm _ ih =>
    obtain ⟨members, hasks, herrors⟩ := ih he
    exact ⟨members, hasks.head (.key hf hm), herrors⟩
  | part hchild _ ih =>
    obtain ⟨members, hasks, herrors⟩ := ih he
    exact ⟨members, hasks.head hchild.part, herrors⟩
  | _ => cases he

/-- An error at any depth is raised by a shape that is asked about what it is told from. -/
theorem Guarded.raises_of_within (hg : g.Guarded) {r : Value} {d : DecodeError}
    (he : e ∈ g.report p s [] x) (h : e.Within x r d) :
    ∃ t, g.Asks (s, x) (t, r) ∧ g.Raises p t [] r d := by
  induction h with
  | self => exact ⟨s, .refl, hg.raises_of_mem_report s x [] e he⟩
  | inside _ hd ih =>
    obtain ⟨t, hasks, hraises⟩ := ih
    obtain ⟨members, hunion, rfl⟩ := hraises.exists_anyOf
    obtain ⟨u, hu, hd⟩ := List.mem_flatMap.mp hd
    exact ⟨u, (hasks.trans hunion).tail (.disjunct hu), hg.raises_of_mem_report u _ [] _ hd⟩

/-- **Every undeclared key that is told, at any depth of a report, is refused by an object.** -/
theorem Guarded.refuses_of_within (hg : g.Guarded) (hx : x.isTidy = true) {r : Value}
    {d : DecodeError} (he : e ∈ g.report p s [] x) (h : e.Within x r d)
    (hd : d.message? = some Shape.extraProperty) : g.Refuses p (s, x) r d := by
  obtain ⟨t, hasks, hraises⟩ := hg.raises_of_within he h
  obtain ⟨properties, ms, path, m, hobject, hstrict, hwalk, hm, rfl⟩ :=
    hraises.exists_undeclared (hasks.isTidy hx) hd
  obtain ⟨hmem, hundeclared⟩ := List.mem_filter.mp hm
  refine ⟨properties, ms, path, m.1, m.2, hasks.trans hobject, ?_, rfl, hwalk, hmem, fun hk => ?_⟩
  · have hextra : extraKeys p properties [] ms = Shape.undeclared properties ms := by
      rw [extraKeys, hstrict]
      rfl
    rw [hg.report_object, hextra,
      if_neg fun hnil => List.ne_nil_of_mem hm (List.isEmpty_iff.mp hnil)]
    exact List.mem_map_of_mem hm
  · rw [Entries.has_iff.mpr hk] at hundeclared
    cases hundeclared

/-- **Strictness rejects undeclared keys only, and says which.** What is accepted strictly is
accepted leniently. Where a value is accepted leniently only, the strict report tells an undeclared
key, itself or inside of unions; and of every error that does, at any depth, the place is that of a
key of an object that the object shape which raises it does not declare. -/
theorem Guarded.accepts_strictly_or_refuses (hg : g.Guarded) (p : Policy) (s : Shape) {x : Value}
    (hx : x.isTidy = true) :
    (g.accepts p.strictly s x = true → g.accepts p.leniently s x = true) ∧
      (g.accepts p.leniently s x = true → g.accepts p.strictly s x = false →
        (∃ e ∈ g.report p.strictly s [] x, ∃ r d, e.Within x r d ∧
          d.message? = some Shape.extraProperty) ∧
        ∀ e ∈ g.report p.strictly s [] x, ∀ r d, e.Within x r d →
          d.message? = some Shape.extraProperty → g.Refuses p.strictly (s, x) r d) := by
  refine ⟨hg.accepts_leniently s x, fun hlenient hstrict => ⟨?_, fun e he r d hd hmessage => ?_⟩⟩
  · obtain ⟨e, he, hexposes⟩ := hg.exists_exposes s x hlenient hstrict []
    exact ⟨e, he, hexposes x⟩
  · exact hg.refuses_of_within hx he hd hmessage

/-- A fork with a leaf that has a colour. -/
def paintedFork : Value :=
  .object [("kind", .string "fork"),
    ("parts", .array [.object [("kind", .string "leaf"), ("at", .array [.number (.ofInt 3)]),
      ("colour", .string "red")]])]

/-- The colour is told inside of the union, from the place of the fork. -/
theorem accepts_strictly_or_refuses_paintedFork :
    paintedFork.isTidy = true ∧
      trees.accepts ({} : Policy).leniently (.anyOf [.bigint, .ref 2 "Tree"]) paintedFork = true ∧
      trees.accepts ({} : Policy).strictly (.anyOf [.bigint, .ref 2 "Tree"]) paintedFork = false ∧
      (∃ e ∈ trees.report ({} : Policy).strictly (.anyOf [.bigint, .ref 2 "Tree"]) [] paintedFork,
        ∃ r d, e.Within paintedFork r d ∧ d.message? = some Shape.extraProperty) ∧
      ∀ e ∈ trees.report ({} : Policy).strictly (.anyOf [.bigint, .ref 2 "Tree"]) [] paintedFork,
        ∀ r d, e.Within paintedFork r d → d.message? = some Shape.extraProperty →
          trees.Refuses ({} : Policy).strictly (.anyOf [.bigint, .ref 2 "Tree"], paintedFork) r d :=
  have ht : paintedFork.isTidy = true := by decide +kernel
  have hlenient : trees.accepts ({} : Policy).leniently (.anyOf [.bigint, .ref 2 "Tree"])
      paintedFork = true := by decide +kernel
  have hstrict : trees.accepts ({} : Policy).strictly (.anyOf [.bigint, .ref 2 "Tree"])
      paintedFork = false := by decide +kernel
  ⟨ht, hlenient, hstrict, (trees_guarded.accepts_strictly_or_refuses {} _ ht).2 hlenient hstrict⟩

end Graph

end ShapeGraph
