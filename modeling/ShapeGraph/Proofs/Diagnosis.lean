import ShapeGraph.Proofs.Raising

/-!
# Acceptance and reports agree

A report is worked out apart from acceptance, kind by kind. The two agree: nothing is reported
exactly when the value is accepted. What a report says comes from a short list of messages.

* `Guarded.report_eq_nil_iff` — nothing is reported exactly for accepted values
* `Shape.Says` — what a report can say
* `Guarded.isSaid_of_mem_report` — no error of a report has another message
-/

namespace ShapeGraph

theorem forall_mem_zipIdx {α : Type} {l : List α} {n : Nat} {P : α → Prop} :
    (∀ e ∈ l.zipIdx n, P e.1) ↔ ∀ a ∈ l, P a := by
  constructor
  · intro h a ha
    obtain ⟨i, hi, rfl⟩ := List.mem_iff_getElem.mp ha
    refine h (l[i], n + i) (List.mk_mem_zipIdx_iff_le_and_getElem?_sub.mpr ⟨by omega, ?_⟩)
    rw [Nat.add_sub_cancel_left, List.getElem?_eq_getElem hi]
  · exact fun h e he => h e.1 (List.fst_mem_of_mem_zipIdx he)

namespace Graph

variable {g : Graph} {p : Policy}

/-- What has to be known of the parts of a question: they report nothing exactly when they
accept. -/
def PartsDiagnose (g : Graph) (p : Policy) (s : Shape) (v : Value) : Prop :=
  ∀ t w, g.Part (t, w) (s, v) → ∀ path, g.report p t path w = [] ↔ g.accepts p t w = true

theorem PartsDiagnose.complaint_eq_nil_iff {s t : Shape} {v w : Value}
    (h : g.PartsDiagnose p s v) (hp : g.Part (t, w) (s, v)) (path : Path) :
    g.complaint p t path w = [] ↔ g.accepts p t w = true := by
  rw [complaint]
  split
  · next ha => simp [ha]
  · exact h t w hp path

/-! ## One step for each kind with parts -/

theorem PartsDiagnose.slots {slots : List Shape} {rest : Option Shape} {items : List Value}
    (h : g.PartsDiagnose p (.tuple slots rest) (.array items)) (path : Path) :
    g.slotComplaints p slots path items = [] ↔
      (slots.zipIdx.all fun e => g.accepts p e.1 ((Value.array items).item e.2)) = true := by
  rw [slotComplaints, List.flatMap_eq_nil_iff, List.all_eq_true]
  refine forall₂_congr fun e he => h.complaint_eq_nil_iff (.slot ?_) _
  exact List.mem_zipIdx_iff_getElem?.mp he

theorem overflow_eq_nil_iff (slots : List Shape) (path : Path) (items : List Value) :
    overflow slots path items = [] ↔ items.length ≤ slots.length := by
  rw [overflow, ← List.drop_eq_nil_iff]
  cases items.drop slots.length <;> simp

/-- A signature has something to say of a member exactly when it does not admit it. -/
theorem PartsDiagnose.signature {properties : Entries Shape} {signatures : List (Shape × Shape)}
    {ms : List (String × Value)} {m : String × Value} {e : Shape × Shape}
    (h : g.PartsDiagnose p (.object properties signatures) (.object ms)) (he : e ∈ signatures)
    (hm : m ∈ ms) (path : Path) :
    g.signatureComplaint p path m e = [] ↔ g.admits p m e = true := by
  have hkey := h e.1 (.string m.1) (.key he hm) (path ++ [m.1])
  have hvalue := h e.2 m.2 (.member he hm) (path ++ [m.1])
  rw [signatureComplaint, admits]
  by_cases ha : g.accepts p e.1 (.string m.1) = true
  · rw [if_pos ha, hvalue, ha, Bool.true_and]
  · rw [if_neg ha, hkey, Bool.eq_false_iff.mpr ha, Bool.false_and]

theorem PartsDiagnose.member {properties : Entries Shape} {signatures : List (Shape × Shape)}
    {ms : List (String × Value)} {m : String × Value}
    (h : g.PartsDiagnose p (.object properties signatures) (.object ms)) (hne : signatures ≠ [])
    (hm : m ∈ ms) (path : Path) :
    g.memberComplaint p signatures path m = [] ↔ signatures.any (g.admits p m) = true := by
  rw [memberComplaint]
  split
  · next ha => simp [ha]
  · next ha =>
    rw [List.flatMap_eq_nil_iff]
    refine iff_of_false (fun hnil => ha ?_) ha
    obtain ⟨e, he⟩ := List.exists_mem_of_ne_nil signatures hne
    exact List.any_eq_true.mpr ⟨e, he, (h.signature he hm path).mp (hnil e he)⟩

theorem PartsDiagnose.object (hg : g.Guarded) {properties : Entries Shape}
    {signatures : List (Shape × Shape)} {ms : List (String × Value)}
    (h : g.PartsDiagnose p (.object properties signatures) (.object ms)) (path : Path) :
    g.report p (.object properties signatures) path (.object ms) = [] ↔
      g.accepts p (.object properties signatures) (.object ms) = true := by
  have hdeclared : (properties.flatMap fun e =>
      g.complaint p e.2 (path ++ [e.1]) ((Value.object ms).get e.1)) = [] ↔
      (properties.all fun e => g.accepts p e.2 ((Value.object ms).get e.1)) = true := by
    rw [List.flatMap_eq_nil_iff, List.all_eq_true]
    exact forall₂_congr fun e he => h.complaint_eq_nil_iff (.property he) _
  rw [hg.report_object, hg.accepts_object, Bool.and_eq_true]
  by_cases hsig : signatures = []
  · -- without signatures only strictness speaks of the other keys
    subst hsig
    cases hstrict : p.strict with
    | false => simpa [extraKeys, hstrict] using hdeclared
    | true =>
      by_cases hextra : Shape.undeclared properties ms = []
      · simpa [extraKeys, hstrict, hextra] using hdeclared
      · simp [extraKeys, hstrict, hextra]
  · have hempty : signatures.isEmpty = false := by
      rw [Bool.eq_false_iff]
      exact fun he => hsig (List.isEmpty_iff.mp he)
    have hothers :
        (Shape.undeclared properties ms).flatMap (g.memberComplaint p signatures path) = [] ↔
          ((Shape.undeclared properties ms).all fun m => signatures.any (g.admits p m)) = true := by
      rw [List.flatMap_eq_nil_iff, List.all_eq_true]
      exact forall₂_congr fun m hm => h.member hsig (List.mem_filter.mp hm).1 path
    have hkeys : extraKeys p properties signatures ms = [] := by
      rw [extraKeys, hempty, Bool.false_and]
      rfl
    rw [hkeys, hempty]
    simp only [List.isEmpty_nil, if_true, Bool.false_eq_true, if_false]
    rw [List.append_eq_nil_iff, hdeclared, hothers]

/-- A shape without parts reports what it expects, unless it accepts. -/
theorem check_eq_nil_iff {s : Shape} {path : Path} {v : Value} :
    Shape.check p (g.acceptsRef p (g.budget v)) s path v = [] ↔ g.accepts p s v = true := by
  rw [Shape.check]
  split
  · next ha => exact iff_of_true rfl ha
  · next ha => exact iff_of_false (List.cons_ne_nil _ _) ha

/-! ## The agreement -/

/-- **Nothing is reported exactly when the value is accepted.** -/
theorem Guarded.report_eq_nil_iff (hg : g.Guarded) (s : Shape) (v : Value) :
    ∀ path, g.report p s path v = [] ↔ g.accepts p s v = true := by
  -- each kind accepts and reports by its parts, and the parts are settled by the induction
  induction s, v using hg.induction with | step s v ih => ?_
  have ih : g.PartsDiagnose p s v := ih
  intro path
  cases s with
  | any => exact iff_of_true rfl rfl
  | ref i name =>
    cases ht : g.shape? i with
    | none =>
      rw [report_ref_none name path v ht, hg.accepts_ref, ht]
      exact iff_of_false (List.cons_ne_nil _ _) Bool.false_ne_true
    | some t =>
      rw [hg.report_ref name path v ht, hg.accepts_ref, ht]
      exact ih t v (.target ht) path
  | optional t =>
    rw [report_optional, accepts_optional]
    by_cases hv : v.isNullish = true
    · rw [if_pos hv, hv, Bool.true_or]
      exact iff_of_true rfl rfl
    · rw [if_neg hv, Bool.eq_false_iff.mpr hv, Bool.false_or]
      exact ih t v .inner path
  | allOf members =>
    rw [report_allOf, accepts_allOf]
    by_cases hv : v.isObject = true
    · rw [if_pos hv, hv, Bool.true_and, List.flatMap_eq_nil_iff, List.all_eq_true]
      exact forall₂_congr fun t ht => ih.complaint_eq_nil_iff (.conjunct ht) path
    · rw [if_neg hv, Bool.eq_false_iff.mpr hv, Bool.false_and]
      exact iff_of_false (List.cons_ne_nil _ _) Bool.false_ne_true
  | anyOf members =>
    rw [report_anyOf]
    by_cases ha : g.accepts p (.anyOf members) v = true
    · rw [if_pos ha]
      exact iff_of_true rfl ha
    · rw [if_neg ha]
      exact iff_of_false (List.cons_ne_nil _ _) ha
  | tagged members tag branches =>
    rw [report_tagged, accepts_tagged]
    by_cases hv : v.isObject = true
    · rw [if_pos hv, hv, Bool.true_and]
      cases hkey : (v.get tag).tagKey? with
      | none => exact iff_of_false (List.cons_ne_nil _ _) Bool.false_ne_true
      | some key =>
        rw [Option.bind_some, Option.any_some]
        cases ht : Entries.get? branches key with
        | none => exact iff_of_false (List.cons_ne_nil _ _) Bool.false_ne_true
        | some t => exact ih t v (.branch (Entries.mem_of_get? ht)) path
    · rw [if_neg hv, Bool.eq_false_iff.mpr hv, Bool.false_and]
      exact iff_of_false (List.cons_ne_nil _ _) Bool.false_ne_true
  | array t =>
    cases v with
    | array items =>
      rw [hg.report_array, hg.accepts_array, List.flatMap_eq_nil_iff, List.all_eq_true]
      refine (forall₂_congr fun e he => ?_).trans forall_mem_zipIdx
      exact ih.complaint_eq_nil_iff (.item (List.fst_mem_of_mem_zipIdx he)) _
    | _ => exact iff_of_false (List.cons_ne_nil _ _) Bool.false_ne_true
  | tuple slots rest =>
    cases v with
    | array items =>
      cases rest with
      | none =>
        rw [hg.report_tuple_closed, hg.accepts_tuple_closed, List.append_eq_nil_iff,
          Bool.and_eq_true, ih.slots, overflow_eq_nil_iff, decide_eq_true_iff]
      | some t =>
        rw [hg.report_tuple_open, hg.accepts_tuple_open, List.append_eq_nil_iff,
          Bool.and_eq_true, ih.slots, List.flatMap_eq_nil_iff]
        refine and_congr_right fun _ => ?_
        rw [List.all_eq_true]
        refine (forall₂_congr fun e he => ?_).trans forall_mem_zipIdx
        exact ih.complaint_eq_nil_iff (.rest (List.fst_mem_of_mem_zipIdx he)) _
    | _ => cases rest <;> exact iff_of_false (List.cons_ne_nil _ _) Bool.false_ne_true
  | object properties signatures =>
    cases v with
    | object ms => exact ih.object hg path
    | _ => exact iff_of_false (List.cons_ne_nil _ _) Bool.false_ne_true
  | _ =>
    rw [report, Shape.report]
    exact check_eq_nil_iff

end Graph

/-! ## What a report can say -/

/-- The messages of reports. -/
inductive Shape.Says : String → Prop
  | expectation (s : Shape) : Says s.expectation
  | extraProperty : Says extraProperty
  | knownTags (branches : Entries Shape) : Says (knownTags branches)
  | tooManyItems (count : Nat) : Says (tooManyItems count)

/-- How all messages begin, but for that of undeclared keys. -/
inductive Shape.IsExpectation : String → Prop
  | empty : IsExpectation ""
  | never : IsExpectation "never"
  | expected (rest : String) : IsExpectation ("expected " ++ rest)
  | unresolved (name : String) : IsExpectation ("unresolved ref " ++ name)

theorem Shape.isExpectation_expectation (s : Shape) : IsExpectation s.expectation := by
  cases s with
  | any | anyOf | optional => exact .empty
  | never => exact .never
  | ref place name => exact .unresolved name
  | base type => exact .expected type.name
  | literal c => exact .expected c.render
  | pattern text compiled label => exact .expected ("string matching " ++ label)
  | stringFormats formats => exact .expected ("string with format " ++ _)
  | numberFormats formats => exact .expected ("number with format " ++ _)
  | literals cs => exact .expected ("one of " ++ _)
  | nullish => exact .expected "nullish"
  | date => exact .expected "Date"
  | bigint => exact .expected "bigint"
  | tuple => exact .expected "tuple"
  | array => exact .expected "array"
  | allOf | tagged | object => exact .expected "object"

theorem Shape.isExpectation_knownTags (branches : Entries Shape) :
    IsExpectation (knownTags branches) :=
  .expected ("one of " ++ ", ".intercalate (branches.keys.map Json.quote))

theorem Shape.isExpectation_tooManyItems (count : Nat) : IsExpectation (tooManyItems count) := by
  have h := IsExpectation.expected ("tuple with " ++ (Number.natText count ++ " items"))
  rw [← String.append_assoc, ← String.append_assoc] at h
  exact h

/-- What follows a text does not change its first letters. -/
theorem take_toList_append {a : String} (b : String) {n : Nat} (h : n ≤ a.toList.length) :
    (a ++ b).toList.take n = a.toList.take n := by
  rw [String.toList_append, List.take_append_of_le_length h]

/-- The first letters of these messages. -/
theorem Shape.IsExpectation.take_mem {message : String} (h : IsExpectation message) :
    message.toList.take 3 ∈ [[], "nev".toList, "exp".toList, "unr".toList] := by
  cases h with
  | empty | never => decide
  | expected rest =>
    rw [take_toList_append rest (by decide)]
    decide
  | unresolved name =>
    rw [take_toList_append name (by decide)]
    decide

theorem Shape.IsExpectation.head_ne {message : String} (h : IsExpectation message) :
    message.toList.head? ≠ some 'i' := by
  have hnone : ∀ cs ∈ [[], "nev".toList, "exp".toList, "unr".toList], cs.head? ≠ some 'i' := by
    decide
  have hne := hnone _ h.take_mem
  rwa [List.head?_take, if_neg (by decide)] at hne

/-- Of an undeclared key nothing else is said. -/
theorem Shape.IsExpectation.ne_extraProperty {message : String} (h : IsExpectation message) :
    message ≠ extraProperty := by
  rintro rfl
  exact absurd h.take_mem (by decide)

/-- No message begins like "invalid" and "internal". -/
theorem Shape.Says.head_ne {message : String} (h : Says message) :
    message.toList.head? ≠ some 'i' := by
  cases h with
  | expectation s => exact s.isExpectation_expectation.head_ne
  | extraProperty => exact (by decide : "extra property".toList.head? ≠ some 'i')
  | knownTags branches => exact (isExpectation_knownTags branches).head_ne
  | tooManyItems count => exact (isExpectation_tooManyItems count).head_ne

/-- An error that speaks for itself has a message of a report; a union has none. -/
def DecodeError.IsSaid (e : DecodeError) : Prop := ∀ message, e.message? = some message →
  Shape.Says message

theorem DecodeError.isSaid_mismatch {message : String} {path : Path} {v : Value}
    (h : Shape.Says message) : (DecodeError.mismatch message path v).IsSaid := by
  intro m hm
  cases hm
  exact h

namespace Graph

variable {g : Graph} {p : Policy}

theorem Raises.isSaid {s : Shape} {path : Path} {v : Value} {e : DecodeError}
    (h : g.Raises p s path v e) : e.IsSaid := by
  induction h with
  | @expected s => exact DecodeError.isSaid_mismatch (.expectation s)
  | @tag _ _ branches => exact DecodeError.isSaid_mismatch (.knownTags branches)
  | @overflow slots => exact DecodeError.isSaid_mismatch (.tooManyItems slots.length)
  | extra => exact DecodeError.isSaid_mismatch .extraProperty
  | union => exact nofun
  | key _ _ _ ih | part _ _ ih => exact ih

/-- **Every error of a report has one of these messages, or is a union.** -/
theorem Guarded.isSaid_of_mem_report (hg : g.Guarded) (s : Shape) (v : Value) (path : Path) :
    ∀ e ∈ g.report p s path v, e.IsSaid :=
  fun e he => (hg.raises_of_mem_report s v path e he).isSaid

end Graph

end ShapeGraph
