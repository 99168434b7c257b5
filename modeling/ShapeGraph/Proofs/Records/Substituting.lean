import ShapeGraph.Proofs.Compiling
import ShapeGraph.Record.Substitution
import ShapeGraph.Shape.Substitution

/-!
# Records in place of references compile

Where a record compiles, it does so with records in place of its references, and the shape has in
the same places what these compile to. So the path does not count, which is only told in errors. The
other way round, a record with a hole compiles where the filled one does.

* `Record.compile_subst` — a record with records in place of its references
* `Record.compile_at` — a record at another path
* `Record.exists_compile_iff` — what compiles is in order, at any depth
* `Record.exists_compile_of_fill` — the record around a hole
-/

namespace ShapeGraph

namespace Record

variable {formats : Formats} {place? place?' : String → Option Nat} {f : String → Record}
  {F : Nat → String → Shape}

theorem compile_ref {name : String} {place : Nat} (h : place? name = some place) (path : Path) :
    (ref name).compile formats place? path = .ok (.ref place name) := by
  rw [compile, h]

/-- A record that compiles does so with records in place of its references, at any path. -/
def Substitutes (formats : Formats) (place? place?' : String → Option Nat) (f : String → Record)
    (F : Nat → String → Shape) (r : Record) : Prop :=
  ∀ path s, r.compile formats place? path = .ok s →
    ∀ path', (r.subst f).compile formats place?' path' = .ok (s.subst F)

/-! ## Records without records inside

What is checked of them does not depend on the path. -/

theorem compileLiteral_path {path : Path} {value : Json} {c : Literal}
    (h : compileLiteral path value = .ok c) (path' : Path) :
    compileLiteral path' value = .ok c := by
  unfold compileLiteral at h ⊢
  split at h
  · cases h
    rfl
  · cases h

theorem compileLiterals_path {path : Path} {values : List Json} {cs : List Literal}
    (h : values.mapM (compileLiteral path) = .ok cs) (path' : Path) :
    values.mapM (compileLiteral path') = .ok cs := by
  rw [mapM_eq_ok_iff] at h ⊢
  exact h.imp fun _ _ hc => compileLiteral_path hc path'

theorem checkFormats_path {type : BaseType} {isKnown : String → Bool} {path : Path}
    {listed : List String} (h : checkFormats type isKnown path listed = .ok ()) (path' : Path) :
    checkFormats type isKnown path' listed = .ok () := by
  unfold checkFormats at h ⊢
  split at h
  · cases h
  · next hne =>
    rw [if_neg hne]
    split at h
    · cases h
    · rfl

/-- Whether a record is of a kind that has no records inside, and is no reference. -/
def isLeaf : Record → Bool
  | .tuple .. | .allOf _ | .anyOf _ | .array _ | .anyOfDiscriminated .. | .optionalField _
  | .object .. | .ref _ => false
  | _ => true

theorem substitutes_leaf {r : Record} (hr : r.isLeaf = true) :
    Substitutes formats place? place?' f F r := by
  intro path s h path'
  cases r with
  | const value =>
    simp only [compile, bind_eq_ok, pure_eq_ok] at h
    obtain ⟨c, hc, rfl⟩ := h
    show (compileLiteral path' value >>= _) = _
    rw [compileLiteral_path hc]
    rfl
  | anyOfConsts values =>
    simp only [compile, bind_eq_ok, pure_eq_ok] at h
    obtain ⟨cs, hcs, rfl⟩ := h
    show (values.mapM (compileLiteral path') >>= _) = _
    rw [compileLiterals_path hcs]
    rfl
  | stringWithFormats listed | numberWithFormats listed =>
    simp only [compile, bind_eq_ok, pure_eq_ok] at h
    obtain ⟨_, hcheck, rfl⟩ := h
    show (checkFormats _ _ path' listed >>= _) = _
    rw [checkFormats_path hcheck]
    rfl
  | regex text label =>
    rw [compile] at h
    split at h
    · next compiled hcompiled =>
      cases h
      show (regex text label).compile formats place?' path' = _
      rw [compile, hcompiled]
      rfl
    · cases h
  | tuple | allOf | anyOf | array | anyOfDiscriminated | optionalField | object | ref => cases hr
  | _ =>
    cases h
    rfl

/-! ## Records inside a record -/

section

variable {label : String} {path : Path}

theorem compileAll_subst {records : List Record} {shapes : List Shape} {i : Nat}
    (hr : ∀ e ∈ listed label records i, Substitutes formats place? place?' f F e.2)
    (h : compileAll formats place? label path i records = .ok shapes) (path' : Path) :
    compileAll formats place?' label path' i (substAll f records) =
      .ok (Shape.substAll F shapes) := by
  induction records generalizing shapes i with
  | nil =>
    cases h
    rfl
  | cons r records ih =>
    rw [listed, List.zipIdx_cons, List.map_cons] at hr
    obtain ⟨hr, hrecords⟩ := List.forall_mem_cons.mp hr
    simp only [compileAll, bind_eq_ok, pure_eq_ok] at h
    obtain ⟨s, hs, others, hothers, rfl⟩ := h
    rw [substAll, compileAll, hr _ s hs, ih hrecords hothers]
    rfl

theorem compileNamed_subst {entries : Entries Record} {shapes : Entries Shape}
    (hr : ∀ e ∈ named label entries, Substitutes formats place? place?' f F e.2)
    (h : compileNamed formats place? label path entries = .ok shapes) (path' : Path) :
    compileNamed formats place?' label path' (substNamed f entries) =
      .ok (Shape.substNamed F shapes) := by
  induction entries generalizing shapes with
  | nil =>
    cases h
    rfl
  | cons e entries ih =>
    obtain ⟨hr, hentries⟩ := List.forall_mem_cons.mp hr
    simp only [compileNamed, bind_eq_ok, pure_eq_ok] at h
    obtain ⟨s, hs, others, hothers, rfl⟩ := h
    rw [substNamed, compileNamed, hr _ s hs, ih hentries hothers]
    rfl

theorem compilePairs_subst {pairs : List (Record × Record)} {shapes : List (Shape × Shape)}
    (hr : ∀ e ∈ paired pairs, Substitutes formats place? place?' f F e.2)
    (h : compilePairs formats place? path pairs = .ok shapes) (path' : Path) :
    compilePairs formats place?' path' (substPairs f pairs) =
      .ok (Shape.substPairs F shapes) := by
  induction pairs generalizing shapes with
  | nil =>
    cases h
    rfl
  | cons e pairs ih =>
    obtain ⟨hkey, hr⟩ := List.forall_mem_cons.mp hr
    obtain ⟨hvalue, hpairs⟩ := List.forall_mem_cons.mp hr
    simp only [compilePairs, bind_eq_ok, pure_eq_ok] at h
    obtain ⟨k, hk, v, hv, others, hothers, rfl⟩ := h
    rw [substPairs, compilePairs, hkey _ k hk, hvalue _ v hv, ih hpairs hothers]
    rfl

end

/-- **A record that compiles does so with records in place of its references**, wherever what is put
in place of a name that was found compiles. -/
theorem compile_subst
    (hf : ∀ name i, place? name = some i →
      ∀ path, (f name).compile formats place?' path = .ok (F i name))
    (r : Record) : Substitutes formats place? place?' f F r := by
  induction r using parts_induction with | step r ih => ?_
  intro path s h path'
  cases r with
  | ref name =>
    rw [compile] at h
    split at h
    · next i hi =>
      cases h
      exact hf name i hi path'
    · cases h
  | tuple slots rest =>
    cases rest with
    | none =>
      simp only [compile, bind_eq_ok, pure_eq_ok] at h
      obtain ⟨shapes, hshapes, rfl⟩ := h
      rw [subst, compile, compileAll_subst ih hshapes]
      rfl
    | some rest =>
      simp only [compile, bind_eq_ok, pure_eq_ok] at h
      obtain ⟨shapes, hshapes, t, ht, rfl⟩ := h
      obtain ⟨hslots, hrest⟩ := List.forall_mem_append.mp ih
      rw [subst, compile, compileAll_subst hslots hshapes, hrest _ List.mem_cons_self _ t ht]
      rfl
  | allOf members | anyOf members =>
    simp only [compile, bind_eq_ok, pure_eq_ok] at h
    obtain ⟨shapes, hshapes, rfl⟩ := h
    rw [subst, compile, compileAll_subst ih hshapes]
    rfl
  | array item | optionalField item =>
    simp only [compile, bind_eq_ok, pure_eq_ok] at h
    obtain ⟨t, ht, rfl⟩ := h
    rw [subst, compile, ih _ List.mem_cons_self _ t ht]
    rfl
  | anyOfDiscriminated members tag branches =>
    rw [compile] at h
    split at h
    · cases h
    · next hne =>
      simp only [bind_eq_ok, pure_eq_ok] at h
      obtain ⟨others, hothers, shapes, hshapes, rfl⟩ := h
      obtain ⟨hbranches, hmembers⟩ := List.forall_mem_append.mp ih
      have hempty : (substNamed f branches).isEmpty = branches.isEmpty := by cases branches <;> rfl
      rw [subst, compile, hempty, if_neg hne, compileNamed_subst hbranches hothers,
        compileAll_subst hmembers hshapes]
      rfl
  | object properties signatures =>
    simp only [compile, bind_eq_ok, pure_eq_ok] at h
    obtain ⟨shapes, hshapes, pairs, hpairs, rfl⟩ := h
    obtain ⟨hproperties, hsignatures⟩ := List.forall_mem_append.mp ih
    rw [subst, compile, compileNamed_subst hproperties hshapes,
      compilePairs_subst hsignatures hpairs]
    rfl
  | _ => exact substitutes_leaf rfl path s h path'

/-- **A record compiles to the same shape at any path.** -/
theorem compile_at {r : Record} {path : Path} {s : Shape}
    (h : r.compile formats place? path = .ok s) (path' : Path) :
    r.compile formats place? path' = .ok s := by
  have hsubst : Substitutes formats place? place? .ref .ref r :=
    compile_subst (fun _ _ => compile_ref) r
  have hsame := hsubst path s h path'
  rwa [subst_ref, Shape.subst_ref] at hsame

/-! ## Records around holes -/

/-- **A record compiles exactly when all records inside it are in order.** -/
theorem exists_compile_iff {names : List String}
    (hnames : ∀ name, name ∈ names ↔ (place? name).isSome = true) {path : Path} {r : Record} :
    (∃ s, r.compile formats place? path = .ok s) ↔
      ∀ t, r.Contains t → t.IsWellFormed formats names := by
  rw [← failure?_eq_none_iff, failure?_compile hnames, List.findSome?_eq_none_iff]
  simp only [fault?_eq_none_iff]
  exact forall_mem_visits_iff

/-- Whether a record that is no reference is in order does not depend on its references. -/
theorem isWellFormed_of_subst {names names' : List String} {r : Record}
    (hr : ∀ name, r ≠ .ref name) (h : (r.subst f).IsWellFormed formats names') :
    r.IsWellFormed formats names := by
  cases r with
  | ref name => exact absurd rfl (hr name)
  | anyOfDiscriminated members tag branches =>
    rintro rfl
    exact h rfl
  | tuple | allOf | anyOf | array | optionalField | object => trivial
  | _ => exact h

/-- **The record around a hole compiles where the filled one does**, once a name for what fills the
hole is found. -/
theorem exists_compile_of_fill {names : List String} {hole : String} {filling template : Record}
    (hnames : ∀ name, name ∈ names ↔ (place? name).isSome = true)
    (hnames' : ∀ name, name ∈ hole :: names ↔ (place?' name).isSome = true) {path : Path}
    (h : ∃ s, (template.fill hole filling).compile formats place? path = .ok s) :
    ∃ s, template.compile formats place?' path = .ok s := by
  rw [exists_compile_iff hnames] at h
  rw [exists_compile_iff hnames']
  intro t ht
  have hfilled := h _ (contains_subst ht)
  by_cases href : ∃ name, t = .ref name
  · obtain ⟨name, rfl⟩ := href
    by_cases hname : name = hole
    · exact List.mem_cons.mpr (.inl hname)
    · rw [subst, if_neg hname] at hfilled
      exact List.mem_cons_of_mem _ hfilled
  · exact isWellFormed_of_subst (fun name heq => href ⟨name, heq⟩) hfilled

end Record

end ShapeGraph
