import Mathlib.Data.List.Forall2
import ShapeGraph.Record.Parts
import ShapeGraph.Shape.Parts

/-!
# What compiles, and what is wrong with what does not

Whether a record compiles is decided by the records inside it, each taken alone: compilation
fails where one of them is wrong, and the error is that of the first one in depth-first order.

* `Record.IsWellFormed` — a record is in order, apart from the records inside it
* `Record.fault?` — what is wrong with a record, apart from the records inside it
* `failure?_compile_step` — a record fails by itself, or else as the first of its parts that fails
* `failure?_compile` — a record fails as the first record inside it that has a fault
* `parts_of_compile` — the parts of a compiled shape are compiled from the parts of the record
-/

namespace ShapeGraph

/-! ## Steps that succeed -/

section Steps

variable {α β ε : Type}

theorem bind_eq_ok {x : Except ε α} {f : α → Except ε β} {b : β} :
    (x >>= f) = .ok b ↔ ∃ a, x = .ok a ∧ f a = .ok b := by
  cases x with
  | error e => exact ⟨nofun, nofun⟩
  | ok a => exact ⟨fun h => ⟨a, rfl, h⟩, fun ⟨_, ha, h⟩ => by cases ha; exact h⟩

theorem pure_eq_ok {a b : α} : (pure a : Except ε α) = .ok b ↔ a = b :=
  Except.ok.injEq a b ▸ Iff.rfl

theorem mapError_eq_ok {ε' : Type} {f : ε → ε'} {x : Except ε α} {a : α} :
    x.mapError f = .ok a ↔ x = .ok a := by
  cases x with
  | error e => exact ⟨nofun, nofun⟩
  | ok b =>
    show Except.ok b = Except.ok a ↔ _
    simp

theorem mapM_eq_ok_iff {f : α → Except ε β} {xs : List α} {ys : List β} :
    xs.mapM f = .ok ys ↔ List.Forall₂ (fun x y => f x = .ok y) xs ys := by
  induction xs generalizing ys with
  | nil =>
    rw [List.mapM_nil, pure_eq_ok, List.forall₂_nil_left_iff]
    exact eq_comm
  | cons x xs ih =>
    simp only [List.mapM_cons, bind_eq_ok, pure_eq_ok, List.forall₂_cons_left_iff, ih]
    constructor
    · rintro ⟨y, hy, ys, hys, rfl⟩
      exact ⟨y, ys, hy, hys, rfl⟩
    · rintro ⟨y, ys, hy, hys, rfl⟩
      exact ⟨y, hy, ys, hys, rfl⟩

/-- What comes out of steps that succeed comes out of one of them. -/
theorem exists_of_mem_mapM {f : α → Except ε β} {xs : List α} {ys : List β}
    (h : xs.mapM f = .ok ys) {y : β} (hy : y ∈ ys) : ∃ x ∈ xs, f x = .ok y := by
  induction mapM_eq_ok_iff.mp h with
  | nil => cases hy
  | cons hhead _ ih =>
    rcases List.mem_cons.mp hy with rfl | hy
    · exact ⟨_, List.mem_cons_self, hhead⟩
    · obtain ⟨x, hx, h⟩ := ih (mapM_eq_ok_iff.mpr ‹_›) hy
      exact ⟨x, List.mem_cons_of_mem _ hx, h⟩

/-- Steps on the contents of entries leave the names as they are. -/
theorem entries_of_mapM {f : String × α → Except ε β} {es : Entries α} {ds : Entries β}
    (h : (es.mapM fun e => do return (e.1, ← f e)) = .ok ds) :
    ds.keys = es.keys ∧ ∀ d ∈ ds, ∃ a, (d.1, a) ∈ es ∧ f (d.1, a) = .ok d.2 := by
  constructor
  · induction mapM_eq_ok_iff.mp h with
    | nil => rfl
    | cons hhead htail ih =>
      simp only [bind_eq_ok, pure_eq_ok] at hhead
      obtain ⟨b, -, rfl⟩ := hhead
      exact congrArg (_ :: ·) (ih (mapM_eq_ok_iff.mpr htail))
  · intro d hd
    obtain ⟨e, he, hstep⟩ := exists_of_mem_mapM h hd
    simp only [bind_eq_ok, pure_eq_ok] at hstep
    obtain ⟨b, hb, rfl⟩ := hstep
    exact ⟨e.2, he, hb⟩

/-! ## Steps that fail -/

/-- The error with which a step fails. -/
def failure? : Except ε α → Option ε
  | .error e => some e
  | .ok _ => none

theorem failure?_eq_some_iff {x : Except ε α} {e : ε} : failure? x = some e ↔ x = .error e := by
  cases x with
  | error e' => simp only [failure?, Option.some.injEq, Except.error.injEq]
  | ok a => exact ⟨nofun, nofun⟩

theorem failure?_eq_none_iff {x : Except ε α} : failure? x = none ↔ ∃ a, x = .ok a := by
  cases x with
  | error e => exact ⟨nofun, nofun⟩
  | ok a => exact ⟨fun _ => ⟨a, rfl⟩, fun _ => rfl⟩

/-- A step followed by one that always fails in the same way, or never. -/
theorem failure?_bind {x : Except ε α} {f : α → Except ε β} {o : Option ε}
    (h : ∀ a, failure? (f a) = o) : failure? (x >>= f) = (failure? x).or o := by
  cases x with
  | error e => rfl
  | ok a => exact h a

theorem failure?_bind_pure {x : Except ε α} {f : α → β} :
    failure? (x >>= fun a => pure (f a)) = failure? x := by
  cases x <;> rfl

/-- Steps in a row fail as the first one that fails. -/
theorem failure?_mapM {f : α → Except ε β} {xs : List α} :
    failure? (xs.mapM f) = xs.findSome? fun x => failure? (f x) := by
  induction xs with
  | nil => rfl
  | cons x xs ih =>
    rw [List.mapM_cons, failure?_bind fun _ => failure?_bind_pure, ih, List.findSome?_cons]
    cases failure? (f x) <;> rfl

end Steps

theorem findSome?_congr_of_mem {α β : Type} {f g : α → Option β} {xs : List α}
    (h : ∀ x ∈ xs, f x = g x) : xs.findSome? f = xs.findSome? g := by
  induction xs with
  | nil => rfl
  | cons x xs ih =>
    obtain ⟨hx, hxs⟩ := List.forall_mem_cons.mp h
    rw [List.findSome?_cons, List.findSome?_cons, hx, ih hxs]

theorem findSome?_flatMap {α β γ : Type} {p : β → Option γ} {f : α → List β} {xs : List α} :
    (xs.flatMap f).findSome? p = xs.findSome? fun x => (f x).findSome? p := by
  induction xs with
  | nil => rfl
  | cons x xs ih =>
    rw [List.flatMap_cons, List.findSome?_append, ih, List.findSome?_cons]
    cases (f x).findSome? p <;> rfl

/-! ## Records taken alone -/

/-- Null, a boolean, a number or a string. -/
def Json.isScalar : Json → Bool
  | .arr _ | .obj _ => false
  | _ => true

namespace Record

/-- **A record is in order, apart from the records inside it**: a reference names one of the
definitions, a pattern is one to the engine, formats are named and all of them registered, a tagged
union has a branch, and constants are scalars. -/
def IsWellFormed (formats : Formats) (names : List String) : Record → Prop
  | .const value => value.isScalar = true
  | .anyOfConsts values => ∀ value ∈ values, value.isScalar = true
  | .regex text _ => (formats.patterns text).isSome = true
  | .stringWithFormats listed => listed ≠ [] ∧ ∀ f ∈ listed, (formats.stringRule? f).isSome = true
  | .numberWithFormats listed => listed ≠ [] ∧ ∀ f ∈ listed, (formats.numberRule? f).isSome = true
  | .anyOfDiscriminated _ _ branches => branches ≠ []
  | .ref name => name ∈ names
  | _ => True

/-- The first constant that is no scalar. -/
def literalsFault? (path : Path) (values : List Json) : Option BuildError :=
  (values.find? fun value => !value.isScalar).map (.structuredLiteral · path)

/-- An empty list of formats, or the first one that is not registered. -/
def formatsFault? (type : BaseType) (isKnown : String → Bool) (path : Path)
    (listed : List String) : Option BuildError :=
  if listed.isEmpty then some (.emptyFormats path)
  else (listed.find? fun f => !isKnown f).map (.unknownFormat type · path)

/-- **What is wrong with a record, apart from the records inside it.** -/
def fault? (formats : Formats) (names : List String) (path : Path) : Record → Option BuildError
  | .const value => literalsFault? path [value]
  | .anyOfConsts values => literalsFault? path values
  | .regex text _ =>
    if (formats.patterns text).isSome then none else some (.invalidPattern text path.textOrRoot)
  | .stringWithFormats listed =>
    formatsFault? .string (fun f => (formats.stringRule? f).isSome) path listed
  | .numberWithFormats listed =>
    formatsFault? .number (fun f => (formats.numberRule? f).isSome) path listed
  | .anyOfDiscriminated _ tag branches =>
    if branches.isEmpty then some (.emptyMapping tag path) else none
  | .ref name => if name ∈ names then none else some (.unknownRef name path)
  | _ => none

theorem literalsFault?_eq_none_iff {path : Path} {values : List Json} :
    literalsFault? path values = none ↔ ∀ value ∈ values, value.isScalar = true := by
  simp only [literalsFault?, Option.map_eq_none_iff, List.find?_eq_none, Bool.not_eq_true',
    Bool.not_eq_false]

theorem formatsFault?_eq_none_iff {type : BaseType} {isKnown : String → Bool} {path : Path}
    {listed : List String} :
    formatsFault? type isKnown path listed = none ↔
      listed ≠ [] ∧ ∀ f ∈ listed, isKnown f = true := by
  rw [formatsFault?]
  cases listed with
  | nil => exact ⟨nofun, fun h => absurd rfl h.1⟩
  | cons f others =>
    simp only [List.isEmpty_cons, Bool.false_eq_true, if_false, Option.map_eq_none_iff,
      List.find?_eq_none, Bool.not_eq_true', Bool.not_eq_false, ne_eq, reduceCtorEq,
      not_false_eq_true, true_and]

/-- A record has no fault exactly when it is in order. -/
theorem fault?_eq_none_iff {formats : Formats} {names : List String} {path : Path} {r : Record} :
    r.fault? formats names path = none ↔ r.IsWellFormed formats names := by
  cases r with
  | const value => rw [fault?, literalsFault?_eq_none_iff, List.forall_mem_singleton]; rfl
  | anyOfConsts values => exact literalsFault?_eq_none_iff
  | stringWithFormats listed | numberWithFormats listed => exact formatsFault?_eq_none_iff
  | regex text label => simp only [fault?, IsWellFormed, ite_eq_left_iff, reduceCtorEq, imp_false,
      not_not]
  | anyOfDiscriminated members tag branches => simp [fault?, IsWellFormed]
  | ref name => simp [fault?, IsWellFormed]
  | _ => exact iff_of_true rfl trivial

/-! ## Compilation as a traversal of the parts -/

variable {formats : Formats} {place? : String → Option Nat}

theorem compileAll_eq (label : String) (path : Path) (i : Nat) (records : List Record) :
    compileAll formats place? label path i records =
      (records.zipIdx i).mapM fun e =>
        e.1.compile formats place? (path ++ [memberSegment label e.2]) := by
  induction records generalizing i with
  | nil => rfl
  | cons r records ih => rw [compileAll, ih, List.zipIdx_cons, List.mapM_cons]

theorem compileNamed_eq (label : String) (path : Path) (entries : List (String × Record)) :
    compileNamed formats place? label path entries =
      entries.mapM fun e => do
        let s ← e.2.compile formats place? (path ++ [label ++ e.1])
        return (e.1, s) := by
  induction entries with
  | nil => rfl
  | cons e entries ih =>
    rw [compileNamed, ih, List.mapM_cons, bind_assoc]
    simp only [pure_bind]

theorem compilePairs_eq (path : Path) (pairs : List (Record × Record)) :
    compilePairs formats place? path pairs =
      pairs.mapM fun e => do
        let key ← e.1.compile formats place? (path ++ ["[key]"])
        let value ← e.2.compile formats place? (path ++ ["[value]"])
        return (key, value) := by
  induction pairs with
  | nil => rfl
  | cons e pairs ih =>
    rw [compilePairs, ih, List.mapM_cons, bind_assoc]
    simp only [bind_assoc, pure_bind]

/-- The first failure among records that stand side by side. -/
def firstFailure? (formats : Formats) (place? : String → Option Nat) (path : Path)
    (records : List (Path × Record)) : Option BuildError :=
  records.findSome? fun e => failure? (e.2.compile formats place? (path ++ e.1))

theorem firstFailure?_append {path : Path} {as bs : List (Path × Record)} :
    firstFailure? formats place? path (as ++ bs) =
      (firstFailure? formats place? path as).or (firstFailure? formats place? path bs) :=
  List.findSome?_append

theorem failure?_compileAll {label : String} {path : Path} {records : List Record} {i : Nat} :
    failure? (compileAll formats place? label path i records) =
      firstFailure? formats place? path (listed label records i) := by
  rw [compileAll_eq, failure?_mapM, firstFailure?, listed, List.findSome?_map]
  rfl

theorem failure?_compileNamed {label : String} {path : Path} {entries : List (String × Record)} :
    failure? (compileNamed formats place? label path entries) =
      firstFailure? formats place? path (named label entries) := by
  rw [compileNamed_eq, failure?_mapM, firstFailure?, named, List.findSome?_map]
  simp only [failure?_bind_pure]
  rfl

theorem failure?_compilePairs {path : Path} {pairs : List (Record × Record)} :
    failure? (compilePairs formats place? path pairs) =
      firstFailure? formats place? path (paired pairs) := by
  rw [compilePairs_eq, failure?_mapM, firstFailure?, paired, findSome?_flatMap]
  congr 1
  funext e
  rw [failure?_bind fun _ => failure?_bind_pure, List.findSome?_cons, List.findSome?_cons,
    List.findSome?_nil]
  cases failure? (e.1.compile formats place? (path ++ ["[key]"])) with
  | some error => rfl
  | none => cases failure? (e.2.compile formats place? (path ++ ["[value]"])) <;> rfl

theorem firstFailure?_singleton {path steps : Path} {r : Record} :
    firstFailure? formats place? path [(steps, r)] =
      failure? (r.compile formats place? (path ++ steps)) := by
  rw [firstFailure?, List.findSome?_cons, List.findSome?_nil]
  cases failure? (r.compile formats place? (path ++ steps)) <;> rfl

theorem failure?_compileLiteral {path : Path} {value : Json} :
    failure? (compileLiteral path value) = literalsFault? path [value] := by
  cases value <;> rfl

theorem failure?_compileLiterals {path : Path} {values : List Json} :
    failure? (values.mapM (compileLiteral path)) = literalsFault? path values := by
  rw [failure?_mapM]
  induction values with
  | nil => rfl
  | cons value values ih =>
    rw [List.findSome?_cons, failure?_compileLiteral, ih]
    simp only [literalsFault?, List.find?_cons, List.find?_nil]
    cases value.isScalar <;> rfl

theorem failure?_checkFormats {type : BaseType} {isKnown : String → Bool} {path : Path}
    {listed : List String} :
    failure? (checkFormats type isKnown path listed) = formatsFault? type isKnown path listed := by
  rw [checkFormats, formatsFault?]
  split
  · rfl
  · cases listed.find? fun name => !isKnown name <;> rfl

/-- **A record fails by itself, or else as the first of its parts that fails.** -/
theorem failure?_compile_step {names : List String}
    (hnames : ∀ name, name ∈ names ↔ (place? name).isSome = true) (path : Path) (r : Record) :
    failure? (r.compile formats place? path) =
      (r.fault? formats names path).or (firstFailure? formats place? path r.parts) := by
  cases r with
  | const value =>
    rw [compile, failure?_bind_pure, failure?_compileLiteral]
    exact Option.or_none.symm
  | anyOfConsts values =>
    rw [compile, failure?_bind_pure, failure?_compileLiterals]
    exact Option.or_none.symm
  | regex text label =>
    rw [compile, fault?]
    cases formats.patterns text <;> rfl
  | stringWithFormats listed | numberWithFormats listed =>
    rw [compile, failure?_bind_pure, failure?_checkFormats]
    exact Option.or_none.symm
  | tuple slots rest =>
    cases rest with
    | none => rw [compile, failure?_bind_pure, failure?_compileAll]; rfl
    | some rest =>
      rw [compile, failure?_bind fun _ => failure?_bind_pure, failure?_compileAll,
        ← firstFailure?_singleton, ← firstFailure?_append]
      rfl
  | allOf members | anyOf members => rw [compile, failure?_bind_pure, failure?_compileAll]; rfl
  | array item => rw [compile, failure?_bind_pure, ← firstFailure?_singleton]; rfl
  | anyOfDiscriminated members tag branches =>
    rw [compile, fault?]
    split
    · rfl
    · rw [failure?_bind fun _ => failure?_bind_pure, failure?_compileNamed, failure?_compileAll,
        ← firstFailure?_append]
      rfl
  | optionalField inner =>
    rw [compile, failure?_bind_pure, parts, firstFailure?_singleton, List.append_nil]
    rfl
  | object properties signatures =>
    rw [compile, failure?_bind fun _ => failure?_bind_pure, failure?_compileNamed,
      failure?_compilePairs, ← firstFailure?_append]
    rfl
  | ref name =>
    have hname := hnames name
    rw [compile, fault?]
    cases h : place? name with
    | none => rw [if_neg (by simpa [h] using hname)]; rfl
    | some place => rw [if_pos (by simpa [h] using hname)]; rfl
  | _ => rfl

/-- **A record fails as the first record inside it that has a fault**, in depth-first order. -/
theorem failure?_compile {names : List String}
    (hnames : ∀ name, name ∈ names ↔ (place? name).isSome = true) (path : Path) (r : Record) :
    failure? (r.compile formats place? path) =
      (r.visits path).findSome? fun e => e.2.fault? formats names e.1 := by
  induction r using parts_induction generalizing path with | step r ih => ?_
  rw [failure?_compile_step hnames, visits_eq, List.findSome?_cons, findSome?_flatMap,
    firstFailure?, findSome?_congr_of_mem fun e he => ih e he (path ++ e.1)]
  cases r.fault? formats names path <;> rfl

/-! ## What is compiled -/

section

variable {label : String} {path : Path} {t : Shape}

theorem exists_of_mem_compileAll {i : Nat} {records : List Record} {shapes : List Shape}
    (h : compileAll formats place? label path i records = .ok shapes) (ht : t ∈ shapes) :
    ∃ e ∈ listed label records i, e.2.compile formats place? (path ++ e.1) = .ok t := by
  rw [compileAll_eq] at h
  obtain ⟨e, he, h⟩ := exists_of_mem_mapM h ht
  exact ⟨_, List.mem_map_of_mem he, h⟩

theorem keys_compileNamed {entries : Entries Record} {shapes : Entries Shape}
    (h : compileNamed formats place? label path entries = .ok shapes) :
    shapes.keys = entries.keys := by
  rw [compileNamed_eq] at h
  exact (entries_of_mapM h).1

theorem exists_of_mem_compileNamed {entries : Entries Record} {shapes : Entries Shape}
    (h : compileNamed formats place? label path entries = .ok shapes)
    (ht : t ∈ shapes.map (·.2)) :
    ∃ e ∈ named label entries, e.2.compile formats place? (path ++ e.1) = .ok t := by
  rw [compileNamed_eq] at h
  obtain ⟨d, hd, rfl⟩ := List.mem_map.mp ht
  obtain ⟨r, hr, hcompile⟩ := (entries_of_mapM h).2 d hd
  exact ⟨_, List.mem_map_of_mem hr, hcompile⟩

theorem exists_of_mem_compilePairs {pairs : List (Record × Record)}
    {shapes : List (Shape × Shape)} (h : compilePairs formats place? path pairs = .ok shapes)
    (ht : t ∈ shapes.flatMap fun e => [e.1, e.2]) :
    ∃ e ∈ paired pairs, e.2.compile formats place? (path ++ e.1) = .ok t := by
  rw [compilePairs_eq] at h
  obtain ⟨d, hd, ht⟩ := List.mem_flatMap.mp ht
  obtain ⟨e, he, h⟩ := exists_of_mem_mapM h hd
  simp only [bind_eq_ok, pure_eq_ok] at h
  obtain ⟨key, hkey, value, hvalue, rfl⟩ := h
  have hcases : t = key ∨ t = value := by simpa using ht
  rcases hcases with rfl | rfl
  · exact ⟨_, List.mem_flatMap.mpr ⟨e, he, List.mem_cons_self⟩, hkey⟩
  · exact ⟨_, List.mem_flatMap.mpr ⟨e, he, List.mem_cons_of_mem _ List.mem_cons_self⟩, hvalue⟩

end

/-- **The parts of a compiled shape are compiled from the parts of the record.** -/
theorem parts_of_compile {path : Path} {r : Record} {s t : Shape}
    (h : r.compile formats place? path = .ok s) (ht : t ∈ s.parts) :
    ∃ e ∈ r.parts, e.2.compile formats place? (path ++ e.1) = .ok t := by
  cases r with
  | tuple slots rest =>
    cases rest with
    | none =>
      simp only [compile, bind_eq_ok, pure_eq_ok] at h
      obtain ⟨slots', hslots, rfl⟩ := h
      rw [Shape.parts, Option.toList_none, List.append_nil] at ht
      exact exists_of_mem_compileAll hslots ht
    | some rest =>
      simp only [compile, bind_eq_ok, pure_eq_ok] at h
      obtain ⟨slots', hslots, rest', hrest, rfl⟩ := h
      rcases List.mem_append.mp ht with ht | ht
      · obtain ⟨e, he, hcompile⟩ := exists_of_mem_compileAll hslots ht
        exact ⟨e, List.mem_append_left _ he, hcompile⟩
      · obtain rfl := List.mem_singleton.mp ht
        exact ⟨_, List.mem_append_right _ List.mem_cons_self, hrest⟩
  | allOf members | anyOf members =>
    simp only [compile, bind_eq_ok, pure_eq_ok] at h
    obtain ⟨members', hmembers, rfl⟩ := h
    exact exists_of_mem_compileAll hmembers ht
  | array item =>
    simp only [compile, bind_eq_ok, pure_eq_ok] at h
    obtain ⟨item', hitem, rfl⟩ := h
    obtain rfl := List.mem_singleton.mp ht
    exact ⟨_, List.mem_cons_self, hitem⟩
  | anyOfDiscriminated members tag branches =>
    rw [compile] at h
    split at h
    · cases h
    · simp only [bind_eq_ok, pure_eq_ok] at h
      obtain ⟨branches', hbranches, members', hmembers, rfl⟩ := h
      rcases List.mem_append.mp ht with ht | ht
      · obtain ⟨e, he, hcompile⟩ := exists_of_mem_compileAll hmembers ht
        exact ⟨e, List.mem_append_right _ he, hcompile⟩
      · obtain ⟨e, he, hcompile⟩ := exists_of_mem_compileNamed hbranches ht
        exact ⟨e, List.mem_append_left _ he, hcompile⟩
  | optionalField inner =>
    simp only [compile, bind_eq_ok, pure_eq_ok] at h
    obtain ⟨inner', hinner, rfl⟩ := h
    obtain rfl := List.mem_singleton.mp ht
    exact ⟨_, List.mem_cons_self, by rwa [List.append_nil]⟩
  | object properties signatures =>
    simp only [compile, bind_eq_ok, pure_eq_ok] at h
    obtain ⟨properties', hproperties, signatures', hsignatures, rfl⟩ := h
    rcases List.mem_append.mp ht with ht | ht
    · obtain ⟨e, he, hcompile⟩ := exists_of_mem_compileNamed hproperties ht
      exact ⟨e, List.mem_append_left _ he, hcompile⟩
    · obtain ⟨e, he, hcompile⟩ := exists_of_mem_compilePairs hsignatures ht
      exact ⟨e, List.mem_append_right _ he, hcompile⟩
  | regex text label | ref name =>
    rw [compile] at h
    split at h <;> cases h
    cases ht
  | const value | stringWithFormats listed | numberWithFormats listed | anyOfConsts values =>
    simp only [compile, bind_eq_ok, pure_eq_ok] at h
    obtain ⟨_, -, rfl⟩ := h
    cases ht
  | _ =>
    cases h
    cases ht

/-- **What compilation makes of every record of a kind is true everywhere inside what it makes.**
The kind is one whose records have only parts of the kind. -/
theorem all_of_compile {Q : Record → Prop} {P : Shape → Bool}
    (hparts : ∀ r, Q r → ∀ e ∈ r.parts, Q e.2)
    (hmade : ∀ path r s, Q r → r.compile formats place? path = .ok s → P s = true) {path : Path}
    {r : Record} {s : Shape} (hr : Q r) (h : r.compile formats place? path = .ok s) :
    s.all P = true := by
  induction s using Shape.parts_induction generalizing path r with | step s ih => ?_
  refine Shape.all_of_parts (hmade path r s hr h) fun t ht => ?_
  obtain ⟨e, he, hcompile⟩ := parts_of_compile h ht
  exact ih t ht (hparts r hr e he) hcompile

end Record

end ShapeGraph
