import ShapeGraph.Proofs.Termination

/-!
# Reports move with their path

One path is kept while errors are gathered. A segment is added to it before a part is asked and
taken off afterwards; the members of a union are asked with the empty path, and what was there is
put back. So in the end the path is the one of the beginning. All that it does to the errors is
that it stands in front of theirs; what the members of a union say does not show it.

* `Walk` — steps that keep a path; `Walk.within`, `Walk.apart`
* `DecodeError.relocate` — an error with a path in front of its own
* `Graph.reportAlong` — the report of a value along the path that is kept
* `Walk.Reports` — a walk makes a report that moves with the path, and leaves the path as it was
* `Guarded.reportAlong_relocates` — so does the report of a value in a guarded graph
-/

namespace ShapeGraph

/-! ## Keeping a path -/

/-- Steps that keep a path. There may be no answer, for want of fuel. -/
abbrev Walk := StateT Path Option

namespace Walk

variable {α : Type}

/-- Steps with a segment at the end of the path, which is taken off afterwards. -/
def within (segment : String) (steps : Walk α) : Walk α := do
  modify fun path => path ++ [segment]
  let a ← steps
  modify List.dropLast
  return a

/-- Steps with an empty path; the path that there was is put back afterwards. -/
def apart (steps : Walk α) : Walk α := do
  let path ← get
  set ([] : Path)
  let a ← steps
  set path
  return a

/-- One of two ways on, by an answer that does not depend on the path. -/
def choose (answer : Option Bool) (yes no : Walk α) : Walk α := do
  if ← StateT.lift answer then yes else no

/-- One error at the path. -/
def here (message : String) (v : Value) : Walk (List DecodeError) := do
  return [.mismatch message (← get) v]

/-- One error of a union at the path, with what the members say apart from it. -/
def union (v : Value) (members : Walk (List DecodeError)) : Walk (List DecodeError) := do
  let errors ← apart members
  return [.union (← get) v errors]

/-- The errors of two walks. -/
def both (first second : Walk (List DecodeError)) : Walk (List DecodeError) := do
  return (← first) ++ (← second)

/-- The errors of a row of walks. -/
def gather (steps : α → Walk (List DecodeError)) : List α → Walk (List DecodeError)
  | [] => return []
  | a :: l => both (steps a) (gather steps l)

end Walk

namespace DecodeError

/-- An error with a path in front of its own. What is inside a union is told from the union. -/
def relocate (base : Path) : DecodeError → DecodeError
  | .mismatch message path received => .mismatch message (base ++ path) received
  | .union path received errors => .union (base ++ path) received errors

theorem relocate_relocate (base rest : Path) (e : DecodeError) :
    (e.relocate rest).relocate base = e.relocate (base ++ rest) := by
  cases e <;> simp only [relocate, List.append_assoc]

end DecodeError

/-! ## Reports along a path -/

namespace Graph

open Walk

variable (g : Graph) (p : Policy)

/-- What a signature says of a member. -/
def signatureAlong (accepts : Shape → Value → Option Bool)
    (report : Shape → Value → Walk (List DecodeError)) (m : String × Value)
    (signature : Shape × Shape) : Walk (List DecodeError) :=
  choose (accepts signature.1 (.string m.1)) (report signature.2 m.2)
    (report signature.1 (.string m.1))

/-- What the signatures say of a member: nothing when one of them admits it. -/
def memberAlong (accepts : Shape → Value → Option Bool)
    (report : Shape → Value → Walk (List DecodeError)) (signatures : List (Shape × Shape))
    (m : String × Value) : Walk (List DecodeError) :=
  choose (signatures.anyM (admitsWithin accepts m)) (return [])
    (within m.1 (gather (signatureAlong accepts report m) signatures))

/-- What a tuple without a rest says of the first item behind its slots. -/
def overflowAlong (slots : List Shape) (items : List Value) : Walk (List DecodeError) :=
  match items.drop slots.length with
  | [] => return []
  | v :: _ => within (Path.index slots.length) (here (Shape.tooManyItems slots.length) v)

/-- **The errors of a value, along the path that is kept**, if the fuel is enough to tell. -/
def reportAlong : Nat → Shape → Value → Walk (List DecodeError)
  | 0, _, _ => StateT.lift none
  | fuel + 1, s, v =>
    let accepts := g.acceptsWithin p fuel
    let report := reportAlong fuel
    -- a part is only asked when it rejects its value
    let complaint := fun t segment w =>
      choose (accepts t w) (return []) (within segment (report t w))
    match s, v with
    | .tuple slots rest, .array items =>
      both (slots.zipIdx |> gather fun e =>
          complaint e.1 (Path.index e.2) ((Value.array items).item e.2))
        (match rest with
          | none => overflowAlong slots items
          | some t => (items.drop slots.length).zipIdx slots.length |> gather fun e =>
            complaint t (Path.index e.2) e.1)
    | .allOf members, v =>
      if v.isObject then
        members |> gather fun t => choose (accepts t v) (return []) (report t v)
      else here (Shape.allOf members).expectation v
    | .anyOf members, v =>
      choose (members.anyM fun t => accepts t v) (return [])
        (union v (members |> gather fun t => report t v))
    | .array t, .array items =>
      items.zipIdx |> gather fun e => complaint t (Path.index e.2) e.1
    | .tagged members tag branches, v =>
      if v.isObject then
        match (v.get tag).tagKey?.bind (Entries.get? branches) with
        | none => within tag (here (Shape.knownTags branches) (v.get tag))
        | some t => report t v
      else here (Shape.tagged members tag branches).expectation v
    | .optional t, v => if v.isNullish then return [] else report t v
    | .object properties signatures, .object ms =>
      let extra := extraKeys p properties signatures ms
      if extra.isEmpty then
        both (properties |> gather fun e => complaint e.2 e.1 ((Value.object ms).get e.1))
          (if signatures.isEmpty then return []
            else Shape.undeclared properties ms |> gather (memberAlong accepts report signatures))
      else extra |> gather fun m => within m.1 (here Shape.extraProperty m.2)
    | .ref place name, v =>
      match g.shape? place with
      | none => here (Shape.ref place name).expectation v
      | some t => report t v
    -- nothing is asked of anything else
    | s, v => if s.accepts p (fun _ _ => false) v then return [] else here s.expectation v

end Graph

/-! ## What a walk reports -/

/-- **A walk makes a report**: at every path it ends with the errors there and with the path as it
was, and these are the errors of the empty path behind the path. -/
structure Walk.Reports (steps : Walk (List DecodeError)) (report : Path → List DecodeError) :
    Prop where
  run_eq : ∀ path, steps.run path = some (report path, path)
  relocated : ∀ path, report path = (report []).map (DecodeError.relocate path)

namespace Walk.Reports

variable {α : Type} {steps other : Walk (List DecodeError)}
  {report otherReport : Path → List DecodeError}

theorem nothing : Reports (return []) fun _ => [] where
  run_eq _ := rfl
  relocated _ := rfl

theorem here (message : String) (v : Value) :
    Reports (Walk.here message v) fun path => [.mismatch message path v] where
  run_eq _ := rfl
  relocated path := by
    rw [List.map_singleton, DecodeError.relocate, List.append_nil]

/-- One error at the path, unless the answer is yes. -/
theorem check (b : Bool) (message : String) (v : Value) :
    Reports (if b then return [] else Walk.here message v) fun path =>
      if b then [] else [.mismatch message path v] := by
  cases b with
  | true => exact nothing
  | false => exact here message v

/-- The segment that is added is taken off again. -/
theorem within (h : Reports steps report) (segment : String) :
    Reports (Walk.within segment steps) fun path => report (path ++ [segment]) where
  run_eq path := by
    show ((steps.run (path ++ [segment])).bind fun after => some (after.1, after.2.dropLast)) = _
    rw [h.run_eq, Option.bind_some, List.dropLast_concat]
  relocated path := by
    rw [h.relocated, h.relocated ([] ++ [segment]), List.map_map]
    exact List.map_congr_left fun e _ => (DecodeError.relocate_relocate path [segment] e).symm

/-- The path that was laid aside is put back. -/
theorem run_apart (h : Reports steps report) (path : Path) :
    (Walk.apart steps).run path = some (report [], path) := by
  show (steps.run []).bind (fun after => some (after.1, path)) = _
  rw [h.run_eq, Option.bind_some]

/-- What the members of a union say is the same at every path. -/
theorem union (h : Reports steps report) (v : Value) :
    Reports (Walk.union v steps) fun path => [.union path v (report [])] where
  run_eq path := by
    show ((Walk.apart steps).run path).bind
      (fun told => some ([DecodeError.union told.2 v told.1], told.2)) = _
    rw [h.run_apart, Option.bind_some]
  relocated path := by
    rw [List.map_singleton, DecodeError.relocate, List.append_nil]

theorem both (h : Reports steps report) (h' : Reports other otherReport) :
    Reports (Walk.both steps other) fun path => report path ++ otherReport path where
  run_eq path := by
    show ((steps.run path).bind fun first => (other.run first.2).bind fun second =>
      some (first.1 ++ second.1, second.2)) = _
    rw [h.run_eq, Option.bind_some, h'.run_eq, Option.bind_some]
  relocated path := by
    rw [h.relocated, h'.relocated, List.map_append]

theorem gather {row : α → Walk (List DecodeError)} {reports : α → Path → List DecodeError}
    {l : List α} (h : ∀ a ∈ l, Reports (row a) (reports a)) :
    Reports (Walk.gather row l) fun path => l.flatMap fun a => reports a path := by
  induction l with
  | nil => exact nothing
  | cons a l ih =>
    rw [List.forall_mem_cons] at h
    exact h.1.both (ih h.2)

theorem choose {answer : Option Bool} {b : Bool} (hb : answer = some b) (h : Reports steps report)
    (h' : Reports other otherReport) :
    Reports (Walk.choose answer steps other) fun path =>
      if b then report path else otherReport path := by
  subst hb
  cases b with
  | true => exact h
  | false => exact h'

end Walk.Reports

namespace Graph

variable {g : Graph} {p : Policy} {n : Nat} {s : Shape} {v : Value}

/-- All parts of a question are reported on within some calls. -/
def PartsReportAlong (g : Graph) (p : Policy) (n : Nat) (s : Shape) (v : Value) : Prop :=
  ∀ t w, g.Part (t, w) (s, v) →
    (g.reportAlong p n t w).Reports fun path => g.report p t path w

theorem PartsReportAlong.complaint (h : g.PartsReportAlong p n s v) (hc : g.PartsChecked p n s v)
    {t : Shape} {w : Value} (hp : g.Part (t, w) (s, v)) (segment : String) :
    (Walk.choose (g.acceptsWithin p n t w) (return [])
      (Walk.within segment (g.reportAlong p n t w))).Reports
      fun path => g.complaint p t (path ++ [segment]) w :=
  .choose (hc t w hp) .nothing ((h t w hp).within segment)

/-- What the signatures say of a member. -/
theorem PartsReportAlong.member {properties : Entries Shape} {signatures : List (Shape × Shape)}
    {ms : List (String × Value)} {m : String × Value}
    (h : g.PartsReportAlong p n (.object properties signatures) (.object ms))
    (hc : g.PartsChecked p n (.object properties signatures) (.object ms))
    (hm : m ∈ Shape.undeclared properties ms) :
    (memberAlong (g.acceptsWithin p n) (g.reportAlong p n) signatures m).Reports
      fun path => g.memberComplaint p signatures path m := by
  have hmem : m ∈ ms := (List.mem_filter.mp hm).1
  have hsignature : ∀ e ∈ signatures,
      (signatureAlong (g.acceptsWithin p n) (g.reportAlong p n) m e).Reports fun path =>
        if g.accepts p e.1 (.string m.1) then g.report p e.2 path m.2
        else g.report p e.1 path (.string m.1) := by
    intro e he
    have hkey : g.Part (e.1, .string m.1) (.object properties signatures, .object ms) :=
      .key he hmem
    have hvalue : g.Part (e.2, m.2) (.object properties signatures, .object ms) := .member he hmem
    exact .choose (hc _ _ hkey) (h _ _ hvalue) (h _ _ hkey)
  have hadmitted : signatures.anyM (admitsWithin (g.acceptsWithin p n) m) =
      some (signatures.any (g.admits p m)) :=
    (Answers.anyM fun e he =>
      answers_admits (.inl (hc _ _ (.key he hmem))) (.inl (hc _ _ (.member he hmem)))).eq_some
  exact .choose hadmitted .nothing ((Walk.Reports.gather hsignature).within m.1)

theorem reports_overflowAlong (slots : List Shape) (items : List Value) :
    (overflowAlong slots items).Reports fun path => overflow slots path items := by
  unfold overflowAlong overflow
  cases items.drop slots.length with
  | nil => exact .nothing
  | cons w ws => exact (Walk.Reports.here _ w).within _

/-- **A value is reported on within one call more than its parts**, and the report moves with the
path. -/
theorem Guarded.reportAlong_succ (hg : g.Guarded) (hc : g.PartsChecked p n s v)
    (h : g.PartsReportAlong p n s v) :
    (g.reportAlong p (n + 1) s v).Reports fun path => g.report p s path v := by
  have hcomplaint {t : Shape} {w : Value} (hp : g.Part (t, w) (s, v)) := h.complaint hc hp
  cases s with
  | ref i name =>
    rw [reportAlong]
    cases hi : g.shape? i with
    | none =>
      simp only [report_ref_none name _ v hi]
      exact .here _ v
    | some t =>
      simp only [hg.report_ref name _ v hi]
      exact h t v (.target hi)
  | optional t =>
    rw [reportAlong]
    simp only [report_optional]
    cases v.isNullish with
    | true => exact .nothing
    | false => exact h t v .inner
  | allOf members =>
    rw [reportAlong]
    simp only [report_allOf]
    cases v.isObject with
    | false => exact .here _ v
    | true =>
      exact .gather fun t ht => .choose (hc t v (.conjunct ht)) .nothing (h t v (.conjunct ht))
  | anyOf members =>
    rw [reportAlong]
    simp only [report_anyOf, accepts_anyOf]
    exact .choose (Answers.anyM fun t ht => .inl (hc t v (.disjunct ht))).eq_some .nothing
      (.union (.gather fun t ht => h t v (.disjunct ht)) v)
  | tagged members tag branches =>
    rw [reportAlong]
    simp only [report_tagged]
    cases v.isObject with
    | false => exact .here _ v
    | true =>
      cases hb : (v.get tag).tagKey?.bind (Entries.get? branches) with
      | none => exact (Walk.Reports.here _ _).within tag
      | some t =>
        obtain ⟨key, -, hkey⟩ := Option.bind_eq_some_iff.mp hb
        exact h t v (.branch (Entries.mem_of_get? hkey))
  | array t =>
    cases v with
    | array items =>
      rw [reportAlong]
      simp only [hg.report_array]
      exact .gather fun e he => hcomplaint (.item (List.fst_mem_of_mem_zipIdx he)) _
    | _ => exact .here _ _
  | tuple slots rest =>
    cases v with
    | array items =>
      have hslots := Walk.Reports.gather (l := slots.zipIdx) fun e he =>
        hcomplaint (.slot (List.mem_zipIdx_iff_getElem?.mp he)) (Path.index e.2)
      cases rest with
      | none =>
        rw [reportAlong]
        simp only [hg.report_tuple_closed]
        exact hslots.both (reports_overflowAlong slots items)
      | some t =>
        rw [reportAlong]
        simp only [hg.report_tuple_open]
        exact hslots.both (.gather fun e he =>
          hcomplaint (.rest (List.fst_mem_of_mem_zipIdx he)) (Path.index e.2))
    | _ => cases rest <;> exact .here _ _
  | object properties signatures =>
    cases v with
    | object ms =>
      rw [reportAlong]
      simp only [hg.report_object]
      cases (extraKeys p properties signatures ms).isEmpty with
      | false =>
        simp only [List.map_eq_flatMap]
        exact .gather fun m _ => (Walk.Reports.here _ m.2).within m.1
      | true =>
        refine .both (.gather fun e he => hcomplaint (.property he) e.1) ?_
        cases signatures.isEmpty with
        | true => exact .nothing
        | false => exact .gather fun m hm => h.member hc hm
    | _ => exact .here _ _
  | any => exact .nothing
  | never => exact .here _ v
  | _ => exact .check _ _ v

/-- **Reports move with their path, and leave it as it was.** With enough fuel, what is reported
along a path is what is reported along the empty one, behind the path. -/
theorem Guarded.reportAlong_relocates (hg : g.Guarded) (p : Policy) (s : Shape) (v : Value)
    (n : Nat) (hn : g.nesting s v ≤ n) (path : Path) :
    ∃ errors,
      (g.reportAlong p n s v).run [] = some (errors, []) ∧
      (g.reportAlong p n s v).run path = some (errors.map (DecodeError.relocate path), path) ∧
      g.report p s [] v = errors ∧
      g.report p s path v = errors.map (DecodeError.relocate path) := by
  have hreports : (g.reportAlong p n s v).Reports fun path => g.report p s path v := by
    refine (hg.of_nesting_le (n := n) (P := fun n s v =>
      g.acceptsWithin p n s v = some (g.accepts p s v) ∧
        (g.reportAlong p n s v).Reports fun path => g.report p s path v)
      (fun n s v ih => ?_) hn).2
    have hchecked : g.PartsChecked p n s v := fun t w hp => (ih t w hp).1
    have hreported : g.PartsReportAlong p n s v := fun t w hp => (ih t w hp).2
    exact ⟨hg.acceptsWithin_succ hchecked, hg.reportAlong_succ hchecked hreported⟩
  have hmoved := hreports.relocated path
  refine ⟨g.report p s [] v, hreports.run_eq [], ?_, rfl, hmoved⟩
  rw [hreports.run_eq, hmoved]

/-- A spoilt fork, reported on as the first part of something. -/
theorem reportAlong_relocates_spoiltFork :
    trees.Guarded ∧
      (trees.report {} (.ref 2 "Tree") ["parts", "[0]"] spoiltFork).map (·.path) =
        [["parts", "[0]", "parts", "[0]", "at", "[0]"], ["parts", "[0]", "owner"],
          ["parts", "[0]", "colour"]] ∧
      ∃ errors,
        (trees.reportAlong {} (trees.nesting (.ref 2 "Tree") spoiltFork) (.ref 2 "Tree")
          spoiltFork).run [] = some (errors, []) ∧
        (trees.reportAlong {} (trees.nesting (.ref 2 "Tree") spoiltFork) (.ref 2 "Tree")
          spoiltFork).run ["parts", "[0]"] =
            some (errors.map (DecodeError.relocate ["parts", "[0]"]), ["parts", "[0]"]) ∧
        trees.report {} (.ref 2 "Tree") [] spoiltFork = errors ∧
        trees.report {} (.ref 2 "Tree") ["parts", "[0]"] spoiltFork =
          errors.map (DecodeError.relocate ["parts", "[0]"]) :=
  ⟨trees_guarded, by decide +kernel,
    trees_guarded.reportAlong_relocates {} (.ref 2 "Tree") spoiltFork _ (Nat.le_refl _)
      ["parts", "[0]"]⟩

end Graph

end ShapeGraph
