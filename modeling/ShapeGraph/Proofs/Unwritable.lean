import ShapeGraph.Proofs.Building
import ShapeGraph.Proofs.Composition
import ShapeGraph.Proofs.Trace

/-!
# Shapes without a schema

Dates and big integers have no schema, and neither has any shape from which writing comes to one of
them. A definition that is being written is not entered again. Nothing is hidden by that: a walk
that goes through a definition twice can be cut short, and what was met behind the second time is
met behind the first time as well.

Where a shape is met is told by an address: which part is taken, and which part of that, and so on.
Addresses are ordered as writing comes to them.

* `Graph.Includes`, `Graph.Shows` — the shapes to which writing leads
* `Graph.Occurs` — where writing meets a shape, with the definitions that are open there
* `Graph.FirstFault` — the fault of the first shape without a schema, of which there is at most one
* `Closed.verdict_schemaRef` — a reference fails with the first fault behind it, or there is none
* `Shows.exists_occurs` — a shape that can be reached is met without entering a definition twice
* `Codec.Built.schema_eq_error_iff` — when a codec has no schema, and what is said then
-/

namespace ShapeGraph

/-- Dates and big integers. -/
def Shape.isUnwritable : Shape → Bool
  | .date | .bigint => true
  | _ => false

namespace Graph

/-! ## From shape to shape -/

/-- `g.Includes s t`: the schema of `t` is part of that of `s`. The branches of a tagged union stand
for its members when it has none. -/
inductive Includes (g : Graph) : Shape → Shape → Prop
  | slot {slots rest t} : t ∈ slots → Includes g (.tuple slots rest) t
  | rest {slots t} : Includes g (.tuple slots (some t)) t
  | conjunct {members t} : t ∈ members → Includes g (.allOf members) t
  | disjunct {members t} : t ∈ members → Includes g (.anyOf members) t
  | item {t} : Includes g (.array t) t
  | alternative {members tag branches t} : t ∈ members → Includes g (.tagged members tag branches) t
  | branch {tag branches k t} : (k, t) ∈ branches → Includes g (.tagged [] tag branches) t
  | inner {t} : Includes g (.optional t) t
  | property {properties signatures k t} : (k, t) ∈ properties →
      Includes g (.object properties signatures) t
  | key {properties signatures t u} : (t, u) ∈ signatures →
      Includes g (.object properties signatures) t
  | value {properties signatures t u} : (t, u) ∈ signatures →
      Includes g (.object properties signatures) u
  | target {i name t} : g.shape? i = some t → Includes g (.ref i name) t

/-- The shapes to which writing a shape leads, itself among them. -/
def Shows (g : Graph) : Shape → Shape → Prop := Relation.ReflTransGen g.Includes

/-- `g.Occurs opened path s address q t`: writing `s` at `path`, while the definitions in `opened`
are being written, comes to `t` at `q`. The address tells by which parts. -/
inductive Occurs (g : Graph) : List Nat → Path → Shape → List Nat → Path → Shape → Prop
  | here {opened path s} : Occurs g opened path s [] path s
  | part {opened path s i p t address q u} : (s.placed path)[i]? = some (p, t) →
      Occurs g opened p t address q u → Occurs g opened path s (i :: address) q u
  /-- A definition is entered unless it is being written. -/
  | target {opened path place name t address q u} : place ∉ opened → g.shape? place = some t →
      Occurs g (place :: opened) path t address q u →
      Occurs g opened path (.ref place name) (0 :: address) q u

variable {g : Graph} {opened : List Nat} {path q : Path} {s t u : Shape}

/-- What is written of a shape are its parts at their paths, and the definition to which it
refers. -/
theorem Includes.cases (h : g.Includes s t) (path : Path) :
    (∃ q, (q, t) ∈ s.placed path) ∨ ∃ i name, s = .ref i name ∧ g.shape? i = some t := by
  cases h with
  | @slot slots rest t h =>
    obtain ⟨i, hi⟩ := List.mem_iff_getElem?.mp h
    have hmem : (t, i) ∈ slots.zipIdx := List.mk_mem_zipIdx_iff_getElem?.mpr hi
    exact .inl ⟨_, List.mem_append_left _ (List.mem_map_of_mem hmem)⟩
  | rest => exact .inl ⟨_, List.mem_append_right _ List.mem_cons_self⟩
  | conjunct h | disjunct h => exact .inl ⟨_, List.mem_map_of_mem h⟩
  | item | inner => exact .inl ⟨_, List.mem_cons_self⟩
  | @alternative members tag branches t h =>
    cases members with
    | nil => cases h
    | cons u members => exact .inl ⟨_, List.mem_map_of_mem h⟩
  | branch h => exact .inl ⟨_, List.mem_map_of_mem h⟩
  | property h => exact .inl ⟨_, List.mem_append_left _ (List.mem_map_of_mem h)⟩
  | key h =>
    exact .inl ⟨_, List.mem_append_right _ (List.mem_flatMap.mpr ⟨_, h, List.mem_cons_self⟩)⟩
  | value h =>
    exact .inl ⟨_, List.mem_append_right _ (List.mem_flatMap.mpr
      ⟨_, h, List.mem_cons_of_mem _ List.mem_cons_self⟩)⟩
  | target h => exact .inr ⟨_, _, rfl, h⟩

theorem includes_of_mem_placed (h : (q, t) ∈ s.placed path) : g.Includes s t := by
  cases s with
  | tuple slots rest =>
    rcases List.mem_append.mp h with h | h
    · obtain ⟨x, hx, he⟩ := List.mem_map.mp h
      cases he
      exact .slot (List.fst_mem_of_mem_zipIdx hx)
    · obtain ⟨u, hu, he⟩ := List.mem_map.mp h
      cases he
      rw [Option.mem_toList.mp hu]
      exact .rest
  | allOf members =>
    obtain ⟨u, hu, he⟩ := List.mem_map.mp h
    cases he
    exact .conjunct hu
  | anyOf members =>
    obtain ⟨u, hu, he⟩ := List.mem_map.mp h
    cases he
    exact .disjunct hu
  | array item =>
    cases List.mem_singleton.mp h
    exact .item
  | optional inner =>
    cases List.mem_singleton.mp h
    exact .inner
  | tagged members tag branches =>
    cases members with
    | nil =>
      obtain ⟨x, hx, he⟩ := List.mem_map.mp h
      cases he
      exact .branch hx
    | cons u members =>
      obtain ⟨x, hx, he⟩ := List.mem_map.mp h
      cases he
      exact .alternative hx
  | object properties signatures =>
    rcases List.mem_append.mp h with h | h
    · obtain ⟨x, hx, he⟩ := List.mem_map.mp h
      cases he
      exact .property hx
    · obtain ⟨x, hx, he⟩ := List.mem_flatMap.mp h
      have hcases : (q, t) = (path ++ ["[key]"], x.1) ∨ (q, t) = (path ++ ["[value]"], x.2) := by
        simpa using he
      rcases hcases with he | he
      · cases he
        exact .key hx
      · cases he
        exact .value hx
  | _ => cases h

/-! ## Where a shape is met -/

/-- What stands at an address is determined. -/
theorem Occurs.unique {address : List Nat} (h : g.Occurs opened path s address q t) {q' : Path}
    (h' : g.Occurs opened path s address q' u) : q = q' ∧ t = u := by
  induction h with
  | here =>
    cases h'
    exact ⟨rfl, rfl⟩
  | part hi _ ih =>
    cases h' with
    | part hi' h' =>
      cases hi.symm.trans hi'
      exact ih h'
    | target => cases hi
  | target _ hs _ ih =>
    cases h' with
    | part hi => cases hi
    | target _ hs' h' =>
      cases hs.symm.trans hs'
      exact ih h'

theorem Occurs.shows {address : List Nat} (h : g.Occurs opened path s address q t) :
    g.Shows s t := by
  induction h with
  | here => exact .refl
  | part hi _ ih => exact .head (includes_of_mem_placed (List.mem_of_getElem? hi)) ih
  | target _ hs _ ih => exact .head (.target hs) ih

/-- **The fault of the first shape without a schema**, as writing comes to them. -/
def FirstFault (g : Graph) (opened : List Nat) (path : Path) (s : Shape) (f : SchemaFault) : Prop :=
  ∃ address q t, g.Occurs opened path s address q t ∧ t.isUnwritable = true ∧
    f = .unsupported t.kind.title q ∧
    ∀ address' q' t', g.Occurs opened path s address' q' t' → t'.isUnwritable = true →
      ¬ address' < address

/-- There are not two first faults. -/
theorem FirstFault.unique {f f' : SchemaFault} (h : g.FirstFault opened path s f)
    (h' : g.FirstFault opened path s f') : f = f' := by
  obtain ⟨address, q, t, ht, hunwritable, rfl, hfirst⟩ := h
  obtain ⟨address', q', t', ht', hunwritable', rfl, hfirst'⟩ := h'
  have heq : address = address' := by
    rcases lt_trichotomy address address' with hlt | heq | hlt
    · exact absurd hlt (hfirst' _ _ _ ht hunwritable)
    · exact heq
    · exact absurd hlt (hfirst _ _ _ ht' hunwritable')
  subst heq
  obtain ⟨rfl, rfl⟩ := ht.unique ht'
  rfl

/-! ## The fault of a schema -/

/-- Writing fails with the first fault, or there is none. -/
def Verdict (g : Graph) (opened : List Nat) (path : Path) (s : Shape) : Option SchemaFault → Prop
  | none => ∀ address q t, g.Occurs opened path s address q t → t.isUnwritable ≠ true
  | some f => g.FirstFault opened path s f

/-- A shape that is not itself without a schema has one if all parts have. -/
theorem failure?_compose {schemas : List Json} (hs : s.isRef = false)
    (hwritable : s.isUnwritable = false) (path : Path) :
    failure? (s.compose path schemas) = none := by
  cases s with
  | ref => cases hs
  | date | bigint => cases hwritable
  | object properties signatures =>
    rw [Shape.compose]
    split <;> rfl
  | _ => rfl

/-- A shape without a schema is its own first fault. -/
theorem firstFault_self (h : s.isUnwritable = true) (path : Path) :
    g.FirstFault opened path s (.unsupported s.kind.title path) :=
  ⟨[], path, s, .here, h, rfl, fun _ _ _ _ _ => List.not_lt_nil _⟩

/-- Where a shape that has a schema leads to one without: at one of the parts. -/
theorem Occurs.cases_of_not_ref {address : List Nat} (h : g.Occurs opened path s address q t)
    (hs : s.isRef = false) (hwritable : s.isUnwritable = false) (ht : t.isUnwritable = true) :
    ∃ i p u rest, address = i :: rest ∧ (s.placed path)[i]? = some (p, u) ∧
      g.Occurs opened p u rest q t := by
  cases h with
  | here => rw [hwritable] at ht; cases ht
  | part hi h => exact ⟨_, _, _, _, rfl, hi, h⟩
  | target => cases hs

/-- Where a reference leads to a shape without a schema: inside of the definition, which is not open
then. -/
theorem Occurs.cases_of_ref {place : Nat} {name : String} {address : List Nat}
    (h : g.Occurs opened path (.ref place name) address q t) (ht : t.isUnwritable = true) :
    place ∉ opened ∧ ∃ s rest, address = 0 :: rest ∧ g.shape? place = some s ∧
      g.Occurs (place :: opened) path s rest q t := by
  cases h with
  | here => cases ht
  | part hi => cases hi
  | target hopen hs h => exact ⟨hopen, _, _, rfl, hs, h⟩

/-- **The first part that fails decides.** -/
theorem verdict_of_placed {verdict : Path × Shape → Option SchemaFault} (hs : s.isRef = false)
    (hwritable : s.isUnwritable = false)
    (h : ∀ e ∈ s.placed path, g.Verdict opened e.1 e.2 (verdict e)) :
    g.Verdict opened path s ((s.placed path).findSome? verdict) := by
  -- a part whose verdict is that there is no fault leads to none
  have hclean : ∀ e ∈ s.placed path, verdict e = none → ∀ address q t,
      g.Occurs opened e.1 e.2 address q t → t.isUnwritable ≠ true := by
    intro e he hnone
    have hverdict := h e he
    rwa [hnone] at hverdict
  cases hfind : (s.placed path).findSome? verdict with
  | none =>
    intro address q t ht hunwritable
    obtain ⟨i, p, u, rest, -, hi, hu⟩ := ht.cases_of_not_ref hs hwritable hunwritable
    have hmem := List.mem_of_getElem? hi
    exact hclean _ hmem (List.findSome?_eq_none_iff.mp hfind _ hmem) _ _ _ hu hunwritable
  | some f =>
    obtain ⟨front, e, back, hplaced, he, hfront⟩ := List.findSome?_eq_some_iff.mp hfind
    have hat : (s.placed path)[front.length]? = some e := by
      rw [hplaced, List.getElem?_append_right (Nat.le_refl _), Nat.sub_self]
      rfl
    have hverdict := h e (List.mem_of_getElem? hat)
    rw [he] at hverdict
    obtain ⟨address, q, t, ht, hunwritable, rfl, hfirst⟩ := hverdict
    refine ⟨front.length :: address, q, t, .part hat ht, hunwritable, rfl, ?_⟩
    intro address' q' t' ht' hunwritable' hlt
    obtain ⟨i, p, u, rest, rfl, hi, hu⟩ := ht'.cases_of_not_ref hs hwritable hunwritable'
    rcases List.cons_lt_cons_iff.mp hlt with hlt | ⟨rfl, hrest⟩
    · -- an earlier part has no fault
      have hmem : (p, u) ∈ front := by
        rw [hplaced, List.getElem?_append_left hlt] at hi
        exact List.mem_of_getElem? hi
      exact hclean _ (List.mem_of_getElem? hi) (hfront _ hmem) _ _ _ hu hunwritable'
    · cases hat.symm.trans hi
      exact hfirst _ _ _ hu hunwritable' hrest

theorem mem_shown_of_mem_placed {e : Path × Shape} (h : e ∈ s.placed path) : e.2 ∈ s.shown := by
  cases s with
  | tagged members tag branches =>
    cases members with
    | nil =>
      obtain ⟨x, hx, rfl⟩ := List.mem_map.mp h
      exact List.mem_map_of_mem hx
    | cons t members =>
      obtain ⟨u, hu, rfl⟩ := List.mem_map.mp h
      exact hu
  | object properties signatures =>
    have hperm := (sortBy_perm (fun a b => stringLe a.1 b.1) properties).map (·.2)
    rcases List.mem_append.mp (Shape.mem_parts_of_mem_placed h) with h | h
    · exact List.mem_append_left _ (hperm.mem_iff.mpr h)
    · exact List.mem_append_right _ h
  | _ => exact Shape.mem_parts_of_mem_placed h

/-- A schema fails as it should if the references do. -/
theorem verdict_schema {onRef : Path → Nat → String → Except SchemaFault Json}
    (h : ∀ m ∈ s.mentions, ∀ path, g.Verdict opened path (.ref m.1 m.2)
      (failure? (onRef path m.1 m.2))) (path : Path) :
    g.Verdict opened path s (failure? (s.schema onRef path)) := by
  induction s using Shape.parts_induction generalizing path with | step s ih => ?_
  cases hs : s.isRef with
  | true =>
    obtain ⟨place, name, rfl⟩ := Shape.eq_ref_of_isRef hs
    exact h _ (Shape.mentions_ref place name ▸ List.mem_cons_self) path
  | false =>
    rw [Shape.schema_eq hs]
    cases hwritable : s.isUnwritable with
    | true =>
      have hself : g.FirstFault opened path s (.unsupported s.kind.title path) :=
        firstFault_self hwritable path
      cases s with
      | date | bigint => exact hself
      | _ => cases hwritable
    | false =>
      rw [failure?_bind fun schemas => failure?_compose hs hwritable path, Option.or_none,
        Shape.schemasAt, failure?_mapM]
      refine verdict_of_placed hs hwritable fun e he => ?_
      refine ih e.2 (Shape.mem_parts_of_mem_placed he) (fun m hm => h m ?_) e.1
      rw [Shape.mentions_of_not_ref hs]
      exact List.mem_flatMap.mpr ⟨e.2, mem_shown_of_mem_placed he, hm⟩

/-- A definition that is not open fails as its body does, at the same path. -/
theorem Verdict.target {place : Nat} {name : String} (hopen : place ∉ opened)
    (hs : g.shape? place = some s) {o : Option SchemaFault}
    (h : g.Verdict (place :: opened) path s o) :
    g.Verdict opened path (.ref place name) o := by
  cases o with
  | none =>
    intro address q t ht hunwritable
    obtain ⟨-, s', rest, -, hs', hu⟩ := ht.cases_of_ref hunwritable
    cases hs.symm.trans hs'
    exact h _ _ _ hu hunwritable
  | some f =>
    obtain ⟨address, q, t, ht, hunwritable, rfl, hfirst⟩ := h
    refine ⟨0 :: address, q, t, .target hopen hs ht, hunwritable, rfl, ?_⟩
    intro address' q' t' ht' hunwritable' hlt
    obtain ⟨-, s', rest, rfl, hs', hu⟩ := ht'.cases_of_ref hunwritable'
    cases hs.symm.trans hs'
    have hrest := (List.cons_lt_cons_iff.mp hlt).resolve_left (Nat.lt_irrefl 0)
    exact hfirst _ _ _ hu hunwritable' hrest.2

/-- **A reference fails with the first fault behind it, or there is none**, whatever definitions are
open. -/
theorem Closed.verdict_schemaRef (hg : g.Closed) {fuel : Nat} (hopened : g.Chain opened)
    (hfuel : g.Suffices opened fuel) {place : Nat} {name : String} (hplace : place < g.size)
    (path : Path) :
    g.Verdict opened path (.ref place name)
      (failure? (g.schemaRef fuel opened path place name)) := by
  induction fuel generalizing opened place name path with
  | zero => cases (hopened.exists_succ hfuel).choose_spec
  | succ fuel ih =>
    rw [schemaRef]
    by_cases hmem : opened.contains place = true
    · rw [if_pos hmem]
      -- a definition that is open shows nothing but the reference itself
      intro address q t ht hunwritable
      exact (ht.cases_of_ref hunwritable).1 (List.contains_iff_mem.mp hmem)
    · rw [if_neg hmem]
      rw [List.contains_iff_mem] at hmem
      obtain ⟨s, hs⟩ := exists_shape?_of_lt hplace
      simp only [hs]
      refine Verdict.target hmem hs (verdict_schema (fun m hm path => ?_) path)
      have hlt := lt_size_of_name? (hg _ _ hs m hm)
      exact ih (hopened.cons hplace hmem) (hfuel.cons place) hlt path

/-! ## Walks without loops -/

/-- `s` shows `t` without entering a definition in `opened`. -/
def IncludesOutside (g : Graph) (opened : List Nat) (s t : Shape) : Prop :=
  g.Includes s t ∧ ∀ place name, s = .ref place name → place ∉ opened

/-- A walk enters a definition at most once, or can be cut short to begin there. -/
theorem outside_cons {place : Nat} (hs : g.shape? place = some s)
    (h : Relation.ReflTransGen (g.IncludesOutside opened) t u) :
    Relation.ReflTransGen (g.IncludesOutside (place :: opened)) t u ∨
      Relation.ReflTransGen (g.IncludesOutside (place :: opened)) s u := by
  induction h using Relation.ReflTransGen.head_induction_on with
  | refl => exact .inl .refl
  | @head t t' hstep _ ih =>
    rcases ih with hwalk | hwalk
    · by_cases hplace : ∃ name, t = .ref place name
      · -- the walk comes through the definition here for the last time
        obtain ⟨name, rfl⟩ := hplace
        cases hstep.1 with
        | target hs' =>
          cases hs.symm.trans hs'
          exact .inr hwalk
      · refine .inl (.head ⟨hstep.1, fun i name hi => ?_⟩ hwalk)
        rw [List.mem_cons, not_or]
        exact ⟨fun heq => hplace ⟨name, heq ▸ hi⟩, hstep.2 i name hi⟩
    · exact .inr hwalk

/-- **A shape that can be reached is met without entering a definition twice.** -/
theorem exists_occurs {fuel : Nat} (hopened : g.Chain opened) (hfuel : g.Suffices opened fuel)
    (h : Relation.ReflTransGen (g.IncludesOutside opened) s u) (path : Path) :
    ∃ address q, g.Occurs opened path s address q u := by
  -- for fewer and fewer definitions that are not open, and along each walk
  induction fuel generalizing opened s path with
  | zero => cases (hopened.exists_succ hfuel).choose_spec
  | succ fuel ih =>
    induction h using Relation.ReflTransGen.head_induction_on generalizing path with
    | refl => exact ⟨[], path, .here⟩
    | @head s t hstep hwalk ihwalk =>
      rcases hstep.1.cases path with ⟨p, hp⟩ | ⟨place, name, rfl, ht⟩
      · obtain ⟨i, hi⟩ := List.mem_iff_getElem?.mp hp
        obtain ⟨address, q, hq⟩ := ihwalk p
        exact ⟨i :: address, q, .part hi hq⟩
      · have hopen := hstep.2 place name rfl
        have hinside := (outside_cons ht hwalk).elim id id
        obtain ⟨address, q, hq⟩ := ih (hopened.cons (lt_size_of_shape? ht) hopen)
          (hfuel.cons place) hinside path
        exact ⟨0 :: address, q, .target hopen ht hq⟩

theorem Shows.exists_occurs (h : g.Shows s t) (path : Path) :
    ∃ address q, g.Occurs [] path s address q t :=
  Graph.exists_occurs (.nil g) g.suffices_nil
    (Relation.ReflTransGen.mono (fun _ _ h => ⟨h, fun _ _ _ => List.not_mem_nil⟩) _ _ h) path

/-! ## What a verdict says -/

theorem Verdict.eq_some_iff {o : Option SchemaFault} (h : g.Verdict opened path s o)
    {f : SchemaFault} : o = some f ↔ g.FirstFault opened path s f := by
  cases o with
  | none =>
    refine ⟨nofun, fun ⟨address, q, t, ht, hunwritable, _⟩ => ?_⟩
    exact absurd hunwritable (h address q t ht)
  | some f' =>
    have hfirst : g.FirstFault opened path s f' := h
    constructor
    · rintro ⟨⟩
      exact hfirst
    · exact fun hf => congrArg some (hfirst.unique hf)

/-- There is a fault exactly if a date or a big integer can be reached. -/
theorem Verdict.exists_iff {o : Option SchemaFault} (h : g.Verdict [] path s o) :
    (∃ f, o = some f) ↔ ∃ t, g.Shows s t ∧ t.isUnwritable = true := by
  cases o with
  | none =>
    refine ⟨nofun, fun ⟨t, ht, hunwritable⟩ => ?_⟩
    obtain ⟨address, q, hq⟩ := ht.exists_occurs path
    exact absurd hunwritable (h address q t hq)
  | some f =>
    obtain ⟨address, q, t, ht, hunwritable, -⟩ := h
    exact iff_of_true ⟨f, rfl⟩ ⟨t, ht.shows, hunwritable⟩

end Graph

/-! ## Codecs -/

theorem Codec.Built.verdict {c : Codec} (h : c.Built) :
    c.graph.Verdict [] [] c.root (failure? c.schema) :=
  Graph.verdict_schema (fun m hm path => h.graph.closed.verdict_schemaRef (.nil _)
    (Graph.suffices_nil _) (Graph.lt_size_of_name? (h.root m hm)) path) []

/-- **A codec has no schema exactly if a date or a big integer can be reached from the root**, and
then its fault is the first one. -/
theorem Codec.Built.schema_eq_error_iff {c : Codec} (h : c.Built) :
    ((∃ f, c.schema = .error f) ↔ ∃ t, c.graph.Shows c.root t ∧ t.isUnwritable = true) ∧
      ∀ f, c.schema = .error f ↔ c.graph.FirstFault [] [] c.root f := by
  simp only [← failure?_eq_some_iff]
  exact ⟨h.verdict.exists_iff, fun f => h.verdict.eq_some_iff⟩

namespace Graph

/-- Notes have a day, and come after other notes. -/
def noteRecords : Entries Record :=
  [("Note", .object [("previous", .optionalField (.ref "Note")), ("day", .ref "Day"),
      ("size", .bigint)] []),
    ("Day", .anyOf [.typeof .string, .date])]

def notes : Graph :=
  ⟨[("Note", .object [("previous", .optional (.ref 0 "Note")), ("day", .ref 1 "Day"),
      ("size", .bigint)] []),
    ("Day", .anyOf [.base .string, .date])]⟩

/-- The codec of notes. -/
def noteCodec : Codec := ⟨"Note", notes, .ref 0 "Note"⟩

theorem noteCodec_built : noteCodec.Built := by
  have hg : notes.Built := ⟨{}, noteRecords, by decide, by decide, rfl⟩
  exact hg.codec (show notes.codec? "Note" = some noteCodec from rfl)

/-- A note fails at its day, before its size. The note before it leads back to notes. -/
theorem schema_eq_error_iff_noteCodec :
    noteCodec.Built ∧ (∃ t, notes.Shows (.ref 0 "Note") t ∧ t.isUnwritable = true) ∧
      notes.FirstFault [] [] (.ref 0 "Note") (.unsupported "Date" ["day"]) :=
  have h : noteCodec.schema = .error (.unsupported "Date" ["day"]) := rfl
  ⟨noteCodec_built, noteCodec_built.schema_eq_error_iff.1.mp ⟨_, h⟩,
    (noteCodec_built.schema_eq_error_iff.2 _).mp h⟩

end Graph

end ShapeGraph
