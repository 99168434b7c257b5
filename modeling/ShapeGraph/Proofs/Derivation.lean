import ShapeGraph.Proofs.Composition
import ShapeGraph.Proofs.Description.Emitting

/-!
# Schemas, descriptions and fingerprints come to an end

What is derived from a shape is derived in every graph, whether its loops take steps into values or
not. Each of the three has its own way not to go round in circles: a schema and a fingerprint leave
off at a definition that is open, the first pass of a description enters a definition at its first
count only, and the second one relies on these counts.

Inside a shape a traversal goes from parts to smaller parts. So what is to be shown is that only so
many definitions are entered one inside the other: that the fuel for definitions lasts.

* `Recording` — steps with a trace, and `Recording.Ends` — steps for which the fuel lasts
* `Shape.fingerprintTraced`, `Shape.schemaTraced` — fingerprints and schemas with such steps
* `Graph.Derives` — how the derivations from a root go
* `Graph.derives` — they go so in every graph
-/

namespace ShapeGraph

/-! ## Steps with a trace -/

/-- Steps that leave a trace. -/
abbrev Recording := StateM Trace

namespace Recording

/-- A definition is entered. -/
def enter (place : Nat) (around : List Nat) : Recording Unit := modify (·.enter place around)

/-- Fuel is missing. -/
def exhaust : Recording Unit := modify Trace.exhaust

/-- **The steps end with a result**: fuel is not missing, and no definition is entered inside
itself. -/
def Ends {α : Type} (x : Recording α) (a : α) : Prop :=
  ∀ t, ∃ later, x.run t = (a, t.add later) ∧ ∀ e ∈ later, e.chain.Nodup

variable {α β ε : Type} {x : Recording α} {f : α → Recording β} {a : α} {b : β}

theorem ends_pure (a : α) : Ends (pure a) a := fun _ => ⟨[], rfl, nofun⟩

theorem ends_enter {place : Nat} {around : List Nat} (h : (place :: around).Nodup) :
    Ends (enter place around) () :=
  fun _ => ⟨[⟨place, around⟩], rfl, List.forall_mem_singleton.mpr h⟩

theorem Ends.bind (hx : Ends x a) (hf : Ends (f a) b) : Ends (x >>= f) b := by
  intro t
  obtain ⟨first, hfirst, hnodup⟩ := hx t
  obtain ⟨others, hothers, hnodup'⟩ := hf (t.add first)
  refine ⟨others ++ first, ?_, fun e he => (List.mem_append.mp he).elim (hnodup' e) (hnodup e)⟩
  rw [StateT.run_bind, hfirst]
  exact hothers.trans (by rw [Trace.add_add])

theorem Ends.mapM {l : List α} {r : α → β} (h : ∀ a ∈ l, Ends (f a) (r a)) :
    Ends (l.mapM f) (l.map r) := by
  induction l with
  | nil => exact ends_pure []
  | cons a l ih =>
    rw [List.forall_mem_cons] at h
    rw [List.mapM_cons]
    exact h.1.bind ((ih h.2).bind (ends_pure _))

/-- Steps that can fail: the others follow when there is a result. -/
theorem Ends.bindExcept {x : ExceptT ε Recording α} {f : α → ExceptT ε Recording β} {r : Except ε α}
    {k : α → Except ε β} (hx : Ends x.run r) (hf : ∀ a, Ends (f a).run (k a)) :
    Ends (x >>= f).run (r >>= k) := by
  rw [ExceptT.run_bind]
  refine hx.bind ?_
  cases r with
  | error fault => exact ends_pure _
  | ok a => exact hf a

/-- Steps that cannot fail, among such that can. -/
theorem Ends.lift (hx : Ends x a) : Ends (liftM x : ExceptT ε Recording α).run (.ok a) := by
  show Ends (Except.ok <$> x) _
  rw [map_eq_pure_bind]
  exact hx.bind (ends_pure _)

theorem Ends.mapMExcept {l : List α} {f : α → ExceptT ε Recording β} {r : α → Except ε β}
    (h : ∀ a ∈ l, Ends (f a).run (r a)) : Ends (l.mapM f).run (l.mapM r) := by
  induction l with
  | nil => exact ends_pure _
  | cons a l ih =>
    rw [List.forall_mem_cons] at h
    rw [List.mapM_cons, List.mapM_cons]
    exact h.1.bindExcept fun b => (ih h.2).bindExcept fun bs => ends_pure _

end Recording

open Recording

/-! ## Fingerprints -/

/-- The fingerprint of a shape, where those of the references leave a trace. -/
def Shape.fingerprintTraced (onRef : Nat → String → Recording Int32) (s : Shape) :
    Recording Int32 :=
  match s.ownMention with
  | m :: _ => onRef m.1 m.2
  | [] => do return s.digest (← s.hashed.attach.mapM fun t => fingerprintTraced onRef t.1)
termination_by sizeOf s
decreasing_by exact sizeOf_lt_of_mem_parts (mem_parts_of_mem_hashed t.2)

/-- The fingerprint of a reference, with a trace. -/
def Graph.fingerprintTraced (g : Graph) : Nat → List Nat → Nat → String → Recording Int32
  | 0, _, _, name => do
    exhaust
    return Fingerprint.combine (Fingerprint.ofKind .ref) (Fingerprint.ofString name)
  | fuel + 1, stack, place, name =>
    match stack.findIdx? (· == place) with
    | some i =>
      return Fingerprint.combine (Fingerprint.ofKind .ref) (Fingerprint.ofDistance (i + 1))
    | none =>
      match g.shape? place with
      | some s => do
        enter place stack
        s.fingerprintTraced (fingerprintTraced g fuel (place :: stack))
      | none => return Fingerprint.combine (Fingerprint.ofKind .ref) (Fingerprint.ofString name)

theorem Shape.ends_fingerprint {onRef : Nat → String → Recording Int32} {r : Nat → String → Int32}
    (h : ∀ place name, Ends (onRef place name) (r place name)) (s : Shape) :
    Ends (s.fingerprintTraced onRef) (s.fingerprint r) := by
  induction s using parts_induction with | step s ih => ?_
  cases hs : s.isRef with
  | true =>
    obtain ⟨place, name, rfl⟩ := eq_ref_of_isRef hs
    rw [fingerprintTraced]
    exact h place name
  | false =>
    have hparts : Ends (s.hashed.mapM (fingerprintTraced onRef)) (s.hashed.map (fingerprint r)) :=
      .mapM fun t ht => ih t (mem_parts_of_mem_hashed ht)
    rw [fingerprint_eq r hs, fingerprintTraced, ownMention_of_not_ref hs]
    rw [List.mapM_subtype (g := fingerprintTraced onRef) fun t _ => rfl, List.unattach_attach]
    exact hparts.bind (ends_pure _)

/-- **Fingerprints end**: a reference to a definition that is open is not entered. -/
theorem Graph.ends_fingerprintRef (g : Graph) {chain : List Nat} (hchain : g.Chain chain)
    {fuel : Nat} (hfuel : g.Suffices chain fuel) (place : Nat) (name : String) :
    Ends (g.fingerprintTraced fuel chain place name) (g.fingerprintRef fuel chain place name) := by
  induction fuel generalizing chain place name with
  | zero => cases (hchain.exists_succ hfuel).choose_spec
  | succ fuel ih =>
    rw [fingerprintTraced, fingerprintRef]
    cases hfind : chain.findIdx? (· == place) with
    | some i => exact ends_pure _
    | none =>
      have hmem : place ∉ chain := findIdx?_eq_none_iff_not_mem.mp hfind
      cases hs : g.shape? place with
      | none => exact ends_pure _
      | some s =>
        have hchain' := hchain.cons (lt_size_of_shape? hs) hmem
        exact (ends_enter hchain'.nodup).bind
          (Shape.ends_fingerprint (ih hchain' (hfuel.cons place)) s)

/-! ## Schemas -/

/-- The schema of a shape at a path, where those of the references leave a trace. -/
def Shape.schemaTraced (onRef : Path → Nat → String → ExceptT SchemaFault Recording Json)
    (path : Path) (s : Shape) : ExceptT SchemaFault Recording Json :=
  match s.ownMention with
  | m :: _ => onRef path m.1 m.2
  | [] => do
    let schemas ← (s.placed path).attach.mapM fun e => schemaTraced onRef e.1.1 e.1.2
    ExceptT.mk (pure (s.compose path schemas))
termination_by sizeOf s
decreasing_by exact sizeOf_lt_of_mem_parts (mem_parts_of_mem_placed e.2)

/-- The schema of a reference, with a trace. -/
def Graph.schemaTraced (g : Graph) :
    Nat → List Nat → Path → Nat → String → ExceptT SchemaFault Recording Json
  | 0, _, _, _, name => do
    exhaust
    throw (.unresolved name)
  | fuel + 1, opened, path, place, name =>
    if opened.contains place then return .obj []
    else
      match g.shape? place with
      | some s => do
        enter place opened
        s.schemaTraced (schemaTraced g fuel (place :: opened)) path
      | none => throw (.unresolved name)

theorem Shape.ends_schema {onRef : Path → Nat → String → ExceptT SchemaFault Recording Json}
    {r : Path → Nat → String → Except SchemaFault Json}
    (h : ∀ path place name, Ends (onRef path place name).run (r path place name)) (s : Shape)
    (path : Path) : Ends (s.schemaTraced onRef path).run (s.schema r path) := by
  induction s using parts_induction generalizing path with | step s ih => ?_
  cases hs : s.isRef with
  | true =>
    obtain ⟨place, name, rfl⟩ := eq_ref_of_isRef hs
    rw [schemaTraced]
    exact h path place name
  | false =>
    have hparts : Ends ((s.placed path).mapM fun e => schemaTraced onRef e.1 e.2).run
        (schemasAt r (s.placed path)) :=
      .mapMExcept fun e he => ih e.2 (mem_parts_of_mem_placed he) e.1
    rw [schema_eq hs path, schemaTraced, ownMention_of_not_ref hs]
    rw [List.mapM_subtype (g := fun e => schemaTraced onRef e.1 e.2) fun e _ => rfl,
      List.unattach_attach]
    exact hparts.bindExcept fun schemas => ends_pure _

/-- **Schemas end**: a reference to a definition that is open is not entered. -/
theorem Graph.ends_schemaRef (g : Graph) {chain : List Nat} (hchain : g.Chain chain)
    {fuel : Nat} (hfuel : g.Suffices chain fuel) (path : Path) (place : Nat) (name : String) :
    Ends (g.schemaTraced fuel chain path place name).run
      (g.schemaRef fuel chain path place name) := by
  induction fuel generalizing chain path place name with
  | zero => cases (hchain.exists_succ hfuel).choose_spec
  | succ fuel ih =>
    rw [schemaTraced, schemaRef]
    by_cases hmem : chain.contains place = true
    · rw [if_pos hmem, if_pos hmem]
      exact ends_pure _
    · rw [if_neg hmem, if_neg hmem]
      cases hs : g.shape? place with
      | none => exact ends_pure _
      | some s =>
        rw [List.contains_iff_mem] at hmem
        have hchain' := hchain.cons (lt_size_of_shape? hs) hmem
        have hbody := Shape.ends_schema (ih hchain' (hfuel.cons place)) s path
        exact (ends_enter hchain'.nodup).lift.bindExcept fun _ => hbody

/-! ## All derivations -/

/-- **How the derivations from a root go.** Fuel for as many definitions as there are, one inside
the other, lasts in each of them. -/
structure Graph.Derives (g : Graph) (root : Shape) : Prop where
  /-- The schema ends, and no definition is entered inside itself. -/
  schema : Ends (root.schemaTraced (g.schemaTraced (g.size + 1) []) []).run (g.schema root)
  /-- So does the fingerprint. -/
  fingerprint :
    Ends (root.fingerprintTraced (g.fingerprintTraced (g.size + 1) [])) (g.fingerprint root)
  /-- The first pass of the description ends, and enters every definition that is mentioned once in
  all. -/
  measuring : ∃ openings, g.measured root = (g.referenceCounts root, ⟨openings, false⟩) ∧
    (openings.map (·.place)).Nodup ∧
      ∀ i, i ∈ openings.map (·.place) ↔ i < g.size ∧ g.Mentioned root i
  /-- On every loop that is mentioned a definition has been counted twice. -/
  loops : ∀ i c, g.Mentioned root i → List.IsChain g.Mentions (i :: (c ++ [i])) →
    ∃ j ∈ i :: c, 2 ≤ (g.referenceCounts root).getD j 0
  /-- The second pass ends with the text of the root. It enters no definition inside itself, and
  every definition that has been counted twice once. -/
  emitting : ∃ text texts openings, g.emitted root = (text, texts, ⟨openings, false⟩) ∧
    root.describe (g.writeRef (g.referenceCounts root) (g.size + 1)) (List.replicate g.size none) =
      (text, texts) ∧
    (∀ e ∈ openings, e.chain.Nodup) ∧
    ∀ i, 2 ≤ (g.referenceCounts root).getD i 0 → (openings.map (·.place)).count i = 1
  /-- In whatever order the definitions that have been counted twice are gone through afterwards,
  that ends. No definition is entered inside itself, and of those that have been counted twice the
  ones whose text is empty are entered, once. -/
  cleaning : ∀ places : List Nat, places.Nodup →
    (∀ i ∈ places, 2 ≤ (g.referenceCounts root).getD i 0) →
      ∃ openings,
        places.foldl (g.pendingTraced (g.referenceCounts root)) (g.emitted root).2 =
          (places.foldl (g.writePending (g.referenceCounts root)) (g.emitted root).2.1,
            (g.emitted root).2.2.add openings) ∧
        (∀ e ∈ openings, e.chain.Nodup) ∧
        ∀ i, 2 ≤ (g.referenceCounts root).getD i 0 → (openings.map (·.place)).count i =
          if i ∈ places ∧ (g.emitted root).2.1.getD i none = some "" then 1 else 0

/-- **Schemas, descriptions and fingerprints come to an end**, in every graph and from every
root. -/
theorem Graph.derives (g : Graph) (root : Shape) : g.Derives root := by
  have hshared : ∀ i, 2 ≤ (g.referenceCounts root).getD i 0 →
      isShared (g.referenceCounts root) i = true := fun i hi => decide_eq_true hi
  constructor
  case schema => exact Shape.ends_schema (g.ends_schemaRef (.nil g) g.suffices_nil) root []
  case fingerprint =>
    exact Shape.ends_fingerprint (g.ends_fingerprintRef (.nil g) g.suffices_nil) root
  case measuring =>
    have htallied := g.tallied_measured root
    refine ⟨(g.measured root).2.openings, ?_, htallied.nodup, fun i => g.mem_measured_iff root⟩
    rw [← g.measured_fst root, ← htallied.exhausted]
  case loops =>
    intro i c hi hc
    obtain ⟨j, hj, hshared⟩ := exists_shared_of_cycle hi hc
    refine ⟨j, hj, ?_⟩
    rw [g.getD_referenceCounts root (lt_size_of_mem_chain hc hj)]
    exact hshared
  case emitting =>
    obtain ⟨openings, h⟩ := g.exists_emitting root
    have htrace : (g.emitted root).2.2 = ⟨openings, false⟩ := by
      rw [h.trace_eq]
      simp [Trace.add]
    refine ⟨_, _, openings, ?_, g.emitted_eq root, h.nodup, fun i hi => ?_⟩
    · rw [← htrace]
      rfl
    · have hcount := (count_emitted (hshared i hi)).1
      rwa [htrace] at hcount
  case cleaning =>
    intro places hd hplaces
    obtain ⟨openings, h⟩ := (written_emitted g root).exists_cleaning hd
      fun i hi => hshared i (hplaces i hi)
    refine ⟨openings, ?_, h.nodup, fun i hi => h.again i (hshared i hi)⟩
    rw [← foldl_pendingTraced_fst, ← h.trace_eq]

/-- A union of nothing but itself. -/
def Graph.knot : Graph := ⟨[("Knot", .anyOf [.ref 0 "Knot", .ref 0 "Knot"])]⟩

example : Graph.knot.describe "Knot" (.ref 0 "Knot") =
    "type Knot = (Knot | Knot);\n\ntype CodecKnot = Knot;" := by
  decide +kernel

end ShapeGraph
