import ShapeGraph.Proofs.Definitions
import ShapeGraph.Proofs.Description.Declarations
import ShapeGraph.Proofs.Renaming

/-!
# References that lead to no loop

Where no definition leads back to itself, every reference can be replaced by the definition that it
names, and the references in there in turn, until none is left. The shape without references says
what the shape says, of every value and of itself.

What is carried from definition to definition is the chain of those that are open: all of them lead
to what is looked at, so none of them is met again, and there is fuel for all others.

* `Graph.AcyclicFrom` — no loop of references can be reached from a shape
* `Graph.expansion` — a shape with definitions in place of all references
* `Graph.Below` — a shape inside the definitions of a chain, and `Below.target` — one more
* `Built.agrees_expansion` — a shape and its expansion agree
-/

namespace ShapeGraph

namespace Graph

/-! ## Loops of references -/

/-- The body of a definition refers to a place, at any depth. -/
def Refers (g : Graph) (i j : Nat) : Prop :=
  ∃ s name, g.shape? i = some s ∧ s.Contains (.ref j name)

/-- **No loop of references can be reached from a shape.** -/
def AcyclicFrom (g : Graph) (s : Shape) : Prop :=
  ∀ place name, s.Contains (.ref place name) →
    ∀ i, Relation.ReflTransGen g.Refers place i → ¬ Relation.TransGen g.Refers i i

/-! ## Expansions -/

/-- A shape with the definition at its place in place of every reference, and so in the definitions,
at most `fuel` of them one inside the other. -/
def unfold (g : Graph) : Nat → Shape → Shape
  | 0, s => s
  | fuel + 1, s => s.subst fun place name =>
    match g.shape? place with
    | some t => unfold g fuel t
    | none => .ref place name

/-- **A shape with definitions in place of all references.** -/
def expansion (g : Graph) (s : Shape) : Shape := g.unfold (g.size + 1) s

/-! ## Inside the definitions of a chain -/

variable {g : Graph} {chain : List Nat} {s : Shape}

/-- A shape to which the definitions of a chain lead, innermost first, and from which no loop can be
reached. -/
structure Below (g : Graph) (chain : List Nat) (s : Shape) : Prop where
  isChain : g.Chain chain
  covers : g.Covers s
  leads : ∀ place name, s.Contains (.ref place name) →
    ∀ i ∈ chain, Relation.TransGen g.Refers i place
  acyclic : g.AcyclicFrom s

/-- All references inside the definitions lead to definitions. -/
def Complete (g : Graph) : Prop := ∀ i s, g.shape? i = some s → g.Covers s

theorem Built.complete (hg : g.Built) : g.Complete := by
  obtain ⟨formats, records, -, -, hrecords⟩ := hg
  intro i s hs place name hplace
  exact lt_size_of_name? (references_of_ofRecords hrecords hs hplace)

/-- **A reference leads to a definition that is not open, and is inside that one then.** -/
theorem Below.target (h : g.Below chain s) (hg : g.Complete) {place : Nat} {name : String}
    (hplace : s.Contains (.ref place name)) :
    ∃ t, g.shape? place = some t ∧ place ∉ chain ∧ g.Below (place :: chain) t := by
  have hlt := h.covers place name hplace
  obtain ⟨t, ht⟩ := exists_shape?_of_lt hlt
  have hmem : place ∉ chain := fun hmem =>
    h.acyclic place name hplace place .refl (h.leads place name hplace place hmem)
  have hstep {i : Nat} {label : String} (hi : t.Contains (.ref i label)) : g.Refers place i :=
    ⟨t, label, ht, hi⟩
  refine ⟨t, ht, hmem, h.isChain.cons hlt hmem, hg place t ht, ?_, ?_⟩
  · intro i label hi
    refine List.forall_mem_cons.mpr ⟨.single (hstep hi), fun j hj => ?_⟩
    exact (h.leads place name hplace j hj).tail (hstep hi)
  · intro i label hi j hij
    exact h.acyclic place name hplace j (.head (hstep hi) hij)

theorem unfold_succ (fuel : Nat) (s : Shape) :
    g.unfold (fuel + 1) s = s.subst fun place name =>
      match g.shape? place with
      | some t => g.unfold fuel t
      | none => .ref place name := rfl

/-- Any two amounts of fuel that are enough give one expansion. -/
theorem Below.unfold_eq (h : g.Below chain s) (hg : g.Complete) {n m : Nat}
    (hn : g.Suffices chain n) (hm : g.Suffices chain m) : g.unfold n s = g.unfold m s := by
  induction n generalizing chain s m with
  | zero => cases (h.isChain.exists_succ hn).choose_spec
  | succ n ih =>
    obtain ⟨m, rfl⟩ := h.isChain.exists_succ hm
    rw [unfold_succ, unfold_succ]
    refine Shape.subst_congr fun place name hplace => ?_
    obtain ⟨t, ht, -, hbelow⟩ := h.target hg hplace
    simp only [ht]
    exact ih hbelow (hn.cons place) (hm.cons place)

/-- No reference is left. -/
theorem Below.not_contains (h : g.Below chain s) (hg : g.Complete) {n : Nat}
    (hn : g.Suffices chain n) (place : Nat) (name : String) :
    ¬ (g.unfold n s).Contains (.ref place name) := by
  induction n generalizing chain s with
  | zero => cases (h.isChain.exists_succ hn).choose_spec
  | succ n ih =>
    intro hcontains
    rw [unfold_succ] at hcontains
    obtain ⟨i, label, hi, hcontains⟩ := Shape.contains_subst hcontains
    obtain ⟨t, ht, -, hbelow⟩ := h.target hg hi
    simp only [ht] at hcontains
    exact ih hbelow (hn.cons i) hcontains

/-! ## Values -/

section

variable {p : Policy} {a : Nat → Value → Bool}

/-- The expansion accepts what the shape accepts, whatever is said for references in it. -/
theorem Below.accepts_unfold (h : g.Below chain s) (hg : g.Complete) {n m : Nat}
    (hn : g.Suffices chain n) (hm : g.Suffices chain m) (v : Value) :
    (g.unfold n s).accepts p a v = s.accepts p (g.acceptsRef p m) v := by
  induction n generalizing chain s m v with
  | zero => cases (h.isChain.exists_succ hn).choose_spec
  | succ n ih =>
    obtain ⟨m, rfl⟩ := h.isChain.exists_succ hm
    rw [unfold_succ]
    refine Shape.accepts_subst fun place name hplace w => ?_
    obtain ⟨t, ht, -, hbelow⟩ := h.target hg hplace
    simp only [acceptsRef, ht]
    exact ih hbelow (hn.cons place) (hm.cons place) w

theorem Below.report_unfold {r : Nat → String → Path → Value → List DecodeError}
    (h : g.Below chain s) (hg : g.Complete) {n m : Nat} (hn : g.Suffices chain n)
    (hm : g.Suffices chain m) (path : Path) (v : Value) :
    (g.unfold n s).report p a r path v =
      s.report p (g.acceptsRef p m) (g.reportRef p m) path v := by
  induction n generalizing chain s m path v with
  | zero => cases (h.isChain.exists_succ hn).choose_spec
  | succ n ih =>
    obtain ⟨m, rfl⟩ := h.isChain.exists_succ hm
    rw [unfold_succ]
    refine Shape.report_subst path (fun place name hplace w => ?_)
      fun place name hplace path w => ?_
    · obtain ⟨t, ht, -, hbelow⟩ := h.target hg hplace
      simp only [acceptsRef, ht]
      exact hbelow.accepts_unfold hg (hn.cons place) (hm.cons place) w
    · obtain ⟨t, ht, -, hbelow⟩ := h.target hg hplace
      simp only [reportRef, ht]
      exact ih hbelow (hn.cons place) (hm.cons place) path w

theorem Below.parse_unfold {r : Nat → String → Value → Except ParseFault Value}
    (h : g.Below chain s) (hg : g.Complete) {n m : Nat} (hn : g.Suffices chain n)
    (hm : g.Suffices chain m) (v : Value) :
    SameResult ((g.unfold n s).parse p a r v)
      (s.parse p (g.acceptsRef p m) (g.parseRef p m) v) := by
  induction n generalizing chain s m v with
  | zero => cases (h.isChain.exists_succ hn).choose_spec
  | succ n ih =>
    obtain ⟨m, rfl⟩ := h.isChain.exists_succ hm
    rw [unfold_succ]
    refine Shape.parse_subst (fun place name hplace w => ?_) fun place name hplace w => ?_
    · obtain ⟨t, ht, -, hbelow⟩ := h.target hg hplace
      simp only [acceptsRef, ht]
      exact hbelow.accepts_unfold hg (hn.cons place) (hm.cons place) w
    · obtain ⟨t, ht, -, hbelow⟩ := h.target hg hplace
      simp only [parseRef, ht]
      exact ih hbelow (hn.cons place) (hm.cons place) w

end

/-! ## Fingerprints and schemas -/

/-- No reference that is hashed leads back. -/
theorem Below.fingerprint_unfold {onRef : Nat → String → Int32} (h : g.Below chain s)
    (hg : g.Complete) {n m : Nat} (hn : g.Suffices chain n) (hm : g.Suffices chain m) :
    (g.unfold n s).fingerprint onRef = s.fingerprint (g.fingerprintRef m chain) := by
  induction n generalizing chain s m with
  | zero => cases (h.isChain.exists_succ hn).choose_spec
  | succ n ih =>
    obtain ⟨m, rfl⟩ := h.isChain.exists_succ hm
    rw [unfold_succ]
    refine Shape.fingerprint_subst fun place name hplace => ?_
    obtain ⟨t, ht, hmem, hbelow⟩ := h.target hg hplace
    have hnone : chain.findIdx? (· == place) = none := findIdx?_eq_none_iff_not_mem.mpr hmem
    simp only [fingerprintRef, hnone, ht]
    exact ih hbelow (hn.cons place) (hm.cons place)

/-- No reference that is written leads back, so none becomes the empty schema. -/
theorem Below.schema_unfold {onRef : Path → Nat → String → Except SchemaFault Json}
    (h : g.Below chain s) (hg : g.Complete) {n m : Nat} (hn : g.Suffices chain n)
    (hm : g.Suffices chain m) (path : Path) :
    (g.unfold n s).schema onRef path = s.schema (g.schemaRef m chain) path := by
  induction n generalizing chain s m path with
  | zero => cases (h.isChain.exists_succ hn).choose_spec
  | succ n ih =>
    obtain ⟨m, rfl⟩ := h.isChain.exists_succ hm
    rw [unfold_succ]
    refine Shape.schema_subst path fun place name hplace path => ?_
    obtain ⟨t, ht, hmem, hbelow⟩ := h.target hg hplace
    have hnone : chain.contains place = false := by
      rw [Bool.eq_false_iff, ne_eq, List.contains_iff_mem]
      exact hmem
    simp only [schemaRef, hnone, ht, Bool.false_eq_true, if_false]
    exact ih hbelow (hn.cons place) (hm.cons place) path

/-! ## Shapes and their expansions -/

/-- A shape without references parses what it accepts, whatever stands behind references. -/
theorem parse_of_not_contains {p : Policy} {a : Nat → Value → Bool} {v : Value}
    (hs : ∀ place name, ¬ s.Contains (.ref place name)) (ha : s.accepts p a v = true) :
    ∃ w, ∀ a' r', s.parse p a' r' v = .ok w := by
  have hempty : ({} : Graph).Guarded := guarded_of_ranks id nofun
  have haccepts : ({} : Graph).accepts p (s.subst .ref) v = s.accepts p a v :=
    Shape.accepts_subst fun place name hplace => absurd hplace (hs place name)
  rw [Shape.subst_ref, ha] at haccepts
  refine ⟨({} : Graph).parsed p s v, fun a' r' => ?_⟩
  have hparse : SameResult ((s.subst .ref).parse p a' r' v) (({} : Graph).parse p s v) :=
    Shape.parse_subst (fun place name hplace => absurd hplace (hs place name))
      fun place name hplace => absurd hplace (hs place name)
  rw [Shape.subst_ref] at hparse
  exact (hparse _).mpr (hempty.parse_eq haccepts)

/-- **Two shapes say the same in a graph**: of every value, which they accept, report on and parse
alike, and of themselves. -/
structure Interchangeable (g : Graph) (s t : Shape) : Prop where
  accepts : ∀ p v, g.accepts p t v = g.accepts p s v
  report : ∀ p path v, g.report p t path v = g.report p s path v
  parse : ∀ p v, g.accepts p s v = true → ∃ w, g.parse p s v = .ok w ∧ g.parse p t v = .ok w
  fingerprint : g.fingerprint t = g.fingerprint s
  schema : g.schema t = g.schema s

theorem suffices_budget (g : Graph) (v : Value) : g.Suffices [] (g.budget v) := by
  have hle : (g.size + 1) * 1 ≤ (g.size + 1) * (v.depth + 2) := Nat.mul_le_mul_left _ (by omega)
  unfold Suffices budget
  rw [List.length_nil]
  omega

/-- **References are transparent where they lead to no loop.** In a graph that was built, a shape
from which no loop can be reached and its expansion say the same. The expansion is the shape with
the expansions of the definitions in place of its references, and has no reference left; so no
reference in the shape becomes the empty schema. -/
theorem Built.agrees_expansion (hg : g.Built) (hs : g.Covers s) (hacyclic : g.AcyclicFrom s) :
    (∀ place name, ¬ (g.expansion s).Contains (.ref place name)) ∧
      (g.expansion s = s.subst fun place name =>
        match g.shape? place with
        | some t => g.expansion t
        | none => .ref place name) ∧
      g.Interchangeable s (g.expansion s) := by
  have hcomplete := hg.complete
  have hbelow : g.Below [] s := ⟨.nil g, hs, fun _ _ _ => nofun, hacyclic⟩
  have hsize := g.suffices_nil
  have hnone := hbelow.not_contains hcomplete hsize
  refine ⟨hnone, ?_, ?_⟩
  · rw [expansion, unfold_succ]
    refine Shape.subst_congr fun place name hplace => ?_
    obtain ⟨t, ht, -, htarget⟩ := hbelow.target hcomplete hplace
    simp only [ht]
    have hmore : g.Suffices [place] (g.size + 1) := Nat.lt_add_right 1 hsize
    exact htarget.unfold_eq hcomplete (hsize.cons place) hmore
  · constructor
    case accepts => exact fun p v => hbelow.accepts_unfold hcomplete hsize (g.suffices_budget v) v
    case report =>
      exact fun p path v => hbelow.report_unfold hcomplete hsize (g.suffices_budget v) path v
    case parse =>
      intro p v ha
      have haccepts : g.accepts p (g.expansion s) v = g.accepts p s v :=
        hbelow.accepts_unfold hcomplete hsize (g.suffices_budget v) v
      obtain ⟨w, hw⟩ := parse_of_not_contains hnone (haccepts.trans ha)
      have hsame : SameResult (g.parse p (g.expansion s) v) (g.parse p s v) :=
        hbelow.parse_unfold hcomplete hsize (g.suffices_budget v) v
      exact ⟨w, (hsame w).mp (hw _ _), hw _ _⟩
    case fingerprint => exact hbelow.fingerprint_unfold hcomplete hsize hsize
    case schema => exact hbelow.schema_unfold hcomplete hsize hsize []

/-! ## References to what comes before -/

/-- Whether a reference leads to one of the first `n` places. -/
def leadsBelow (n : Nat) : Shape → Bool
  | .ref place _ => decide (place < n)
  | _ => true

theorem lt_of_leadsBelow {n place : Nat} {name : String} (h : s.all (leadsBelow n) = true)
    (hplace : s.Contains (.ref place name)) : place < n :=
  of_decide_eq_true (Shape.of_contains h hplace)

/-- Where the first definitions refer to those before them, none of them is in a loop. -/
theorem acyclicFrom_of_leadsBelow {n : Nat} (hs : s.all (leadsBelow n) = true)
    (h : ∀ e ∈ g.definitions.zipIdx, e.2 < n → e.1.2.all (leadsBelow e.2) = true) :
    g.AcyclicFrom s := by
  have hstep : ∀ i < n, ∀ j, g.Refers i j → j < i := by
    rintro i hi j ⟨t, name, ht, hj⟩
    obtain ⟨e, he, rfl⟩ := Option.map_eq_some_iff.mp ht
    exact lt_of_leadsBelow (h (e, i) (List.mem_zipIdx_iff_getElem?.mpr he) hi) hj
  have hdown : ∀ i < n, ∀ j, Relation.TransGen g.Refers i j → j < i := by
    intro i hi j hij
    induction hij with
    | single h => exact hstep i hi _ h
    | tail _ h ih => exact Nat.lt_trans (hstep _ (Nat.lt_trans ih hi) _ h) ih
  intro place name hplace i hi hloop
  have hlt : i < n := by
    rcases Relation.reflTransGen_iff_eq_or_transGen.mp hi with rfl | hi
    · exact lt_of_leadsBelow hs hplace
    · have hlt := lt_of_leadsBelow hs hplace
      exact Nat.lt_trans (hdown place hlt i hi) hlt
  exact Nat.lt_irrefl i (hdown i hlt i hloop)

/-- Segments between points, and a chain of segments that leads back to itself. -/
def segmentRecords : Entries Record :=
  [("Point", .tuple [.typeof .number, .typeof .number] none),
    ("Segment", .object [("from", .ref "Point"), ("to", .ref "Point")] []),
    ("Chain", .object [("first", .ref "Segment"), ("more", .optionalField (.ref "Chain"))] [])]

def segments : Graph :=
  ⟨[("Point", .tuple [.base .number, .base .number] none),
    ("Segment", .object [("from", .ref 0 "Point"), ("to", .ref 0 "Point")] []),
    ("Chain", .object [("first", .ref 1 "Segment"), ("more", .optional (.ref 2 "Chain"))] [])]⟩

/-- A polygon refers to segments and to points, not to chains. -/
def polygon : Shape := .tuple [.ref 0 "Point", .ref 1 "Segment", .ref 1 "Segment"] none

theorem agrees_expansion_polygon :
    segments.Built ∧ segments.Covers polygon ∧ segments.AcyclicFrom polygon ∧
      (∀ place name, ¬ (segments.expansion polygon).Contains (.ref place name)) ∧
      segments.Interchangeable polygon (segments.expansion polygon) := by
  have hg : segments.Built := ⟨{}, segmentRecords, by decide, by decide, rfl⟩
  have hs : segments.Covers polygon := fun place name hplace =>
    Nat.lt_trans (lt_of_leadsBelow (n := 2) rfl hplace) (by decide)
  have hacyclic : segments.AcyclicFrom polygon := acyclicFrom_of_leadsBelow (n := 2) rfl (by decide)
  have h := hg.agrees_expansion hs hacyclic
  exact ⟨hg, hs, hacyclic, h.1, h.2.2⟩

end Graph

end ShapeGraph
