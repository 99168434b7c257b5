import ShapeGraph.Document
import ShapeGraph.Proofs.Decoding
import ShapeGraph.Proofs.Definitions
import ShapeGraph.Proofs.Description.Declarations
import ShapeGraph.Proofs.Records.Substituting
import ShapeGraph.Proofs.Substitution
import ShapeGraph.Proofs.Trace

/-!
# Definitions under other names and in another order

A document whose definitions are renamed, with all references to them, and put in another order
makes a graph as the document does: the same definitions stand at other places, and the references
inside them lead to these. Nothing that a codec answers shows the difference, apart from its
description, in which names stand.

* `Record.rename`, `Document.rename` — other names for the definitions
* `compile_rename` — a renamed record makes the renamed shape
* `Graph.Renamed` — the same definitions at other places and under other names
* `Renamed.accepts`, `Renamed.report`, `Renamed.parse` — what is said of values
* `Renamed.fingerprintRef`, `Renamed.schemaRef` — what is read from references that may lead back
* `Document.build_renamed` — a renamed document makes interchangeable codecs
-/

namespace ShapeGraph

/-! ## Renamed records -/

namespace Record

section

variable (ρ : String → String)

mutual

/-- A record whose references bear other names. -/
def rename : Record → Record
  | .tuple slots none => .tuple (renameAll slots) none
  | .tuple slots (some rest) => .tuple (renameAll slots) (some (rename rest))
  | .allOf members => .allOf (renameAll members)
  | .anyOf members => .anyOf (renameAll members)
  | .array item => .array (rename item)
  | .anyOfDiscriminated members tag branches =>
    .anyOfDiscriminated (renameAll members) tag (renameNamed branches)
  | .optionalField inner => .optionalField (rename inner)
  | .object properties signatures => .object (renameNamed properties) (renamePairs signatures)
  | .ref name => .ref (ρ name)
  | r => r

def renameAll : List Record → List Record
  | [] => []
  | r :: records => rename r :: renameAll records

def renameNamed : List (String × Record) → List (String × Record)
  | [] => []
  | (k, r) :: entries => (k, rename r) :: renameNamed entries

def renamePairs : List (Record × Record) → List (Record × Record)
  | [] => []
  | (a, b) :: pairs => (rename a, rename b) :: renamePairs pairs

end

end

end Record

/-- A shape whose references lead to other places and bear other names. -/
def Shape.rename (π : Nat → Nat) (ρ : String → String) (s : Shape) : Shape :=
  s.subst fun place name => .ref (π place) (ρ name)

namespace Record

variable {formats : Formats} {place? place?' : String → Option Nat} {π : Nat → Nat}
  {ρ : String → String}

/-- A record that compiles does so when it is renamed, at any path. -/
def Renames (formats : Formats) (place? place?' : String → Option Nat) (π : Nat → Nat)
    (ρ : String → String) (r : Record) : Prop :=
  ∀ path s, r.compile formats place? path = .ok s →
    ∀ path', (r.rename ρ).compile formats place?' path' = .ok (s.rename π ρ)

mutual

/-- Other names for references are references in place of references. -/
theorem rename_eq_subst : ∀ r : Record, r.rename ρ = r.subst fun name => .ref (ρ name)
  | .tuple slots none => by rw [rename, subst, renameAll_eq_substAll slots]
  | .tuple slots (some rest) => by
    rw [rename, subst, renameAll_eq_substAll slots, rename_eq_subst rest]
  | .allOf members => by rw [rename, subst, renameAll_eq_substAll members]
  | .anyOf members => by rw [rename, subst, renameAll_eq_substAll members]
  | .array item => by rw [rename, subst, rename_eq_subst item]
  | .anyOfDiscriminated members tag branches => by
    rw [rename, subst, renameAll_eq_substAll members, renameNamed_eq_substNamed branches]
  | .optionalField inner => by rw [rename, subst, rename_eq_subst inner]
  | .object properties signatures => by
    rw [rename, subst, renameNamed_eq_substNamed properties, renamePairs_eq_substPairs signatures]
  | .ref _ | .typeof _ | .any | .nullish | .never | .const _ | .regex .. | .date | .bigint
  | .stringWithFormats _ | .numberWithFormats _ | .anyOfConsts _ => rfl

theorem renameAll_eq_substAll : ∀ records : List Record,
    renameAll ρ records = substAll (fun name => .ref (ρ name)) records
  | [] => rfl
  | r :: records => by rw [renameAll, substAll, rename_eq_subst r, renameAll_eq_substAll records]

theorem renameNamed_eq_substNamed : ∀ entries : List (String × Record),
    renameNamed ρ entries = substNamed (fun name => .ref (ρ name)) entries
  | [] => rfl
  | (_, r) :: entries => by
    rw [renameNamed, substNamed, rename_eq_subst r, renameNamed_eq_substNamed entries]

theorem renamePairs_eq_substPairs : ∀ pairs : List (Record × Record),
    renamePairs ρ pairs = substPairs (fun name => .ref (ρ name)) pairs
  | [] => rfl
  | (a, b) :: pairs => by
    rw [renamePairs, substPairs, rename_eq_subst a, rename_eq_subst b,
      renamePairs_eq_substPairs pairs]

end

/-- **A record that compiles does so when it is renamed.** The names that were found are found at
other places. -/
theorem compile_rename (hplace : ∀ name i, place? name = some i → place?' (ρ name) = some (π i))
    (r : Record) : Renames formats place? place?' π ρ r := by
  intro path s h path'
  rw [rename_eq_subst]
  exact compile_subst (fun name i hi => compile_ref (hplace name i hi)) r path s h path'

end Record

/-! ## Renamed graphs -/

namespace Graph

/-- Whether all references inside a shape lead to definitions. -/
def Covers (g : Graph) (s : Shape) : Prop :=
  ∀ place name, s.Contains (.ref place name) → place < g.size

/-- **The same definitions at other places and under other names.** -/
structure Renamed (π : Nat → Nat) (ρ : String → String) (g g' : Graph) : Prop where
  size_eq : g'.size = g.size
  injective : ∀ i < g.size, ∀ j < g.size, π i = π j → i = j
  shape? : ∀ i s, g.shape? i = some s → g'.shape? (π i) = some (s.rename π ρ)
  covers : ∀ i s, g.shape? i = some s → g.Covers s

variable {g g' : Graph} {π : Nat → Nat} {ρ : String → String} {p : Policy}

theorem Covers.part {s t : Shape} (h : g.Covers s) (ht : t ∈ s.parts) : g.Covers t :=
  fun place name hplace => h place name (.head ht hplace)

theorem covers_ref {place : Nat} {name : String} (h : place < g.size) :
    g.Covers (.ref place name) := by
  intro i label hi
  rcases Relation.ReflTransGen.cases_head hi with heq | ⟨t, ht, -⟩
  · cases heq
    exact h
  · cases ht

namespace Renamed

variable (h : g.Renamed π ρ g')
include h

/-! ### Values -/

theorem acceptsRef (fuel : Nat) {place : Nat} (hplace : place < g.size) (v : Value) :
    g'.acceptsRef p fuel (π place) v = g.acceptsRef p fuel place v := by
  induction fuel generalizing place v with
  | zero => rfl
  | succ fuel ih =>
    obtain ⟨s, hs⟩ := exists_shape?_of_lt hplace
    simp only [Graph.acceptsRef, hs, h.shape? place s hs]
    exact Shape.accepts_subst fun i name hi w => ih (h.covers place s hs i name hi) w

theorem accepts_fuel (fuel : Nat) {s : Shape} (hs : g.Covers s) (v : Value) :
    (s.rename π ρ).accepts p (g'.acceptsRef p fuel) v = s.accepts p (g.acceptsRef p fuel) v :=
  Shape.accepts_subst fun i name hi w => h.acceptsRef fuel (hs i name hi) w

theorem budget_eq (v : Value) : g'.budget v = g.budget v := by
  rw [budget, budget, h.size_eq]

/-- **The renamed shape accepts what the shape accepts.** -/
theorem accepts {s : Shape} (hs : g.Covers s) (v : Value) :
    g'.accepts p (s.rename π ρ) v = g.accepts p s v := by
  rw [Graph.accepts, h.budget_eq]
  exact h.accepts_fuel _ hs v

theorem parseRef (fuel : Nat) {place : Nat} (hplace : place < g.size) (name : String) (v : Value) :
    SameResult (g'.parseRef p fuel (π place) (ρ name) v) (g.parseRef p fuel place name v) := by
  induction fuel generalizing place name v with
  | zero => exact .error _ _
  | succ fuel ih =>
    obtain ⟨s, hs⟩ := exists_shape?_of_lt hplace
    simp only [Graph.parseRef, hs, h.shape? place s hs]
    exact Shape.parse_subst
      (fun i _ hi w => h.acceptsRef fuel (h.covers place s hs i _ hi) w)
      fun i name hi w => ih (h.covers place s hs i name hi) name w

/-- **The renamed shape makes of a value what the shape makes of it.** -/
theorem parse {s : Shape} (hs : g.Covers s) (v : Value) :
    SameResult (g'.parse p (s.rename π ρ) v) (g.parse p s v) := by
  rw [Graph.parse, h.budget_eq]
  exact Shape.parse_subst (fun i name hi w => h.acceptsRef _ (hs i name hi) w)
    fun i name hi w => h.parseRef _ (hs i name hi) name w

/-- Where the fuel is enough no reference is reported as one that leads nowhere. -/
theorem report_fuel (hg : g.Guarded) (s : Shape) (v : Value) : ∀ fuel path, g.Covers s →
    g.need s v ≤ fuel →
      (s.rename π ρ).report p (g'.acceptsRef p fuel) (g'.reportRef p fuel) path v =
        s.report p (g.acceptsRef p fuel) (g.reportRef p fuel) path v := by
  induction s, v using hg.induction with | step s v ih => ?_
  intro fuel path hs hfuel
  cases href : s.isRef with
  | true =>
    obtain ⟨i, name, rfl⟩ := Shape.eq_ref_of_isRef href
    obtain ⟨t, ht⟩ := exists_shape?_of_lt (hs i name .refl)
    have hlt : g.need t v < g.need (.ref i name) v := hg.need_target_lt ht
    obtain ⟨fuel, rfl⟩ : ∃ k, fuel = k + 1 := ⟨fuel - 1, by omega⟩
    show g'.reportRef p (fuel + 1) (π i) (ρ name) path v = g.reportRef p (fuel + 1) i name path v
    simp only [reportRef, ht, h.shape? i t ht]
    exact ih t v (.target ht) fuel path (h.covers i t ht) (by omega)
  | false =>
    refine Shape.report_subst_congr (g := g) href (fun t w hp => ?_) (fun t w hp path => ?_) path
    · exact h.accepts_fuel fuel (hs.part (hp.mem_parts href)) w
    · have hneed := hg.need_part_le hp
      exact ih t w hp fuel path (hs.part (hp.mem_parts href)) (by omega)

/-- **The renamed shape reports what the shape reports.** -/
theorem report (hg : g.Guarded) {s : Shape} (hs : g.Covers s) (path : Path) (v : Value) :
    g'.report p (s.rename π ρ) path v = g.report p s path v := by
  rw [Graph.report, h.budget_eq]
  exact h.report_fuel hg s v _ path hs (need_le_budget s v)

/-! ### Fingerprints and schemas -/

theorem findIdx?_map {chain : List Nat} (hchain : g.Chain chain) {place : Nat}
    (hplace : place < g.size) :
    (chain.map π).findIdx? (· == π place) = chain.findIdx? (· == place) := by
  have hlt := hchain.lt_size
  clear hchain
  rw [List.findIdx?_map]
  induction chain with
  | nil => rfl
  | cons i chain ih =>
    obtain ⟨hi, hlt⟩ := List.forall_mem_cons.mp hlt
    have hsame : (π i == π place) = (i == place) := by
      rw [Bool.eq_iff_iff, beq_iff_eq, beq_iff_eq]
      exact ⟨h.injective i hi place hplace, congrArg π⟩
    rw [List.findIdx?_cons, List.findIdx?_cons, Function.comp_apply, hsame, ih hlt]

theorem contains_map {chain : List Nat} (hchain : g.Chain chain) {place : Nat}
    (hplace : place < g.size) : (chain.map π).contains (π place) = chain.contains place := by
  rw [Bool.eq_iff_iff, List.contains_iff_mem, List.contains_iff_mem, List.mem_map]
  constructor
  · rintro ⟨i, hi, heq⟩
    rwa [h.injective i (hchain.lt_size i hi) place hplace heq] at hi
  · exact fun hmem => ⟨place, hmem, rfl⟩

/-- **A reference that leads back counts as far as before**, and any other one is what its
definition is: where definitions are open, there is fuel for all others. -/
theorem fingerprintRef (fuel : Nat) {chain : List Nat} (hchain : g.Chain chain)
    (hfuel : g.size < fuel + chain.length) {place : Nat} (hplace : place < g.size) (name : String) :
    g'.fingerprintRef fuel (chain.map π) (π place) (ρ name) =
      g.fingerprintRef fuel chain place name := by
  induction fuel generalizing chain place name with
  | zero =>
    have hle := hchain.length_le
    omega
  | succ fuel ih =>
    obtain ⟨s, hs⟩ := exists_shape?_of_lt hplace
    rw [Graph.fingerprintRef, Graph.fingerprintRef, h.findIdx?_map hchain hplace]
    cases hfound : chain.findIdx? (· == place) with
    | some i => rfl
    | none =>
      have hmem : place ∉ chain := findIdx?_eq_none_iff_not_mem.mp hfound
      have hfuel' : g.size < fuel + (place :: chain).length := by
        rw [List.length_cons]
        omega
      simp only [hs, h.shape? place s hs]
      exact Shape.fingerprint_subst fun i name hi =>
        ih (hchain.cons hplace hmem) hfuel' (h.covers place s hs i name hi) name

/-- **The renamed shape has the fingerprint of the shape.** -/
theorem fingerprint {s : Shape} (hs : g.Covers s) :
    g'.fingerprint (s.rename π ρ) = g.fingerprint s := by
  rw [Graph.fingerprint, Graph.fingerprint, h.size_eq]
  exact Shape.fingerprint_subst fun i name hi =>
    h.fingerprintRef _ (.nil g) (Nat.lt_succ_self _) (hs i name hi) name

theorem schemaRef (fuel : Nat) {chain : List Nat} (hchain : g.Chain chain)
    (hfuel : g.size < fuel + chain.length) (path : Path) {place : Nat} (hplace : place < g.size)
    (name : String) :
    g'.schemaRef fuel (chain.map π) path (π place) (ρ name) =
      g.schemaRef fuel chain path place name := by
  induction fuel generalizing chain path place name with
  | zero =>
    have hle := hchain.length_le
    omega
  | succ fuel ih =>
    obtain ⟨s, hs⟩ := exists_shape?_of_lt hplace
    rw [Graph.schemaRef, Graph.schemaRef, h.contains_map hchain hplace]
    cases hfound : chain.contains place with
    | true => rfl
    | false =>
      have hmem : place ∉ chain := fun hmem => by
        rw [List.contains_iff_mem.mpr hmem] at hfound
        cases hfound
      have hfuel' : g.size < fuel + (place :: chain).length := by
        rw [List.length_cons]
        omega
      simp only [hs, h.shape? place s hs]
      exact Shape.schema_subst path fun i name hi path =>
        ih (hchain.cons hplace hmem) hfuel' path (h.covers place s hs i name hi) name

/-- **The renamed shape has the schema of the shape**, or has none for the same reason. -/
theorem schema {s : Shape} (hs : g.Covers s) : g'.schema (s.rename π ρ) = g.schema s := by
  rw [Graph.schema, Graph.schema, h.size_eq]
  exact Shape.schema_subst [] fun i name hi path =>
    h.schemaRef _ (.nil g) (Nat.lt_succ_self _) path (hs i name hi) name

end Renamed

/-! ## Renamed definitions -/

section

variable {formats : Formats} {records records' : Entries Record}

/-- What stands at a place is compiled from the record of its name. -/
theorem exists_record (hg : ofRecords formats records = .ok g) {i : Nat} {name : String}
    {s : Shape} (hi : g.name? i = some name) (hs : g.shape? i = some s) :
    ∃ r, (name, r) ∈ records ∧ r.compile formats g.place? [name] = .ok s := by
  obtain ⟨t, ht, hshape⟩ := exists_definition hi
  obtain rfl := Option.some.inj (hs.symm.trans hshape)
  exact (definitions_of_ofRecords hg).2 _ ht

/-- Every record is compiled. -/
theorem compile_of_mem_records (hd : records.keys.Nodup) (hg : ofRecords formats records = .ok g)
    {e : String × Record} (he : e ∈ records) :
    ∃ s, e.2.compile formats g.place? [e.1] = .ok s := by
  obtain ⟨hnames, hall⟩ := definitions_of_ofRecords hg
  have hname : e.1 ∈ g.names := hnames ▸ List.mem_map_of_mem he
  obtain ⟨d, hd', heq⟩ := List.mem_map.mp hname
  obtain ⟨r, hr, hcompile⟩ := hall d hd'
  rw [heq] at hr hcompile
  rw [Entries.eq_of_mem hd hr he] at hcompile
  exact ⟨d.2, hcompile⟩

/-- Records that are all compiled make a graph. -/
theorem exists_ofRecords
    (h : ∀ e ∈ records, ∃ s, e.2.compile formats records.place? [e.1] = .ok s) :
    ∃ g, ofRecords formats records = .ok g := by
  rw [← failure?_eq_none_iff, ofRecords, failure?_bind_pure, failure?_mapM,
    List.findSome?_eq_none_iff]
  intro e he
  rw [failure?_bind_pure, failure?_eq_none_iff]
  exact h e he

/-- The place of a definition among the renamed records. -/
def newPlace (ρ : String → String) (g : Graph) (records' : Entries Record) (place : Nat) : Nat :=
  ((g.name? place).bind fun name => records'.place? (ρ name)).getD place

/-- Records that are renamed and put in another order, and the graph of the records. -/
structure Shuffles (formats : Formats) (ρ : String → String) (records records' : Entries Record)
    (g : Graph) : Prop where
  nodup : records.keys.Nodup
  injective : ∀ a ∈ records.keys, ∀ b ∈ records.keys, ρ a = ρ b → a = b
  perm : records'.Perm (records.map fun e => (ρ e.1, e.2.rename ρ))
  build : ofRecords formats records = .ok g

namespace Shuffles

variable (h : Shuffles formats ρ records records' g)
include h

theorem names_eq : g.names = records.keys := (definitions_of_ofRecords h.build).1

theorem keys_perm : records'.keys.Perm (records.keys.map ρ) := by
  have hperm := h.perm.map Prod.fst
  rw [List.map_map] at hperm
  rw [Entries.keys, Entries.keys, List.map_map]
  exact hperm

theorem nodup_keys : records'.keys.Nodup :=
  h.keys_perm.nodup_iff.mpr (h.nodup.map_on h.injective)

/-- A renamed definition is found at its new place. -/
theorem place?_newPlace {i : Nat} {name : String} (hi : g.name? i = some name) :
    records'.place? (ρ name) = some (newPlace ρ g records' i) := by
  have hmem : name ∈ records.keys := by
    rw [name?_eq, h.names_eq] at hi
    exact List.mem_of_getElem? hi
  have hmem' : ρ name ∈ records'.keys := h.keys_perm.mem_iff.mpr (List.mem_map_of_mem hmem)
  obtain ⟨j, hj⟩ := Option.isSome_iff_exists.mp ((Entries.isSome_place?_iff h.nodup_keys).mpr hmem')
  rw [newPlace, hi, Option.bind_some, hj]
  rfl

theorem renames (r : Record) :
    Record.Renames formats g.place? records'.place? (newPlace ρ g records') ρ r :=
  Record.compile_rename (fun _ _ hi => h.place?_newPlace (name?_of_place? hi)) r

/-- **The renamed records make a graph.** -/
theorem exists_graph : ∃ g', ofRecords formats records' = .ok g' := by
  refine exists_ofRecords fun e' he' => ?_
  obtain ⟨e, he, rfl⟩ := List.mem_map.mp (h.perm.mem_iff.mp he')
  obtain ⟨s, hs⟩ := compile_of_mem_records h.nodup h.build he
  exact ⟨_, h.renames e.2 _ s hs _⟩

variable {g' : Graph} (hg' : ofRecords formats records' = .ok g')
include hg'

theorem name?_newPlace {i : Nat} {name : String} (hi : g.name? i = some name) :
    g'.name? (newPlace ρ g records' i) = some (ρ name) := by
  refine name?_of_place? ?_
  rw [← h.place?_newPlace hi, place?, Entries.place?_congr (definitions_of_ofRecords hg').1]

/-- **It is the renamed graph.** -/
theorem renamed : g.Renamed (newPlace ρ g records') ρ g' where
  size_eq := by
    have hlen := h.keys_perm.length_eq
    rwa [List.length_map, ← h.names_eq, ← (definitions_of_ofRecords hg').1, length_names,
      length_names] at hlen
  injective := by
    intro i hi j hj heq
    obtain ⟨a, ha⟩ := exists_name?_of_lt hi
    obtain ⟨b, hb⟩ := exists_name?_of_lt hj
    have hsame := (h.name?_newPlace hg' ha).symm.trans (heq ▸ h.name?_newPlace hg' hb)
    have hmem {k : Nat} {c : String} (hc : g.name? k = some c) : c ∈ records.keys := by
      rw [name?_eq, h.names_eq] at hc
      exact List.mem_of_getElem? hc
    obtain rfl := h.injective a (hmem ha) b (hmem hb) (Option.some.inj hsame)
    exact name?_inj (h.names_eq ▸ h.nodup) ha hb
  shape? := by
    intro i s hs
    obtain ⟨name, hi⟩ := exists_name?_of_lt (lt_size_of_shape? hs)
    obtain ⟨r, hr, hcompile⟩ := exists_record h.build hi hs
    have hi' := h.name?_newPlace hg' hi
    obtain ⟨s', hs'⟩ := exists_shape?_of_lt (lt_size_of_name? hi')
    obtain ⟨r', hr', hcompile'⟩ := exists_record hg' hi' hs'
    -- the record at the new place is the renamed one
    have hmem : (ρ name, r.rename ρ) ∈ records' :=
      h.perm.mem_iff.mpr (List.mem_map_of_mem hr)
    have hplace : g'.place? = records'.place? :=
      Entries.place?_congr (definitions_of_ofRecords hg').1
    rw [Entries.eq_of_mem h.nodup_keys hr' hmem, hplace, h.renames r _ s hcompile] at hcompile'
    rw [hs', Except.ok.inj hcompile']
  covers := fun _ _ hs _ _ hcontains =>
    lt_size_of_name? (references_of_ofRecords h.build hs hcontains)

end Shuffles

end

end Graph

/-! ## Renamed documents -/

/-- **Two codecs that answer alike**: they have one fingerprint, and one schema or one reason to
have none; when definitions do not lead back to themselves at the value itself, they accept the same
values, decode them to the same results and report the same errors. -/
structure Codec.Interchangeable (c c' : Codec) : Prop where
  fingerprint : c'.fingerprint = c.fingerprint
  schema : c'.schema = c.schema
  accepts : c.graph.Guarded → ∀ p v, c'.accepts p v = c.accepts p v
  decode : c.graph.Guarded → ∀ p v, c'.decode p v = c.decode p v
  report : c.graph.Guarded → ∀ p v, c'.report p v = c.report p v

/-- A codec of the renamed graph answers as the codec does. -/
theorem Graph.Renamed.interchangeable {g g' : Graph} {π : Nat → Nat} {ρ : String → String}
    (h : g.Renamed π ρ g') {s : Shape} (hs : g.Covers s) (name name' : String) :
    Codec.Interchangeable ⟨name, g, s⟩ ⟨name', g', s.rename π ρ⟩ where
  fingerprint := h.fingerprint hs
  schema := h.schema hs
  accepts _ _ v := h.accepts hs v
  report hg _ v := h.report hg hs [] v
  decode := by
    intro hg p v
    have haccepts : g'.accepts p (s.rename π ρ) v = g.accepts p s v := h.accepts hs v
    cases ha : g.accepts p s v with
    | true =>
      have hparse := hg.parse_eq ha
      have hparse' := (h.parse hs v _).mpr hparse
      rw [Codec.decode_of_parse (c := ⟨name, g, s⟩) ha hparse]
      exact Codec.decode_of_parse (c := ⟨name', g', s.rename π ρ⟩) (haccepts.trans ha) hparse'
    | false =>
      have hreport : g'.report p (s.rename π ρ) [] v = g.report p s [] v := h.report hg hs [] v
      simp only [Codec.decode, Codec.accepts, Codec.report, haccepts, ha, hreport,
        Bool.false_eq_true, if_false]

namespace Document

/-- The document with other names for its definitions. -/
def rename (ρ : String → String) (d : Document) : Document :=
  ⟨d.definitions.map fun e => (ρ e.1, e.2.rename ρ)⟩

/-- **The names and the order of the definitions do not matter.** When the definitions of a document
that makes a graph get other distinct names, with all references to them, and are put in any order,
that makes a graph too, and the codecs of every definition answer alike. -/
theorem build_renamed {formats : Formats} {d d' : Document} {ρ : String → String} {g : Graph}
    (hd : d.definitions.keys.Nodup)
    (hρ : ∀ a ∈ d.definitions.keys, ∀ b ∈ d.definitions.keys, ρ a = ρ b → a = b)
    (hperm : d'.definitions.Perm (d.rename ρ).definitions) (hg : d.build formats = .ok g) :
    ∃ g', d'.build formats = .ok g' ∧ ∀ name ∈ d.definitions.keys, ∃ c c',
      g.codec? name = some c ∧ g'.codec? (ρ name) = some c' ∧ c.Interchangeable c' := by
  have h : Graph.Shuffles formats ρ d.definitions d'.definitions g := ⟨hd, hρ, hperm, hg⟩
  obtain ⟨g', hg'⟩ := h.exists_graph
  refine ⟨g', hg', fun name hname => ?_⟩
  have hrenamed := h.renamed hg'
  obtain ⟨place, hplace⟩ := Option.isSome_iff_exists.mp ((Entries.isSome_place?_iff hd).mpr hname)
  have hplace : g.place? name = some place := by
    rw [← hplace, Graph.place?, Entries.place?_congr h.names_eq]
  have hi := Graph.name?_of_place? hplace
  have hplace' : g'.place? (ρ name) = some (Graph.newPlace ρ g d'.definitions place) := by
    rw [← h.place?_newPlace hi, Graph.place?,
      Entries.place?_congr (Graph.definitions_of_ofRecords hg').1]
  refine ⟨_, _, congrArg _ hplace, congrArg _ hplace', ?_⟩
  exact hrenamed.interchangeable (Graph.covers_ref (Graph.lt_size_of_name? hi)) name (ρ name)

/-- Folders that hold lists of folders, and boxes on shelves, which are the same thing. -/
def foldersAndBoxes : Document :=
  ⟨[("Folder",
      .object [("title", .typeof .string), ("inside", .optionalField (.ref "Listing"))] []),
    ("Listing", .array (.ref "Folder")),
    ("Box", .object [("title", .typeof .string), ("inside", .optionalField (.ref "Shelf"))] []),
    ("Shelf", .array (.ref "Box"))]⟩

/-- Folders are called boxes, and boxes folders. -/
def exchange : String → String
  | "Folder" => "Box"
  | "Listing" => "Shelf"
  | "Box" => "Folder"
  | "Shelf" => "Listing"
  | name => name

/-- The exchange gives the document itself, in another order; so folders and boxes have one
fingerprint, though they are different definitions. -/
theorem build_exchanged :
    foldersAndBoxes.definitions.Perm (foldersAndBoxes.rename exchange).definitions ∧
      ∃ g, foldersAndBoxes.build {} = .ok g ∧
        ∀ name ∈ ["Folder", "Listing", "Box", "Shelf"], ∃ c c',
          g.codec? name = some c ∧ g.codec? (exchange name) = some c' ∧ c.Interchangeable c' := by
  have hperm : foldersAndBoxes.definitions.Perm (foldersAndBoxes.rename exchange).definitions :=
    show List.Perm ([_, _] ++ [_, _]) ([_, _] ++ [_, _]) from List.perm_append_comm
  obtain ⟨g, hg⟩ : ∃ g, foldersAndBoxes.build {} = .ok g := ⟨_, rfl⟩
  obtain ⟨g', hg', hall⟩ := build_renamed (by decide) (by decide) hperm hg
  obtain rfl := Except.ok.inj (hg.symm.trans hg')
  exact ⟨hperm, g, hg, hall⟩

end Document

end ShapeGraph
