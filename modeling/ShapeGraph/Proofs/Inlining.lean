import ShapeGraph.Proofs.Expansion
import ShapeGraph.Proofs.Rearranging
import ShapeGraph.Proofs.Records.Substituting

/-!
# Definitions in place of references to them

A reference to a definition can be replaced by a copy of the definition's record, in as many places
as one likes. The document then makes a graph as before. The fingerprints are as before where the
definition does not lead back to itself: what is open when it is hashed is not met again inside it,
so it does not count that one more reference is open. Where it leads back to itself, the references
that lead back are counted, and a copy has one reference less around them.

* `Document.Inlined` — a document with a definition in place of some of the references to it
* `Record.Inlined.exists_compile` — an inlined record makes the inlined shape
* `Graph.fingerprintRef_congr` — a fingerprint depends on what can be reached, and on how far up
  that is open
* `Graph.fingerprintRef_target` — a reference counts as the definition that it leads to, unless this
  one leads back to itself
* `Document.build_inlined` — an inlined document makes codecs with the same fingerprints
-/

namespace ShapeGraph

/-! ## Shapes -/

namespace Shape

/-- A shape with a shape in its hole, which is where it refers to a place that stands for it. -/
def fill (s : Shape) (hole : Nat) (filling : Shape) : Shape :=
  s.subst fun place name => if place = hole then filling else .ref place name

/-- A shape, and the same shape with a shape in place of some of the references to a place. -/
def Inlined (s : Shape) (place : Nat) (name : String) (body s' : Shape) : Prop :=
  ∃ (hole : Nat) (template : Shape),
    s = template.fill hole (.ref place name) ∧ s' = template.fill hole body

variable {place : Nat} {name : String} {body s s' : Shape}

/-- **The fingerprint stays** where what is put in has that of the reference. -/
theorem Inlined.fingerprint_eq {h h' : Nat → String → Int32} (hs : s.Inlined place name body s')
    (hsame : ∀ i label, s.Contains (.ref i label) → h' i label = h i label)
    (hbody : s.Contains (.ref place name) → body.fingerprint h' = h place name) :
    s'.fingerprint h' = s.fingerprint h := by
  obtain ⟨hole, template, rfl, rfl⟩ := hs
  have hfilled : (template.fill hole (.ref place name)).fingerprint h =
      template.fingerprint fun i label => if i = hole then h place name else h i label := by
    refine fingerprint_subst fun i label _ => ?_
    split <;> rfl
  rw [hfilled]
  refine fingerprint_subst fun i label hi => ?_
  have hmem := hi.subst (f := fun i label => if i = hole then .ref place name else .ref i label)
  rw [subst] at hmem
  by_cases hhole : i = hole
  · rw [if_pos hhole] at hmem
    simp only [if_pos hhole]
    exact hbody hmem
  · rw [if_neg hhole] at hmem
    simp only [if_neg hhole]
    exact hsame i label hmem

end Shape

/-! ## Records -/

namespace Record

variable {formats : Formats} {place? : String → Option Nat}

/-- **An inlined record makes the inlined shape**, at any path. Places from `n` on are free, so one
of them is the hole. -/
theorem Inlined.exists_compile {name : String} {body r r' : Record} (h : r.Inlined name body r')
    {names : List String} (hnames : ∀ label, label ∈ names ↔ (place? label).isSome = true) {n : Nat}
    (hn : ∀ label i, place? label = some i → i < n) {place : Nat} (hname : place? name = some place)
    {path path' : Path} {s b : Shape} (hb : body.compile formats place? path' = .ok b)
    (hs : r.compile formats place? path = .ok s) :
    ∃ s', (∀ path, r'.compile formats place? path = .ok s') ∧ s.Inlined place name b s' := by
  obtain ⟨hole, template, rfl, rfl⟩ := h
  let marked (label : String) : Option Nat := if label = hole then some n else place? label
  have hmarked : ∀ label, label ∈ hole :: names ↔ (marked label).isSome = true := by
    intro label
    simp only [marked, List.mem_cons, hnames]
    split
    · next h => exact iff_of_true (.inl h) rfl
    · next h => exact or_iff_right h
  obtain ⟨t, ht⟩ := exists_compile_of_fill hnames hmarked ⟨s, hs⟩
  have hfill {filling : Record} {x : Shape}
      (hx : ∀ path, filling.compile formats place? path = .ok x) (path : Path) :
      (template.fill hole filling).compile formats place? path = .ok (t.fill n x) := by
    refine compile_subst (fun label i hi path => ?_) template _ t ht path
    by_cases hhole : label = hole
    · obtain rfl : n = i := Option.some.inj ((if_pos hhole).symm.trans hi)
      simp only [if_pos hhole, if_true]
      exact hx path
    · have hi : place? label = some i := (if_neg hhole).symm.trans hi
      have hne : i ≠ n := Nat.ne_of_lt (hn label i hi)
      simp only [if_neg hhole, if_neg hne, compile_ref hi]
  have hs' := hfill (compile_ref hname) path
  exact ⟨_, hfill (compile_at hb), n, t, Except.ok.inj (hs.symm.trans hs'), rfl⟩

end Record

/-! ## Graphs -/

namespace Graph

variable {g g' : Graph} {chain chain' : List Nat} {place n m : Nat}

/-- **A fingerprint depends on what can be reached, and on how far up that is open.** -/
theorem fingerprintRef_congr (hchain : g.Chain chain) (hchain' : g'.Chain chain')
    (hn : g.Suffices chain n) (hm : g'.Suffices chain' m)
    (h : ∀ i, Relation.ReflTransGen g.Refers place i → g'.shape? i = g.shape? i ∧
      chain'.findIdx? (· == i) = chain.findIdx? (· == i)) (name : String) :
    g'.fingerprintRef m chain' place name = g.fingerprintRef n chain place name := by
  induction n generalizing m chain chain' place name with
  | zero => cases (hchain.exists_succ hn).choose_spec
  | succ n ih =>
    obtain ⟨m, rfl⟩ := hchain'.exists_succ hm
    obtain ⟨hshape, hfind⟩ := h place .refl
    rw [fingerprintRef, fingerprintRef, hshape, hfind]
    cases hfound : chain.findIdx? (· == place) with
    | some i => rfl
    | none =>
      have hmem : place ∉ chain := findIdx?_eq_none_iff_not_mem.mp hfound
      have hmem' : place ∉ chain' := findIdx?_eq_none_iff_not_mem.mp (hfind.trans hfound)
      cases hs : g.shape? place with
      | none => rfl
      | some s =>
        refine Shape.fingerprint_congr fun i label hi => ?_
        refine ih (hchain.cons (lt_size_of_shape? hs) hmem)
          (hchain'.cons (lt_size_of_shape? (hshape.trans hs)) hmem') (hn.cons place) (hm.cons place)
          (fun j hj => ?_) label
        obtain ⟨hshape, hfind⟩ := h j (.head ⟨s, label, hs, hi⟩ hj)
        exact ⟨hshape, by rw [List.findIdx?_cons, List.findIdx?_cons, hfind]⟩

/-- **A reference counts as the definition that it leads to**, though one reference more is open
then: nothing that is open is met inside a definition that does not lead back to itself. -/
theorem fingerprintRef_target (hchain : g.Chain chain) (hn : g.Suffices chain n) {body : Shape}
    (hbody : g.shape? place = some body) (hloop : ¬ Relation.TransGen g.Refers place place)
    (hleads : ∀ i ∈ chain, Relation.TransGen g.Refers i place) (name : String) :
    g.fingerprintRef n chain place name = body.fingerprint (g.fingerprintRef n chain) := by
  have hmem : place ∉ chain := fun hmem => hloop (hleads place hmem)
  have hchain' := hchain.cons (lt_size_of_shape? hbody) hmem
  obtain ⟨n, rfl⟩ := hchain.exists_succ hn
  have hopened : g.fingerprintRef (n + 1) chain place name =
      body.fingerprint (g.fingerprintRef n (place :: chain)) := by
    simp only [fingerprintRef, findIdx?_eq_none_iff_not_mem.mpr hmem, hbody]
  rw [hopened]
  refine Shape.fingerprint_congr fun i label hi => ?_
  refine fingerprintRef_congr hchain hchain' hn (hn.cons place) (fun j hj => ⟨rfl, ?_⟩) label
  have hback : Relation.TransGen g.Refers place j := .head' ⟨body, label, hbody, hi⟩ hj
  have hj : j ∉ place :: chain := by
    intro hmem
    rcases List.mem_cons.mp hmem with rfl | hmem
    · exact hloop hback
    · exact hloop (hback.trans (hleads j hmem))
  have hj' : j ∉ chain := fun hmem => hj (List.mem_cons_of_mem place hmem)
  rw [findIdx?_eq_none_iff_not_mem.mpr hj, findIdx?_eq_none_iff_not_mem.mpr hj']

/-- A graph, and the same graph with a definition in place of some of the references to it. -/
structure Inlined (place : Nat) (name : String) (body : Shape) (g g' : Graph) : Prop where
  size_eq : g'.size = g.size
  target : g.shape? place = some body
  shape? : ∀ i s, g.shape? i = some s →
    ∃ s', g'.shape? i = some s' ∧ s.Inlined place name body s'
  complete : g.Complete

/-- **References to inlined definitions have the fingerprints that they had**, whatever is open and
leads to them, if the definition that was put in does not lead back to itself. -/
theorem Inlined.fingerprintRef {name : String} {body : Shape} (h : g.Inlined place name body g')
    (hloop : ¬ Relation.TransGen g.Refers place place) (hchain : g.Chain chain)
    (hn : g.Suffices chain n) {i : Nat} (hi : i < g.size)
    (hleads : ∀ j ∈ chain, Relation.TransGen g.Refers j i) (label : String) :
    g'.fingerprintRef n chain i label = g.fingerprintRef n chain i label := by
  induction n generalizing chain i label with
  | zero => cases (hchain.exists_succ hn).choose_spec
  | succ n ih =>
    obtain ⟨s, hs⟩ := exists_shape?_of_lt hi
    obtain ⟨s', hs', hinlined⟩ := h.shape? i s hs
    rw [Graph.fingerprintRef, Graph.fingerprintRef, hs, hs']
    cases hfound : chain.findIdx? (· == i) with
    | some _ => rfl
    | none =>
      have hchain' := hchain.cons hi (findIdx?_eq_none_iff_not_mem.mp hfound)
      have hopen {k : Nat} (hk : g.Refers i k) :
          ∀ j ∈ i :: chain, Relation.TransGen g.Refers j k :=
        List.forall_mem_cons.mpr ⟨.single hk, fun j hj => (hleads j hj).tail hk⟩
      refine hinlined.fingerprint_eq (fun k label hk => ?_) fun hplace => ?_
      · exact ih hchain' (hn.cons i) (h.complete i s hs k label hk) (hopen ⟨s, label, hs, hk⟩) label
      · -- what stands in place of the reference is hashed without its definition being open
        have hopen := hopen ⟨s, name, hs, hplace⟩
        rw [fingerprintRef_target hchain' (hn.cons i) h.target hloop hopen]
        refine Shape.fingerprint_congr fun k label hk => ?_
        exact ih hchain' (hn.cons i) (h.complete place body h.target k label hk)
          (fun j hj => (hopen j hj).tail ⟨body, label, h.target, hk⟩) label

/-! ## Definitions that are reached -/

/-- One definition leads to another one, over any number of references. -/
def ComesTo (g : Graph) (key label : String) : Prop :=
  ∃ i j, g.place? key = some i ∧ g.place? label = some j ∧ Relation.ReflTransGen g.Refers i j

/-- **A definition leads back to itself**, over one reference or more. -/
def Recurs (g : Graph) (name : String) : Prop :=
  ∃ i, g.place? name = some i ∧ Relation.TransGen g.Refers i i

/-- In a graph without dangling references only definitions are reached. -/
theorem Complete.lt_size (hg : g.Complete) {i j : Nat} (hi : i < g.size)
    (h : Relation.ReflTransGen g.Refers i j) : j < g.size := by
  induction h with
  | refl => exact hi
  | tail _ hstep _ =>
    obtain ⟨s, label, hs, hj⟩ := hstep
    exact hg _ s hs _ label hj

/-! ## Inlined records -/

/-- Records, the same records with one of them in place of some of the references to it, and the
graph of the records. -/
structure Inlines (formats : Formats) (name : String) (body : Record)
    (records records' : Entries Record) (g : Graph) : Prop where
  nodup : records.keys.Nodup
  mem : (name, body) ∈ records
  inlined : List.Forall₂ (fun e e' => e'.1 = e.1 ∧ e.2.Inlined name body e'.2) records records'
  build : ofRecords formats records = .ok g

namespace Inlines

variable {formats : Formats} {name : String} {body : Record} {records records' : Entries Record}
  (h : Inlines formats name body records records' g)
include h

theorem names_eq : g.names = records.keys := (definitions_of_ofRecords h.build).1

theorem nodup_names : g.names.Nodup := h.names_eq ▸ h.nodup

theorem keys_eq : records'.keys = records.keys :=
  map_eq_map_of_zip h.inlined.length_eq fun hzip => (List.forall₂_zip h.inlined hzip).1

theorem place?_eq : records'.place? = g.place? :=
  Entries.place?_congr (h.keys_eq.trans h.names_eq.symm)

theorem complete : g.Complete := fun _ _ hs _ _ hcontains =>
  lt_size_of_name? (references_of_ofRecords h.build hs hcontains)

theorem exists_place {key : String} (hkey : key ∈ records.keys) : ∃ i, g.place? key = some i := by
  rw [← h.names_eq] at hkey
  exact Option.isSome_iff_exists.mp ((Entries.isSome_place?_iff h.nodup_names).mpr hkey)

/-- Every record is an inlined one. -/
theorem exists_mem {key : String} {r' : Record} (hr' : (key, r') ∈ records') :
    ∃ r, (key, r) ∈ records ∧ r.Inlined name body r' := by
  obtain ⟨e, he, hzip⟩ := exists_mem_zip h.inlined.length_eq hr'
  obtain ⟨hkey, hinlined⟩ := List.forall₂_zip h.inlined hzip
  obtain rfl : key = e.1 := hkey
  exact ⟨e.2, he, hinlined⟩

/-! ### Every definition -/

section

variable {g' : Graph} (hg' : ofRecords formats records' = .ok g')
include hg'

theorem names_inlined : g'.names = g.names :=
  (definitions_of_ofRecords hg').1.trans (h.keys_eq.trans h.names_eq.symm)

theorem place?_inlined : g'.place? = g.place? := Entries.place?_congr (h.names_inlined hg')

theorem size_inlined : g'.size = g.size := by
  rw [← length_names, h.names_inlined hg', length_names]

/-- What stands at a place is compiled from the records of its name, in both graphs. -/
theorem exists_records {i : Nat} (hi : i < g.size) : ∃ key r r' s s', g.name? i = some key ∧
    (key, r) ∈ records ∧ (key, r') ∈ records' ∧ g.shape? i = some s ∧ g'.shape? i = some s' ∧
      r.compile formats g.place? [key] = .ok s ∧ r'.compile formats g.place? [key] = .ok s' := by
  obtain ⟨key, hkey⟩ := exists_name?_of_lt hi
  have hkey' : g'.name? i = some key := by rw [name?_eq, h.names_inlined hg', ← name?_eq, hkey]
  obtain ⟨s, hs⟩ := exists_shape?_of_lt hi
  obtain ⟨s', hs'⟩ := exists_shape?_of_lt (lt_size_of_name? hkey')
  obtain ⟨r, hr, hcompile⟩ := exists_record h.build hkey hs
  obtain ⟨r', hr', hcompile'⟩ := exists_record hg' hkey' hs'
  rw [h.place?_inlined hg'] at hcompile'
  exact ⟨key, r, r', s, s', hkey, hr, hr', hs, hs', hcompile, hcompile'⟩

/-- Definitions of one record make one shape. -/
theorem shape?_eq {i : Nat} (hi : i < g.size)
    (hsame : ∀ key, g.name? i = some key → records'.get? key = records.get? key) :
    g'.shape? i = g.shape? i := by
  obtain ⟨key, r, r', s, s', hkey, hr, hr', hs, hs', hcompile, hcompile'⟩ := h.exists_records hg' hi
  have hget := hsame key hkey
  rw [Entries.get?_of_mem h.nodup hr, Entries.get?_of_mem (h.keys_eq ▸ h.nodup) hr',
    Option.some.injEq] at hget
  rw [hget, hcompile] at hcompile'
  rw [hs, hs', Except.ok.inj hcompile']

end

/-! ### The inlined one -/

variable {place : Nat} {b : Shape} (hplace : g.place? name = some place)
  (hb : g.shape? place = some b)
include hplace hb

/-- An inlined record makes the shape of the record with the definition inlined. -/
theorem exists_compile {path : Path} {r r' : Record} {s : Shape} (hr : r.Inlined name body r')
    (hs : r.compile formats g.place? path = .ok s) :
    ∃ s', (∀ path, r'.compile formats g.place? path = .ok s') ∧ s.Inlined place name b s' := by
  obtain ⟨t, ht, hbody⟩ := exists_record h.build (name?_of_place? hplace) hb
  rw [Entries.eq_of_mem h.nodup ht h.mem] at hbody
  exact hr.exists_compile (fun _ => (Entries.isSome_place?_iff h.nodup_names).symm)
    (fun _ _ hi => lt_size_of_name? (name?_of_place? hi)) hplace hbody hs

/-- **The inlined records make a graph.** -/
theorem exists_graph : ∃ g', ofRecords formats records' = .ok g' := by
  refine exists_ofRecords fun e he => ?_
  obtain ⟨r, hr, hinlined⟩ := h.exists_mem he
  obtain ⟨s, hs⟩ := compile_of_mem_records h.nodup h.build hr
  obtain ⟨s', hs', -⟩ := h.exists_compile hplace hb hinlined hs
  rw [h.place?_eq]
  exact ⟨s', hs' _⟩

/-- **It is the graph with the definition inlined.** -/
theorem graph_inlined {g' : Graph} (hg' : ofRecords formats records' = .ok g') :
    g.Inlined place name b g' where
  size_eq := h.size_inlined hg'
  target := hb
  shape? := by
    intro i s hs
    obtain ⟨key, r, r', t, s', -, hr, hr', ht, hs', hcompile, hcompile'⟩ :=
      h.exists_records hg' (lt_size_of_shape? hs)
    obtain rfl := Option.some.inj (hs.symm.trans ht)
    obtain ⟨r₂, hr₂, hinlined⟩ := h.exists_mem hr'
    obtain rfl := Entries.eq_of_mem h.nodup hr₂ hr
    obtain ⟨s₂, hs₂, hshape⟩ := h.exists_compile hplace hb hinlined hcompile
    rw [hs₂, Except.ok.injEq] at hcompile'
    exact ⟨s', hs', hcompile' ▸ hshape⟩
  complete := h.complete

end Inlines

end Graph

/-! ## Inlined documents -/

namespace Document

/-- **A document, and the same document with a definition in place of some of the references to
it.** -/
def Inlined (name : String) (d d' : Document) : Prop :=
  ∃ body, (name, body) ∈ d.definitions ∧
    List.Forall₂ (fun e e' => e'.1 = e.1 ∧ e.2.Inlined name body e'.2) d.definitions d'.definitions

/-- **A reference and the definition in its place have one fingerprint, unless the definition leads
back to itself.** When in a document that makes a graph some of the references to a definition are
replaced by copies of its record, that makes a graph too, and the codecs of all definitions have the
fingerprints that they had; the references themselves may stand in loops. Where the definition leads
back to itself, this is true of the codecs that do not come to a changed definition. -/
theorem build_inlined {formats : Formats} {d d' : Document} {name : String} {g : Graph}
    (hd : d.definitions.keys.Nodup) (h : d.Inlined name d') (hg : d.build formats = .ok g) :
    ∃ g', d'.build formats = .ok g' ∧ ∀ key ∈ d.definitions.keys, ∃ c c',
      g.codec? key = some c ∧ g'.codec? key = some c' ∧
        ((g.Recurs name → ∀ label, g.ComesTo key label →
            d'.definitions.get? label = d.definitions.get? label) →
          c'.fingerprint = c.fingerprint) := by
  obtain ⟨body, hmem, hinlined⟩ := h
  have h : Graph.Inlines formats name body d.definitions d'.definitions g :=
    ⟨hd, hmem, hinlined, hg⟩
  obtain ⟨target, htarget⟩ := h.exists_place (List.mem_map_of_mem hmem)
  obtain ⟨b, hb⟩ :=
    Graph.exists_shape?_of_lt (Graph.lt_size_of_name? (Graph.name?_of_place? htarget))
  obtain ⟨g', hg'⟩ := h.exists_graph htarget hb
  have hgraph := h.graph_inlined htarget hb hg'
  refine ⟨g', hg', fun key hkey => ?_⟩
  obtain ⟨place, hplace⟩ := h.exists_place hkey
  have hlt := Graph.lt_size_of_name? (Graph.name?_of_place? hplace)
  have hplace' : g'.place? key = some place := by rw [h.place?_inlined hg', hplace]
  refine ⟨_, _, congrArg _ hplace, congrArg _ hplace', fun hunchanged => ?_⟩
  show g'.fingerprintRef (g'.size + 1) [] place key = g.fingerprintRef (g.size + 1) [] place key
  by_cases hrecurs : g.Recurs name
  · refine Graph.fingerprintRef_congr (.nil g) (.nil g') g.suffices_nil g'.suffices_nil ?_ key
    refine fun i hi => ⟨h.shape?_eq hg' (h.complete.lt_size hlt hi) fun label hlabel => ?_, rfl⟩
    have hi' : g.place? label = some i := by
      rw [Graph.name?_eq] at hlabel
      exact (Entries.place?_eq_some_iff h.nodup_names).mpr hlabel
    exact hunchanged hrecurs label ⟨place, i, hplace, hi', hi⟩
  · rw [hgraph.size_eq]
    exact hgraph.fingerprintRef (fun hloop => hrecurs ⟨target, htarget, hloop⟩) (.nil g)
      g.suffices_nil hlt (List.forall_mem_nil _) key

/-- Chains of segments, which lead back to themselves, with the segments written out. -/
def writtenOutChains : Document :=
  ⟨[("Point", .tuple [.typeof .number, .typeof .number] none),
    ("Segment", .object [("from", .ref "Point"), ("to", .ref "Point")] []),
    ("Chain", .object
      [("first", .object [("from", .ref "Point"), ("to", .ref "Point")] []),
        ("more", .optionalField (.ref "Chain"))] [])]⟩

theorem writtenOutChains_inlined :
    (Document.mk Graph.segmentRecords).Inlined "Segment" writtenOutChains := by
  -- references to the empty name are the holes, and only the chain has one
  let segment : Record := .object [("from", .ref "Point"), ("to", .ref "Point")] []
  let point : Record := .tuple [.typeof .number, .typeof .number] none
  let chain : Record := .object [("first", .ref ""), ("more", .optionalField (.ref "Chain"))] []
  exact ⟨segment, List.mem_cons_of_mem _ List.mem_cons_self, .cons ⟨rfl, "", point, rfl, rfl⟩
    (.cons ⟨rfl, "", segment, rfl, rfl⟩ (.cons ⟨rfl, "", chain, rfl, rfl⟩ .nil))⟩

theorem build_inlined_writtenOutChains :
    (Document.mk Graph.segmentRecords).Inlined "Segment" writtenOutChains ∧
      (Document.mk Graph.segmentRecords).build {} = .ok Graph.segments ∧
      ∃ g', writtenOutChains.build {} = .ok g' ∧ ∀ key ∈ ["Point", "Segment", "Chain"], ∃ c c',
        Graph.segments.codec? key = some c ∧ g'.codec? key = some c' ∧
          c'.fingerprint = c.fingerprint := by
  have hg : (Document.mk Graph.segmentRecords).build {} = .ok Graph.segments := rfl
  have hrecurs : ¬ Graph.segments.Recurs "Segment" := by
    rintro ⟨i, hi, hloop⟩
    obtain rfl : 1 = i := Option.some.inj hi
    have hacyclic : Graph.segments.AcyclicFrom (.ref 1 "Segment") :=
      Graph.acyclicFrom_of_leadsBelow (n := 2) rfl (by decide)
    exact hacyclic 1 "Segment" .refl 1 .refl hloop
  obtain ⟨g', hg', hall⟩ := build_inlined (by decide) writtenOutChains_inlined hg
  refine ⟨writtenOutChains_inlined, hg, g', hg', fun key hkey => ?_⟩
  obtain ⟨c, c', hc, hc', hsame⟩ := hall key hkey
  exact ⟨c, c', hc, hc', hsame fun h => absurd h hrecurs⟩

/-- Two definitions that lead to each other. -/
def turns : Document :=
  ⟨[("A", .object [("b", .ref "B")] []), ("B", .object [("a", .ref "A")] [])]⟩

/-- The same with a copy of the second one in the first. -/
def shortTurns : Document :=
  ⟨[("A", .object [("b", .object [("a", .ref "A")] [])] []), ("B", .object [("a", .ref "A")] [])]⟩

/-- The way back to `A` leads over two references in `turns`, and over one in `shortTurns`. -/
theorem fingerprint_shortTurns :
    turns.Inlined "B" shortTurns ∧ ∃ g g' c c', turns.build {} = .ok g ∧
      shortTurns.build {} = .ok g' ∧ g.codec? "A" = some c ∧ g'.codec? "A" = some c' ∧
      c.fingerprint = 41232 ∧ c'.fingerprint = 41231 := by
  refine ⟨⟨.object [("a", .ref "A")] [], by simp [turns], ?_⟩,
    _, _, _, _, rfl, rfl, rfl, rfl, by decide +kernel, by decide +kernel⟩
  refine .cons ⟨rfl, "", .object [("b", .ref "")] [], rfl, rfl⟩ (.cons ⟨rfl, "", ?_⟩ .nil)
  exact ⟨.object [("a", .ref "A")] [], rfl, rfl⟩

end Document

end ShapeGraph
