import ShapeGraph.Codec
import ShapeGraph.Proofs.Compiling
import ShapeGraph.Proofs.Description.Counting
import ShapeGraph.Proofs.Distinct

/-!
# Built graphs

In a graph that was compiled from named records every reference leads to the definition whose
name it bears. Records that have no name twice give shapes that have none twice.

* `Record.isTidy` — no record inside a record has a name twice
* `all_compile` — what is true everywhere in a compiled shape
* `Graph.Built`, `Codec.Built` — graphs that come from records, and their codecs
* `Built.closed`, `Built.isTidy` — what is true of them
-/

namespace ShapeGraph

/-! ## Tidy records -/

namespace Record

mutual

/-- Whether no record inside a record has a name twice. -/
def isTidy : Record → Bool
  | .tuple slots none => isTidyAll slots
  | .tuple slots (some rest) => isTidyAll slots && isTidy rest
  | .allOf members => isTidyAll members
  | .anyOf members => isTidyAll members
  | .array item => isTidy item
  | .anyOfDiscriminated members _ branches =>
    decide (Entries.keys branches).Nodup && (isTidyAll members && isTidyNamed branches)
  | .optionalField inner => isTidy inner
  | .object properties signatures =>
    decide (Entries.keys properties).Nodup && (isTidyNamed properties && isTidyPairs signatures)
  | _ => true

def isTidyAll : List Record → Bool
  | [] => true
  | r :: records => isTidy r && isTidyAll records

def isTidyNamed : List (String × Record) → Bool
  | [] => true
  | (_, r) :: entries => isTidy r && isTidyNamed entries

def isTidyPairs : List (Record × Record) → Bool
  | [] => true
  | (a, b) :: pairs => (isTidy a && isTidy b) && isTidyPairs pairs

end

theorem isTidy_of_mem_listed {label : String} {records : List Record} {first : Nat}
    (h : isTidyAll records = true) : ∀ e ∈ listed label records first, e.2.isTidy = true := by
  induction records generalizing first with
  | nil => exact nofun
  | cons r records ih =>
    simp only [isTidyAll, Bool.and_eq_true] at h
    rw [listed, List.zipIdx_cons, List.map_cons]
    exact List.forall_mem_cons.mpr ⟨h.1, ih h.2⟩

theorem isTidy_of_mem_named {label : String} {entries : List (String × Record)}
    (h : isTidyNamed entries = true) : ∀ e ∈ named label entries, e.2.isTidy = true := by
  induction entries with
  | nil => exact nofun
  | cons e entries ih =>
    simp only [isTidyNamed, Bool.and_eq_true] at h
    exact List.forall_mem_cons.mpr ⟨h.1, ih h.2⟩

theorem isTidy_of_mem_paired {pairs : List (Record × Record)} (h : isTidyPairs pairs = true) :
    ∀ e ∈ paired pairs, e.2.isTidy = true := by
  induction pairs with
  | nil => exact nofun
  | cons e pairs ih =>
    simp only [isTidyPairs, Bool.and_eq_true] at h
    exact List.forall_mem_cons.mpr ⟨h.1.1, List.forall_mem_cons.mpr ⟨h.1.2, ih h.2⟩⟩

theorem isTidy_of_mem_parts {r : Record} (h : r.isTidy = true) :
    ∀ e ∈ r.parts, e.2.isTidy = true := by
  cases r with
  | tuple slots rest =>
    cases rest with
    | none => exact isTidy_of_mem_listed h
    | some rest =>
      rw [isTidy, Bool.and_eq_true] at h
      refine List.forall_mem_append.mpr ⟨isTidy_of_mem_listed h.1, ?_⟩
      exact List.forall_mem_singleton.mpr h.2
  | allOf members | anyOf members => exact isTidy_of_mem_listed h
  | array item | optionalField item => exact List.forall_mem_singleton.mpr h
  | anyOfDiscriminated members tag branches =>
    simp only [isTidy, Bool.and_eq_true] at h
    refine List.forall_mem_append.mpr ⟨isTidy_of_mem_named h.2.2, ?_⟩
    exact isTidy_of_mem_listed h.2.1
  | object properties signatures =>
    simp only [isTidy, Bool.and_eq_true] at h
    refine List.forall_mem_append.mpr ⟨isTidy_of_mem_named h.2.1, ?_⟩
    exact isTidy_of_mem_paired h.2.2
  | _ => exact nofun

end Record

/-! ## Compiled shapes -/

namespace Shape

/-- Whether a shape that is a reference leads to where its name is. -/
def isResolved (place? : String → Option Nat) : Shape → Bool
  | .ref place name => place? name == some place
  | _ => true

/-- What is true of every shape that is compiled: it has no name twice, and a reference is
resolved. -/
def isSound (place? : String → Option Nat) (s : Shape) : Bool :=
  s.hasDistinctNames && s.isResolved place?

/-- A condition on all shapes inside a shape is met by the references to which a description
comes. -/
theorem of_mem_mentions {P : Shape → Bool} {s : Shape} (h : s.all P = true) {m : Nat × String}
    (hm : m ∈ s.mentions) : P (.ref m.1 m.2) = true := by
  induction s using shown_induction with | step s ih => ?_
  cases hs : s.isRef with
  | true =>
    obtain ⟨place, name, rfl⟩ := eq_ref_of_isRef hs
    rw [mentions_ref, List.mem_singleton] at hm
    subst hm
    exact of_all h
  | false =>
    rw [mentions_of_not_ref hs] at hm
    obtain ⟨t, ht, hm⟩ := List.mem_flatMap.mp hm
    exact ih t ht (all_of_mem_parts h (mem_parts_of_mem_shown ht)) hm

end Shape

namespace Record

variable {formats : Formats} {place? : String → Option Nat} {path : Path} {r : Record} {s : Shape}

/-- A compiled reference is resolved, and names stay as distinct as they are in the record. -/
theorem isResolved_of_compile (h : r.compile formats place? path = .ok s) :
    s.isResolved place? = true ∧ (r.isTidy = true → s.hasDistinctNames = true) := by
  cases r with
  | ref name =>
    rw [compile] at h
    split at h
    · next place hplace =>
      cases h
      exact ⟨beq_iff_eq.mpr hplace, fun _ => rfl⟩
    · cases h
  | anyOfDiscriminated members tag branches =>
    rw [compile] at h
    split at h
    · cases h
    · simp only [bind_eq_ok, pure_eq_ok] at h
      obtain ⟨branches', hbranches, members', -, rfl⟩ := h
      refine ⟨rfl, fun hr => ?_⟩
      simp only [isTidy, Bool.and_eq_true] at hr
      rw [Shape.hasDistinctNames, keys_compileNamed hbranches]
      exact hr.1
  | object properties signatures =>
    simp only [compile, bind_eq_ok, pure_eq_ok] at h
    obtain ⟨properties', hproperties, signatures', -, rfl⟩ := h
    refine ⟨rfl, fun hr => ?_⟩
    simp only [isTidy, Bool.and_eq_true] at hr
    rw [Shape.hasDistinctNames, keys_compileNamed hproperties]
    exact hr.1
  | tuple slots rest =>
    cases rest with
    | none =>
      simp only [compile, bind_eq_ok, pure_eq_ok] at h
      obtain ⟨_, -, rfl⟩ := h
      exact ⟨rfl, fun _ => rfl⟩
    | some rest =>
      simp only [compile, bind_eq_ok, pure_eq_ok] at h
      obtain ⟨_, -, _, -, rfl⟩ := h
      exact ⟨rfl, fun _ => rfl⟩
  | regex text label =>
    rw [compile] at h
    split at h <;> cases h
    exact ⟨rfl, fun _ => rfl⟩
  | const value | stringWithFormats listed | numberWithFormats listed | anyOfConsts values
  | allOf members | anyOf members | array item | optionalField inner =>
    simp only [compile, bind_eq_ok, pure_eq_ok] at h
    obtain ⟨_, -, rfl⟩ := h
    exact ⟨rfl, fun _ => rfl⟩
  | _ =>
    cases h
    exact ⟨rfl, fun _ => rfl⟩

/-- **What is compiled from a tidy record has no name twice, and all references are resolved.** -/
theorem all_compile (hr : r.isTidy = true) (h : r.compile formats place? path = .ok s) :
    s.all (Shape.isSound place?) = true :=
  all_of_compile (fun _ => isTidy_of_mem_parts)
    (fun _ _ _ hr h => Bool.and_eq_true_iff.mpr
      ⟨(isResolved_of_compile h).2 hr, (isResolved_of_compile h).1⟩) hr h

end Record

/-! ## Graphs -/

namespace Entries

variable {α : Type}

theorem getElem?_keys_of_place? {es : Entries α} {key : String} {i : Nat}
    (h : es.place? key = some i) : es.keys[i]? = some key := by
  induction es generalizing i with
  | nil => cases h
  | cons e es ih =>
    rw [place?] at h
    split at h
    · next hk =>
      cases h
      exact congrArg some hk
    · obtain ⟨j, hj, rfl⟩ := Option.map_eq_some_iff.mp h
      exact ih hj

theorem place?_congr {β : Type} {es : Entries α} {fs : Entries β} (h : es.keys = fs.keys) :
    es.place? = fs.place? := by
  funext key
  induction es generalizing fs with
  | nil =>
    rw [List.map_eq_nil_iff.mp (show List.map Prod.fst fs = [] from h.symm)]
    rfl
  | cons e es ih =>
    cases fs with
    | nil => cases h
    | cons f fs =>
      obtain ⟨hhead, htail⟩ := List.cons_eq_cons.mp h
      rw [place?, place?, ih htail, hhead]

end Entries

namespace Graph

/-- A graph that was compiled from tidy records under distinct names. -/
def Built (g : Graph) : Prop :=
  ∃ (formats : Formats) (records : Entries Record), records.keys.Nodup ∧
    (∀ e ∈ records, e.2.isTidy = true) ∧ ofRecords formats records = .ok g

variable {g : Graph}

theorem name?_eq (g : Graph) (i : Nat) : g.name? i = g.names[i]? := by
  rw [name?, names, Entries.keys, List.getElem?_map]

theorem name?_of_place? {name : String} {i : Nat} (h : g.place? name = some i) :
    g.name? i = some name := by
  rw [name?_eq]
  exact Entries.getElem?_keys_of_place? h

/-- **The definitions of a graph are compiled from its records**, with references to its own
places. -/
theorem definitions_of_ofRecords {formats : Formats} {records : Entries Record}
    (h : ofRecords formats records = .ok g) :
    g.names = records.keys ∧
      ∀ d ∈ g.definitions, ∃ r, (d.1, r) ∈ records ∧
        r.compile formats g.place? [d.1] = .ok d.2 := by
  simp only [ofRecords, bind_eq_ok, pure_eq_ok] at h
  obtain ⟨definitions, hmap, rfl⟩ := h
  obtain ⟨hkeys, hall⟩ := entries_of_mapM hmap
  -- places were looked up among the records, which have the names of the definitions
  have hplace : records.place? = Graph.place? ⟨definitions⟩ := Entries.place?_congr hkeys.symm
  exact ⟨hkeys, hplace ▸ hall⟩

/-- Every reference inside a definition leads to the definition that it names. -/
theorem references_of_ofRecords {formats : Formats} {records : Entries Record}
    (h : ofRecords formats records = .ok g) {i place : Nat} {s : Shape} {name : String}
    (hs : g.shape? i = some s) (hcontains : s.Contains (.ref place name)) :
    g.name? place = some name := by
  obtain ⟨d, hd, rfl⟩ := mem_of_shape? hs
  obtain ⟨r, -, hcompile⟩ := (definitions_of_ofRecords h).2 d hd
  have hresolved : d.2.all (Shape.isResolved g.place?) = true :=
    Record.all_of_compile (Q := fun _ => True) (fun _ _ _ _ => trivial)
      (fun _ _ _ _ h => (Record.isResolved_of_compile h).1) trivial hcompile
  exact name?_of_place? (beq_iff_eq.mp (Shape.of_contains hresolved hcontains))

/-- The references of a shape that is sound for a graph. -/
theorem resolves_of_all {s : Shape} (h : s.all (Shape.isSound g.place?) = true) :
    g.Resolves s.mentions := by
  intro m hm
  have hsound := Shape.of_mem_mentions h hm
  simp only [Shape.isSound, Shape.isResolved, Bool.and_eq_true, beq_iff_eq] at hsound
  exact name?_of_place? hsound.2

/-- **The definitions of a built graph have distinct names, and what is true of every compiled
shape is true of them.** -/
theorem Built.sound (h : g.Built) :
    g.names.Nodup ∧ ∀ e ∈ g.definitions, e.2.all (Shape.isSound g.place?) = true := by
  obtain ⟨formats, records, hnodup, htidy, h⟩ := h
  obtain ⟨hnames, hall⟩ := definitions_of_ofRecords h
  refine ⟨by rwa [hnames], fun d hd => ?_⟩
  obtain ⟨r, hr, hcompile⟩ := hall d hd
  exact Record.all_compile (htidy _ hr) hcompile

theorem Built.closed (h : g.Built) : g.Closed := by
  intro i t ht
  obtain ⟨e, he, rfl⟩ := mem_of_shape? ht
  exact resolves_of_all (h.sound.2 e he)

/-- A built graph has no name twice, at any depth. -/
theorem Built.isTidy (h : g.Built) : g.isTidy = true := by
  refine List.all_eq_true.mpr fun e he => ?_
  exact Shape.all_mono (fun s hs => (Bool.and_eq_true_iff.mp hs).1) (h.sound.2 e he)

end Graph

/-! ## Codecs -/

/-- A codec of a built graph. The references of its root are compiled with the graph, as all
others are. -/
structure Codec.Built (c : Codec) : Prop where
  graph : c.graph.Built
  root : c.graph.Resolves c.root.mentions

namespace Graph.Built

variable {g : Graph}

/-- The codec of a definition. -/
theorem codec (h : g.Built) {name : String} {c : Codec} (hc : g.codec? name = some c) :
    c.Built := by
  obtain ⟨place, hplace, rfl⟩ := Option.map_eq_some_iff.mp hc
  refine ⟨h, ?_⟩
  rw [Shape.mentions_ref]
  exact List.forall_mem_singleton.mpr (name?_of_place? hplace)

/-- The codecs of all definitions. -/
theorem codecs (h : g.Built) {c : Codec} (hc : c ∈ g.codecs) : c.Built := by
  obtain ⟨⟨name, place⟩, hmem, rfl⟩ := List.mem_map.mp hc
  refine ⟨h, ?_⟩
  rw [Shape.mentions_ref]
  refine List.forall_mem_singleton.mpr ?_
  rw [name?_eq]
  exact List.mem_zipIdx_iff_getElem?.mp hmem

/-- A codec of any tidy record that is compiled against the graph. -/
theorem compile (h : g.Built) {formats : Formats} {r : Record} {s : Shape} (hr : r.isTidy = true)
    (hs : g.compile formats r = .ok s) (name : String) : Codec.Built ⟨name, g, s⟩ :=
  ⟨h, resolves_of_all (Record.all_compile hr hs)⟩

end Graph.Built

end ShapeGraph
