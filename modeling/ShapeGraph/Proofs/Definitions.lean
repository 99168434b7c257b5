import ShapeGraph.Proofs.Building

/-!
# Graphs from definitions

A sequence of definitions may define a name more than once: the name keeps its first place, and
its last record counts. The definitions make a graph exactly when every record inside those that
count is in order, and the graph then holds them, with every reference at the definition that it
names. Otherwise the error is that of the first record that is not in order.

* `Entries.ofList_eq` — what is left of a sequence in which names come again
* `Graph.Holds` — a graph holds the definitions of a sequence
* `Graph.IsFirstFault` — the error of the first record that is not in order
* `Graph.ofRecords_ofList` — when a graph is made, which one, and which error there is otherwise
-/

namespace ShapeGraph

namespace Entries

variable {α : Type}

/-! ## Names that come again -/

theorem ofList_append_singleton (pairs : List (String × α)) (e : String × α) :
    ofList (pairs ++ [e]) = (ofList pairs).insert e.1 e.2 := by
  rw [ofList, insertAll, List.foldl_append]
  rfl

/-- Every name stands where it came first. -/
theorem keys_ofList (pairs : List (String × α)) :
    (ofList pairs).keys = (keys pairs).eraseDups := by
  induction pairs using List.reverseRecOn with
  | nil => rfl
  | append_singleton pairs e ih =>
    have hkeys : keys (pairs ++ [e]) = keys pairs ++ [e.1] := List.map_append
    rw [ofList_append_singleton, hkeys, List.eraseDups_append, ← ih]
    by_cases h : e.1 ∈ (ofList pairs).keys
    · have hmem : e.1 ∈ keys pairs := by rwa [ih, List.mem_eraseDups] at h
      have hnone : [e.1].removeAll (keys pairs) = [] := by simp [List.removeAll, hmem]
      rw [keys_insert_of_mem h, hnone]
      exact (List.append_nil _).symm
    · have hmem : e.1 ∉ keys pairs := by rwa [ih, List.mem_eraseDups] at h
      have hsome : [e.1].removeAll (keys pairs) = [e.1] := by simp [List.removeAll, hmem]
      rw [keys_insert_of_not_mem h, hsome]
      rfl

/-- Under every name stands what came last. -/
theorem get?_ofList (pairs : List (String × α)) (key : String) :
    (ofList pairs).get? key = get? pairs.reverse key := by
  induction pairs using List.reverseRecOn with
  | nil => rfl
  | append_singleton pairs e ih =>
    rw [ofList_append_singleton, get?_insert, ih, List.reverse_append, List.reverse_singleton,
      List.singleton_append, get?]
    exact if_congr eq_comm rfl rfl

theorem nodup_keys_ofList (pairs : List (String × α)) : (ofList pairs).keys.Nodup :=
  nodup_keys_insertAll (show (keys ([] : Entries α)).Nodup from List.nodup_nil) pairs

/-- Entries under distinct names are known by their names and by what stands under each. -/
theorem eq_filterMap_keys {es : Entries α} (h : es.keys.Nodup) :
    es = es.keys.filterMap fun key => (es.get? key).map (key, ·) := by
  induction es with
  | nil => rfl
  | cons e es ih =>
    obtain ⟨k, a⟩ := e
    obtain ⟨hk, hes⟩ := List.nodup_cons.mp h
    have hhead : get? ((k, a) :: es) k = some a := if_pos rfl
    have htail : ∀ key ∈ keys es, get? ((k, a) :: es) key = get? es key := by
      intro key hkey
      exact if_neg fun hsame : k = key => hk (hsame ▸ hkey)
    show (k, a) :: es = (k :: keys es).filterMap fun key =>
      (get? ((k, a) :: es) key).map (key, ·)
    rw [List.filterMap_cons, hhead, List.filterMap_congr fun key hkey => by rw [htail key hkey],
      ← ih hes]
    rfl

/-- What counts in a sequence of definitions: every name at its first place, with what was said
of it last. -/
def settled (pairs : List (String × α)) : Entries α :=
  (keys pairs).eraseDups.filterMap fun key => (get? pairs.reverse key).map (key, ·)

theorem ofList_eq (pairs : List (String × α)) : ofList pairs = settled pairs := by
  rw [eq_filterMap_keys (nodup_keys_ofList pairs), keys_ofList, settled]
  simp only [get?_ofList]

/-! ## Places -/

theorem place?_eq_some_iff {es : Entries α} (h : es.keys.Nodup) {key : String} {i : Nat} :
    es.place? key = some i ↔ es.keys[i]? = some key := by
  refine ⟨getElem?_keys_of_place?, fun hi => ?_⟩
  induction es generalizing i with
  | nil => cases hi
  | cons e es ih =>
    obtain ⟨k, a⟩ := e
    obtain ⟨hk, hes⟩ := List.nodup_cons.mp h
    cases i with
    | zero =>
      obtain rfl : k = key := Option.some.inj hi
      exact if_pos rfl
    | succ i =>
      have hne : ¬ k = key := fun hsame => hk (hsame ▸ List.mem_of_getElem? hi)
      rw [place?, if_neg hne, ih hes hi]
      rfl

theorem isSome_place?_iff {es : Entries α} (h : es.keys.Nodup) {key : String} :
    (es.place? key).isSome = true ↔ key ∈ es.keys := by
  simp only [Option.isSome_iff_exists, place?_eq_some_iff h, List.mem_iff_getElem?]

end Entries

namespace Graph

variable {formats : Formats} {defs : List (String × Record)} {g : Graph}

/-! ## What a graph holds -/

/-- **A graph holds the definitions of a sequence**: it has their names in the order in which they
first came, places and names lead to each other, under each name stands what its last record
compiles to, and every reference inside a definition leads to the definition that it names. -/
structure Holds (g : Graph) (formats : Formats) (defs : List (String × Record)) : Prop where
  names : g.names = (Entries.keys defs).eraseDups
  place?_iff : ∀ name i, g.place? name = some i ↔ g.name? i = some name
  isSome_name?_iff : ∀ i, (g.name? i).isSome = true ↔ i < g.size
  shapes : ∀ i name, g.name? i = some name → ∃ r s, Entries.get? defs.reverse name = some r ∧
    g.shape? i = some s ∧ r.compile formats g.place? [name] = .ok s
  references : ∀ i s, g.shape? i = some s → ∀ place name, s.Contains (.ref place name) →
    g.name? place = some name

theorem exists_definition {i : Nat} {name : String} (h : g.name? i = some name) :
    ∃ s, (name, s) ∈ g.definitions ∧ g.shape? i = some s := by
  obtain ⟨⟨k, s⟩, he, rfl⟩ := Option.map_eq_some_iff.mp h
  exact ⟨s, List.mem_of_getElem? he, by rw [shape?, he]; rfl⟩

theorem holds_of_ofRecords (h : ofRecords formats (Entries.ofList defs) = .ok g) :
    g.Holds formats defs := by
  obtain ⟨hnames, hall⟩ := definitions_of_ofRecords h
  have hnodup : g.names.Nodup := hnames ▸ Entries.nodup_keys_ofList defs
  constructor
  case names => exact hnames.trans (Entries.keys_ofList defs)
  case place?_iff =>
    intro name i
    rw [name?_eq]
    exact Entries.place?_eq_some_iff hnodup
  case isSome_name?_iff =>
    intro i
    simp only [name?, size, Option.isSome_map, isSome_getElem?]
  case shapes =>
    intro i name hi
    obtain ⟨s, hmem, hshape⟩ := exists_definition hi
    obtain ⟨r, hr, hcompile⟩ := hall _ hmem
    refine ⟨r, s, ?_, hshape, hcompile⟩
    rw [← Entries.get?_ofList]
    exact Entries.get?_of_mem (Entries.nodup_keys_ofList defs) hr
  case references =>
    intro i s hs place name hcontains
    exact references_of_ofRecords h hs hcontains

/-! ## Which error there is -/

/-- The records that count in a sequence of definitions and all records inside them, in
depth-first order and each with its path. -/
def visits (defs : List (String × Record)) : List (Path × Record) :=
  (Entries.settled defs).flatMap fun e => e.2.visits [e.1]

/-- **The error of the first record that is not in order**: all records that come before it are
in order. -/
def IsFirstFault (formats : Formats) (defs : List (String × Record)) (e : BuildError) : Prop :=
  ∃ before path r after, visits defs = before ++ (path, r) :: after ∧
    (∀ x ∈ before, x.2.IsWellFormed formats (Entries.keys defs)) ∧
    r.fault? formats (Entries.keys defs) path = some e

/-- Definitions fail as the first record that has a fault. -/
theorem failure?_ofRecords :
    failure? (ofRecords formats (Entries.ofList defs)) =
      (visits defs).findSome? fun x => x.2.fault? formats (Entries.keys defs) x.1 := by
  have hnames : ∀ name, name ∈ Entries.keys defs ↔
      ((Entries.ofList defs).place? name).isSome = true := by
    intro name
    rw [Entries.isSome_place?_iff (Entries.nodup_keys_ofList defs), Entries.keys_ofList,
      List.mem_eraseDups]
  rw [ofRecords, failure?_bind_pure, failure?_mapM, visits, findSome?_flatMap,
    ← Entries.ofList_eq]
  refine findSome?_congr_of_mem fun e _ => ?_
  rw [failure?_bind_pure, Record.failure?_compile hnames]

/-- **When definitions make a graph, which graph that is, and which error there is otherwise.** The
formats are any, and so is the engine among them that says which texts are patterns. -/
theorem ofRecords_ofList (formats : Formats) (defs : List (String × Record)) :
    ((∃ g, ofRecords formats (Entries.ofList defs) = .ok g) ↔
        ∀ e ∈ Entries.settled defs, ∀ r, e.2.Contains r →
          r.IsWellFormed formats (Entries.keys defs)) ∧
      (∀ g, ofRecords formats (Entries.ofList defs) = .ok g → g.Holds formats defs) ∧
      ∀ e, ofRecords formats (Entries.ofList defs) = .error e → IsFirstFault formats defs e := by
  refine ⟨?_, fun g => holds_of_ofRecords, fun e he => ?_⟩
  · rw [← failure?_eq_none_iff, failure?_ofRecords, List.findSome?_eq_none_iff]
    simp only [Record.fault?_eq_none_iff]
    rw [visits, List.forall_mem_flatMap]
    exact forall₂_congr fun e _ => Record.forall_mem_visits_iff
  · rw [← failure?_eq_some_iff, failure?_ofRecords, List.findSome?_eq_some_iff] at he
    obtain ⟨before, ⟨path, r⟩, after, hsplit, hr, hbefore⟩ := he
    exact ⟨before, path, r, after, hsplit,
      fun x hx => Record.fault?_eq_none_iff.mp (hbefore x hx), hr⟩

/-- A tree whose first definition is replaced by the last one. -/
def treeDefinitions : List (String × Record) :=
  [("Tree", .never),
   ("Leaf", .object [("kind", .const (.str "leaf"))] [(.typeof .string, .any)]),
   ("Tree", .anyOfDiscriminated [] "kind"
      [("leaf", .ref "Leaf"), ("fork", .object [("kind", .const (.str "fork")),
        ("below", .tuple [.ref "Tree"] (some (.ref "Tree")))] [])])]

/-- Definitions in which two records are not in order. -/
def strayDefinitions : List (String × Record) :=
  [("List", .tuple [.ref "List", .const (.arr [])] (some (.ref "Tree"))), ("Rest", .any)]

theorem ofRecords_treeDefinitions :
    (∃ g, ofRecords {} (Entries.ofList treeDefinitions) = .ok g ∧ g.Holds {} treeDefinitions) ∧
      ∃ e, ofRecords {} (Entries.ofList strayDefinitions) = .error e ∧
        IsFirstFault {} strayDefinitions e :=
  ⟨⟨_, rfl, (ofRecords_ofList {} treeDefinitions).2.1 _ rfl⟩,
    ⟨.structuredLiteral (.arr []) ["List", "[1]"], rfl,
      (ofRecords_ofList {} strayDefinitions).2.2 _ rfl⟩⟩

end Graph

end ShapeGraph
