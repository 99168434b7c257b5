import Mathlib.Data.List.Sort
import ShapeGraph.Proofs.Building
import ShapeGraph.Proofs.Description.Writing

/-!
# What a description consists of

The description of a codec declares every definition that is mentioned more than once, in the
order of the names, and then the codec itself. All texts are renderings: they depend neither on
the order in which the definitions are come to nor on what has been written before.

* `Graph.Declares` — the declarations of a root
* `Declares.unique` — there is one way to declare what a root needs
* `Codec.Built.describe_eq_declarations` — a description is the declarations and the root
-/

namespace ShapeGraph

namespace Graph

variable {g : Graph} {root : Shape}

/-- The declarations that a root needs: names with the renderings of what they stand for. -/
structure Declares (g : Graph) (root : Shape) (declared : Entries String) : Prop where
  /-- They are in the order of the names, and every name is declared once. -/
  sorted : declared.keys.Pairwise (· < ·)
  /-- A declared name is the name of a shared definition, and its text is the one rendering of
  the body. -/
  rendered : ∀ e ∈ declared, ∃ i t, g.Shared root i ∧ g.name? i = some e.1 ∧
    g.shape? i = some t ∧ ∀ text, g.Renders (g.Shared root) t text ↔ text = e.2
  /-- Every shared definition is declared. -/
  complete : ∀ i, g.Shared root i → ∃ name ∈ declared.keys, g.name? i = some name

/-! ## Texts at the end -/

theorem consistent_start (g : Graph) (root : Shape) :
    g.Consistent root [] (List.replicate g.size none) where
  length_eq := List.length_replicate
  marked := nofun
  rendered i text _ _ h := by
    rw [List.getD_eq_getElem?_getD, List.getElem?_getD_replicate_default_eq] at h
    cases h

/-- The text of the root. -/
theorem Closed.root_writes (hc : g.Closed) (hr : g.Resolves root.mentions) :
    g.Writes root [] root (List.replicate g.size none)
      (root.describe (g.writeRef (g.referenceCounts root) (g.size + 1))
        (List.replicate g.size none)) :=
  (hc.writesRefs hr (g.size + 1)).describe .nil (Nat.lt_succ_self _) hr (fun _ hi => .root hi)
    (g.consistent_start root)

theorem Closed.mem_sharedPlaces (hc : g.Closed) (hr : g.Resolves root.mentions) {i : Nat} :
    i ∈ g.sharedPlaces root ↔ g.Shared root i := by
  rw [sharedPlaces, List.mem_filter, List.mem_range, hc.isShared_iff hr, and_iff_right_iff_imp]
  exact fun h => hc.lt_of_mentioned hr h.mentioned

/-- The text of a definition, under its name. -/
def namedText? (g : Graph) (texts : List (Option String)) (i : Nat) : Option (String × String) := do
  let name ← g.name? i
  let text ← texts.getD i none
  return (name, text)

theorem namedText?_eq_some {texts : List (Option String)} {i : Nat} {e : String × String} :
    g.namedText? texts i = some e ↔ g.name? i = some e.1 ∧ texts.getD i none = some e.2 := by
  simp only [namedText?, Option.bind_eq_bind, Option.bind_eq_some_iff, Option.pure_def,
    Option.some.injEq, Prod.ext_iff, exists_eq_right_right]

theorem nodup_sharedPlaces (g : Graph) (root : Shape) : (g.sharedPlaces root).Nodup :=
  List.nodup_range.filter _

/-- The declarations that a description makes of the texts of definitions. -/
def textEntries (g : Graph) (shared : List Nat) (texts : List (Option String)) : Entries String :=
  sortByName (shared.filterMap (g.namedText? texts))

theorem mem_textEntries {shared : List Nat} {texts : List (Option String)} {e : String × String} :
    e ∈ g.textEntries shared texts ↔
      ∃ i ∈ shared, g.name? i = some e.1 ∧ texts.getD i none = some e.2 := by
  rw [textEntries, sortByName, (sortBy_perm _ _).mem_iff, List.mem_filterMap]
  simp only [namedText?_eq_some]

theorem exists_name?_of_lt {i : Nat} (h : i < g.size) : ∃ name, g.name? i = some name :=
  ⟨_, by rw [name?, List.getElem?_eq_getElem h, Option.map_some]⟩

theorem name?_inj (hg : g.names.Nodup) {i j : Nat} {name : String} (hi : g.name? i = some name)
    (hj : g.name? j = some name) : i = j := by
  have hlt : i < g.names.length := g.length_names.symm ▸ lt_size_of_name? hi
  rw [name?_eq] at hi hj
  exact (List.getElem?_inj hlt hg).mp (hi.trans hj.symm)

theorem sorted_textEntries (hg : g.names.Nodup) {shared : List Nat} (hshared : shared.Nodup)
    (texts : List (Option String)) : (g.textEntries shared texts).keys.Pairwise (· < ·) := by
  refine sortByName_pairwise (List.pairwise_map.mpr (List.pairwise_filterMap.mpr ?_))
  refine hshared.imp fun hne e he e' he' heq => hne ?_
  have hname := (namedText?_eq_some.mp he).1
  rw [heq] at hname
  exact name?_inj hg hname (namedText?_eq_some.mp he').1

/-- The texts that are rendered make declarations. -/
theorem Closed.declares (hc : g.Closed) (hr : g.Resolves root.mentions) (hg : g.names.Nodup)
    {shared : List Nat} (horder : shared.Perm (g.sharedPlaces root))
    {texts : List (Option String)} (htexts : g.Consistent root [] texts)
    (hall : ∀ i ∈ shared, (texts.getD i none).isSome) :
    g.Declares root (g.textEntries shared texts) where
  sorted := sorted_textEntries hg (horder.nodup_iff.mpr (g.nodup_sharedPlaces root)) texts
  rendered e he := by
    obtain ⟨i, hi, hname, htext⟩ := mem_textEntries.mp he
    have hshared := (hc.mem_sharedPlaces hr).mp (horder.mem_iff.mp hi)
    obtain ⟨t, ht⟩ := exists_shape?_of_lt (lt_size_of_name? hname)
    have hrenders := htexts.rendered i e.2 hshared List.not_mem_nil htext t ht
    exact ⟨i, t, hshared, hname, ht,
      fun text => ⟨fun h => h.unique hrenders, fun h => h ▸ hrenders⟩⟩
  complete i hshared := by
    obtain ⟨name, hname⟩ := exists_name?_of_lt (hc.lt_of_mentioned hr hshared.mentioned)
    have hi := horder.mem_iff.mpr ((hc.mem_sharedPlaces hr).mpr hshared)
    obtain ⟨text, htext⟩ := Option.isSome_iff_exists.mp (hall i hi)
    have hentry : (name, text) ∈ g.textEntries shared texts :=
      mem_textEntries.mpr ⟨i, hi, hname, htext⟩
    exact ⟨name, List.mem_map_of_mem hentry, hname⟩

theorem filterMap_declaration (g : Graph) (texts : List (Option String)) (places : List Nat) :
    (places.filterMap fun place => do
      let name ← g.name? place
      let text ← texts.getD place none
      return (name, "type " ++ name ++ " = " ++ text ++ ";")) =
    (places.filterMap (g.namedText? texts)).map fun e =>
      (e.1, "type " ++ e.1 ++ " = " ++ e.2 ++ ";") := by
  rw [List.map_filterMap]
  congr 1
  funext i
  rw [namedText?]
  cases g.name? i with
  | none => rfl
  | some name => cases texts.getD i none <;> rfl

/-- What one row of declarations declares, every other one does. -/
theorem Declares.subset {declared declared' : Entries String} (h : g.Declares root declared)
    (h' : g.Declares root declared') (hg : g.names.Nodup) : declared ⊆ declared' := by
  rintro ⟨name, text⟩ he
  obtain ⟨i, t, hshared, hname, ht, htext⟩ := h.rendered _ he
  obtain ⟨name', hmem, hname'⟩ := h'.complete i hshared
  obtain rfl := Option.some.inj (hname.symm.trans hname')
  obtain ⟨⟨_, text'⟩, he', rfl⟩ := List.mem_map.mp hmem
  obtain ⟨i', t', -, hi', ht', htext'⟩ := h'.rendered _ he'
  obtain rfl := name?_inj hg hname hi'
  obtain rfl := Option.some.inj (ht.symm.trans ht')
  obtain rfl : text = text' := (htext' text).mp ((htext text).mpr rfl)
  exact he'

/-- **There is one way to declare what a root needs.** -/
theorem Declares.unique {declared declared' : Entries String} (h : g.Declares root declared)
    (h' : g.Declares root declared') (hg : g.names.Nodup) : declared = declared' := by
  let before (e e' : String × String) : Prop := e.1 < e'.1
  have : Std.Irrefl before := ⟨fun e => String.lt_irrefl e.1⟩
  have : Std.Antisymm before := ⟨fun _ _ hlt hgt => absurd hgt (String.lt_asymm hlt)⟩
  exact List.Subset.antisymm_of_pairwise (r := before) (List.pairwise_map.mp h.sorted)
    (List.pairwise_map.mp h'.sorted) (h.subset h' hg) (h'.subset h hg)

/-- A description, from the text of the root and the texts at the end. -/
theorem describeInOrder_eq_textEntries (g : Graph) (shared : List Nat) (name : String)
    (root : Shape) {written : String × List (Option String)}
    (h : root.describe (g.writeRef (g.referenceCounts root) (g.size + 1))
      (List.replicate g.size none) = written) :
    g.describeInOrder shared name root = "\n\n".intercalate
      ((g.textEntries shared (shared.foldl (g.writePending (g.referenceCounts root))
          written.2)).map (fun e => "type " ++ e.1 ++ " = " ++ e.2 ++ ";") ++
        ["type Codec" ++ name ++ " = " ++ written.1 ++ ";"]) := by
  simp only [describeInOrder, h]
  rw [filterMap_declaration, sortByName_map, List.map_map]
  rfl

end Graph

/-- **A description is the declarations of all definitions that are mentioned more than once, in
the order of their names, and then the root.** It is the same in whatever order the shared
definitions are gone through at the end. -/
theorem Codec.Built.describe_eq_declarations {c : Codec} (hc : c.Built) :
    (∀ i, c.graph.Mentioned c.root i →
      (c.graph.referenceCounts c.root).getD i 0 = c.graph.mentionCount c.root i) ∧
    ∃ declared rootText, c.graph.Declares c.root declared ∧
      (∀ text, c.graph.Renders (c.graph.Shared c.root) c.root text ↔ text = rootText) ∧
      c.describe = "\n\n".intercalate
        (declared.map (fun e => "type " ++ e.1 ++ " = " ++ e.2 ++ ";") ++
          ["type Codec" ++ c.name ++ " = " ++ rootText ++ ";"]) ∧
      ∀ shared : List Nat, shared.Perm (c.graph.sharedPlaces c.root) →
        c.graph.describeInOrder shared c.name c.root = c.describe := by
  obtain ⟨name, g, root⟩ := c
  have hr : g.Resolves root.mentions := hc.root
  have hclosed : g.Closed := hc.graph.closed
  have hnames : g.names.Nodup := hc.graph.sound.1
  refine ⟨fun i _ => hclosed.getD_referenceCounts hr i, ?_⟩
  obtain ⟨hroot, htexts, -⟩ := hclosed.root_writes hr
  -- in every order the texts at the end make declarations, and there is one way to declare
  have hdeclares : ∀ shared : List Nat, shared.Perm (g.sharedPlaces root) →
      g.Declares root (g.textEntries shared (shared.foldl (g.writePending (g.referenceCounts root))
        _)) := fun shared horder =>
    have hshared : ∀ i ∈ shared, g.Shared root i :=
      fun i hi => (hclosed.mem_sharedPlaces hr).mp (horder.mem_iff.mp hi)
    have hend := hclosed.foldl_writePending hr hshared htexts
    hclosed.declares hr hnames horder hend.1 hend.2.2
  refine ⟨_, _, hdeclares _ (.refl _),
    fun text => ⟨fun h => h.unique hroot, fun h => h ▸ hroot⟩, ?_, fun shared horder => ?_⟩
  · exact g.describeInOrder_eq_textEntries _ name root rfl
  · have hsame := (hdeclares shared horder).unique (hdeclares _ (.refl _)) hnames
    rw [Codec.describe, Graph.describe, g.describeInOrder_eq_textEntries _ name root rfl,
      g.describeInOrder_eq_textEntries _ name root rfl, hsame]

namespace Graph

/-- Folders hold files and folders, and have an owner; owners have a folder. -/
def folderRecords : Entries Record :=
  [("Folder", .object [("owner", .ref "Owner"), ("files", .array (.ref "File")),
      ("folders", .array (.ref "Folder"))] []),
    ("File", .object [("size", .ref "Size"), ("owner", .optionalField (.ref "Owner"))] []),
    ("Owner", .object [("home", .ref "Folder"), ("name", .typeof .string)] []),
    ("Size", .typeof .number)]

def folders : Graph :=
  ⟨[("Folder", .object [("owner", .ref 2 "Owner"), ("files", .array (.ref 1 "File")),
      ("folders", .array (.ref 0 "Folder"))] []),
    ("File", .object [("size", .ref 3 "Size"), ("owner", .optional (.ref 2 "Owner"))] []),
    ("Owner", .object [("home", .ref 0 "Folder"), ("name", .base .string)] []),
    ("Size", .base .number)]⟩

/-- The codec of folders. Folders and owners are declared; files and sizes are written out. -/
def folderCodec : Codec := ⟨"Folder", folders, .ref 0 "Folder"⟩

theorem folderCodec_built : folderCodec.Built := by
  have hg : folders.Built := ⟨{}, folderRecords, by decide, by decide, rfl⟩
  exact hg.codec (show folders.codec? "Folder" = some folderCodec from rfl)

theorem describe_eq_declarations_folderCodec :
    folderCodec.Built ∧ folders.referenceCounts (.ref 0 "Folder") = [3, 1, 2, 1] ∧
    (∀ i, folders.Mentioned (.ref 0 "Folder") i →
      (folders.referenceCounts (.ref 0 "Folder")).getD i 0 =
        folders.mentionCount (.ref 0 "Folder") i) ∧
    ∃ declared rootText, folders.Declares (.ref 0 "Folder") declared ∧
      (∀ text, folders.Renders (folders.Shared (.ref 0 "Folder")) (.ref 0 "Folder") text ↔
        text = rootText) ∧
      folderCodec.describe = "\n\n".intercalate
        (declared.map (fun e => "type " ++ e.1 ++ " = " ++ e.2 ++ ";") ++
          ["type CodecFolder = " ++ rootText ++ ";"]) ∧
      ∀ shared : List Nat, shared.Perm (folders.sharedPlaces (.ref 0 "Folder")) →
        folders.describeInOrder shared "Folder" (.ref 0 "Folder") = folderCodec.describe :=
  ⟨folderCodec_built, by decide +kernel, folderCodec_built.describe_eq_declarations⟩

example : folderCodec.describe =
    "type Folder = \x7b files: Array<\x7b owner?: Owner, size: number \x7d>, " ++
      "folders: Array<Folder>, owner: Owner \x7d;" ++
      "\n\ntype Owner = \x7b home: Folder, name: string \x7d;" ++
      "\n\ntype CodecFolder = Folder;" := by
  decide +kernel

end Graph

end ShapeGraph
