import ShapeGraph.Proofs.Description.Declarations

/-!
# The names that a description declares

A description is a row of blocks, each of which declares a name. The shared definitions have names
of their own, in their order. The name of the root is made from that of the codec, and nothing
keeps a definition from having this very name: it is then declared twice if the definition is
shared, and once if it is written out.

* `Codec.blocks` — the blocks of a description
* `Codec.describe_eq_blocks` — a description is its blocks
* `Codec.Built.mem_keys_hoisted` — the names in front of that of the root
* `Codec.Built.nodup_blocks_iff` — when every name is declared once
-/

namespace ShapeGraph

namespace Codec

/-- The name by which a description declares the root. -/
def rootName (c : Codec) : String := "Codec" ++ c.name

/-- What is written for the root, and for the shared definitions that it comes to. -/
def written (c : Codec) : String × List (Option String) :=
  c.root.describe (c.graph.writeRef (c.graph.referenceCounts c.root) (c.graph.size + 1))
    (List.replicate c.graph.size none)

/-- The blocks of the shared definitions, by name. -/
def hoisted (c : Codec) : Entries String :=
  c.graph.textEntries (c.graph.sharedPlaces c.root) ((c.graph.sharedPlaces c.root).foldl
    (c.graph.writePending (c.graph.referenceCounts c.root)) c.written.2)

/-- **The blocks of a description**: declared names, with what they stand for. -/
def blocks (c : Codec) : Entries String := c.hoisted ++ [(c.rootName, c.written.1)]

/-- The text of a block. -/
def block (e : String × String) : String := "type " ++ e.1 ++ " = " ++ e.2 ++ ";"

/-- **A description is its blocks.** -/
theorem describe_eq_blocks (c : Codec) : c.describe = "\n\n".intercalate (c.blocks.map block) := by
  have hroot : "type Codec" ++ c.name ++ " = " ++ c.written.1 ++ ";" =
      block (c.rootName, c.written.1) := by
    show _ = "type " ++ ("Codec" ++ c.name) ++ " = " ++ c.written.1 ++ ";"
    rw [← @String.append_assoc "type "]
    rfl
  rw [blocks, List.map_append, List.map_singleton, ← hroot]
  exact c.graph.describeInOrder_eq_textEntries _ c.name c.root rfl

theorem keys_blocks (c : Codec) : c.blocks.keys = c.hoisted.keys ++ [c.rootName] := by
  rw [blocks, Entries.keys, List.map_append]
  rfl

variable {c : Codec}

theorem Built.declares (hc : c.Built) : c.graph.Declares c.root c.hoisted := by
  have hclosed := hc.graph.closed
  obtain ⟨-, htexts, -⟩ := hclosed.root_writes hc.root
  obtain ⟨hend, -, hall⟩ := hclosed.foldl_writePending hc.root
    (fun i => (hclosed.mem_sharedPlaces hc.root).mp) htexts
  exact hclosed.declares hc.root hc.graph.sound.1 (.refl _) hend hall

/-- **The names in front of that of the root** are those of the shared definitions. -/
theorem Built.mem_keys_hoisted (hc : c.Built) {name : String} :
    name ∈ c.hoisted.keys ↔ ∃ i, c.graph.Shared c.root i ∧ c.graph.name? i = some name := by
  constructor
  · intro h
    obtain ⟨e, he, rfl⟩ := List.mem_map.mp h
    obtain ⟨i, -, hshared, hname, -⟩ := hc.declares.rendered e he
    exact ⟨i, hshared, hname⟩
  · rintro ⟨i, hshared, hname⟩
    obtain ⟨name', hmem, hname'⟩ := hc.declares.complete i hshared
    rwa [Option.some.inj (hname.symm.trans hname')]

theorem Built.nodup_keys_hoisted (hc : c.Built) : c.hoisted.keys.Nodup :=
  hc.declares.sorted.imp fun hlt => String.ne_of_lt hlt

/-- **Every name is declared once exactly if no shared definition has the name of the root.** The
names of the shared definitions are distinct in any case. -/
theorem Built.nodup_blocks_iff (hc : c.Built) :
    c.describe = "\n\n".intercalate (c.blocks.map block) ∧
    c.blocks.keys = c.hoisted.keys ++ ["Codec" ++ c.name] ∧
    c.hoisted.keys.Nodup ∧
    (∀ name, name ∈ c.hoisted.keys ↔
      ∃ i, c.graph.Shared c.root i ∧ c.graph.name? i = some name) ∧
    (c.blocks.keys.Nodup ↔
      ∀ i, c.graph.Shared c.root i → c.graph.name? i ≠ some ("Codec" ++ c.name)) := by
  refine ⟨c.describe_eq_blocks, c.keys_blocks, hc.nodup_keys_hoisted,
    fun _ => hc.mem_keys_hoisted, ?_⟩
  have hroot : c.blocks.keys.Nodup ↔ c.rootName ∉ c.hoisted.keys := by
    rw [keys_blocks, ← List.concat_eq_append, List.nodup_concat]
    exact and_iff_left hc.nodup_keys_hoisted
  rw [hroot, hc.mem_keys_hoisted]
  constructor
  · intro h i hshared hname
    exact h ⟨i, hshared, hname⟩
  · rintro h ⟨i, hshared, hname⟩
    exact h i hshared hname

end Codec

namespace Graph

/-- Folders and owners are declared, and neither is called like the root. -/
theorem nodup_blocks_folderCodec :
    folderCodec.Built ∧
      (∀ i, folders.Shared (.ref 0 "Folder") i → folders.name? i ≠ some "CodecFolder") ∧
      folderCodec.blocks.keys.Nodup := by
  have hname : ∀ i, folders.name? i ≠ some "CodecFolder" := fun i hi =>
    absurd (List.mem_of_getElem? (folders.name?_eq i ▸ hi)) (by decide)
  have hshared : ∀ i, folders.Shared (.ref 0 "Folder") i → folders.name? i ≠ some "CodecFolder" :=
    fun i _ => hname i
  exact ⟨folderCodec_built, hshared, folderCodec_built.nodup_blocks_iff.2.2.2.2.mpr hshared⟩

/-- A page has two frames, whose name is the one that a page's root gets. -/
def framedPage : Graph :=
  ⟨[("Page", .object [("head", .ref 1 "CodecPage"), ("foot", .ref 1 "CodecPage")] []),
    ("CodecPage", .any)]⟩

/-- **Both the frame and the root are declared as `CodecPage`.** -/
theorem describe_framedPage :
    let page : Codec := ⟨"Page", framedPage, .ref 0 "Page"⟩
    page.Built ∧ page.describe = "type CodecPage = any;\n\n" ++
        "type CodecPage = \x7b foot: CodecPage, head: CodecPage \x7d;" ∧
      page.blocks.keys = ["CodecPage", "CodecPage"] ∧ ¬ page.blocks.keys.Nodup := by
  have hg : framedPage.Built :=
    ⟨{}, [("Page", .object [("head", .ref "CodecPage"), ("foot", .ref "CodecPage")] []),
      ("CodecPage", .any)], by decide, by decide, rfl⟩
  refine ⟨hg.codec (show framedPage.codec? "Page" = some _ from rfl), ?_, ?_, ?_⟩
  · decide +kernel
  · decide +kernel
  · decide +kernel

end Graph

end ShapeGraph
