import ShapeGraph.Proofs.Command.Writing
import ShapeGraph.Proofs.Json.Lines
import ShapeGraph.Proofs.Records.Documents
import ShapeGraph.Proofs.Zeros

/-!
# Parsing what was parsed

A file that a parse has written can be parsed again, line by line. When the shapes make the same
again of what they have made, every line is good then, and the same file is written.

* `Command.gives_loadCodec_of_read` — a codec depends on one file alone
* `Selection.gives_inputs_lines` — the inputs on the lines of one file
* `Command.parse_again` — a second parse writes what the first one has written
-/

namespace ShapeGraph

open FileTree (Search system)

/-! ## The codec -/

namespace Command

variable {search : Search} {engines : Engines} {t : FileTree} {source : Source} {formats : Formats}

theorem gives_loadCodec_of_read {name : String} {c : Codec} {t' : FileTree}
    (h : t.Gives (loadCodec (system search engines) source name) (formats, c))
    (hread : t'.read source.graph = t.read source.graph) :
    t'.Gives (loadCodec (system search engines) source name) (formats, c) := by
  obtain ⟨g, hload, hc⟩ := gives_loadCodec.mp h
  rw [gives_load, ← hread, ← gives_load] at hload
  exact gives_loadCodec.mpr ⟨g, hload, hc⟩

/-- Nothing in a codec that was loaded has a name twice. -/
theorem isTidy_of_gives_loadCodec {name : String} {c : Codec}
    (h : t.Gives (loadCodec (system search engines) source name) (formats, c)) :
    c.graph.isTidy = true ∧ c.root.isTidy = true := by
  obtain ⟨g, hload, hc⟩ := gives_loadCodec.mp h
  obtain ⟨-, text, -, hg⟩ := gives_load.mp hload
  obtain ⟨place, -, rfl⟩ := Option.map_eq_some_iff.mp hc
  exact ⟨(Graph.built_of_ofText hg).isTidy, rfl⟩

end Command

/-! ## Lines -/

namespace Selection

variable {search : Search} {engines : Engines} {t : FileTree} {argument name : String}

/-- The lines of the files of an argument, without a pointer or a filter. -/
def lines (argument : String) : Selection := ⟨[argument], true, none, none⟩

/-- A name that is not a pattern stands for itself. -/
theorem gives_filesOf_plain (h : FileName.isPattern name = false) :
    t.Gives (filesOf (system search engines) name) [name] := by
  rw [filesOf, h, if_neg Bool.false_ne_true]
  exact FileTree.gives_pure.mpr rfl

theorem inputsOfText_intercalate (argument name : String) {ws : List String} {js : List Json}
    (hlines : ∀ w ∈ ws, IsLine w.toList)
    (hreads : List.Forall₂ (fun w j => Json.ofString w = .ok j) ws js) :
    ∃ inputs, (lines argument).inputsOfText none name ("\n".intercalate ws) = .ok inputs ∧
      inputs.map Input.tree = js := by
  rw [← texts_intercalate (s := lines argument) rfl name hlines, List.forall₂_map_left_iff]
    at hreads
  rw [inputsOfText]
  generalize (lines argument).texts name ("\n".intercalate ws) = texts at hreads
  induction hreads with
  | nil => exact ⟨[], rfl, rfl⟩
  | @cons e j es js he _ ih =>
    obtain ⟨inputs, hinputs, rfl⟩ := ih
    obtain ⟨pieces, hpieces, h⟩ := bind_eq_ok.mp hinputs
    have htree : (lines argument).tree e.1 e.2 = .ok j := by rw [tree, he]; rfl
    refine ⟨⟨e.1, j⟩ :: inputs, ?_, rfl⟩
    rw [List.mapM_cons]
    dsimp only
    rw [htree, hpieces, ← pure_eq_ok.mp h]
    rfl

/-- **Trees on the lines of a file are its inputs**, in their order. -/
theorem gives_inputs_lines (hfile : t.Gives (filesOf (system search engines) argument) [name])
    {ws : List String} {js : List Json} (hread : t.read name = .ok ("\n".intercalate ws))
    (hlines : ∀ w ∈ ws, IsLine w.toList)
    (hreads : List.Forall₂ (fun w j => Json.ofString w = .ok j) ws js) :
    ∃ inputs, t.Gives ((lines argument).inputs (system search engines)) inputs ∧
      inputs.map Input.tree = js := by
  obtain ⟨inputs, hinputs, htrees⟩ := inputsOfText_intercalate argument name hlines hreads
  have hone : t.Gives ((lines argument).inputsOf (system search engines) none name) inputs :=
    gives_inputsOf.mpr ⟨_, hread, hinputs⟩
  have hhost : (system search engines).HarmlessReads := FileTree.harmlessReads
  refine ⟨inputs, ?_, htrees⟩
  refine (FileTree.gives_bind (FileSystem.keeps_mapM (keeps_filesOf hhost))).mpr ⟨[[name]], ?_, ?_⟩
  · exact (FileTree.gives_mapM (keeps_filesOf hhost)).mpr (.cons hfile .nil)
  refine (FileTree.gives_bind (FileSystem.keeps_lift _ _)).mpr ⟨none, rfl, ?_⟩
  refine (FileTree.gives_bind (FileSystem.keeps_mapM (keeps_inputsOf hhost _ _))).mpr
    ⟨[inputs], ?_, ?_⟩
  · exact (FileTree.gives_mapM (keeps_inputsOf hhost _ _)).mpr (.cons hone .nil)
  · exact FileTree.gives_pure.mpr (List.append_nil inputs).symm

end Selection

/-! ## The second parse -/

namespace Codec

variable {c : Codec} {p : Policy}

/-- A value that was decoded comes from one of the inputs. -/
theorem exists_of_mem_decoded {docs : List Input} {v : Value}
    (h : v ∈ (c.decodeAll p docs).filterMap (·.result.toOption)) :
    ∃ d ∈ docs, c.decode p (Value.ofJson d.tree) = .ok v := by
  obtain ⟨e, he, hv⟩ := List.mem_filterMap.mp h
  obtain ⟨d, hd, rfl⟩ := List.mem_map.mp he
  refine ⟨d, hd, ?_⟩
  dsimp only at hv
  cases hdecode : c.decode p (Value.ofJson d.tree) with
  | ok w => rw [hdecode] at hv; cases hv; rfl
  | error errors => rw [hdecode] at hv; cases hv

/-- Inputs that are decoded to what is written as they are: all of them are good, and their own
texts are written. -/
theorem decodeAll_alike {docs : List Input}
    (h : ∀ d ∈ docs, ∃ u, c.decode p (Value.ofJson d.tree) = .ok u ∧ u.toJson = d.tree)
    (style : Style) :
    docs.all (c.passes p) = true ∧
      Report.parsedText (c.decodeAll p docs) =
        "\n".intercalate (docs.map fun d => d.tree.compact) ∧
      (Report.parsed style (c.decodeAll p docs)).messages = [] := by
  refine ⟨List.all_eq_true.mpr fun d hd => ?_, congrArg ("\n".intercalate ·) ?_, ?_⟩
  · obtain ⟨u, hu, -⟩ := h d hd
    exact (c.decode_isOk p _).mp ⟨u, hu⟩
  · rw [decodeAll, List.filterMap_map, ← List.filterMap_eq_map]
    refine List.filterMap_congr fun d hd => ?_
    obtain ⟨u, hu, hsame⟩ := h d hd
    simp only [Function.comp_apply, hu, hsame, Except.toOption, Option.map_some]
  · rw [Report.parsed, decodeAll, List.filterMap_map, List.filterMap_eq_nil_iff]
    intro d hd
    obtain ⟨u, hu, -⟩ := h d hd
    simp only [Function.comp_apply, hu]

end Codec

namespace Command

variable {search : Search} {engines : Engines} {style : Style} {source : Source}
  {name out argument : String} {inputs : Selection} {strict : Bool} {t t' : FileTree}
  {formats : Formats} {codec : Codec} {docs : List Input} {ended : Outcome}

/-- **Parsing what was parsed changes nothing.** Inputs are parsed into a file, and that file is
parsed again, line by line, by the same codec. Then every line is good, and what is written is what
the file holds already, be it into the same file or into another one.

Numbers of the inputs are taken to be finite, and what is written for an input to be read back as it
was; and the first parse has not written over the graph. -/
theorem parse_again
    (hselect : t.Gives (select (system search engines) source name inputs) ((formats, codec), docs))
    (hg : codec.graph.Guarded)
    (hs : ∀ s, codec.graph.Reaches codec.root s → codec.graph.Storable s)
    (hplain : ∀ d ∈ docs, (Value.ofJson d.tree).isPlain = true)
    (hreads : ∀ d ∈ docs, ∀ v, codec.decode ⟨formats, strict⟩ (Value.ofJson d.tree) = .ok v →
      Json.ofString v.toJson.compact = .ok v.toJson)
    (hparse : ((parse source name inputs strict (some out)).outcome (system search engines)
      style).run t = (ended, t'))
    (hended : ended.exitCode ≠ 2)
    (hgraph : t'.read source.graph = t.read source.graph)
    (hfile : t'.Gives (Selection.filesOf (system search engines) argument) [out]) :
    ∃ text, t'.read out = .ok text ∧ (∃ t'', Places (some out) text t' t'' "") ∧
      ∀ again t'' shown, Places (some again) text t' t'' shown →
        ((parse source name (.lines argument) strict (some again)).outcome (system search engines)
          style).run t' = (⟨0, "", ""⟩, t'') ∧ t''.read again = .ok text := by
  have hloaded := (gives_select.mp hselect).1
  obtain ⟨hgraphTidy, hrootTidy⟩ := isTidy_of_gives_loadCodec hloaded
  obtain ⟨shown, hplaces⟩ := places_of_parse hselect hparse hended
  obtain ⟨values, hdecoded, htext⟩ : ∃ values : List Value,
      (∀ v ∈ values, ∃ d ∈ docs,
        codec.decode ⟨formats, strict⟩ (Value.ofJson d.tree) = .ok v) ∧
      Report.parsedText (codec.decodeAll ⟨formats, strict⟩ docs) =
        "\n".intercalate (values.map fun v => v.toJson.compact) :=
    ⟨_, fun v => Codec.exists_of_mem_decoded, by rw [List.map_filterMap]; rfl⟩
  rw [htext] at hplaces
  refine ⟨_, hplaces.read, hplaces.again _, fun again t'' shown' hagain => ⟨?_, hagain.read⟩⟩
  -- what was written for the values are the inputs of the second parse
  obtain ⟨docs', hdocs', htrees⟩ : ∃ docs',
      t'.Gives ((Selection.lines argument).inputs (system search engines)) docs' ∧
        docs'.map Input.tree = values.map Value.toJson := by
    refine Selection.gives_inputs_lines hfile hplaces.read ?_ ?_
    · exact List.forall_mem_map.mpr fun v _ => Json.isLine_compact _
    · rw [List.forall₂_map_left_iff, List.forall₂_map_right_iff, List.forall₂_same]
      intro v hv
      obtain ⟨d, hd, hdecode⟩ := hdecoded v hv
      exact hreads d hd v hdecode
  have halike : ∀ d ∈ docs', ∃ u,
      codec.decode ⟨formats, strict⟩ (Value.ofJson d.tree) = .ok u ∧ u.toJson = d.tree := by
    intro d' hd'
    obtain ⟨v, hv, hsame⟩ := List.mem_map.mp (htrees ▸ List.mem_map_of_mem hd')
    obtain ⟨d, hd, hdecode⟩ := hdecoded v hv
    rw [← hsame]
    exact Codec.decode_again hg hgraphTidy hrootTidy hs (hplain d hd) hdecode
  obtain ⟨hall, htext', hmessages⟩ := codec.decodeAll_alike halike style
  have htexts : docs'.map (fun d => d.tree.compact) = values.map fun v => v.toJson.compact := by
    have hcompact := congrArg (List.map Json.compact) htrees
    rwa [List.map_map, List.map_map] at hcompact
  rw [htexts] at htext'
  have hselect' := gives_select.mpr ⟨gives_loadCodec_of_read hloaded hgraph, hdocs'⟩
  have hparse' := parse_of_places style hselect' (htext' ▸ hagain)
  rwa [hall, hmessages] at hparse'

/-! ### Labels that are parsed twice -/

theorem storable_labelCodec (s : Shape) (h : labelCodec.graph.Reaches labelCodec.root s) :
    labelCodec.graph.Storable s := by
  have hall : (Graph.isSteady s && !s.hasNumberRule) = true :=
    Shape.of_all (Graph.reaches_all (P := fun s => Graph.isSteady s && !s.hasNumberRule)
      (by decide) (by decide) h)
  rw [Bool.and_eq_true, Bool.not_eq_true'] at hall
  exact ⟨Graph.steady_of_isSteady hall.1, hall.2⟩

theorem gives_labelLines : ∃ docs,
    labelFiles.Gives ((Selection.lines "lines.json").inputs system) docs ∧
      docs.map Input.tree = labelLines := by
  have hread : labelFiles.read "lines.json" =
      .ok ("\n".intercalate (labelLines.map Json.compact)) := by decide +kernel
  refine Selection.gives_inputs_lines (Selection.gives_filesOf_plain (by decide +kernel)) hread
    (List.forall_mem_map.mpr fun j _ => Json.isLine_compact j) (.cons ?_ (.cons ?_ .nil))
  · exact Json.ofString_compact (.obj (List.forall_mem_cons.mpr
      ⟨.bool _, List.forall_mem_singleton.mpr (.str _)⟩)) (by decide)
  · exact Json.ofString_compact .null (by decide)

theorem ofString_label {j : Json} (hj : j ∈ labelLines) {v : Value}
    (h : labelCodec.decode {} (Value.ofJson j) = .ok v) :
    Json.ofString v.toJson.compact = .ok v.toJson := by
  rcases List.mem_cons.mp hj with rfl | hj
  · obtain rfl : .object [("text", .string "new")] = v := Except.ok.inj h
    exact Json.ofString_compact (.obj (List.forall_mem_singleton.mpr (.str _))) (by decide)
  · obtain rfl := List.mem_singleton.mp hj
    exact absurd h (Codec.decode_ne_ok rfl)

theorem parse_again_labels :
    let first := ((parse ⟨"labels.json", []⟩ "Label" (.lines "lines.json") false
      (some "out.json")).outcome system {}).run labelFiles
    first.1.exitCode = 1 ∧ ∃ text, first.2.read "out.json" = .ok text ∧
      (∃ t'', Places (some "out.json") text first.2 t'' "") ∧
        ∀ again t'' shown, Places (some again) text first.2 t'' shown →
          ((parse ⟨"labels.json", []⟩ "Label" (.lines "out.json") false (some again)).outcome
            system {}).run first.2 = (⟨0, "", ""⟩, t'') ∧ t''.read again = .ok text := by
  intro first
  have hparse : first = (first.1, first.2) := (Prod.eta first).symm
  have hfirst : first.1.exitCode = 1 ∧ first.2.read "labels.json" = labelFiles.read "labels.json" :=
    by decide +kernel
  obtain ⟨docs, hdocs, htrees⟩ := gives_labelLines
  have hmem : ∀ d ∈ docs, d.tree ∈ labelLines := fun d hd => htrees ▸ List.mem_map_of_mem hd
  have hplain : ∀ j ∈ labelLines, (Value.ofJson j).isPlain = true := by decide +kernel
  exact ⟨hfirst.1, parse_again (gives_select.mpr ⟨gives_labelCodec, hdocs⟩)
    (Graph.guarded_of_ranks id (by decide)) storable_labelCodec
    (fun d hd => hplain _ (hmem d hd)) (fun d hd v => ofString_label (hmem d hd)) hparse
    (by rw [hfirst.1]; decide) hfirst.2 (Selection.gives_filesOf_plain (by decide +kernel))⟩

end Command

end ShapeGraph
