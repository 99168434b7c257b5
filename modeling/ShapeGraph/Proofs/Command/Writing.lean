import ShapeGraph.Proofs.Command.Agreement

/-!
# What was written is found

A text that a command has put into a file is read back from it, and another text can be put into
the same file.

* `FileTree.DirectoriesStay`, `FileTree.Leads` — directories, and the ways through them
* `FileTree.read_of_write` — the text of a written file
* `FileTree.leads_of_makeAlong` — directories that were made are there
* `Command.Places.read`, `Command.Places.again` — the same for the output of a command
* `Command.places_of_parse`, `Command.parse_of_places` — a parse and the file that it writes
-/

namespace ShapeGraph

namespace FileTree

variable {t t' : FileTree} {place other : List String} {text : String}

theorem look_eq_directory_iff : t.look place = some .directory ↔
    t.fileText? place = none ∧ t.holdsDirectory place = true := by
  rw [look]
  cases t.fileText? place <;> simp

theorem fileText?_eq_none (h : t.look place = none) : t.fileText? place = none := by
  rw [look] at h
  cases hfile : t.fileText? place with
  | none => rfl
  | some text =>
    rw [hfile] at h
    cases h

/-- Every directory of a tree is one of the other tree. -/
def DirectoriesStay (t t' : FileTree) : Prop :=
  ∀ place, t.look place = some .directory → t'.look place = some .directory

/-! ## Ways through a tree -/

/-- `t.Leads here names other`: from a directory, the steps lead through directories to
another. -/
def Leads (t : FileTree) (here names : List String) (other : List String) : Prop :=
  t.walk here names = .ok other ∧ t.look other = some .directory

theorem walk_cons_eq_ok {here names : List String} {name : String} :
    t.walk here (name :: names) = .ok other ↔
      t.look here = some .directory ∧ t.walk (step here name) names = .ok other := by
  rw [walk]
  cases hlook : t.look here with
  | none => simp
  | some entry => cases entry <;> simp

theorem leads_nil {here : List String} :
    t.Leads here [] other ↔ other = here ∧ t.look here = some .directory := by
  rw [Leads, walk, Except.ok.injEq]
  constructor
  · rintro ⟨rfl, h⟩
    exact ⟨rfl, h⟩
  · rintro ⟨rfl, h⟩
    exact ⟨rfl, h⟩

theorem leads_cons {here names : List String} {name : String} :
    t.Leads here (name :: names) other ↔
      t.look here = some .directory ∧ t.Leads (step here name) names other := by
  rw [Leads, walk_cons_eq_ok, and_assoc]
  rfl

/-- One more step behind a directory. -/
theorem walk_append_singleton {here names : List String} (h : t.Leads here names other)
    (name : String) : t.walk here (names ++ [name]) = .ok (step other name) := by
  induction names generalizing here with
  | nil =>
    obtain ⟨rfl, h⟩ := leads_nil.mp h
    rw [List.nil_append, walk, h]
    rfl
  | cons n names ih =>
    obtain ⟨hhere, h⟩ := leads_cons.mp h
    rw [List.cons_append, walk, hhere]
    exact ih h

/-- Directories that stay directories lead to the same places. -/
theorem Leads.mono {here names : List String} (h : t.Leads here names other)
    (hstay : t.DirectoriesStay t') : t'.Leads here names other := by
  induction names generalizing here with
  | nil =>
    obtain ⟨rfl, h⟩ := leads_nil.mp h
    exact leads_nil.mpr ⟨rfl, hstay _ h⟩
  | cons n names ih =>
    obtain ⟨hhere, h⟩ := leads_cons.mp h
    exact leads_cons.mpr ⟨hstay _ hhere, ih h⟩

/-! ## Writing a file -/

/-- A file that is put where no directory is leaves all directories as they are. -/
theorem directoriesStay_put (hplace : t.look place ≠ some .directory) (text : String) :
    t.DirectoriesStay (t.put place text) := by
  intro other h
  have hne : place ≠ other := by
    rintro rfl
    exact hplace h
  rw [look_eq_directory_iff] at h ⊢
  refine ⟨by rw [fileText?_put, if_neg hne, h.1], ?_⟩
  simp only [holdsDirectory, Bool.or_eq_true] at h ⊢
  refine h.2.imp id fun hbelow => ?_
  rw [put, List.any_cons, hbelow, Bool.or_true]

/-- A name has a last step. -/
theorem steps_ne_nil {name : String} {names : List String} (h : steps name = .ok names) :
    names ≠ [] := by
  have hsplit : FileName.split name = names := by
    unfold steps at h
    split at h
    · cases h
    · exact Except.ok.inj h
  rw [← hsplit, FileName.split, ne_eq, List.map_eq_nil_iff]
  exact splitSlashes_ne_nil _

/-- What writing a file comes to: its directory is there, and it is not a directory itself. -/
theorem write_eq_ok_iff {name : String} : t.write name text = .ok t' ↔
    ∃ names directory, steps name = .ok names ∧ name.endsWith "/" = false ∧
      t.Leads [] names.dropLast directory ∧
      t.look (step directory (names.getLastD "")) ≠ some .directory ∧
      t' = t.put (step directory (names.getLastD "")) text := by
  simp only [write, bind_eq_ok, Leads]
  refine exists_congr fun names => ?_
  constructor
  · rintro ⟨hnames, directory, hwalk, h⟩
    refine ⟨directory, hnames, ?_⟩
    split at h
    · cases h
    · next hname =>
      refine ⟨Bool.eq_false_iff.mpr hname, ?_⟩
      cases hdirectory : t.look directory with
      | none =>
        rw [hdirectory] at h
        cases h
      | some entry =>
        rw [hdirectory] at h
        cases entry with
        | file => cases h
        | directory =>
          refine ⟨⟨hwalk, rfl⟩, ?_⟩
          cases hplace : t.look (step directory (names.getLastD "")) with
          | none =>
            rw [hplace] at h
            exact ⟨nofun, (Except.ok.inj h).symm⟩
          | some entry =>
            rw [hplace] at h
            cases entry with
            | file => exact ⟨nofun, (Except.ok.inj h).symm⟩
            | directory => cases h
  · rintro ⟨directory, hnames, hname, ⟨hwalk, hdirectory⟩, hplace, rfl⟩
    refine ⟨hnames, directory, hwalk, ?_⟩
    rw [hname, if_neg Bool.false_ne_true, hdirectory]
    cases hlook : t.look (step directory (names.getLastD "")) with
    | none => rfl
    | some entry =>
      cases entry with
      | file => rfl
      | directory => exact absurd hlook hplace

/-- **A written file is read with its text.** -/
theorem read_of_write {name : String} (h : t.write name text = .ok t') :
    t'.read name = .ok text := by
  obtain ⟨names, directory, hnames, -, hleads, hplace, rfl⟩ := write_eq_ok_iff.mp h
  have hsplit : names.dropLast ++ [names.getLastD ""] = names := by
    rw [List.getLastD_eq_getLast?, List.getLast?_eq_getLast_of_ne_nil (steps_ne_nil hnames)]
    exact List.dropLast_append_getLast _
  have hwalk := walk_append_singleton (hleads.mono (directoriesStay_put hplace text))
    (names.getLastD "")
  rw [hsplit] at hwalk
  rw [read, find, hnames]
  simp only [bind, Except.bind, hwalk, look_put]
  rfl

/-- Another text can be written into a written file. -/
theorem write_of_write {name : String} (h : t.write name text = .ok t') (text' : String) :
    ∃ t'', t'.write name text' = .ok t'' := by
  obtain ⟨names, directory, hnames, hname, hleads, hplace, rfl⟩ := write_eq_ok_iff.mp h
  refine ⟨_, write_eq_ok_iff.mpr ⟨names, directory, hnames, hname,
    hleads.mono (directoriesStay_put hplace text), ?_, rfl⟩⟩
  rw [look_put]
  exact nofun

/-! ## Making directories -/

/-- Making a directory leaves all others as they are. -/
theorem directoriesStay_make (t : FileTree) (here : List String) :
    t.DirectoriesStay { t with directories := here :: t.directories } := by
  intro place h
  rw [look_eq_directory_iff] at h ⊢
  refine ⟨h.1, ?_⟩
  simp only [holdsDirectory, Bool.or_eq_true, List.any_cons] at h ⊢
  exact h.2.imp (Or.imp id Or.inr) id

/-- A directory that is made where nothing is is there. -/
theorem look_make {here : List String} (h : t.look here = none) :
    ({ t with directories := here :: t.directories } : FileTree).look here =
      some .directory := by
  have hfile : t.fileText? here = none := fileText?_eq_none h
  rw [look_eq_directory_iff]
  refine ⟨hfile, ?_⟩
  simp only [holdsDirectory, Bool.or_eq_true, List.any_cons]
  exact .inl (.inr (.inl (List.isPrefixOf_iff_prefix.mpr (List.prefix_refl here))))

/-- Making directories begins with the one that is stood in; what is left to do is done behind
the next step. -/
theorem exists_of_makeAlong {here names : List String} (h : t.makeAlong here names = .ok t') :
    ∃ t₁ : FileTree, t.DirectoriesStay t₁ ∧ t₁.look here = some .directory ∧
      (names = [] → t₁ = t') ∧
      ∀ name rest, names = name :: rest → t₁.makeAlong (step here name) rest = .ok t' := by
  unfold makeAlong at h
  cases hlook : t.look here with
  | none =>
    rw [hlook] at h
    refine ⟨_, directoriesStay_make t here, look_make hlook, ?_⟩
    cases names with
    | nil => exact ⟨fun _ => Except.ok.inj h, nofun⟩
    | cons name names => exact ⟨nofun, fun _ _ hnames => by cases hnames; exact h⟩
  | some entry =>
    rw [hlook] at h
    cases entry with
    | file => cases names <;> cases h
    | directory =>
      refine ⟨t, fun _ => id, hlook, ?_⟩
      cases names with
      | nil => exact ⟨fun _ => Except.ok.inj h, nofun⟩
      | cons name names => exact ⟨nofun, fun _ _ hnames => by cases hnames; exact h⟩

/-- Directories that were made on the way are there, and those that were there stay. -/
theorem leads_of_makeAlong {here names : List String} (h : t.makeAlong here names = .ok t') :
    t.DirectoriesStay t' ∧ ∃ other, t'.Leads here names other := by
  induction names generalizing t here with
  | nil =>
    obtain ⟨t₁, hstay, hhere, hdone, -⟩ := exists_of_makeAlong h
    obtain rfl : t₁ = t' := hdone rfl
    exact ⟨hstay, here, leads_nil.mpr ⟨rfl, hhere⟩⟩
  | cons name names ih =>
    obtain ⟨t₁, hstay, hhere, -, hrest⟩ := exists_of_makeAlong h
    obtain ⟨hstay', other, hleads⟩ := ih (hrest name names rfl)
    exact ⟨fun place hplace => hstay' place (hstay place hplace), other,
      leads_cons.mpr ⟨hstay' _ hhere, hleads⟩⟩

/-- Where all directories are there, none has to be made. -/
theorem makeAlong_of_leads {here names : List String} (h : t.Leads here names other) :
    t.makeAlong here names = .ok t := by
  induction names generalizing here with
  | nil =>
    obtain ⟨rfl, h⟩ := leads_nil.mp h
    unfold makeAlong
    rw [h]
  | cons name names ih =>
    obtain ⟨hhere, h⟩ := leads_cons.mp h
    unfold makeAlong
    rw [hhere]
    exact ih h

/-- Directories that were made need not be made again, whatever file was put beside them. -/
theorem makeDirectories_of_put {name : String} (h : t.makeDirectories name = .ok t')
    (hplace : t'.look place ≠ some .directory) :
    (t'.put place text).makeDirectories name = .ok (t'.put place text) := by
  unfold makeDirectories at h ⊢
  split at h
  · next hname => rw [if_pos hname]
  · next hname =>
    obtain ⟨names, hnames, h⟩ := bind_eq_ok.mp h
    obtain ⟨-, other, hleads⟩ := leads_of_makeAlong h
    rw [if_neg hname, hnames]
    exact makeAlong_of_leads (hleads.mono (directoriesStay_put hplace text))

end FileTree

/-! ## The output of a command -/

namespace Command

open FileTree (Search system)

variable {out text shown : String} {t t' : FileTree}

/-- What a command has written is found in its file. -/
theorem Places.read (h : Places (some out) text t t' shown) : t'.read out = .ok text := by
  obtain ⟨-, between, -, hwrite⟩ := h
  exact FileTree.read_of_write hwrite

/-- There is one way to write a text into a file. -/
theorem Places.unique {t₁ t₂ : FileTree} {shown₁ shown₂ : String}
    (h₁ : Places (some out) text t t₁ shown₁) (h₂ : Places (some out) text t t₂ shown₂) :
    t₁ = t₂ ∧ shown₁ = shown₂ := by
  obtain ⟨rfl, between, hmake, hwrite⟩ := h₁
  obtain ⟨rfl, between', hmake', hwrite'⟩ := h₂
  rw [hmake] at hmake'
  cases hmake'
  rw [hwrite] at hwrite'
  exact ⟨Except.ok.inj hwrite', rfl⟩

/-- Where a command has written one text, it can write another. -/
theorem Places.again (h : Places (some out) text t t' shown) (text' : String) :
    ∃ t'', Places (some out) text' t' t'' "" := by
  obtain ⟨-, between, hmake, hwrite⟩ := h
  obtain ⟨t'', hagain⟩ := FileTree.write_of_write hwrite text'
  obtain ⟨names, directory, -, -, -, hplace, rfl⟩ := FileTree.write_eq_ok_iff.mp hwrite
  exact ⟨t'', rfl, _, FileTree.makeDirectories_of_put hmake hplace, hagain⟩

section

variable {search : Search} {engines : Engines} {style : Style} {source : Source} {name : String}
  {inputs : Selection} {strict : Bool} {formats : Formats} {codec : Codec} {docs : List Input}

/-- A parse that did not fail has put its text where it was asked for. -/
theorem places_of_parse
    (h : t.Gives (select (system search engines) source name inputs) ((formats, codec), docs))
    {out : Option String} {ended : Outcome}
    (hparse : ((parse source name inputs strict out).outcome (system search engines) style).run t =
      (ended, t')) (hended : ended.exitCode ≠ 2) :
    ∃ shown,
      Places out (Report.parsedText (codec.decodeAll ⟨formats, strict⟩ docs)) t t' shown := by
  rcases outcome_parse style strict out h with ⟨t₁, shown, hplaces, hparsed⟩ | ⟨-, hcode⟩
  · rw [hparse] at hparsed
    cases hparsed
    exact ⟨shown, hplaces⟩
  · rw [hparse] at hcode
    exact absurd hcode hended

variable (style) in
/-- A parse whose text can be put into a file does that. -/
theorem parse_of_places
    (h : t.Gives (select (system search engines) source name inputs) ((formats, codec), docs))
    (hplaces : Places (some out)
      (Report.parsedText (codec.decodeAll ⟨formats, strict⟩ docs)) t t' shown) :
    ((parse source name inputs strict (some out)).outcome (system search engines) style).run t =
      (⟨if docs.all (codec.passes ⟨formats, strict⟩) then 0 else 1, "",
        endLines (Report.parsed style (codec.decodeAll ⟨formats, strict⟩ docs)).messages⟩, t') := by
  rcases outcome_parse style strict (some out) h with ⟨t₁, shown₁, hplaces₁, hparsed⟩ | ⟨hnot, -⟩
  · obtain ⟨rfl, rfl⟩ := hplaces₁.unique hplaces
    obtain ⟨rfl, -⟩ := hplaces
    exact hparsed
  · exact absurd hplaces (hnot _ _)

end

end Command

end ShapeGraph
