import ShapeGraph.Command.Events
import ShapeGraph.Proofs.Command.Loading

/-!
# Failing commands

In every command all that can fail comes before anything is shown; only the writing of its file
comes last and can fail as well. Before that files are only read. So a command that fails for
another reason has shown nothing, and all files are as they were.

* `Command.outcome_eq_seen` — what is left of a command is what was seen of it
* `Performance.SparesOnFailure` — a failure leaves no trace, unless it comes from writing
* `SparesOnFailure.onFiles_bind`, `SparesOnFailure.announce_bind`, `sparesOnFailure_deliver` — the
  steps that keep it so
* `Command.sparesOnFailure_perform` — the commands, each step by step
* `Command.enact_leaves_no_trace` — from the words of a command line to the ending
-/

namespace ShapeGraph

open FileSystem (Keeps)

/-! ## Steps of a performance -/

namespace Performance

section Steps

variable {m : Type → Type} [Monad m] [LawfulMonad m] {α β : Type}

/-- A step on files lets nothing be seen. -/
theorem run_onFiles_bind (x : ExceptT Failure m α) (f : α → Performance m β) (log : List Event) :
    (onFiles x >>= f).run.run log = x.run >>= fun
      | .ok a => (f a).run.run log
      | .error e => pure (.error e, log) := by
  rw [ExceptT.run_bind, StateT.run_bind, onFiles, ExceptT.run_mk, StateT.run_lift]
  simp only [bind_assoc, pure_bind]
  refine bind_congr fun r => ?_
  cases r <;> rfl

theorem run_act_bind (e : Event) (f : Unit → Performance m β) (log : List Event) :
    (act e >>= f).run.run log = (f ()).run.run (log ++ [e]) := by
  rw [ExceptT.run_bind, StateT.run_bind, act, ExceptT.run_lift, StateT.run_map, StateT.run_modify]
  simp

/-- The events of a report come one after the other. -/
theorem run_announce_bind (report : Report) (f : Unit → Performance m β) (log : List Event) :
    (announce report >>= f).run.run log = (f ()).run.run (log ++ report.events) := by
  rw [announce]
  generalize report.events = events
  induction events generalizing log with
  | nil => rw [List.forM_nil, pure_bind, List.append_nil]
  | cons e events ih =>
    rw [List.forM_cons, bind_assoc, run_act_bind, ih, List.append_assoc, List.singleton_append]

/-- A text is shown; or a directory is made and a file is written, unless one of them fails. -/
theorem run_deliver_bind (host : Host m) (out : Option String) (text : String)
    (f : Unit → Performance m β) (log : List Event) :
    (Command.deliver host out text >>= f).run.run log =
      match out with
      | none => (f ()).run.run (log ++ [.shown text])
      | some name => host.makeDirectories (FileName.parent name) >>= fun
        | .error e => pure (.error (.noDirectory e), log ++ [.made (FileName.parent name)])
        | .ok () => host.write name text >>= fun
          | .error e => pure (.error (.outputUnwritten name e),
              log ++ [.made (FileName.parent name), .written name text])
          | .ok () =>
            (f ()).run.run (log ++ [.made (FileName.parent name), .written name text]) := by
  cases out with
  | none => rw [Command.deliver, run_act_bind]
  | some name =>
    simp only [Command.deliver, bind_assoc, run_act_bind, run_onFiles_bind, Failure.liftFile,
      ExceptT.run_mk, pure_bind]
    refine bind_congr fun made => ?_
    cases made with
    | error e => rfl
    | ok u =>
      simp only [Except.mapError, List.append_assoc, List.cons_append, List.nil_append]
      refine bind_congr fun written => ?_
      cases written <;> rfl

end Steps

end Performance

/-! ## What is left -/

namespace Command

open Performance

section Outcome

variable {m : Type → Type} [Monad m] [LawfulMonad m] {α : Type}

/-- What is left of a computation that makes a report. -/
def left (x : ExceptT Failure m (Report × Option Failure)) : m Outcome := do
  match ← x.run with
  | .error e => return failed {} e
  | .ok (report, some e) => return failed report e
  | .ok (report, none) => return done report

/-- What is left of a performance. -/
def seen (x : Performance m Bool) : m Outcome := (fun r => r.1.outcome r.2) <$> x.ended

theorem left_bind (x : ExceptT Failure m α)
    (f : α → ExceptT Failure m (Report × Option Failure)) :
    left (x >>= f) = x.run >>= fun
      | .ok a => left (f a)
      | .error e => pure (failed {} e) := by
  rw [left, ExceptT.run_bind, bind_assoc]
  refine bind_congr fun r => ?_
  cases r with
  | ok a => rfl
  | error e => rw [pure_bind]

theorem seen_eq (x : Performance m Bool) : seen x = x.run.run [] >>= fun r =>
    pure (match r.1 with
      | .ok conforms => (Ending.done conforms).outcome r.2
      | .error e => (Ending.failed e).outcome (r.2 ++ [.told ("error: " ++ e.message)])) := by
  rw [seen, ended, map_bind]
  refine bind_congr fun r => ?_
  obtain ⟨r, log⟩ := r
  cases r <;> exact map_pure ..

theorem seen_onFiles_bind (x : ExceptT Failure m α) (f : α → Performance m Bool) :
    seen (onFiles x >>= f) = x.run >>= fun
      | .ok a => seen (f a)
      | .error e => pure (failed {} e) := by
  rw [seen_eq, run_onFiles_bind, bind_assoc]
  refine bind_congr fun r => ?_
  cases r with
  | ok a => exact (seen_eq _).symm
  | error e => rw [pure_bind]; rfl

/-- Steps on files are the same in a performance. -/
theorem seen_eq_left_bind {x : ExceptT Failure m α} {f : α → Performance m Bool}
    {g : α → ExceptT Failure m (Report × Option Failure)} (h : ∀ a, seen (f a) = left (g a)) :
    seen (onFiles x >>= f) = left (x >>= g) := by
  rw [seen_onFiles_bind, left_bind]
  refine bind_congr fun r => ?_
  cases r with
  | ok a => exact h a
  | error e => rfl

variable (host : Host m)

/-- What is left of a report and of what was seen after it. -/
theorem outcome_report (ending : Ending) (report : Report) (events : List Event) :
    ending.outcome (report.events ++ events) =
      ⟨ending.exitCode, endLines (report.output ++ events.filterMap Event.shown?),
        endLines (report.messages ++ events.filterMap Event.told?)⟩ := by
  have hshown : report.events.filterMap Event.shown? = report.output := by
    simp [Report.events, Function.comp_def, Event.shown?]
  have htold : report.events.filterMap Event.told? = report.messages := by
    simp [Report.events, Function.comp_def, Event.told?]
  rw [Ending.outcome, List.filterMap_append, List.filterMap_append, hshown, htold]

theorem seen_announce (report : Report) :
    seen (announce report >>= fun _ => pure report.conforms : Performance m Bool) =
      left (pure (report, none)) := by
  have hdone : (Ending.done report.conforms).outcome report.events = done report := by
    simpa [Ending.exitCode, done] using outcome_report (.done report.conforms) report []
  have hleft : left (pure (report, none) : ExceptT Failure m _) = pure (done report) :=
    pure_bind ..
  rw [seen_eq, run_announce_bind, List.nil_append, hleft, ← hdone]
  exact pure_bind ..

attribute [local simp] outcome_report Ending.exitCode Event.shown? Event.told? List.filterMap_cons

theorem seen_deliver (out : Option String) (text : String) (report : Report) :
    seen (announce report >>= fun _ => deliver host out text >>= fun _ => pure report.conforms) =
      left (ExceptT.lift (put host out text report)) := by
  rw [seen_eq, run_announce_bind, run_deliver_bind, left, ExceptT.run_lift, bind_map_left,
    List.nil_append]
  cases out with
  | none =>
    simp [put, done]
  | some name =>
    simp only [put, bind_assoc]
    refine bind_congr fun made => ?_
    cases made with
    | error e => simp [failed]
    | ok u =>
      simp only [bind_assoc]
      refine bind_congr fun written => ?_
      cases written with
      | error e => simp [failed]
      | ok u => simp [done]

/-- A text that is put somewhere without anything to say before. -/
theorem seen_deliver_alone (out : Option String) (text : String) :
    seen (deliver host out text >>= fun _ => pure true) =
      left (ExceptT.lift (put host out text {})) := by
  rw [← seen_deliver, seen_eq, seen_eq, run_announce_bind]
  rfl

/-- **What is left of a command is what was seen of it.** -/
theorem outcome_eq_seen (style : Style) (c : Command) :
    c.outcome host style = seen (c.perform host style) := by
  show left (c.run host style) = _
  symm
  cases c with
  | check source name inputs strict quiet =>
    refine seen_eq_left_bind fun loaded => seen_eq_left_bind fun docs => ?_
    exact seen_announce _
  | parse source name inputs strict out =>
    refine seen_eq_left_bind fun loaded => seen_eq_left_bind fun docs => ?_
    exact seen_deliver host out _ _
  | schema source name out =>
    refine seen_eq_left_bind fun loaded => seen_eq_left_bind fun schema => ?_
    exact seen_deliver_alone host out _
  | describe source name out =>
    refine seen_eq_left_bind fun loaded => ?_
    exact seen_deliver_alone host out _
  | hash source duplicatesOnly =>
    refine seen_eq_left_bind fun loaded => ?_
    exact seen_announce _

end Outcome

end Command

/-! ## Failures -/

/-- **An ending that leaves no trace**, unless it comes from writing: nothing was shown, and no file
was to be written. Unless it comes from making a directory there were only messages, and all files
are as they were. -/
structure Ending.Spares {σ : Type} (ending : Ending) (events : List Event) (s s' : σ) : Prop where
  unseen : ending.isUnwritten = false → ∀ e ∈ events, e.shown? = none ∧ e.isWritten = false
  untouched : ending.isUnwritten = false → ending.isUnplaced = false →
    (∀ e ∈ events, e.isTold = true) ∧ s' = s

theorem Event.of_isTold {e : Event} (h : e.isTold = true) :
    e.shown? = none ∧ e.isWritten = false := by
  cases e with
  | told text => exact ⟨rfl, rfl⟩
  | _ => cases h

/-- Messages alone leave no trace. -/
theorem Ending.spares_of_told {σ : Type} {ending : Ending} {events : List Event} {s : σ}
    (h : ∀ e ∈ events, e.isTold = true) : ending.Spares events s s :=
  ⟨fun _ e he => Event.of_isTold (h e he), fun _ _ => ⟨h, rfl⟩⟩

theorem Ending.Spares.append {σ : Type} {ending : Ending} {told events : List Event} {s s' : σ}
    (htold : ∀ e ∈ told, e.isTold = true) (h : ending.Spares events s s') :
    ending.Spares (told ++ events) s s' :=
  ⟨fun hwritten => List.forall_mem_append.mpr
      ⟨fun e he => Event.of_isTold (htold e he), h.unseen hwritten⟩,
    fun hwritten hplaced => ⟨List.forall_mem_append.mpr ⟨htold, (h.untouched hwritten hplaced).1⟩,
      (h.untouched hwritten hplaced).2⟩⟩

namespace Performance

variable {σ α β : Type}

/-- **A failure of the performance leaves no trace**, unless it comes from writing. -/
def SparesOnFailure (x : Performance (StateM σ) β) : Prop :=
  ∀ log s e log' s', (x.run.run log).run s = ((.error e, log'), s') →
    ∃ events, log' = log ++ events ∧ (Ending.failed e).Spares events s s'

/-- While files are only read, a failure leaves no trace. -/
theorem SparesOnFailure.onFiles_bind {x : ExceptT Failure (StateM σ) α}
    {f : α → Performance (StateM σ) β} (hx : Keeps x.run) (hf : ∀ a, SparesOnFailure (f a)) :
    SparesOnFailure (onFiles x >>= f) := by
  intro log s e log' s' h
  have hkeeps : (x.run.run s).2 = s := hx s
  rw [run_onFiles_bind, StateT.run_bind] at h
  cases hrun : x.run.run s with
  | mk r t =>
    rw [hrun] at h hkeeps
    obtain rfl : t = s := hkeeps
    cases r with
    | ok a => exact hf a _ _ _ _ _ h
    | error e' =>
      cases h
      exact ⟨[], (List.append_nil log).symm, Ending.spares_of_told nofun⟩

/-- Messages can be given before what may fail. -/
theorem SparesOnFailure.announce_bind {report : Report} {f : Unit → Performance (StateM σ) β}
    (hnothing : report.output = []) (hf : SparesOnFailure (f ())) :
    SparesOnFailure (announce report >>= f) := by
  intro log s e log' s' h
  rw [run_announce_bind] at h
  obtain ⟨events, rfl, hspares⟩ := hf _ _ _ _ _ h
  refine ⟨report.events ++ events, List.append_assoc .., hspares.append ?_⟩
  rw [Report.events, hnothing, List.map_nil, List.nil_append]
  exact List.forall_mem_map.mpr fun _ _ => rfl

/-- Lines are shown when nothing can fail any more. -/
theorem sparesOnFailure_announce (report : Report) (b : β) :
    SparesOnFailure (announce report >>= fun _ => pure b : Performance (StateM σ) β) := by
  intro log s e log' s' h
  rw [run_announce_bind] at h
  cases h

/-- So is a text; and a file is only written, or its directory made, as the last thing of all. -/
theorem sparesOnFailure_deliver (host : Host (StateM σ)) (out : Option String) (text : String)
    (b : β) : SparesOnFailure (Command.deliver host out text >>= fun _ => pure b) := by
  intro log s e log' s' h
  rw [run_deliver_bind] at h
  cases out with
  | none => cases h
  | some name =>
    rw [StateT.run_bind] at h
    cases hmake : (host.makeDirectories (FileName.parent name)).run s with
    | mk made t =>
      rw [hmake] at h
      cases made with
      | error e' =>
        cases h
        refine ⟨_, rfl, fun _ => ?_, nofun⟩
        exact List.forall_mem_singleton.mpr ⟨rfl, rfl⟩
      | ok u =>
        change (((host.write name text) >>= _ : StateM σ _).run t) = _ at h
        rw [StateT.run_bind] at h
        cases hwrite : (host.write name text).run t with
        | mk written t' =>
          rw [hwrite] at h
          cases written with
          | error e' =>
            cases h
            exact ⟨_, rfl, nofun, nofun⟩
          | ok u => cases h

/-- How a performance ends. -/
theorem run_ended {x : Performance (StateM σ) Bool} {s s' : σ} {ending : Ending}
    {events : List Event} (h : x.ended.run s = ((ending, events), s')) :
    (∃ conforms, ending = .done conforms) ∨ ∃ e log, ending = .failed e ∧
      events = log ++ [.told ("error: " ++ e.message)] ∧
      (x.run.run []).run s = ((.error e, log), s') := by
  rw [ended, StateT.run_bind] at h
  cases hx : (x.run.run []).run s with
  | mk r t =>
    obtain ⟨r, log⟩ := r
    rw [hx] at h
    cases r with
    | ok conforms =>
      cases h
      exact .inl ⟨conforms, rfl⟩
    | error e =>
      cases h
      exact .inr ⟨e, log, rfl, rfl, rfl⟩

/-- The last message of a failure is a message as well. -/
theorem SparesOnFailure.ended {x : Performance (StateM σ) Bool} (hx : SparesOnFailure x)
    {s s' : σ} {e : Failure} {events : List Event}
    (h : x.ended.run s = ((.failed e, events), s')) : (Ending.failed e).Spares events s s' := by
  rcases run_ended h with ⟨conforms, hdone⟩ | ⟨e', log, hfailed, rfl, hrun⟩
  · cases hdone
  · cases hfailed
    obtain ⟨events, rfl, hspares⟩ := hx _ _ _ _ _ hrun
    have hlast : ∀ e' ∈ [Event.told ("error: " ++ e.message)], e'.isTold = true :=
      List.forall_mem_singleton.mpr rfl
    refine ⟨fun hwritten => ?_, fun hwritten hplaced => ?_⟩
    · exact List.forall_mem_append.mpr ⟨hspares.unseen hwritten,
        fun e' he' => Event.of_isTold (hlast e' he')⟩
    · obtain ⟨htold, hsame⟩ := hspares.untouched hwritten hplaced
      exact ⟨List.forall_mem_append.mpr ⟨htold, hlast⟩, hsame⟩

end Performance

namespace Command

open Performance

variable {σ : Type} {host : Host (StateM σ)}

/-- **Of every command, a failure leaves no trace**, unless it comes from writing. -/
theorem sparesOnFailure_perform (hhost : host.HarmlessReads) (style : Style) (c : Command) :
    SparesOnFailure (c.perform host style) := by
  cases c with
  | check source name inputs strict quiet =>
    refine .onFiles_bind (keeps_loadCodec hhost source name) fun loaded => ?_
    refine .onFiles_bind (inputs.keeps_inputs hhost) fun docs => ?_
    exact sparesOnFailure_announce _ _
  | parse source name inputs strict out =>
    refine .onFiles_bind (keeps_loadCodec hhost source name) fun loaded => ?_
    refine .onFiles_bind (inputs.keeps_inputs hhost) fun docs => ?_
    exact .announce_bind rfl (sparesOnFailure_deliver host out _ _)
  | schema source name out =>
    refine .onFiles_bind (keeps_loadCodec hhost source name) fun loaded => ?_
    refine .onFiles_bind (FileSystem.keeps_lift _ _) fun schema => ?_
    exact sparesOnFailure_deliver host out _ _
  | describe source name out =>
    refine .onFiles_bind (keeps_loadCodec hhost source name) fun loaded => ?_
    exact sparesOnFailure_deliver host out _ _
  | hash source duplicatesOnly =>
    refine .onFiles_bind (keeps_load hhost source) fun loaded => ?_
    exact sparesOnFailure_announce _ _

/-- Words that are taken for no command leave no trace when that is a failure. -/
theorem spares_of_enact (hhost : host.HarmlessReads) {style : Style} {words : List String}
    {s s' : σ} {ending : Ending} {events : List Event}
    (h : (enact host style words).run s = ((ending, events), s')) (hcode : ending.exitCode = 2) :
    ending.Spares events s s' := by
  rw [enact] at h
  cases hwords : host.words words with
  | error usage =>
    rw [hwords] at h
    cases usage with
    | help text =>
      cases h
      cases hcode
    | wrong message =>
      cases h
      exact Ending.spares_of_told (List.forall_mem_singleton.mpr rfl)
  | ok c =>
    rw [hwords] at h
    rcases run_ended h with ⟨conforms, rfl⟩ | ⟨e, -, rfl, -⟩
    · cases conforms <;> cases hcode
    · exact (sparesOnFailure_perform hhost style c).ended h

/-- **A failing command leaves no trace.** Whatever the words, the files and the style, and whatever
the engines make of words, patterns and programs: if it ends with exit code 2, and not because its
file could not be written in the end, it has shown nothing, and it was about to write no file. It
has given messages only, and all files are as they were, if it did not fail to make the directory of
its file. What is left of a command is what was seen of it. -/
theorem enact_leaves_no_trace (hhost : host.HarmlessReads) (style : Style) (words : List String)
    {s s' : σ} {ending : Ending} {events : List Event}
    (h : (enact host style words).run s = ((ending, events), s')) (hcode : ending.exitCode = 2)
    (hwriting : ending.isUnwritten = false) :
    (∀ e ∈ events, e.shown? = none ∧ e.isWritten = false) ∧
      (ending.isUnplaced = false → (∀ e ∈ events, e.isTold = true) ∧ s' = s) ∧
      ∀ c, host.words words = .ok c → (c.outcome host style).run s =
        (⟨2, "", endLines (events.filterMap Event.told?)⟩, s') := by
  have hspares := spares_of_enact hhost h hcode
  have hunseen := hspares.unseen hwriting
  refine ⟨hunseen, hspares.untouched hwriting, fun c hc => ?_⟩
  have hshown : events.filterMap Event.shown? = [] :=
    List.filterMap_eq_nil_iff.mpr fun e he => (hunseen e he).1
  rw [enact, hc] at h
  rw [outcome_eq_seen, seen, StateT.run_map, h]
  show (ending.outcome events, s') = _
  rw [Ending.outcome, hcode, hshown]
  rfl

/-- The second of two inputs ends too early, and what was parsed should go where a file is. -/
def drafts : FileTree :=
  .ofFiles [("graph.json", (Document.toJson ⟨[("Draft", .any)]⟩).compact), ("good.json", "[1]"),
    ("cut.json", "[1"), ("kept.json", "old")]

def draftWords : List String :=
  ["parse", "--graph", "graph.json", "--codec", "Draft", "--input", "good.json", "cut.json",
    "--out", "kept.json"]

theorem enact_leaves_no_trace_drafts :
    let run := (enact FileTree.system {} draftWords).run drafts
    run.1.1.exitCode = 2 ∧ (∀ e ∈ run.1.2, e.isTold = true) ∧
      run.2.read "kept.json" = .ok "old" := by
  intro run
  have hrun : run = ((run.1.1, run.1.2), run.2) := rfl
  obtain ⟨hcode, hwriting, hplaced⟩ : run.1.1.exitCode = 2 ∧ run.1.1.isUnwritten = false ∧
      run.1.1.isUnplaced = false := by
    decide +kernel
  obtain ⟨-, huntouched, -⟩ :=
    enact_leaves_no_trace FileTree.harmlessReads {} draftWords hrun hcode hwriting
  obtain ⟨htold, hsame⟩ := huntouched hplaced
  refine ⟨hcode, htold, ?_⟩
  rw [hsame]
  decide +kernel

end Command

end ShapeGraph
