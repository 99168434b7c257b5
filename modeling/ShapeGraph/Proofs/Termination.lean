import ShapeGraph.Proofs.Answering

/-!
# Decoding comes to an end

In a guarded graph some fuel is enough to check, report and parse, and it gives the answers of the
graph. Nothing watches for loops: a question is asked of a shallower value, or of the same value by
a definition of smaller rank or by a smaller shape, and there are only so many of these.

* `Graph.level`, `Part.level_lt` — how deep questions nest at most
* `Guarded.acceptsWithin_succ`, …, `Guarded.answered_succ` — a question is answered one call after
  its parts
* `Guarded.decoding_terminates` — fuel that is enough, and what comes out
-/

namespace ShapeGraph

namespace Graph

variable {g : Graph} {p : Policy} {n : Nat} {s : Shape} {v : Value}

/-! ## How deep questions nest -/

/-- No definition is larger than this. -/
def AtMost (g : Graph) (m : Nat) : Prop := ∀ i t, g.shape? i = some t → sizeOf t ≤ m

/-- A part is no larger than the whole, or than all definitions. -/
theorem Part.sizeOf_le {t s : Shape} {w v : Value} {m : Nat} (h : g.Part (t, w) (s, v))
    (hg : g.AtMost m) (hs : sizeOf s ≤ m) : sizeOf t ≤ m := by
  cases href : s.isRef with
  | true =>
    obtain ⟨i, name, rfl⟩ := Shape.eq_ref_of_isRef href
    cases h with
    | target h => exact hg i t h
  | false =>
    have hlt := Shape.sizeOf_lt_of_mem_parts (h.mem_parts href)
    omega

/-- How deep questions nest below a question, where no shape is larger than `m`. -/
noncomputable def level (g : Graph) (m : Nat) (s : Shape) (v : Value) : Nat :=
  (v.depth * (g.size + 1) + g.rankOf s) * (m + 1) + sizeOf s

theorem Guarded.level_lt (hg : g.Guarded) {t s : Shape} {w v : Value} {m : Nat}
    (h : g.Part (t, w) (s, v)) (ht : sizeOf t ≤ m) : g.level m t w < g.level m s v := by
  unfold level
  have hsize := rankOf_le_size (g := g) t
  have hup {a b : Nat} (hab : a < b) : a * (m + 1) + sizeOf t < b * (m + 1) + sizeOf s := by
    have := Nat.mul_le_mul_right (m + 1) hab
    rw [Nat.succ_mul] at this
    omega
  rcases h.descends with hd | ⟨rfl, hlt, hrank⟩ | ⟨rfl, i, name, rfl, hi⟩
  · refine hup ?_
    have := Nat.mul_le_mul_right (g.size + 1) hd
    rw [Nat.succ_mul] at this
    omega
  · have := Nat.mul_le_mul_right (m + 1) (Nat.add_le_add_left hrank (w.depth * (g.size + 1)))
    omega
  · refine hup ?_
    have := hg.rankOf_target_lt hi
    rw [rankOf_ref]
    omega

/-! ## One call more than the parts -/

/-- All parts of a question are checked within some calls. -/
def PartsChecked (g : Graph) (p : Policy) (n : Nat) (s : Shape) (v : Value) : Prop :=
  ∀ t w, g.Part (t, w) (s, v) → g.acceptsWithin p n t w = some (g.accepts p t w)

/-- Within the budget of the whole they are checked so, too. -/
theorem Guarded.answerChecked (hg : g.Guarded) (h : g.PartsChecked p n s v) :
    g.PartsAnswerChecked p False (g.acceptsRef p (g.budget v)) n s v := by
  intro t w hp
  rw [hg.accepts_part hp]
  exact .inl (h t w hp)

/-- **A shape is checked within one call more than its parts.** -/
theorem Guarded.acceptsWithin_succ (hg : g.Guarded) (h : g.PartsChecked p n s v) :
    g.acceptsWithin p (n + 1) s v = some (g.accepts p s v) := by
  cases hs : s.isRef with
  | true =>
    obtain ⟨i, name, rfl⟩ := Shape.eq_ref_of_isRef hs
    rw [acceptsWithin, hg.accepts_ref]
    cases hi : g.shape? i with
    | none => rfl
    | some t => exact h t v (.target hi)
  | false => exact (acceptsWithin_answers hs (hg.answerChecked h)).eq_some

/-- All parts of a question are reported on within some calls, wherever they stand. -/
def PartsReported (g : Graph) (p : Policy) (n : Nat) (s : Shape) (v : Value) : Prop :=
  ∀ t w, g.Part (t, w) (s, v) → ∀ path, g.reportWithin p n t path w = some (g.report p t path w)

/-- **A value is reported on within one call more than its parts.** -/
theorem Guarded.reportWithin_succ (hg : g.Guarded) (hc : g.PartsChecked p n s v)
    (h : g.PartsReported p n s v) (path : Path) :
    g.reportWithin p (n + 1) s path v = some (g.report p s path v) := by
  cases hs : s.isRef with
  | true =>
    obtain ⟨i, name, rfl⟩ := Shape.eq_ref_of_isRef hs
    rw [reportWithin]
    cases hi : g.shape? i with
    | none => exact congrArg some (report_ref_none name path v hi).symm
    | some t =>
      rw [hg.report_ref _ _ _ hi]
      exact h t v (.target hi) path
  | false =>
    refine (reportWithin_answers hs (hg.answerChecked hc) (fun t w hp path path' => ?_) path
      path).answers.eq_some
    rw [hg.report_part path hp, hg.report_part path' hp]
    exact .inl ⟨h t w hp path, h t w hp path'⟩

/-- All accepted parts of a question are parsed within some calls. -/
def PartsParsed (g : Graph) (p : Policy) (n : Nat) (s : Shape) (v : Value) : Prop :=
  ∀ t w, g.Part (t, w) (s, v) → g.accepts p t w = true →
    g.parseWithin p n t w = pure (g.parsed p t w)

/-- **An accepted value is parsed within one call more than its accepted parts.** -/
theorem Guarded.parseWithin_succ (hg : g.Guarded) (hc : g.PartsChecked p n s v)
    (h : g.PartsParsed p n s v) (ha : g.accepts p s v = true) :
    g.parseWithin p (n + 1) s v = pure (g.parsed p s v) := by
  cases hs : s.isRef with
  | true =>
    obtain ⟨i, name, rfl⟩ := Shape.eq_ref_of_isRef hs
    obtain ⟨t, ht, hacc⟩ := (Option.any_eq_true _ _).mp (hg.accepts_ref i name v ▸ ha)
    rw [parseWithin, hg.parsed_ref ht ha, ht]
    exact h t v (.target ht) hacc
  | false =>
    have hanswers := parseWithin_answers (q := g.parseRef p (g.budget v)) hs (hg.answerChecked hc)
      fun t w hpart => by
        obtain ⟨hp, hacc⟩ := hpart ha
        rw [hg.accepts_part hp] at hacc
        rw [(hg.partsSettle s v).parse_part hg (need_le_budget s v) hp hacc]
        exact .inl (congrArg ExceptT.run (h t w hp hacc))
    exact hanswers.eq_some.trans (congrArg some (hg.parse_eq ha))

/-! ## Enough fuel -/

/-- The size of the largest among a shape and all definitions. -/
noncomputable def largest (g : Graph) (s : Shape) : Nat :=
  g.definitions.foldr (fun e m => max (sizeOf e.2) m) (sizeOf s)

theorem sizeOf_le_largest (g : Graph) (s : Shape) : sizeOf s ≤ g.largest s := by
  unfold largest
  induction g.definitions with
  | nil => exact Nat.le_refl _
  | cons e es ih => exact Nat.le_trans ih (Nat.le_max_right _ _)

theorem atMost_largest (g : Graph) (s : Shape) : g.AtMost (g.largest s) := by
  intro i t ht
  obtain ⟨e, he, rfl⟩ := Option.map_eq_some_iff.mp ht
  have hmem := List.mem_of_getElem? he
  unfold largest
  generalize g.definitions = ds at hmem ⊢
  induction ds with
  | nil => cases hmem
  | cons d ds ih =>
    rw [List.foldr_cons]
    rcases List.mem_cons.mp hmem with rfl | hmem
    · exact Nat.le_max_left _ _
    · exact Nat.le_trans (ih hmem) (Nat.le_max_right _ _)

/-- **So many nested calls are enough**: for every step into the value all definitions can be
opened, and each of them can be walked through. -/
noncomputable def nesting (g : Graph) (s : Shape) (v : Value) : Nat :=
  (v.depth + 1) * (g.size + 1) * (g.largest s + 1)

theorem level_lt_nesting (g : Graph) (s : Shape) (v : Value) :
    g.level (g.largest s) s v < g.nesting s v := by
  have hsize := sizeOf_le_largest g s
  have hrank := rankOf_le_size (g := g) s
  have hsteps : v.depth * (g.size + 1) + g.rankOf s + 1 ≤ (v.depth + 1) * (g.size + 1) := by
    rw [Nat.succ_mul]
    omega
  unfold level nesting
  calc (v.depth * (g.size + 1) + g.rankOf s) * (g.largest s + 1) + sizeOf s
      < (v.depth * (g.size + 1) + g.rankOf s + 1) * (g.largest s + 1) := by
        rw [Nat.succ_mul]
        omega
    _ ≤ (v.depth + 1) * (g.size + 1) * (g.largest s + 1) := Nat.mul_le_mul_right _ hsteps

section

variable {P : Nat → Shape → Value → Prop}

/-- What holds one call after it holds of all parts holds as soon as there are more calls than
levels. -/
theorem Guarded.of_level_lt (hg : g.Guarded)
    (step : ∀ n s v, (∀ t w, g.Part (t, w) (s, v) → P n t w) → P (n + 1) s v) {m : Nat}
    (hm : g.AtMost m) (hs : sizeOf s ≤ m) (hn : g.level m s v < n) : P n s v := by
  induction n generalizing s v with
  | zero => exact absurd hn (Nat.not_lt_zero _)
  | succ n ih =>
    refine step n s v fun t w hp => ?_
    have ht := hp.sizeOf_le hm hs
    have hlt := hg.level_lt hp ht
    exact ih ht (by omega)

theorem Guarded.of_nesting_le (hg : g.Guarded)
    (step : ∀ n s v, (∀ t w, g.Part (t, w) (s, v) → P n t w) → P (n + 1) s v)
    (hn : g.nesting s v ≤ n) : P n s v :=
  hg.of_level_lt step (atMost_largest g s) (sizeOf_le_largest g s)
    (Nat.lt_of_lt_of_le (level_lt_nesting g s v) hn)

end

/-- Checking, reporting and, where the value is accepted, parsing end within so many nested calls,
with the answers of the graph. -/
structure Answered (g : Graph) (p : Policy) (n : Nat) (s : Shape) (v : Value) : Prop where
  checked : g.acceptsWithin p n s v = some (g.accepts p s v)
  reported : ∀ path, g.reportWithin p n s path v = some (g.report p s path v)
  parsed : g.accepts p s v = true → (g.parseWithin p n s v).run = some (g.parse p s v)

/-- **A question is answered one call after its parts.** -/
theorem Guarded.answered_succ (hg : g.Guarded)
    (h : ∀ t w, g.Part (t, w) (s, v) → g.Answered p n t w) : g.Answered p (n + 1) s v := by
  have hchecked : g.PartsChecked p n s v := fun t w hp => (h t w hp).checked
  have hreported : g.PartsReported p n s v := fun t w hp => (h t w hp).reported
  have hparsed : g.PartsParsed p n s v := by
    intro t w hp ha
    have := (h t w hp).parsed ha
    rwa [hg.parse_eq ha] at this
  refine ⟨hg.acceptsWithin_succ hchecked, hg.reportWithin_succ hchecked hreported, fun ha => ?_⟩
  rw [hg.parse_eq ha]
  exact hg.parseWithin_succ hchecked hparsed ha

/-- **In a guarded graph decoding comes to an end**, by every shape and on every value. -/
theorem Guarded.decoding_terminates (hg : g.Guarded) (p : Policy) (s : Shape) (v : Value) (n : Nat)
    (hn : g.nesting s v ≤ n) : g.Answered p n s v :=
  hg.of_nesting_le (fun _ _ _ => hg.answered_succ) hn

/-- Trees lead back to trees, and yet a fork is decoded. -/
theorem decoding_terminates_trees :
    trees.Guarded ∧ trees.accepts {} (.ref 2 "Tree") soundFork = true ∧
      trees.Answered {} (trees.nesting (.ref 2 "Tree") soundFork) (.ref 2 "Tree") soundFork :=
  ⟨trees_guarded, by decide +kernel,
    trees_guarded.decoding_terminates {} (.ref 2 "Tree") soundFork _ (Nat.le_refl _)⟩

end Graph

end ShapeGraph
