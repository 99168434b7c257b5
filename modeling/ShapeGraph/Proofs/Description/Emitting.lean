import ShapeGraph.Proofs.Description.Measuring
import ShapeGraph.Proofs.Description.Writing

/-!
# The second pass of a description, traced

The second pass is run again with a trace beside the texts. Nothing stops it at a definition that
is written out, and yet in every graph the fuel lasts: no definition is entered inside itself. Over
the root every shared definition is entered once and has its text then. What is gone through
afterwards are the shared definitions whose text is empty, each of them once more.

* `Graph.writeTraced` — the second pass with its trace, and `writeRef_eq` — without it
* `Graph.Emitting` — what writing some references enters and does to the texts
* `emitsRefs` — what writing one reference does, where no definition is open twice
* `count_emitted` — over the root every shared definition is entered once
* `Graph.pendingTraced`, `exists_cleaning` — what is gone through afterwards
-/

namespace ShapeGraph

namespace Graph

/-! ## Writing with a trace -/

/-- Write a reference inside the definitions `chain`. These are for the trace only. -/
def writeTraced (g : Graph) (counts : List Nat) :
    Nat → List Nat → Nat → String → List (Option String) × Trace →
      String × (List (Option String) × Trace)
  | 0, _, _, name, (texts, t) => (name, texts, t.exhaust)
  | fuel + 1, chain, place, name, (texts, t) =>
    match g.shape? place with
    | none => (name, texts, t)
    | some s =>
      if !isShared counts place then
        s.describe (writeTraced g counts fuel (place :: chain)) (texts, t.enter place chain)
      else
        match texts.getD place none with
        | some _ => (name, texts, t)
        | none =>
          let (text, texts, t) := s.describe (writeTraced g counts fuel (place :: chain))
            (texts.set place (some ""), t.enter place chain)
          (name, texts.set place (some text), t)

/-- **The trace changes nothing about the texts.** -/
theorem writeRef_eq (g : Graph) (counts : List Nat) (fuel : Nat) (chain : List Nat) (place : Nat)
    (name : String) (st : List (Option String) × Trace) :
    g.writeRef counts fuel place name st.1 =
      Prod.map id Prod.fst (g.writeTraced counts fuel chain place name st) := by
  induction fuel generalizing chain place name st with
  | zero => rfl
  | succ fuel ih =>
    obtain ⟨texts, t⟩ := st
    have hbody := fun s texts => Shape.describe_map (fun place' => ih (place :: chain) place') s
      (texts, t.enter place chain)
    simp only [writeRef, writeTraced]
    cases g.shape? place with
    | none => rfl
    | some s =>
      cases isShared counts place with
      | false => exact hbody s texts
      | true =>
        simp only [Bool.not_true, Bool.false_eq_true, if_false]
        cases texts.getD place none with
        | some text => rfl
        | none =>
          simp only [hbody s (texts.set place (some ""))]
          rfl

variable {g : Graph} {root : Shape} {chain : List Nat}

/-- What the texts and the trace are while the definitions `chain` are open: a shared definition
that is open is marked, and one with a text has been entered. -/
structure Tracked (g : Graph) (root : Shape) (chain : List Nat)
    (st : List (Option String) × Trace) : Prop where
  length_eq : st.1.length = g.size
  marked : ∀ i ∈ chain, g.Shared root i → (st.1.getD i none).isSome
  entered : ∀ i, g.Shared root i → (st.1.getD i none).isSome → i ∈ st.2.places

/-- A definition is marked and entered. -/
theorem Tracked.mark {texts : List (Option String)} {t : Trace}
    (h : g.Tracked root chain (texts, t)) {place : Nat} (hplace : place < g.size)
    (around : List Nat) :
    g.Tracked root (place :: chain) (texts.set place (some ""), t.enter place around) := by
  have hlen : texts.length = g.size := h.length_eq
  have hmark := getD_set (hlen ▸ hplace) (some "") none
  refine ⟨(List.length_set ..).trans hlen, fun i hi hshared => ?_, fun i hshared hsome => ?_⟩
  · simp only [hmark]
    split
    · rfl
    · next hne => exact h.marked i ((List.mem_cons.mp hi).resolve_left hne) hshared
  · simp only [hmark] at hsome
    split at hsome
    · next heq => exact heq ▸ List.mem_cons_self
    · exact List.mem_cons_of_mem place (h.entered i hshared hsome)

/-- A definition that is not shared needs no mark. -/
theorem Tracked.enter {texts : List (Option String)} {t : Trace}
    (h : g.Tracked root chain (texts, t)) {place : Nat} (hnot : ¬ g.Shared root place)
    (around : List Nat) : g.Tracked root (place :: chain) (texts, t.enter place around) where
  length_eq := h.length_eq
  marked i hi hshared := by
    rcases List.mem_cons.mp hi with rfl | hi
    · exact absurd hshared hnot
    · exact h.marked i hi hshared
  entered i hshared hsome := List.mem_cons_of_mem place (h.entered i hshared hsome)

/-- What writing the references `ms` does to the texts, and what it enters. -/
structure Emitting (g : Graph) (root : Shape) (ms : List (Nat × String)) (later : List Opening)
    (before after : List (Option String) × Trace) : Prop where
  /-- Fuel is not missing, and this is what is entered. -/
  trace_eq : after.2 = before.2.add later
  length_eq : after.1.length = before.1.length
  /-- No definition is entered inside itself. -/
  nodup : ∀ e ∈ later, e.chain.Nodup
  /-- A text is not written over. -/
  stays : ∀ i, (before.1.getD i none).isSome → after.1.getD i none = before.1.getD i none
  /-- A shared definition is entered where it gets its text. -/
  once : ∀ i, g.Shared root i →
    (later.map (·.place)).count i + (before.1.getD i none).isSome.toNat =
      (after.1.getD i none).isSome.toNat
  /-- What the references lead to has been entered. -/
  covers : ∀ m ∈ ms, m.1 < g.size → m.1 ∈ after.2.places
  /-- So has what the entered definitions mention. -/
  closed : ∀ e ∈ later, ∀ i, g.Mentions e.place i → i < g.size → i ∈ after.2.places

variable {ms ms' : List (Nat × String)} {later later' : List Opening}
  {st before mid after : List (Option String) × Trace}

theorem Emitting.refl (st : List (Option String) × Trace) : g.Emitting root [] [] st st where
  trace_eq := rfl
  length_eq := rfl
  nodup := nofun
  stays _ _ := rfl
  once _ _ := Nat.zero_add _
  covers := nofun
  closed := nofun

theorem Emitting.mem_places (h : g.Emitting root ms later before after) {i : Nat}
    (hi : i ∈ before.2.places) : i ∈ after.2.places := by
  rw [h.trace_eq, Trace.places_add]
  exact List.mem_append_right _ hi

theorem Emitting.trans (h : g.Emitting root ms later before mid)
    (h' : g.Emitting root ms' later' mid after) :
    g.Emitting root (ms ++ ms') (later' ++ later) before after where
  trace_eq := by rw [h'.trace_eq, h.trace_eq, Trace.add_add]
  length_eq := h'.length_eq.trans h.length_eq
  nodup e he := (List.mem_append.mp he).elim (h'.nodup e) (h.nodup e)
  stays i hi := by
    have hmid := h.stays i hi
    rw [← hmid] at hi ⊢
    exact h'.stays i hi
  once i hi := by
    have hfirst := h.once i hi
    have hsecond := h'.once i hi
    rw [List.map_append, List.count_append]
    omega
  covers m hm hlt := by
    rcases List.mem_append.mp hm with hm | hm
    · exact h'.mem_places (h.covers m hm hlt)
    · exact h'.covers m hm hlt
  closed e he i hi hlt := by
    rcases List.mem_append.mp he with he | he
    · exact h'.closed e he i hi hlt
    · exact h'.mem_places (h.closed e he i hi hlt)

/-- What is open stays marked, and what has a text has been entered. -/
theorem Emitting.tracked (h : g.Emitting root ms later before after)
    (ht : g.Tracked root chain before) : g.Tracked root chain after where
  length_eq := h.length_eq.trans ht.length_eq
  marked i hi hshared := by
    have hsome := ht.marked i hi hshared
    rwa [h.stays i hsome]
  entered i hshared hsome := by
    have honce := h.once i hshared
    cases hbefore : (before.1.getD i none).isSome with
    | true => exact h.mem_places (ht.entered i hshared hbefore)
    | false =>
      rw [hbefore, hsome] at honce
      have hmem : i ∈ later.map (·.place) := by
        refine List.count_pos_iff.mp ?_
        rw [Bool.toNat_false, Bool.toNat_true] at honce
        omega
      rw [h.trace_eq, Trace.places_add]
      exact List.mem_append_left _ hmem

/-! ## One reference -/

/-- A definition is entered before what its body mentions, and both have been entered then. -/
theorem Emitting.mem_places_opening {texts : List (Option String)} {t : Trace} {place : Nat}
    (h : g.Emitting root ms later (texts, t.enter place chain) after) : place ∈ after.2.places :=
  h.mem_places List.mem_cons_self

theorem Emitting.closed_opening {texts : List (Option String)} {t : Trace} {place : Nat} {s : Shape}
    (h : g.Emitting root s.mentions later (texts, t.enter place chain) after)
    (hs : g.shape? place = some s) :
    ∀ e ∈ later ++ [⟨place, chain⟩], ∀ i, g.Mentions e.place i → i < g.size →
      i ∈ after.2.places := by
  intro e he i hi hlt
  rcases List.mem_append.mp he with he | he
  · exact h.closed e he i hi hlt
  · obtain rfl := List.mem_singleton.mp he
    obtain ⟨u, hu, hiu⟩ := hi
    obtain rfl := Option.some.inj (hs.symm.trans hu)
    obtain ⟨m, hm, rfl⟩ := List.mem_map.mp hiu
    exact h.covers m hm hlt

theorem nodup_opening {place : Nat} (h : ∀ e ∈ later, e.chain.Nodup)
    (hopen : g.Open root (place :: chain)) :
    ∀ e ∈ later ++ [(⟨place, chain⟩ : Opening)], e.chain.Nodup := by
  intro e he
  rcases List.mem_append.mp he with he | he
  · exact h e he
  · obtain rfl := List.mem_singleton.mp he
    exact hopen.nodup

theorem covers_singleton {place : Nat} (name : String) (h : place ∈ st.2.places) :
    ∀ m ∈ [(place, name)], m.1 < g.size → m.1 ∈ st.2.places := by
  intro m hm _
  obtain rfl := List.mem_singleton.mp hm
  exact h

/-- A definition that is written out. -/
theorem Emitting.inline {texts : List (Option String)} {t : Trace} {place : Nat} {s : Shape}
    (h : g.Emitting root s.mentions later (texts, t.enter place chain) after)
    (hs : g.shape? place = some s) (hshared : ¬ g.Shared root place)
    (hopen : g.Open root (place :: chain)) (name : String) :
    g.Emitting root [(place, name)] (later ++ [⟨place, chain⟩]) (texts, t) after where
  trace_eq := h.trace_eq.trans (Trace.add_enter ..)
  length_eq := h.length_eq
  nodup := nodup_opening h.nodup hopen
  stays := h.stays
  once i hi := by
    have honce := h.once i hi
    have hne : (place == i) = false := beq_eq_false_iff_ne.mpr fun heq => hshared (heq ▸ hi)
    rw [List.map_append, List.count_append, List.map_singleton, List.count_singleton, hne]
    exact honce
  covers := covers_singleton name h.mem_places_opening
  closed := h.closed_opening hs

/-- A shared definition whose text is written, between its mark and its text. -/
theorem Emitting.hoist {texts : List (Option String)} {t : Trace} {place : Nat} {s : Shape}
    (h : g.Emitting root s.mentions later (texts.set place (some ""), t.enter place chain) after)
    (hs : g.shape? place = some s) (hlen : texts.length = g.size)
    (hnone : texts.getD place none = none) (hshared : g.Shared root place)
    (hopen : g.Open root (place :: chain)) (name text : String) :
    g.Emitting root [(place, name)] (later ++ [⟨place, chain⟩]) (texts, t)
      (after.1.set place (some text), after.2) := by
  have hmark := getD_set (hlen ▸ lt_size_of_shape? hs : place < texts.length) (some "") none
  have hlen' : after.1.length = texts.length := h.length_eq.trans (List.length_set ..)
  have htext := getD_set (hlen'.trans hlen ▸ lt_size_of_shape? hs : place < after.1.length)
    (some text) none
  refine ⟨h.trace_eq.trans (Trace.add_enter ..), (List.length_set ..).trans hlen',
    nodup_opening h.nodup hopen, fun i hi => ?_, fun i hi => ?_,
    covers_singleton name h.mem_places_opening, h.closed_opening hs⟩
  · have hne : i ≠ place := by
      rintro rfl
      simp only [hnone] at hi
      cases hi
    have hstays := h.stays i
    simp only [hmark, if_neg hne] at hstays
    simp only [htext, if_neg hne]
    exact hstays hi
  · have honce := h.once i hi
    simp only [hmark] at honce
    simp only [htext, List.map_append, List.count_append, List.map_singleton, List.count_singleton]
    by_cases heq : i = place
    · -- the mark keeps the definition from being entered again
      subst heq
      have hle := Bool.toNat_le (after.1.getD i none).isSome
      simp only [if_true, Option.isSome_some, Bool.toNat_true, beq_self_eq_true, hnone,
        Option.isSome_none, Bool.toNat_false] at honce ⊢
      omega
    · have hne : (place == i) = false := beq_eq_false_iff_ne.mpr fun e => heq e.symm
      simp only [if_neg heq, hne, Bool.false_eq_true, if_false, Nat.add_zero] at honce ⊢
      exact honce

/-- Where the definitions `chain` are open, there is fuel for all others. -/
def EmitsRefs (g : Graph) (root : Shape) (fuel : Nat) : Prop :=
  ∀ chain place name st, g.Open root chain → g.Chain chain → g.Suffices chain fuel →
    g.Opens root chain place → g.Tracked root chain st →
      ∃ later, g.Emitting root [(place, name)] later st
        (g.writeTraced (g.referenceCounts root) fuel chain place name st).2

/-- The references of a shape are written one after the other. -/
theorem EmitsRefs.describe {fuel : Nat} (h : g.EmitsRefs root fuel) (hopen : g.Open root chain)
    (hchain : g.Chain chain) (hfuel : g.Suffices chain fuel) {s : Shape}
    (hopens : ∀ i ∈ s.mentions.map (·.1), g.Opens root chain i) (hst : g.Tracked root chain st) :
    ∃ later, g.Emitting root s.mentions later st
      (s.describe (g.writeTraced (g.referenceCounts root) fuel chain) st).2 := by
  rw [Shape.describe_state]
  generalize s.mentions = ms at hopens ⊢
  induction ms generalizing st with
  | nil => exact ⟨[], .refl st⟩
  | cons m ms ih =>
    rw [List.map_cons, List.forall_mem_cons] at hopens
    obtain ⟨first, hfirst⟩ := h chain m.1 m.2 st hopen hchain hfuel hopens.1 hst
    obtain ⟨others, hothers⟩ := ih (hfirst.tracked hst) hopens.2
    exact ⟨others ++ first, hfirst.trans hothers⟩

/-- **What writing one reference does**, where no definition is open twice. -/
theorem emitsRefs (g : Graph) (root : Shape) (fuel : Nat) : g.EmitsRefs root fuel := by
  -- a definition that is entered takes one unit of fuel and makes the chain longer by one
  induction fuel with
  | zero =>
    intro chain place name st _ hchain hfuel
    cases (hchain.exists_succ hfuel).choose_spec
  | succ fuel ih =>
    intro chain place name st hopen hchain hfuel hopens hst
    obtain ⟨texts, t⟩ := st
    have hlen : texts.length = g.size := hst.length_eq
    have hfuel' := hfuel.cons place
    simp only [writeTraced]
    cases hs : g.shape? place with
    | none =>
      refine ⟨[], { Emitting.refl (texts, t) with covers := fun m hm hlt => ?_ }⟩
      obtain rfl := List.mem_singleton.mp hm
      obtain ⟨s, hs'⟩ := exists_shape?_of_lt hlt
      rw [hs] at hs'
      cases hs'
    | some s =>
      have hplace := lt_size_of_shape? hs
      have hbody : ∀ i ∈ s.mentions.map (·.1), g.Opens root (place :: chain) i :=
        fun i hi => .body ⟨s, hs, hi⟩
      cases hshared : isShared (g.referenceCounts root) place with
      | false =>
        have hnot : ¬ g.Shared root place := by
          rw [← isShared_iff hplace, hshared]
          exact Bool.false_ne_true
        have hmem := hopen.not_mem_of_opens hopens hnot
        have hopen' := hopen.enter hopens hmem
        obtain ⟨later, hlater⟩ :=
          ih.describe hopen' (hchain.cons hplace hmem) hfuel' hbody (hst.enter hnot chain)
        exact ⟨_, hlater.inline hs hnot hopen' name⟩
      | true =>
        have hshared := (isShared_iff hplace).mp hshared
        simp only [Bool.not_true, Bool.false_eq_true, if_false]
        cases htext : texts.getD place none with
        | some text =>
          have hentered := hst.entered place hshared (by rw [htext]; rfl)
          exact ⟨[], { Emitting.refl (texts, t) with covers := covers_singleton name hentered }⟩
        | none =>
          -- it is not open, for then it would be marked
          have hmem : place ∉ chain := by
            intro hmem
            have hmarked := hst.marked place hmem hshared
            rw [htext] at hmarked
            cases hmarked
          have hopen' := hopen.enter hopens hmem
          obtain ⟨later, hlater⟩ :=
            ih.describe hopen' (hchain.cons hplace hmem) hfuel' hbody (hst.mark hplace chain)
          exact ⟨_, hlater.hoist hs hlen htext hshared hopen' name _⟩

/-! ## The root -/

/-- The second pass over a root, with its trace. -/
def emitted (g : Graph) (root : Shape) : String × (List (Option String) × Trace) :=
  root.describe (g.writeTraced (g.referenceCounts root) (g.size + 1) [])
    (List.replicate g.size none, {})

theorem emitted_eq (g : Graph) (root : Shape) :
    root.describe (g.writeRef (g.referenceCounts root) (g.size + 1)) (List.replicate g.size none) =
      Prod.map id Prod.fst (g.emitted root) :=
  Shape.describe_map (fun place => g.writeRef_eq (g.referenceCounts root) (g.size + 1) [] place)
    root (List.replicate g.size none, {})

variable (g root)

theorem tracked_start : g.Tracked root [] (List.replicate g.size none, {}) where
  length_eq := List.length_replicate
  marked := nofun
  entered i _ hsome := by
    rw [List.getD_eq_getElem?_getD, List.getElem?_getD_replicate_default_eq] at hsome
    cases hsome

theorem exists_emitting : ∃ later, g.Emitting root root.mentions later
    (List.replicate g.size none, {}) (g.emitted root).2 :=
  (g.emitsRefs root (g.size + 1)).describe .nil (.nil g) g.suffices_nil (fun _ hi => .root hi)
    (g.tracked_start root)

theorem tracked_emitted : g.Tracked root [] (g.emitted root).2 := by
  obtain ⟨later, h⟩ := g.exists_emitting root
  exact h.tracked (g.tracked_start root)

variable {g root}

/-- All definitions that are mentioned are entered, along the references that lead to them. -/
theorem Mentioned.mem_emitted {i : Nat} (h : g.Mentioned root i) (hi : i < g.size) :
    i ∈ (g.emitted root).2.2.places := by
  obtain ⟨later, hlater⟩ := g.exists_emitting root
  obtain ⟨m, hm, hlead⟩ := h
  induction hlead with
  | refl => exact hlater.covers m hm hi
  | @tail j i _ hji ih =>
    have hj := ih hji.lt_size
    rw [hlater.trace_eq, Trace.places_add] at hj
    obtain ⟨e, he, rfl⟩ := List.mem_map.mp ((List.mem_append.mp hj).resolve_right List.not_mem_nil)
    exact hlater.closed e he i hji hi

theorem lt_size_of_isShared {i : Nat} (h : isShared (g.referenceCounts root) i = true) :
    i < g.size := by
  by_contra hle
  rw [isShared, decide_eq_true_iff, List.getD_eq_default] at h
  · omega
  · rw [length_referenceCounts]
    omega

/-- **Over the root every shared definition is entered once**, and has a text then. -/
theorem count_emitted {i : Nat} (h : isShared (g.referenceCounts root) i = true) :
    (g.emitted root).2.2.places.count i = 1 ∧ ((g.emitted root).2.1.getD i none).isSome := by
  obtain ⟨later, hlater⟩ := g.exists_emitting root
  have hlt := lt_size_of_isShared h
  have hshared := (isShared_iff hlt).mp h
  have hpos := List.count_pos_iff.mpr (hshared.mentioned.mem_emitted hlt)
  have hplaces : (g.emitted root).2.2.places = later.map (·.place) := by
    rw [hlater.trace_eq, Trace.places_add]
    exact List.append_nil _
  have honce := hlater.once i hshared
  have hnone : (List.replicate g.size (none : Option String)).getD i none = none := by
    rw [List.getD_eq_getElem?_getD, List.getElem?_getD_replicate_default_eq]
  simp only [hnone, Option.isSome_none, Bool.toNat_false, Nat.add_zero, ← hplaces] at honce
  cases hsome : ((g.emitted root).2.1.getD i none).isSome with
  | false =>
    rw [hsome, Bool.toNat_false] at honce
    omega
  | true =>
    rw [hsome, Bool.toNat_true] at honce
    exact ⟨honce, rfl⟩

/-! ## What is gone through afterwards -/

/-- Write a shared definition whose text is missing or empty, with a trace. -/
def pendingTraced (g : Graph) (counts : List Nat) (st : List (Option String) × Trace)
    (place : Nat) : List (Option String) × Trace :=
  match g.shape? place with
  | none => st
  | some s =>
    if ((st.1.getD place none).getD "").isEmpty then
      let (text, texts, t) := s.describe (g.writeTraced counts (g.size + 1) [place])
        (st.1.set place (some ""), st.2.enter place [])
      (texts.set place (some text), t)
    else st

theorem pendingTraced_fst (g : Graph) (counts : List Nat) (st : List (Option String) × Trace)
    (place : Nat) : (g.pendingTraced counts st place).1 = g.writePending counts st.1 place := by
  unfold pendingTraced writePending
  cases g.shape? place with
  | none => rfl
  | some s =>
    have hbody := Shape.describe_map
      (fun place' => g.writeRef_eq counts (g.size + 1) [place] place') s
      (st.1.set place (some ""), st.2.enter place [])
    simp only [hbody]
    split <;> rfl

theorem foldl_pendingTraced_fst (g : Graph) (counts : List Nat) (places : List Nat)
    (st : List (Option String) × Trace) :
    (places.foldl (g.pendingTraced counts) st).1 = places.foldl (g.writePending counts) st.1 := by
  induction places generalizing st with
  | nil => rfl
  | cons i places ih =>
    rw [List.foldl_cons, List.foldl_cons, ih, pendingTraced_fst]

/-- All shared definitions have texts, and have been entered for them. -/
structure Written (g : Graph) (root : Shape) (st : List (Option String) × Trace) : Prop where
  tracked : g.Tracked root [] st
  isSome : ∀ i, isShared (g.referenceCounts root) i = true → (st.1.getD i none).isSome

/-- What going through some definitions once more enters: of the shared ones those whose text is
empty, once. -/
structure Cleaning (g : Graph) (root : Shape) (places : List Nat) (later : List Opening)
    (before after : List (Option String) × Trace) : Prop where
  trace_eq : after.2 = before.2.add later
  nodup : ∀ e ∈ later, e.chain.Nodup
  again : ∀ i, isShared (g.referenceCounts root) i = true →
    (later.map (·.place)).count i = if i ∈ places ∧ before.1.getD i none = some "" then 1 else 0
  stays : ∀ i, i ∉ places → isShared (g.referenceCounts root) i = true →
    after.1.getD i none = before.1.getD i none

theorem written_emitted (g : Graph) (root : Shape) : g.Written root (g.emitted root).2 where
  tracked := g.tracked_emitted root
  isSome _ hi := (count_emitted hi).2

namespace Written

/-- Writing references writes no text where all shared definitions have theirs. -/
theorem stays (h : g.Written root before) (he : g.Emitting root ms later before after) {i : Nat}
    (hi : isShared (g.referenceCounts root) i = true) :
    after.1.getD i none = before.1.getD i none :=
  he.stays i (h.isSome i hi)

/-- It enters none of them either. -/
theorem count_eq_zero (h : g.Written root before) (he : g.Emitting root ms later before after)
    {i : Nat} (hi : isShared (g.referenceCounts root) i = true) :
    (later.map (·.place)).count i = 0 := by
  have honce := he.once i ((isShared_iff (lt_size_of_isShared hi)).mp hi)
  rw [h.stays he hi] at honce
  omega

theorem emitting (h : g.Written root before) (he : g.Emitting root ms later before after) :
    g.Written root after where
  tracked := he.tracked h.tracked
  isSome i hi := by
    rw [h.stays he hi]
    exact h.isSome i hi

theorem enter {texts : List (Option String)} {t : Trace} (h : g.Written root (texts, t))
    (place : Nat) (around : List Nat) : g.Written root (texts, t.enter place around) where
  tracked := ⟨h.tracked.length_eq, nofun, fun i hshared hsome =>
    List.mem_cons_of_mem place (h.tracked.entered i hshared hsome)⟩
  isSome := h.isSome

theorem set {texts : List (Option String)} {t : Trace} (h : g.Written root (texts, t))
    {place : Nat} (hplace : place < g.size) (hentered : place ∈ t.places) (text : String) :
    g.Written root (texts.set place (some text), t) := by
  have hlen : texts.length = g.size := h.tracked.length_eq
  have htext := getD_set (hlen ▸ hplace) (some text) none
  refine ⟨⟨(List.length_set ..).trans hlen, nofun, fun i hshared hsome => ?_⟩, fun i hi => ?_⟩
  · simp only [htext] at hsome
    split at hsome
    · next heq => exact heq ▸ hentered
    · exact h.tracked.entered i hshared hsome
  · simp only [htext]
    split
    · rfl
    · exact h.isSome i hi

/-- A shared definition with an empty text is written once more, and no other one is. -/
theorem exists_rewriting {texts : List (Option String)} {t : Trace}
    (h : g.Written root (texts, t)) {place : Nat} {s : Shape} (hs : g.shape? place = some s)
    (hplace : isShared (g.referenceCounts root) place = true)
    (hempty : texts.getD place none = some "") {written : String × (List (Option String) × Trace)}
    (hwritten : s.describe (g.writeTraced (g.referenceCounts root) (g.size + 1) [place])
      (texts.set place (some ""), t.enter place []) = written) :
    ∃ later, g.Cleaning root [place] later (texts, t)
        (written.2.1.set place (some written.1), written.2.2) ∧
      g.Written root (written.2.1.set place (some written.1), written.2.2) := by
  have hlt := lt_size_of_shape? hs
  have hopen := Open.pending ((isShared_iff hlt).mp hplace)
  have hfuel : g.Suffices [place] (g.size + 1) := Nat.lt_add_right _ g.suffices_nil
  have hmarked := (h.enter place []).set hlt List.mem_cons_self ""
  obtain ⟨later, hlater⟩ := (g.emitsRefs root (g.size + 1)).describe hopen
    ((Chain.nil g).cons hlt List.not_mem_nil) hfuel (fun i hi => .body ⟨s, hs, hi⟩)
    (h.tracked.mark hlt [])
  rw [hwritten] at hlater
  have hafter := hmarked.emitting hlater
  refine ⟨later ++ [⟨place, []⟩], ⟨hlater.trace_eq.trans (Trace.add_enter ..),
    nodup_opening hlater.nodup hopen, fun i hi => ?_, fun i hne hi => ?_⟩,
    hafter.set hlt hlater.mem_places_opening _⟩
  · simp only [List.map_append, List.count_append, List.map_singleton, List.count_singleton,
      hmarked.count_eq_zero hlater hi, List.mem_singleton]
    by_cases heq : i = place
    · subst heq
      simp only [hempty, and_self, if_true, beq_self_eq_true]
    · have hne : (place == i) = false := beq_eq_false_iff_ne.mpr fun e => heq e.symm
      simp only [heq, hne, false_and, if_false, Bool.false_eq_true]
  · rw [List.mem_singleton] at hne
    have hlen : texts.length = g.size := h.tracked.length_eq
    have hlen' : written.2.1.length = g.size := hafter.tracked.length_eq
    have hstays := hmarked.stays hlater hi
    simp only [getD_set (hlen ▸ hlt), getD_set (hlen' ▸ hlt), if_neg hne] at hstays ⊢
    exact hstays

end Written

theorem Written.exists_cleaning_singleton {st : List (Option String) × Trace}
    (h : g.Written root st) {place : Nat}
    (hplace : isShared (g.referenceCounts root) place = true) :
    ∃ later, g.Cleaning root [place] later st
        (g.pendingTraced (g.referenceCounts root) st place) ∧
      g.Written root (g.pendingTraced (g.referenceCounts root) st place) := by
  obtain ⟨texts, t⟩ := st
  obtain ⟨s, hs⟩ := exists_shape?_of_lt (lt_size_of_isShared hplace)
  obtain ⟨text, htext⟩ := Option.isSome_iff_exists.mp (h.isSome place hplace)
  simp only [pendingTraced, hs, htext, Option.getD_some, String.isEmpty_iff]
  by_cases hempty : text = ""
  · rw [if_pos hempty]
    exact h.exists_rewriting hs hplace (hempty ▸ htext) rfl
  · rw [if_neg hempty]
    refine ⟨[], ⟨rfl, nofun, fun i _ => ?_, fun _ _ _ => rfl⟩, h⟩
    have hnot : ¬ (i ∈ [place] ∧ texts.getD i none = some "") := by
      rintro ⟨hi, hi'⟩
      rw [List.mem_singleton.mp hi, htext] at hi'
      exact hempty (Option.some.inj hi')
    rw [if_neg hnot]
    rfl

/-- One definition, and then others. -/
theorem Cleaning.cons {place : Nat} {places : List Nat} (hplace : place ∉ places)
    (h : g.Cleaning root [place] later before mid) (h' : g.Cleaning root places later' mid after) :
    g.Cleaning root (place :: places) (later' ++ later) before after where
  trace_eq := by rw [h'.trace_eq, h.trace_eq, Trace.add_add]
  nodup e he := (List.mem_append.mp he).elim (h'.nodup e) (h.nodup e)
  again i hi := by
    simp only [List.map_append, List.count_append, h.again i hi, h'.again i hi, List.mem_cons,
      List.not_mem_nil, or_false]
    by_cases heq : i = place
    · subst heq
      simp only [hplace, false_and, if_false, true_and, true_or, Nat.zero_add]
    · have hstays := h.stays i (fun hmem => heq (List.mem_singleton.mp hmem)) hi
      simp only [heq, hstays, false_and, if_false, false_or, Nat.add_zero]
  stays i hi hshared := by
    obtain ⟨hne, hnot⟩ := not_or.mp fun hor => hi (List.mem_cons.mpr hor)
    have hfirst := h.stays i (fun hmem => hne (List.mem_singleton.mp hmem)) hshared
    exact (h'.stays i hnot hshared).trans hfirst

/-- **Afterwards shared definitions with empty texts are written once more**, in whatever order they
are gone through, and no other one is. -/
theorem Written.exists_cleaning {places : List Nat} (hd : places.Nodup)
    (hplaces : ∀ i ∈ places, isShared (g.referenceCounts root) i = true)
    (h : g.Written root st) :
    ∃ later, g.Cleaning root places later st
      (places.foldl (g.pendingTraced (g.referenceCounts root)) st) := by
  induction places generalizing st with
  | nil =>
    refine ⟨[], rfl, nofun, fun i _ => ?_, fun _ _ _ => rfl⟩
    simp only [List.not_mem_nil, false_and, if_false]
    rfl
  | cons place places ih =>
    rw [List.nodup_cons] at hd
    rw [List.forall_mem_cons] at hplaces
    obtain ⟨first, hfirst, hmid⟩ := h.exists_cleaning_singleton hplaces.1
    obtain ⟨others, hothers⟩ := ih hd.2 hplaces.2 hmid
    exact ⟨others ++ first, hfirst.cons hd.1 hothers⟩

end Graph

end ShapeGraph
