import ShapeGraph.Proofs.Description.Counting
import ShapeGraph.Proofs.Trace

/-!
# The first pass of a description, traced

The first pass is run again with a trace beside the counts: which definitions are entered, inside
which others, and whether fuel was missing. The trace changes nothing about the counts. In every
graph the fuel lasts, and each definition that is mentioned is entered once.

Of the definitions on a loop one at least is mentioned twice: by the one before it on the loop, and
from where the loop is come to for the first time.

* `Graph.countTraced` — the first pass with its trace, and `countRef_eq` — without it
* `Graph.Tallied` — every definition that has been counted has been entered once
* `mem_measured_iff` — what has been entered at the end
* `exists_shared_of_cycle` — a loop goes through a shared definition
-/

namespace ShapeGraph

namespace Graph

/-! ## Counting with a trace -/

/-- Count a reference inside the definitions `chain`, and enter its definition if it is the first
one. -/
def countTraced (g : Graph) :
    Nat → List Nat → Nat → String → List Nat × Trace → String × (List Nat × Trace)
  | 0, _, _, name, (counts, t) => (name, counts, t.exhaust)
  | fuel + 1, chain, place, name, (counts, t) =>
    match g.shape? place with
    | none => (name, counts, t)
    | some s =>
      let before := counts.getD place 0
      let counts := counts.set place (before + 1)
      if before = 0 then
        (name, (s.describe (countTraced g fuel (place :: chain)) (counts, t.enter place chain)).2)
      else (name, counts, t)

variable (g : Graph)

/-- **The trace changes nothing about the counts.** -/
theorem countRef_eq (fuel : Nat) (chain : List Nat) (place : Nat) (name : String)
    (st : List Nat × Trace) :
    g.countRef fuel place name st.1 =
      Prod.map id Prod.fst (g.countTraced fuel chain place name st) := by
  induction fuel generalizing chain place name st with
  | zero => rfl
  | succ fuel ih =>
    obtain ⟨counts, t⟩ := st
    simp only [countRef, countTraced]
    cases g.shape? place with
    | none => rfl
    | some s =>
      by_cases hfirst : counts.getD place 0 = 0
      · have hbody := Shape.describe_map (fun place' => ih (place :: chain) place') s
          (counts.set place (counts.getD place 0 + 1), t.enter place chain)
        simp only [hfirst, if_true] at hbody ⊢
        rw [hbody]
        rfl
      · simp only [hfirst, if_false]
        rfl

/-- Every definition that has been counted has been entered once. -/
structure Tallied (st : List Nat × Trace) : Prop where
  length_eq : st.1.length = g.size
  exhausted : st.2.exhausted = false
  nodup : st.2.places.Nodup
  mem_places : ∀ i, i ∈ st.2.places ↔ i ∈ counted st.1

variable {g}

/-- A definition is entered at its first count. -/
theorem Tallied.enter {counts : List Nat} {t : Trace} (h : g.Tallied (counts, t)) {place : Nat}
    (hplace : place < g.size) (hn : counts.getD place 0 = 0) (chain : List Nat) :
    g.Tallied (counts.set place 1, t.enter place chain) where
  length_eq := (List.length_set ..).trans h.length_eq
  exhausted := h.exhausted
  nodup := by
    refine List.nodup_cons.mpr ⟨fun hmem => ?_, h.nodup⟩
    exact not_mem_counted hn ((h.mem_places place).mp hmem)
  mem_places i := by
    have hlt : place < counts.length := h.length_eq ▸ hplace
    have hmem : i ∈ t.places ↔ i ∈ counted counts := h.mem_places i
    rw [Trace.places_enter, List.mem_cons, counted_set_one hlt, Finset.mem_insert, hmem]

/-- Later counts enter nothing. -/
theorem Tallied.again {counts : List Nat} {t : Trace} (h : g.Tallied (counts, t)) {place n : Nat}
    (hplace : place < g.size) (hn : counts.getD place 0 = n + 1) :
    g.Tallied (counts.set place (n + 2), t) where
  length_eq := (List.length_set ..).trans h.length_eq
  exhausted := h.exhausted
  nodup := h.nodup
  mem_places i := by
    have hlt : place < counts.length := h.length_eq ▸ hplace
    rw [counted_set_succ hlt hn]
    exact h.mem_places i

/-- Fuel for all definitions that have not been counted is enough for one reference. -/
def TalliesRefs (g : Graph) (fuel : Nat) : Prop :=
  ∀ chain place name st, g.Tallied st → g.size < fuel + (counted st.1).card →
    g.Tallied (g.countTraced fuel chain place name st).2

/-- The references of a shape are counted one after the other. -/
theorem TalliesRefs.describe {fuel : Nat} (h : g.TalliesRefs fuel) (chain : List Nat) (s : Shape)
    {st : List Nat × Trace} (hst : g.Tallied st)
    (hfuel : g.size < fuel + (counted st.1).card) :
    g.Tallied (s.describe (g.countTraced fuel chain) st).2 := by
  rw [Shape.describe_state]
  generalize s.mentions = ms
  induction ms generalizing st with
  | nil => exact hst
  | cons m ms ih =>
    have hfirst := h chain m.1 m.2 st hst hfuel
    -- nothing is forgotten, so there is fuel for the others
    have hcounting := g.countsRefs fuel m.1 m.2 st.1 hst.length_eq hfuel
    rw [g.countRef_eq fuel chain] at hcounting
    have hcard := hcounting.card_le
    exact ih hfirst (Nat.lt_of_lt_of_le hfuel (Nat.add_le_add_left hcard fuel))

/-- **What counting one reference enters**, where fuel is left for all definitions that have not
been counted. -/
theorem talliesRefs (g : Graph) (fuel : Nat) : g.TalliesRefs fuel := by
  -- as for the counts: one unit of fuel, one more definition among the counted ones
  induction fuel with
  | zero =>
    intro chain place name st hst hfuel
    have hle := card_counted_le st.1
    have hlen := hst.length_eq
    omega
  | succ fuel ih =>
    intro chain place name st hst hfuel
    obtain ⟨counts, t⟩ := st
    simp only [countTraced]
    cases ht : g.shape? place with
    | none => exact hst
    | some s =>
      have hplace := lt_size_of_shape? ht
      cases hn : counts.getD place 0 with
      | succ n => exact hst.again hplace hn
      | zero =>
        have hlt : place < counts.length := hst.length_eq ▸ hplace
        have hfuel : g.size < fuel + 1 + (counted counts).card := hfuel
        have hcard : (counted (counts.set place 1)).card = (counted counts).card + 1 := by
          rw [counted_set_one hlt, Finset.card_insert_of_notMem (not_mem_counted hn)]
        refine ih.describe (place :: chain) s (hst.enter hplace hn chain) ?_
        show g.size < fuel + (counted (counts.set place 1)).card
        rw [hcard]
        omega

/-! ## The trace at the end -/

/-- The first pass over a root, with its trace. -/
def measured (g : Graph) (root : Shape) : List Nat × Trace :=
  (root.describe (g.countTraced (g.size + 1) []) (List.replicate g.size 0, {})).2

variable (g) (root : Shape)

theorem measured_fst : (g.measured root).1 = g.referenceCounts root := by
  have h := Shape.describe_map (fun place => g.countRef_eq (g.size + 1) [] place) root
    (List.replicate g.size 0, {})
  exact (congrArg Prod.snd h).symm

theorem tallied_measured : g.Tallied (g.measured root) := by
  refine (g.talliesRefs (g.size + 1)).describe [] root ⟨?_, rfl, List.nodup_nil, fun i => ?_⟩ ?_
  · exact List.length_replicate
  · show i ∈ [] ↔ i ∈ counted (List.replicate g.size 0)
    rw [counted_replicate]
    exact ⟨nofun, fun h => absurd h (Finset.notMem_empty i)⟩
  · show g.size < g.size + 1 + _
    omega

/-- **What has been entered at the end** are the definitions that are mentioned. -/
theorem mem_measured_iff {i : Nat} :
    i ∈ (g.measured root).2.places ↔ i < g.size ∧ g.Mentioned root i := by
  rw [(g.tallied_measured root).mem_places, measured_fst, mem_counted_iff]

/-! ## Loops -/

variable {g root}

/-- What stands in a chain of definitions behind the first one is mentioned by one of them. -/
theorem exists_mentions_of_mem {i j : Nat} {c : List Nat}
    (h : List.IsChain g.Mentions (i :: c)) (hj : j ∈ c) : ∃ k ∈ i :: c, g.Mentions k j := by
  induction c generalizing i with
  | nil => cases hj
  | cons k c ih =>
    rw [List.isChain_cons_cons] at h
    rcases List.mem_cons.mp hj with rfl | hj
    · exact ⟨i, List.mem_cons_self, h.1⟩
    · obtain ⟨l, hl, hlj⟩ := ih h.2 hj
      exact ⟨l, List.mem_cons_of_mem i hl, hlj⟩

theorem mentioned_of_mem {i j : Nat} {c : List Nat} (h : List.IsChain g.Mentions (i :: c))
    (hi : g.Mentioned root i) (hj : j ∈ i :: c) : g.Mentioned root j := by
  induction c generalizing i with
  | nil =>
    obtain rfl := List.mem_singleton.mp hj
    exact hi
  | cons k c ih =>
    rw [List.isChain_cons_cons] at h
    rcases List.mem_cons.mp hj with rfl | hj
    · exact hi
    · exact ih h.2 (hi.step h.1) hj

/-- All but the last one in a chain mention something, so they are definitions. -/
theorem lt_size_of_mem_chain {i j k : Nat} {c : List Nat}
    (h : List.IsChain g.Mentions (i :: (c ++ [k]))) (hj : j ∈ i :: c) : j < g.size := by
  induction c generalizing i with
  | nil =>
    obtain rfl := List.mem_singleton.mp hj
    rw [List.nil_append, List.isChain_cons_cons] at h
    exact h.1.lt_size
  | cons l c ih =>
    rw [List.cons_append, List.isChain_cons_cons] at h
    rcases List.mem_cons.mp hj with rfl | hj
    · exact h.1.lt_size
    · exact ih h.2 hj

/-- Among some definitions of which one is mentioned, there is one that is come to from outside. -/
theorem Mentioned.exists_from_outside {i : Nat} (h : g.Mentioned root i) {l : List Nat}
    (hi : i ∈ l) : ∃ j ∈ l, j ∈ root.mentions.map (·.1) ∨
      ∃ k, k ∉ l ∧ g.Mentioned root k ∧ g.Mentions k j := by
  obtain ⟨m, hm, hlead⟩ := h
  induction hlead with
  | refl => exact ⟨m.1, hi, .inl (List.mem_map_of_mem hm)⟩
  | @tail k i hlead hki ih =>
    by_cases hk : k ∈ l
    · exact ih hk
    · exact ⟨i, hi, .inr ⟨k, hk, ⟨m, hm, hlead⟩, hki⟩⟩

/-- **A loop goes through a shared definition**, from wherever it is come to. -/
theorem exists_shared_of_cycle {i : Nat} {c : List Nat} (hi : g.Mentioned root i)
    (hc : List.IsChain g.Mentions (i :: (c ++ [i]))) : ∃ j ∈ i :: c, g.Shared root j := by
  have hloop : ∀ j ∈ i :: (c ++ [i]), j ∈ i :: c := by
    intro j hj
    rcases List.mem_cons.mp hj with rfl | hj
    · exact List.mem_cons_self
    · rcases List.mem_append.mp hj with hj | hj
      · exact List.mem_cons_of_mem i hj
      · rw [List.mem_singleton.mp hj]
        exact List.mem_cons_self
  obtain ⟨j, hj, houtside⟩ := hi.exists_from_outside (List.mem_cons_self (l := c))
  have hbehind : j ∈ c ++ [i] := by
    rcases List.mem_cons.mp hj with rfl | hj
    · exact List.mem_append_right c List.mem_cons_self
    · exact List.mem_append_left [i] hj
  -- one mention is by the definition before `j` on the loop, the other one is from outside
  obtain ⟨k, hk, hkj⟩ := exists_mentions_of_mem hc hbehind
  have hmentioned := mentioned_of_mem hc hi hk
  refine ⟨j, hj, ?_⟩
  rcases houtside with hroot | ⟨l, hl, hlmentioned, hlj⟩
  · exact hmentioned.shared_of_root hroot hkj
  · have hne : k ≠ l := by
      rintro rfl
      exact hl (hloop k hk)
    exact hmentioned.shared_of_ne hne hkj hlmentioned hlj

end Graph

end ShapeGraph
