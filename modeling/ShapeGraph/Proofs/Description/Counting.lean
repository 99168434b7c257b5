import Mathlib.Algebra.BigOperators.Group.Finset.Basic
import Mathlib.Algebra.Order.BigOperators.Group.Finset
import Mathlib.Data.List.GetD
import Mathlib.Logic.Relation
import ShapeGraph.Proofs.Description.Parts

/-!
# The first pass of a description

The first pass enters every definition to which it comes once, at its first count. So a
definition has been counted at the end as often as the root and the bodies of all definitions
that can be reached mention it, each body taken once.

* `Graph.Mentioned` — the definitions to which a description of a root comes
* `Graph.mentionCount` — how often they mention a definition
* `Counting` — what counting some references does to the counts
* `countsRefs`, `CountsRefs.countAll` — one reference, and one after the other
* `mem_counted_iff`, `getD_referenceCounts` — the counts at the end
* `Graph.Shared` — what is mentioned more than once
-/

namespace ShapeGraph

/-- How often a shape mentions a definition. -/
def Shape.mentionsOf (s : Shape) (i : Nat) : Nat := (s.mentions.map (·.1)).count i

namespace Graph

/-! ## Mentioned definitions -/

/-- The body of one definition mentions another one. -/
def Mentions (g : Graph) (j i : Nat) : Prop :=
  ∃ t, g.shape? j = some t ∧ i ∈ t.mentions.map (·.1)

/-- The definitions to which a description of a root comes. -/
def Mentioned (g : Graph) (root : Shape) (i : Nat) : Prop :=
  ∃ m ∈ root.mentions, Relation.ReflTransGen g.Mentions m.1 i

/-- How often the body of a definition mentions another one. -/
def bodyMentions (g : Graph) (j i : Nat) : Nat := ((g.shape? j).map (·.mentionsOf i)).getD 0

open Classical in
/-- **How often a definition is mentioned**, by a root and by the bodies of all definitions to
which a description of the root comes, each body taken once. -/
noncomputable def mentionCount (g : Graph) (root : Shape) (i : Nat) : Nat :=
  root.mentionsOf i + ∑ j ∈ (Finset.range g.size).filter (g.Mentioned root), g.bodyMentions j i

/-- Whether all references in a list lead to definitions, and bear their names. -/
def Resolves (g : Graph) (ms : List (Nat × String)) : Prop := ∀ m ∈ ms, g.name? m.1 = some m.2

/-- Whether all references in the definitions do. -/
def Closed (g : Graph) : Prop := ∀ j t, g.shape? j = some t → g.Resolves t.mentions

variable {g : Graph}

theorem bodyMentions_of_shape? {j i : Nat} {t : Shape} (h : g.shape? j = some t) :
    g.bodyMentions j i = t.mentionsOf i := by
  rw [bodyMentions, h]
  rfl

theorem bodyMentions_pos_iff {j i : Nat} : 0 < g.bodyMentions j i ↔ g.Mentions j i := by
  cases h : g.shape? j with
  | none => simp [bodyMentions, Mentions, h]
  | some t =>
    rw [bodyMentions_of_shape? h, Shape.mentionsOf, List.count_pos_iff, Mentions]
    simp [h]

theorem Mentions.lt_size {j i : Nat} (h : g.Mentions j i) : j < g.size := by
  obtain ⟨t, ht, -⟩ := h
  exact lt_size_of_shape? ht

theorem Closed.lt_of_mentions (hc : g.Closed) {j i : Nat} (h : g.Mentions j i) : i < g.size := by
  obtain ⟨t, ht, hi⟩ := h
  obtain ⟨m, hm, rfl⟩ := List.mem_map.mp hi
  exact lt_size_of_name? (hc j t ht m hm)

theorem Closed.lt_of_mentioned (hc : g.Closed) {root : Shape} (hr : g.Resolves root.mentions)
    {i : Nat} (h : g.Mentioned root i) : i < g.size := by
  obtain ⟨m, hm, hi⟩ := h
  cases hi with
  | refl => exact lt_size_of_name? (hr m hm)
  | tail _ h => exact hc.lt_of_mentions h

theorem Mentioned.step {root : Shape} {j i : Nat} (h : g.Mentioned root j)
    (hi : g.Mentions j i) : g.Mentioned root i := by
  obtain ⟨m, hm, hj⟩ := h
  exact ⟨m, hm, hj.tail hi⟩

end Graph

/-! ## What counting does -/

theorem getD_set {α : Type} {l : List α} {i : Nat} (h : i < l.length) (a d : α) (j : Nat) :
    (l.set i a).getD j d = if j = i then a else l.getD j d := by
  rw [List.getD_eq_getElem?_getD, List.getElem?_set, List.getD_eq_getElem?_getD]
  by_cases hj : i = j
  · subst hj
    simp [h]
  · have hj' : ¬ j = i := fun e => hj e.symm
    simp [hj, hj']

/-- The definitions that have been counted. -/
def counted (counts : List Nat) : Finset Nat :=
  (Finset.range counts.length).filter fun i => 0 < counts.getD i 0

theorem mem_counted {counts : List Nat} {i : Nat} : i ∈ counted counts ↔ 0 < counts.getD i 0 := by
  rw [counted, Finset.mem_filter, Finset.mem_range, and_iff_right_iff_imp]
  intro h
  by_contra hle
  rw [List.getD_eq_getElem?_getD, List.getElem?_eq_none (by omega)] at h
  exact Nat.lt_irrefl 0 h

theorem card_counted_le (counts : List Nat) : (counted counts).card ≤ counts.length := by
  have h := Finset.card_filter_le (Finset.range counts.length) fun i => 0 < counts.getD i 0
  rwa [Finset.card_range] at h

namespace Graph

/-- How often the bodies of some definitions mention a definition. -/
def bodiesMention (g : Graph) (js : Finset Nat) (i : Nat) : Nat := ∑ j ∈ js, g.bodyMentions j i

/-- What counting the references `ms`, and entering what is counted for the first time, does to
the counts. -/
structure Counting (g : Graph) (ms : List (Nat × String)) (before after : List Nat) : Prop where
  length_eq : after.length = before.length
  le : ∀ i, before.getD i 0 ≤ after.getD i 0
  /-- What is counted was counted before, or the references lead to it. -/
  reached : ∀ i, 0 < after.getD i 0 →
    0 < before.getD i 0 ∨ ∃ m ∈ ms, Relation.ReflTransGen g.Mentions m.1 i
  /-- The counts grow by the references, and by the bodies that are entered. -/
  balance : ∀ i < g.size, after.getD i 0 + g.bodiesMention (counted before) i =
    before.getD i 0 + (ms.map (·.1)).count i + g.bodiesMention (counted after) i

variable {g : Graph} {ms ms' : List (Nat × String)} {before mid after : List Nat}

theorem Counting.refl (counts : List Nat) : g.Counting [] counts counts where
  length_eq := rfl
  le _ := Nat.le_refl _
  reached _ := .inl
  balance _ _ := rfl

theorem Counting.trans (h : g.Counting ms before mid) (h' : g.Counting ms' mid after) :
    g.Counting (ms ++ ms') before after where
  length_eq := h'.length_eq.trans h.length_eq
  le i := Nat.le_trans (h.le i) (h'.le i)
  reached i hi := by
    rcases h'.reached i hi with hmid | ⟨m, hm, hlead⟩
    · rcases h.reached i hmid with hbefore | ⟨m, hm, hlead⟩
      · exact .inl hbefore
      · exact .inr ⟨m, List.mem_append_left _ hm, hlead⟩
    · exact .inr ⟨m, List.mem_append_right _ hm, hlead⟩
  balance i hi := by
    have hfirst := h.balance i hi
    have hsecond := h'.balance i hi
    rw [List.map_append, List.count_append]
    omega

theorem Counting.card_le (h : g.Counting ms before after) :
    (counted before).card ≤ (counted after).card := by
  refine Finset.card_le_card fun i hi => ?_
  exact mem_counted.mpr (Nat.lt_of_lt_of_le (mem_counted.mp hi) (h.le i))

/-- A reference that leads to no definition is not counted. -/
theorem counting_none {place : Nat} (name : String) (h : g.shape? place = none)
    (counts : List Nat) : g.Counting [(place, name)] counts counts where
  length_eq := rfl
  le _ := Nat.le_refl _
  reached _ := .inl
  balance i hi := by
    have hne : (place == i) = false := by
      refine beq_eq_false_iff_ne.mpr ?_
      rintro rfl
      obtain ⟨t, ht⟩ := exists_shape?_of_lt hi
      rw [h] at ht
      cases ht
    rw [List.map_singleton, List.count_singleton, hne]
    rfl

/-- What is counted once more is what was counted. -/
theorem counted_set_succ {place n : Nat} {counts : List Nat} (h : place < counts.length)
    (hn : counts.getD place 0 = n + 1) : counted (counts.set place (n + 2)) = counted counts := by
  ext i
  rw [mem_counted, mem_counted, getD_set h]
  split
  · next hi =>
    subst hi
    omega
  · rfl

/-- A definition that is counted again is not entered. -/
theorem counting_again {place n : Nat} (name : String) {counts : List Nat}
    (h : place < counts.length) (hn : counts.getD place 0 = n + 1) :
    g.Counting [(place, name)] counts (counts.set place (n + 2)) := by
  have hget := getD_set h (n + 2) 0
  have hcounted := counted_set_succ h hn
  refine ⟨List.length_set .., fun i => ?_, fun i hi => .inl ?_, fun i _ => ?_⟩
  · rw [hget]
    split
    · next hi =>
      subst hi
      omega
    · exact Nat.le_refl _
  · rwa [← mem_counted, ← hcounted, mem_counted]
  · rw [hcounted, hget, List.map_singleton, List.count_singleton]
    by_cases hi : i = place
    · subst hi
      simp only [if_true, beq_self_eq_true]
      omega
    · have hne : (place == i) = false := beq_eq_false_iff_ne.mpr fun e => hi e.symm
      simp only [hi, hne, if_false, Bool.false_eq_true, Nat.add_zero]

theorem not_mem_counted {counts : List Nat} {place : Nat} (hn : counts.getD place 0 = 0) :
    place ∉ counted counts := by
  rw [mem_counted, hn]
  exact Nat.lt_irrefl 0

theorem counted_set_one {counts : List Nat} {place : Nat} (h : place < counts.length) :
    counted (counts.set place 1) = insert place (counted counts) := by
  ext i
  rw [Finset.mem_insert, mem_counted, mem_counted, getD_set h]
  by_cases hi : i = place
  · simp [hi]
  · simp [hi]

/-- A definition that is counted for the first time brings the references of its body. -/
theorem counting_first {place : Nat} (name : String) {t : Shape} {counts : List Nat}
    (h : place < counts.length) (ht : g.shape? place = some t) (hn : counts.getD place 0 = 0)
    (hbody : g.Counting t.mentions (counts.set place 1) after) :
    g.Counting [(place, name)] counts after := by
  have hget := getD_set h 1 0
  have hnot := not_mem_counted hn
  have hcounted := counted_set_one h
  refine ⟨hbody.length_eq.trans (List.length_set ..), fun i => ?_, fun i hi => ?_, fun i hlt => ?_⟩
  · refine Nat.le_trans ?_ (hbody.le i)
    rw [hget]
    split
    · next hi =>
      subst hi
      omega
    · exact Nat.le_refl _
  · rcases hbody.reached i hi with hset | ⟨m, hm, hlead⟩
    · rw [hget] at hset
      split at hset
      · next hi =>
        subst hi
        exact .inr ⟨_, List.mem_singleton.mpr rfl, .refl⟩
      · exact .inl hset
    · exact .inr ⟨_, List.mem_singleton.mpr rfl,
        .head ⟨t, ht, List.mem_map_of_mem hm⟩ hlead⟩
  · have hbalance := hbody.balance i hlt
    rw [hcounted, bodiesMention, Finset.sum_insert hnot, bodyMentions_of_shape? ht,
      hget] at hbalance
    rw [bodiesMention, List.map_singleton, List.count_singleton]
    rw [Shape.mentionsOf] at hbalance
    by_cases hi : i = place
    · subst hi
      simp only [if_true, beq_self_eq_true] at hbalance ⊢
      omega
    · have hne : (place == i) = false := beq_eq_false_iff_ne.mpr fun e => hi e.symm
      simp only [hi, hne, if_false, Bool.false_eq_true] at hbalance ⊢
      omega

/-! ## Both ways of going on -/

/-- Count references one after the other. -/
def countAll (g : Graph) (fuel : Nat) (ms : List (Nat × String)) (counts : List Nat) : List Nat :=
  ms.foldl (fun counts m => (g.countRef fuel m.1 m.2 counts).2) counts

/-- Fuel for all definitions that have not been counted is enough for one reference. -/
def CountsRefs (g : Graph) (fuel : Nat) : Prop :=
  ∀ (place : Nat) (name : String) (counts : List Nat), counts.length = g.size →
    g.size < fuel + (counted counts).card →
      g.Counting [(place, name)] counts (g.countRef fuel place name counts).2

theorem CountsRefs.countAll {fuel : Nat} (h : g.CountsRefs fuel) (ms : List (Nat × String))
    {counts : List Nat} (hlen : counts.length = g.size)
    (hfuel : g.size < fuel + (counted counts).card) :
    g.Counting ms counts (g.countAll fuel ms counts) := by
  induction ms generalizing counts with
  | nil => exact .refl counts
  | cons m ms ih =>
    have hfirst := h m.1 m.2 counts hlen hfuel
    have hcard := hfirst.card_le
    exact hfirst.trans (ih (hfirst.length_eq.trans hlen) (by omega))

/-- **What counting one reference does**, where fuel is left for all definitions that have not
been counted. -/
theorem countsRefs (g : Graph) (fuel : Nat) : g.CountsRefs fuel := by
  -- a definition takes one unit of fuel when it is entered, and is among the counted ones then
  induction fuel with
  | zero =>
    intro place name counts hlen hfuel
    have hle := card_counted_le counts
    omega
  | succ fuel ih =>
    intro place name counts hlen hfuel
    cases ht : g.shape? place with
    | none =>
      simp only [countRef, ht]
      exact counting_none name ht counts
    | some t =>
      have hplace : place < counts.length := hlen ▸ lt_size_of_shape? ht
      simp only [countRef, ht]
      cases hn : counts.getD place 0 with
      | succ n => exact counting_again name hplace hn
      | zero =>
        -- one more definition is counted when its body is entered
        have hcard : (counted (counts.set place 1)).card = (counted counts).card + 1 := by
          rw [counted_set_one hplace, Finset.card_insert_of_notMem (not_mem_counted hn)]
        simp only [if_true, Shape.describe_state]
        refine counting_first name hplace ht hn ?_
        exact ih.countAll t.mentions ((List.length_set ..).trans hlen) (by omega)

/-! ## The counts at the end -/

theorem counted_replicate (n : Nat) : counted (List.replicate n 0) = ∅ := by
  refine Finset.eq_empty_of_forall_notMem fun i hi => ?_
  rw [mem_counted, List.getD_eq_getElem?_getD, List.getElem?_getD_replicate_default_eq] at hi
  exact Nat.lt_irrefl 0 hi

section

variable (g : Graph) (root : Shape)

theorem counting_root :
    g.Counting root.mentions (List.replicate g.size 0) (g.referenceCounts root) := by
  rw [referenceCounts, Shape.describe_state]
  refine (g.countsRefs (g.size + 1)).countAll root.mentions List.length_replicate ?_
  rw [counted_replicate, Finset.card_empty]
  omega

theorem length_referenceCounts : (g.referenceCounts root).length = g.size :=
  (g.counting_root root).length_eq.trans List.length_replicate

variable {i : Nat}

theorem balance_root (hi : i < g.size) :
    (g.referenceCounts root).getD i 0 =
      root.mentionsOf i + g.bodiesMention (counted (g.referenceCounts root)) i := by
  have hbalance := (g.counting_root root).balance i hi
  have hzero : (List.replicate g.size 0).getD i 0 = 0 := by
    rw [List.getD_eq_getElem?_getD, List.getElem?_getD_replicate_default_eq]
  rw [counted_replicate, bodiesMention, Finset.sum_empty, hzero] at hbalance
  rw [Shape.mentionsOf]
  omega

/-- What has been counted at the end are the definitions that are mentioned. -/
theorem mem_counted_iff :
    i ∈ counted (g.referenceCounts root) ↔ i < g.size ∧ g.Mentioned root i := by
  constructor
  · intro hi
    refine ⟨?_, ?_⟩
    · have hlt := (Finset.mem_filter.mp hi).1
      rwa [Finset.mem_range, length_referenceCounts] at hlt
    · rcases (g.counting_root root).reached i (mem_counted.mp hi) with hzero | hlead
      · rw [← mem_counted, counted_replicate] at hzero
        exact absurd hzero (Finset.notMem_empty i)
      · exact hlead
  · rintro ⟨hi, m, hm, hlead⟩
    -- along the way: what a counted body mentions has a positive balance
    induction hlead with
    | refl =>
      have hpos : 0 < root.mentionsOf m.1 := List.count_pos_iff.mpr (List.mem_map_of_mem hm)
      rw [mem_counted, g.balance_root root hi]
      omega
    | @tail j i _ hmention ih =>
      have hle : g.bodyMentions j i ≤ g.bodiesMention (counted (g.referenceCounts root)) i :=
        Finset.single_le_sum (f := fun j => g.bodyMentions j i) (fun _ _ => Nat.zero_le _)
          (ih hmention.lt_size)
      have hpos := bodyMentions_pos_iff.mpr hmention
      rw [mem_counted, g.balance_root root hi]
      omega

/-- **The first pass counts every definition as often as it is mentioned.** -/
theorem getD_referenceCounts (hi : i < g.size) :
    (g.referenceCounts root).getD i 0 = g.mentionCount root i := by
  classical
  rw [g.balance_root root hi, mentionCount, bodiesMention]
  refine congrArg (_ + ·) (Finset.sum_congr ?_ fun _ _ => rfl)
  ext j
  rw [g.mem_counted_iff root, Finset.mem_filter, Finset.mem_range]

end

/-! ## Shared definitions -/

/-- A definition is shared when it is mentioned more than once. -/
def Shared (g : Graph) (root : Shape) (i : Nat) : Prop := 2 ≤ g.mentionCount root i

theorem mentioned_of_mentionCount_pos {root : Shape} {i : Nat} (h : 0 < g.mentionCount root i) :
    g.Mentioned root i := by
  classical
  by_cases hroot : 0 < root.mentionsOf i
  · obtain ⟨m, hm, rfl⟩ := List.mem_map.mp (List.count_pos_iff.mp hroot)
    exact ⟨m, hm, .refl⟩
  · rw [mentionCount] at h
    have hsum : ∑ j ∈ (Finset.range g.size).filter (g.Mentioned root), g.bodyMentions j i ≠ 0 := by
      omega
    obtain ⟨j, hj, hbody⟩ := Finset.exists_ne_zero_of_sum_ne_zero hsum
    exact (Finset.mem_filter.mp hj).2.step (bodyMentions_pos_iff.mp (Nat.pos_of_ne_zero hbody))

theorem Shared.mentioned {root : Shape} {i : Nat} (h : g.Shared root i) : g.Mentioned root i :=
  mentioned_of_mentionCount_pos (Nat.lt_of_lt_of_le Nat.zero_lt_two h)

theorem isShared_iff {root : Shape} {i : Nat} (hi : i < g.size) :
    isShared (g.referenceCounts root) i = true ↔ g.Shared root i := by
  rw [isShared, decide_eq_true_iff, g.getD_referenceCounts root hi]
  rfl

section

variable {root : Shape} (hc : g.Closed) (hr : g.Resolves root.mentions) (i : Nat)
include hc hr

theorem Closed.getD_referenceCounts :
    (g.referenceCounts root).getD i 0 = g.mentionCount root i := by
  by_cases hi : i < g.size
  · exact g.getD_referenceCounts root hi
  · have hzero : ¬ 0 < g.mentionCount root i := fun hpos =>
      hi (hc.lt_of_mentioned hr (mentioned_of_mentionCount_pos hpos))
    rw [List.getD_eq_default _ _ (by rw [length_referenceCounts]; omega)]
    omega

variable {i}

theorem Closed.isShared_iff : isShared (g.referenceCounts root) i = true ↔ g.Shared root i := by
  rw [isShared, decide_eq_true_iff, hc.getD_referenceCounts hr]
  rfl

end

/-- What both the root and a body mention is shared. -/
theorem Mentioned.shared_of_root {root : Shape} {i j : Nat} (hroot : i ∈ root.mentions.map (·.1))
    (hj : g.Mentioned root j) (hji : g.Mentions j i) : g.Shared root i := by
  classical
  have hmem : j ∈ (Finset.range g.size).filter (g.Mentioned root) :=
    Finset.mem_filter.mpr ⟨Finset.mem_range.mpr hji.lt_size, hj⟩
  have hle :=
    Finset.single_le_sum (f := fun j => g.bodyMentions j i) (fun _ _ => Nat.zero_le _) hmem
  have hbody := bodyMentions_pos_iff.mpr hji
  have hcount : 0 < root.mentionsOf i := List.count_pos_iff.mpr hroot
  rw [Shared, mentionCount]
  omega

/-- What two bodies mention is shared. -/
theorem Mentioned.shared_of_ne {root : Shape} {i j k : Nat} (hne : j ≠ k)
    (hj : g.Mentioned root j) (hji : g.Mentions j i) (hk : g.Mentioned root k)
    (hki : g.Mentions k i) : g.Shared root i := by
  classical
  have hsub : {j, k} ⊆ (Finset.range g.size).filter (g.Mentioned root) := by
    refine Finset.insert_subset ?_ (Finset.singleton_subset_iff.mpr ?_)
    · exact Finset.mem_filter.mpr ⟨Finset.mem_range.mpr hji.lt_size, hj⟩
    · exact Finset.mem_filter.mpr ⟨Finset.mem_range.mpr hki.lt_size, hk⟩
  have hle := Finset.sum_le_sum_of_subset (f := fun j => g.bodyMentions j i) hsub
  rw [Finset.sum_pair hne] at hle
  have hj := bodyMentions_pos_iff.mpr hji
  have hk := bodyMentions_pos_iff.mpr hki
  rw [Shared, mentionCount]
  omega

end Graph

end ShapeGraph
