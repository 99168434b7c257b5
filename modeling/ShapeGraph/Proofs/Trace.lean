import Mathlib.Data.List.Perm.Subperm
import ShapeGraph.Shape.Basic

/-!
# Definitions that are open

What is derived from a shape goes from references into definitions and comes back. While a
definition is being gone through it is open. A trace tells which definitions have been entered,
and inside which others.

* `Graph.Chain` — definitions that are open one inside the other
* `Trace` — the definitions that have been entered
-/

namespace ShapeGraph

/-! ## Open definitions -/

theorem length_le_of_nodup {l : List Nat} {n : Nat} (hd : l.Nodup) (h : ∀ i ∈ l, i < n) :
    l.length ≤ n := by
  have hsub : l ⊆ List.range n := fun i hi => List.mem_range.mpr (h i hi)
  have hle := (hd.subperm hsub).length_le
  rwa [List.length_range] at hle

namespace Graph

/-- **Definitions that are open one inside the other**, none of them twice. -/
structure Chain (g : Graph) (chain : List Nat) : Prop where
  nodup : chain.Nodup
  lt_size : ∀ i ∈ chain, i < g.size

variable {g : Graph} {chain : List Nat} {i : Nat}

theorem Chain.nil (g : Graph) : g.Chain [] := ⟨List.nodup_nil, nofun⟩

theorem Chain.cons (h : g.Chain chain) (hi : i < g.size) (hmem : i ∉ chain) :
    g.Chain (i :: chain) :=
  ⟨List.nodup_cons.mpr ⟨hmem, h.nodup⟩, List.forall_mem_cons.mpr ⟨hi, h.lt_size⟩⟩

/-- There are no more open definitions than definitions. -/
theorem Chain.length_le (h : g.Chain chain) : chain.length ≤ g.size :=
  length_le_of_nodup h.nodup h.lt_size

/-- There is fuel for the definitions that are not open. -/
def Suffices (g : Graph) (chain : List Nat) (fuel : Nat) : Prop := g.size < fuel + chain.length

theorem Suffices.cons {fuel : Nat} (h : g.Suffices chain (fuel + 1)) (place : Nat) :
    g.Suffices (place :: chain) fuel := by
  unfold Suffices at h ⊢
  rw [List.length_cons]
  omega

theorem Chain.exists_succ (h : g.Chain chain) {fuel : Nat} (hfuel : g.Suffices chain fuel) :
    ∃ n, fuel = n + 1 := by
  have hle := h.length_le
  unfold Suffices at hfuel
  exact ⟨fuel - 1, by omega⟩

/-- How far up a definition is open is not known exactly if it is not open. -/
theorem findIdx?_eq_none_iff_not_mem : chain.findIdx? (· == i) = none ↔ i ∉ chain := by
  simp only [List.findIdx?_eq_none_iff, beq_eq_false_iff_ne]
  exact ⟨fun h hmem => h i hmem rfl, fun h j hj heq => h (heq ▸ hj)⟩

theorem suffices_nil (g : Graph) : g.Suffices [] (g.size + 1) := Nat.lt_succ_self _

end Graph

/-! ## Traces -/

/-- A definition that is entered, and those that are open around it, innermost first. -/
structure Opening where
  place : Nat
  around : List Nat

/-- The definitions that are open once it is entered. -/
def Opening.chain (e : Opening) : List Nat := e.place :: e.around

/-- What has been entered, the last one first, and whether fuel was missing somewhere. -/
structure Trace where
  openings : List Opening := []
  exhausted : Bool := false

namespace Trace

def enter (t : Trace) (place : Nat) (around : List Nat) : Trace :=
  { t with openings := ⟨place, around⟩ :: t.openings }

def exhaust (t : Trace) : Trace := { t with exhausted := true }

/-- The definitions that have been entered. -/
def places (t : Trace) : List Nat := t.openings.map (·.place)

@[simp] theorem places_enter (t : Trace) (place : Nat) (around : List Nat) :
    (t.enter place around).places = place :: t.places := rfl

/-- What is entered after what has been entered. -/
def add (t : Trace) (later : List Opening) : Trace :=
  { t with openings := later ++ t.openings }

@[simp] theorem add_add (t : Trace) (first later : List Opening) :
    (t.add first).add later = t.add (later ++ first) := by
  simp [add]

@[simp] theorem add_enter (t : Trace) (place : Nat) (around : List Nat) (later : List Opening) :
    (t.enter place around).add later = t.add (later ++ [⟨place, around⟩]) := by
  simp [add, enter]

@[simp] theorem places_add (t : Trace) (later : List Opening) :
    (t.add later).places = later.map (·.place) ++ t.places := by
  simp [add, places]

end Trace

end ShapeGraph
