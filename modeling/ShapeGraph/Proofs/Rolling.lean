import ShapeGraph.Proofs.Description.Declarations
import ShapeGraph.Proofs.Fingerprinting

/-!
# What the rolling hash of a tuple tells apart

The rolling hash goes through the parts of a tuple one after the other, and its last step can be
undone. Nothing in it says where the slots end, so the rest of an open tuple counts as one slot
more.

* `Fingerprint.combine_right_inj` — the last step can be undone
* `Shape.fingerprint_tuple` — the slots and the rest are hashed alike
* `Graph.fingerprint_opened` — which closed tuples have the fingerprint of an open one
-/

namespace ShapeGraph

namespace Fingerprint

/-- **The last step of the rolling hash can be undone.** -/
theorem combine_right_inj {h x y : Int32} : combine h x = combine h y ↔ x = y := by
  rw [combine, combine]
  exact Int32.add_right_inj (h * 31)

theorem combineAll_concat (seed : Int32) (xs : List Int32) (x : Int32) :
    combineAll seed (xs ++ [x]) = combine (combineAll seed xs) x :=
  combineAll_append seed xs [x]

end Fingerprint

open Fingerprint

/-- **All parts of a tuple are hashed in one row**, the rest as the last of them. -/
theorem Shape.fingerprint_tuple (onRef : Nat → String → Int32) (slots : List Shape)
    (rest : Option Shape) :
    fingerprint onRef (.tuple slots rest) =
      combineAll (ofKind .tuple) ((slots ++ rest.toList).map (fingerprint onRef)) := by
  cases rest with
  | none => rw [fingerprint, fingerprintAll_eq, Option.toList_none, List.append_nil]
  | some t =>
    rw [fingerprint, fingerprintAll_eq, Option.toList_some, List.map_append, List.map_singleton,
      combineAll_concat]

namespace Graph

/-- **An open tuple has the fingerprint of the closed one with a slot more exactly if that slot has
the fingerprint of the rest.** No closed tuple has the fingerprints of all that share its slots and
differ in the rest. -/
theorem fingerprint_opened (g : Graph) (slots : List Shape) :
    (∀ rest last, g.fingerprint (.tuple slots (some rest)) =
        g.fingerprint (.tuple (slots ++ [last]) none) ↔
      g.fingerprint rest = g.fingerprint last) ∧
    ∀ closed, ∃ rest ∈ [Shape.any, .never],
      g.fingerprint (.tuple slots (some rest)) ≠ g.fingerprint (.tuple closed none) := by
  have hopened : ∀ rest, g.fingerprint (.tuple slots (some rest)) =
      combine (g.fingerprint (.tuple slots none)) (g.fingerprint rest) := fun _ => rfl
  constructor
  · intro rest last
    have hclosed : g.fingerprint (.tuple (slots ++ [last]) none) =
        g.fingerprint (.tuple slots (some last)) := by
      unfold fingerprint
      rw [Shape.fingerprint_tuple, Shape.fingerprint_tuple, List.append_assoc]
      rfl
    rw [hclosed, hopened, hopened, combine_right_inj]
  · intro closed
    -- of two rests with different fingerprints one at least is told from it
    by_cases hany : g.fingerprint (.tuple slots (some .any)) = g.fingerprint (.tuple closed none)
    · refine ⟨.never, List.mem_cons_of_mem _ List.mem_cons_self, fun hnever => ?_⟩
      rw [← hany, hopened, hopened, combine_right_inj] at hnever
      exact absurd hnever (by decide : ofKind .never ≠ ofKind .any)
    · exact ⟨.any, List.mem_cons_self, hany⟩

/-- Whatever stands behind a number, pairs cannot be told from open lists. -/
theorem fingerprint_openedPair :
    folders.Built ∧ ¬ ∃ r, folders.fingerprint (.tuple [.base .number] (some r)) ≠
      folders.fingerprint (.tuple [.base .number, r] none) := by
  refine ⟨folderCodec_built.graph, fun ⟨r, hr⟩ => hr ?_⟩
  unfold fingerprint
  rw [Shape.fingerprint_tuple, Shape.fingerprint_tuple]
  rfl

end Graph

end ShapeGraph
