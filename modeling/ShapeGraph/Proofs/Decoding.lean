import ShapeGraph.Codec
import ShapeGraph.Proofs.Diagnosis
import ShapeGraph.Proofs.Parsing

/-!
# What decoding gives

Decoding parses accepted values and reports on the others. In a guarded graph parsing has always a
result where it is asked for one, and a report has always something to say. So neither the
faults of parsing nor the error for an empty report reach anyone.

* `Codec.decode_of_parse` — an accepted value is decoded to its parsed form
* `Codec.report_ne_nil`, `Codec.decode_of_rejected` — a rejected value is decoded to the first
  errors of its report
* `Codec.error_cases` — there are no other errors
-/

namespace ShapeGraph

theorem ParseFault.head_message (f : ParseFault) : f.message.toList.head? = some 'i' := by
  have h : ∀ b, ("internal error: " ++ b).toList.head? = some 'i' := by
    intro b
    rw [String.toList_append, List.head?_append]
    rfl
  exact h _

namespace Codec

theorem decode_of_rejected {c : Codec} {p : Policy} {v : Value} (h : c.accepts p v = false)
    (hne : c.report p v ≠ []) : c.decode p v = .error ((c.report p v).take maxErrors) := by
  rw [decode, h]
  cases hr : c.report p v with
  | nil => exact absurd hr hne
  | cons e es => rfl

theorem decode_of_parse {c : Codec} {p : Policy} {v w : Value} (h : c.accepts p v = true)
    (hw : c.graph.parse p c.root v = .ok w) : c.decode p v = .ok w := by
  rw [decode, if_pos h, hw]
  rfl

/-- A rejected value is reported on. -/
theorem report_ne_nil {c : Codec} {p : Policy} {v : Value} (hg : c.graph.Guarded)
    (h : c.accepts p v = false) : c.report p v ≠ [] := by
  intro hnil
  have ha : c.accepts p v = true := (hg.report_eq_nil_iff c.root v []).mp hnil
  rw [h] at ha
  cases ha

/-- Where decoding fails, the value was rejected, and the errors are from its report. -/
theorem error_cases {c : Codec} {p : Policy} {v : Value} {errors : List DecodeError}
    (hg : c.graph.Guarded) (h : c.decode p v = .error errors) :
    c.accepts p v = false ∧ errors = (c.report p v).take maxErrors := by
  cases ha : c.accepts p v with
  | true =>
    rw [decode_of_parse ha (hg.parse_eq ha)] at h
    cases h
  | false =>
    rw [decode_of_rejected ha (report_ne_nil hg ha)] at h
    cases h
    exact ⟨rfl, rfl⟩

/-- The codec of the trees. -/
def trees : Codec := ⟨"Tree", Graph.trees, .ref 2 "Tree"⟩

/-! ## Rejected values -/

/-- **Reports and acceptance agree**: nothing is reported exactly for accepted values. So a
rejected value is decoded to the first ten errors of its report, there is at least one, and none
of them stands in for having nothing to say. -/
theorem report_decides (c : Codec) (hg : c.graph.Guarded) (p : Policy) (v : Value) :
    (∀ path, c.graph.report p c.root path v = [] ↔ c.accepts p v = true) ∧
      (c.accepts p v = false → ∃ errors, c.decode p v = .error errors ∧
        errors = (c.report p v).take 10 ∧ 1 ≤ errors.length ∧ errors.length ≤ 10 ∧
        ∀ e ∈ errors, e.message? ≠ some "invalid input") := by
  refine ⟨hg.report_eq_nil_iff c.root v, fun h => ?_⟩
  have hne : c.report p v ≠ [] := report_ne_nil hg h
  have hpos : 1 ≤ (c.report p v).length := List.length_pos_of_ne_nil hne
  refine ⟨_, decode_of_rejected h hne, rfl, ?_, List.length_take_le _ _, ?_⟩
  · rw [List.length_take]
    exact Nat.le_min.mpr ⟨by decide, hpos⟩
  · intro e he hmessage
    have hsaid := hg.isSaid_of_mem_report c.root v [] e (List.mem_of_mem_take he)
    exact (hsaid _ hmessage).head_ne (by decide)

theorem report_decides_spoiltFork :
    trees.accepts {} Graph.spoiltFork = false ∧
      ∃ errors, trees.decode {} Graph.spoiltFork = .error errors ∧
        errors = (trees.report {} Graph.spoiltFork).take 10 ∧
        1 ≤ errors.length ∧ errors.length ≤ 10 ∧
        ∀ e ∈ errors, e.message? ≠ some "invalid input" :=
  have h : trees.accepts {} Graph.spoiltFork = false := by decide +kernel
  ⟨h, (report_decides trees Graph.trees_guarded {} Graph.spoiltFork).2 h⟩

/-! ## Accepted values -/

/-- **Parsing never fails after acceptance**, and what comes out has the form of what went in. So
exactly the accepted values are decoded, and no error tells of a fault of parsing. -/
theorem accepted_decodes (c : Codec) (hg : c.graph.Guarded) (p : Policy) (v : Value) :
    (c.accepts p v = true → ∃ w, c.graph.parse p c.root v = .ok w ∧ w.form = v.form) ∧
      (c.accepts p v = true ↔ ∃ w, c.decode p v = .ok w) ∧
      ∀ errors, c.decode p v = .error errors →
        ∀ e ∈ errors, ∀ f : ParseFault, e.message? ≠ some f.message := by
  refine ⟨fun ha => ⟨_, hg.parse_eq ha, hg.form_parsed ha⟩, ⟨fun ha => ?_, ?_⟩, ?_⟩
  · exact ⟨_, decode_of_parse ha (hg.parse_eq ha)⟩
  · rintro ⟨w, hw⟩
    by_contra ha
    have hrej : c.accepts p v = false := Bool.eq_false_iff.mpr ha
    rw [decode_of_rejected hrej (report_ne_nil hg hrej)] at hw
    cases hw
  · intro errors herrors e he f hmessage
    obtain ⟨-, rfl⟩ := error_cases hg herrors
    have hsaid := hg.isSaid_of_mem_report c.root v [] e (List.mem_of_mem_take he)
    exact (hsaid _ hmessage).head_ne f.head_message

theorem accepted_decodes_soundFork :
    trees.accepts {} Graph.soundFork = true ∧
      (∃ w, trees.graph.parse {} trees.root Graph.soundFork = .ok w ∧ w.form = .object) ∧
      ∃ w, trees.decode {} Graph.soundFork = .ok w :=
  have h : trees.accepts {} Graph.soundFork = true := by decide +kernel
  have hall := accepted_decodes trees Graph.trees_guarded {} Graph.soundFork
  ⟨h, hall.1 h, hall.2.1.mp h⟩

end Codec

end ShapeGraph
