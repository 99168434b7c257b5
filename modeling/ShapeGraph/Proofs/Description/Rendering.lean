import ShapeGraph.Proofs.Description.Counting

/-!
# Renderings

A rendering is the text of a shape in which some definitions stand with their names and all
others are written out. It depends on no state and on no order. A loop of references that are
all written out has no rendering.

* `Graph.Renders` — the renderings of shapes
* `Renders.unique` — a shape has one rendering at most
* `Shape.describe_renders` — where the references are rendered, the shape is
-/

namespace ShapeGraph

namespace Graph

/-- `g.Renders named s text`: the text of `s` in which the definitions in `named` stand with
their names and references to all others are replaced by the text of their bodies. -/
inductive Renders (g : Graph) (named : Nat → Prop) : Shape → String → Prop
  | parts {s : Shape} {texts : List String} :
      s.isRef = false → texts.length = s.shown.length →
      (∀ e ∈ s.shown.zip texts, Renders g named e.1 e.2) → Renders g named s (s.assemble texts)
  | name {i : Nat} {label name : String} :
      named i → g.name? i = some name → Renders g named (.ref i label) name
  | body {i : Nat} {label text : String} {t : Shape} :
      ¬ named i → g.shape? i = some t → Renders g named t text → Renders g named (.ref i label) text

variable {g : Graph} {named : Nat → Prop}

/-- **A shape has one rendering at most.** -/
theorem Renders.unique {s : Shape} {text text' : String} (h : g.Renders named s text)
    (h' : g.Renders named s text') : text = text' := by
  induction h generalizing text' with
  | @parts s texts hs hlen _ ih =>
    cases h' with
    | @parts _ texts' _ hlen' hparts' =>
      refine congrArg s.assemble (List.ext_getElem (hlen.trans hlen'.symm) fun i hi hi' => ?_)
      have hshown : i < s.shown.length := hlen ▸ hi
      have hpart : (s.shown[i], texts[i]) ∈ s.shown.zip texts :=
        List.mem_iff_getElem.mpr ⟨i, by rw [List.length_zip]; omega, List.getElem_zip⟩
      have hpart' : (s.shown[i], texts'[i]) ∈ s.shown.zip texts' :=
        List.mem_iff_getElem.mpr ⟨i, by rw [List.length_zip]; omega, List.getElem_zip⟩
      exact ih _ hpart (hparts' _ hpart')
    | name => cases hs
    | body => cases hs
  | name hnamed hname =>
    cases h' with
    | parts hs => cases hs
    | name _ hname' => exact Option.some.inj (hname.symm.trans hname')
    | body hnot => exact absurd hnamed hnot
  | body hnot ht _ ih =>
    cases h' with
    | parts hs => cases hs
    | name hnamed => exact absurd hnamed hnot
    | body _ ht' htext' =>
      obtain rfl := Option.some.inj (ht.symm.trans ht')
      exact ih htext'

end Graph

/-! ## Traversals that render -/

namespace Shape

variable {g : Graph} {named : Nat → Prop} {σ : Type} {I : σ → Prop}
  {onRef : Nat → String → σ → String × σ}

/-- **Where all references are rendered, the shape is**, and what they keep of the state is
kept. -/
theorem describe_renders (s : Shape)
    (h : ∀ m ∈ s.mentions, ∀ st, I st →
      g.Renders named (.ref m.1 m.2) (onRef m.1 m.2 st).1 ∧ I (onRef m.1 m.2 st).2)
    (st : σ) (hst : I st) :
    g.Renders named s (s.describe onRef st).1 ∧ I (s.describe onRef st).2 := by
  induction s using shown_induction generalizing st with | step s ih => ?_
  cases hs : s.isRef with
  | true =>
    obtain ⟨place, label, rfl⟩ := eq_ref_of_isRef hs
    exact h (place, label) (by rw [mentions_ref]; exact List.mem_cons_self) st hst
  | false =>
    rw [mentions_of_not_ref hs] at h
    have hall : ∀ shapes : List Shape, (∀ t ∈ shapes, ∀ st, I st →
        g.Renders named t (t.describe onRef st).1 ∧ I (t.describe onRef st).2) → ∀ st, I st →
        (∀ e ∈ shapes.zip (describeAll onRef shapes st).1, g.Renders named e.1 e.2) ∧
          I (describeAll onRef shapes st).2 := by
      intro shapes
      induction shapes with
      | nil => exact fun _ st hst => ⟨nofun, hst⟩
      | cons t shapes ih =>
        intro h st hst
        obtain ⟨ht, hshapes⟩ := List.forall_mem_cons.mp h
        obtain ⟨hfirst, hst⟩ := ht st hst
        obtain ⟨hothers, hst⟩ := ih hshapes _ hst
        rw [describeAll_cons]
        exact ⟨List.forall_mem_cons.mpr ⟨hfirst, hothers⟩, hst⟩
    have hparts := hall s.shown
      (fun t ht => ih t ht fun m hm => h m (List.mem_flatMap.mpr ⟨t, ht, hm⟩)) st hst
    rw [describe_eq onRef hs]
    exact ⟨.parts hs (length_describeAll onRef _ _) hparts.1, hparts.2⟩

end Shape

end ShapeGraph
