import ShapeGraph.Proofs.Likeness

/-!
# Alike values

Alike values are like each other but for the sign of zero. What holds of all values that are like
each other holds of them; besides, literals that one value meets are alike.

* `Value.alike_eq_like` — being alike is being like each other, with equal numbers
* `Alike.refl`, `Alike.trans` — being alike is reflexive and transitive
* `alike_toValue` — the literals that hold for one value are alike
-/

namespace ShapeGraph

/-- Numbers that are equal as numbers, or one and the same. -/
def Number.Alike (x y : Number) : Prop := x.same y = true ∨ x = y

theorem Number.Alike.trans {x y z : Number} (h : x.Alike y) (h' : y.Alike z) : x.Alike z := by
  rcases h with h | rfl
  · rcases h' with h' | rfl
    · exact .inl (Number.same_trans h h')
    · exact .inl h
  · exact h'

namespace Value

/-- **Alike values are like each other, with numbers that are equal as numbers.** -/
theorem alike_eq_like : Alike = Like Number.Alike := by
  funext a b
  refine propext ⟨fun h => ?_, fun h => ?_⟩
  · induction h with
    | number h => exact .number h
    | array hlen _ ih => exact .array hlen ih
    | object hkeys _ ih => exact .object hkeys ih
    | undefined => exact .undefined
    | null => exact .null
    | bool b => exact .bool b
    | bigint n => exact .bigint n
    | string s => exact .string s
    | date millis => exact .date millis
  · induction h with
    | number h => exact .number h
    | array hlen _ ih => exact .array hlen ih
    | object hkeys _ ih => exact .object hkeys ih
    | undefined => exact .undefined
    | null => exact .null
    | bool b => exact .bool b
    | bigint n => exact .bigint n
    | string s => exact .string s
    | date millis => exact .date millis

theorem alike_iff_like {a b : Value} : a.Alike b ↔ a.Like Number.Alike b := by
  rw [alike_eq_like]

theorem Alike.refl (v : Value) : v.Alike v :=
  alike_iff_like.mpr (Like.refl (fun _ => .inr rfl) v)

theorem Alike.trans {a b c : Value} (h : a.Alike b) (h' : b.Alike c) : a.Alike c := by
  rw [alike_eq_like] at h h' ⊢
  exact Like.trans Number.Alike.trans h h'

theorem Alike.isUndefined_eq {a b : Value} (h : a.Alike b) : a.isUndefined = b.isUndefined :=
  (alike_iff_like.mp h).isUndefined_eq

/-- Literals that hold for one value are alike. -/
theorem alike_toValue {c d : Literal} {v : Value} (hc : c.holds v = true)
    (hd : d.holds v = true) : c.toValue.Alike d.toValue := by
  have hform : c.toValue.form = v.form := Literal.form_toValue hc
  refine PrunedFrom.alike (Literal.prunedFrom_toValue hc) (Literal.prunedFrom_toValue hd)
    ?_ ?_ ?_ ?_
  · cases c <;> rfl
  · cases d <;> rfl
  · rw [← hform]
    cases c <;> exact nofun
  · rw [← hform]
    cases c <;> exact nofun

/-! ## Values that may be missing -/

theorem rel_refl (o : Option Value) : Option.Rel Alike o o := by
  cases o with
  | none => exact .none
  | some v => exact .some (.refl v)

theorem rel_trans {o o' o'' : Option Value} (h : Option.Rel Alike o o')
    (h' : Option.Rel Alike o' o'') : Option.Rel Alike o o'' := by
  cases h with
  | none => exact h'
  | some h =>
    cases h' with
    | some h' => exact .some (h.trans h')

/-! ## Lists -/

theorem alike_array_of_forall₂ {xs ys : List Value} (h : List.Forall₂ Alike xs ys) :
    (array xs).Alike (array ys) := by
  rw [alike_eq_like] at h ⊢
  exact like_array_of_forall₂ h

/-- Lists of alike values are merged to alike values. -/
theorem alike_mergeAll_of_forall₂ {vs ws : List Value} (h : List.Forall₂ Alike vs ws)
    (hvs : ∀ v ∈ vs, v.isTidy = true) : (mergeAll vs).Alike (mergeAll ws) := by
  rw [alike_eq_like] at h ⊢
  exact like_mergeAll h hvs

end Value

end ShapeGraph
