import ShapeGraph.Command.Inputs
import ShapeGraph.Proofs.Json.Reading

/-!
# Trees on lines

The compact text of a tree stands on one line: line breaks inside of it are escaped, and something
of it can always be seen. So texts of trees that are joined by line breaks are the lines of the
whole.

* `IsLine` — a text that stands on one line
* `splitLines_intercalate` — joined lines are split again
* `Json.isLine_compact` — trees stand on one line
* `Selection.texts_intercalate` — each line is the text of an input
-/

namespace ShapeGraph

/-- What is true of the characters of a text, checked one by one. (Deciding the statement itself
could come to going through all characters there are.) -/
theorem forall_of_all {P : Char → Prop} [DecidablePred P] {cs : List Char}
    (h : (cs.all fun c => decide (P c)) = true) : ∀ c ∈ cs, P c := fun c hc =>
  of_decide_eq_true (List.all_eq_true.mp h c hc)

/-- A text that stands on one line: none of its characters breaks the line, and one of them can be
seen. -/
structure IsLine (cs : List Char) : Prop where
  printable : ∀ c ∈ cs, 32 ≤ c.toNat
  visible : ∃ c ∈ cs, CharProperty.isBlank c.toNat = false

namespace IsLine

variable {cs : List Char}

theorem ne_nil (h : IsLine cs) : cs ≠ [] := by
  obtain ⟨c, hc, -⟩ := h.visible
  exact List.ne_nil_of_mem hc

theorem isBlankLine_eq (h : IsLine cs) : isBlankLine cs = false := by
  obtain ⟨c, hc, hvisible⟩ := h.visible
  rw [isBlankLine, Bool.eq_false_iff]
  intro hall
  rw [List.all_eq_true.mp hall c hc] at hvisible
  cases hvisible

end IsLine

/-! ## Splitting -/

/-- A character that is neither of those that make a line break goes to the next line found. -/
theorem splitLines_cons {c : Char} (hbreak : c ≠ '\n') (hreturn : c ≠ '\r') (cs : List Char) :
    splitLines (c :: cs) =
      match splitLines cs with
      | [] => [[c]]
      | l :: ls => (c :: l) :: ls := by
  rw [splitLines.eq_def]
  split
  · next h => cases h
  · next h =>
    cases h
    exact absurd rfl hreturn
  · next h =>
    cases h
    exact absurd rfl hbreak
  · next h =>
    cases h
    rfl

theorem ne_break {c : Char} (h : 32 ≤ c.toNat) : c ≠ '\n' ∧ c ≠ '\r' :=
  ⟨fun hc => absurd h (hc ▸ by decide), fun hc => absurd h (hc ▸ by decide)⟩

/-- A line break after a line ends it. -/
theorem splitLines_append_break {line : List Char} (h : ∀ c ∈ line, 32 ≤ c.toNat)
    (rest : List Char) : splitLines (line ++ '\n' :: rest) = line :: splitLines rest := by
  induction line with
  | nil => rw [List.nil_append, splitLines]
  | cons c line ih =>
    rw [List.forall_mem_cons] at h
    obtain ⟨hbreak, hreturn⟩ := ne_break h.1
    rw [List.cons_append, splitLines_cons hbreak hreturn, ih h.2]

/-- The last line needs no line break. -/
theorem splitLines_last {line : List Char} (hne : line ≠ []) (h : ∀ c ∈ line, 32 ≤ c.toNat) :
    splitLines line = [line] := by
  induction line with
  | nil => exact absurd rfl hne
  | cons c line ih =>
    rw [List.forall_mem_cons] at h
    obtain ⟨hbreak, hreturn⟩ := ne_break h.1
    rw [splitLines_cons hbreak hreturn]
    cases line with
    | nil => rfl
    | cons d line => rw [ih (List.cons_ne_nil d line) h.2]

/-- **Lines that are joined by line breaks are split again.** -/
theorem splitLines_intercalate {ws : List String} (h : ∀ w ∈ ws, IsLine w.toList) :
    splitLines ("\n".intercalate ws).toList = ws.map String.toList := by
  induction ws with
  | nil => rfl
  | cons w ws ih =>
    rw [List.forall_mem_cons] at h
    cases ws with
    | nil =>
      rw [String.intercalate_singleton, splitLines_last h.1.ne_nil h.1.printable]
      rfl
    | cons v ws =>
      rw [String.intercalate_cons_cons, String.toList_append, String.toList_append,
        List.append_assoc]
      exact (splitLines_append_break h.1.printable _).trans (congrArg (w.toList :: ·) (ih h.2))

/-- Each of the joined lines is the text of an input. -/
theorem Selection.texts_intercalate {s : Selection} (hline : s.byLine = true) (name : String)
    {ws : List String} (h : ∀ w ∈ ws, IsLine w.toList) :
    (s.texts name ("\n".intercalate ws)).map Prod.snd = ws := by
  have hshown : ∀ e ∈ (ws.map String.toList).zipIdx, (!isBlankLine e.1) = true := by
    intro e he
    obtain ⟨w, hw, hline⟩ := List.mem_map.mp (List.fst_mem_of_mem_zipIdx he)
    rw [← hline, (h w hw).isBlankLine_eq]
    rfl
  rw [texts, if_pos hline, splitLines_intercalate h, List.filter_eq_self.mpr hshown, List.map_map]
  show (ws.map String.toList).zipIdx.map (String.ofList ∘ Prod.fst) = ws
  rw [← List.map_map, List.zipIdx_map_fst, List.map_map]
  exact (List.map_congr_left fun w _ => String.ofList_toList).trans (List.map_id' ws)

/-! ## Trees -/

namespace Json

/-- A character of ASCII that can be seen. -/
def IsInk (c : Char) : Prop := 33 ≤ c.toNat ∧ c.toNat < 127

instance (c : Char) : Decidable (IsInk c) := inferInstanceAs (Decidable (_ ∧ _))

theorem isBlank_of_isInk {c : Char} (h : IsInk c) : CharProperty.isBlank c.toNat = false := by
  obtain ⟨hlow, hhigh⟩ := h
  simp only [CharProperty.isBlank, Bool.or_eq_false_iff, Bool.and_eq_false_iff, beq_eq_false_iff_ne,
    decide_eq_false_iff_not]
  omega

theorem isLine_of_mem {c : Char} {cs : List Char} (h : ∀ d ∈ cs, 32 ≤ d.toNat) (hmem : c ∈ cs)
    (hc : IsInk c) : IsLine cs :=
  ⟨h, c, hmem, isBlank_of_isInk hc⟩

theorem isLine_of_ink {cs : List Char} (hne : cs ≠ []) (h : ∀ c ∈ cs, IsInk c) : IsLine cs := by
  obtain ⟨c, hc⟩ := List.exists_mem_of_ne_nil cs hne
  exact isLine_of_mem (fun d hd => Nat.le_of_succ_le (h d hd).1) hc (h c hc)

/-! ### Numbers -/

theorem isInk_of_mem_toDigits {n : Nat} {c : Char} (h : c ∈ Nat.toDigits 10 n) : IsInk c := by
  have hdigit := Nat.isDigit_of_mem_toDigits (by decide) (by decide) h
  have hrange : 48 ≤ c.toNat ∧ c.toNat ≤ 57 := by
    simp only [Char.isDigit, Bool.and_eq_true, decide_eq_true_eq] at hdigit
    exact hdigit
  unfold IsInk
  omega

theorem isLine_intText (n : Int) : IsLine (Number.intText n).toList := by
  have hdigits : (Number.natText n.natAbs).toList = Nat.toDigits 10 n.natAbs :=
    String.toList_ofList
  have hink : ∀ c ∈ Nat.toDigits 10 n.natAbs, IsInk c := fun c => isInk_of_mem_toDigits
  rw [Number.intText]
  split
  · rw [String.toList_append, hdigits]
    exact isLine_of_ink (List.cons_ne_nil _ _) (List.forall_mem_cons.mpr ⟨by decide, hink⟩)
  · rw [hdigits]
    exact isLine_of_ink Nat.toDigits_ne_nil hink

section

variable {digits : List Char} (h : ∀ c ∈ digits, IsInk c) (k : Int)

include h

theorem ink_positional : ∀ c ∈ Number.positional digits k ['.', '0'], IsInk c := by
  have hzeros : ∀ n, ∀ c ∈ Number.zeros n, IsInk c := fun n c hc =>
    (List.mem_replicate.mp hc).2 ▸ by decide
  have hfront : ∀ c ∈ digits.take k.toNat, IsInk c := fun c hc => h c (List.mem_of_mem_take hc)
  have hback : ∀ c ∈ digits.drop k.toNat, IsInk c := fun c hc => h c (List.mem_of_mem_drop hc)
  have hpoint : IsInk '.' := by decide
  have hzero : IsInk '0' := by decide
  unfold Number.positional
  split
  · simp only [List.forall_mem_append, List.forall_mem_cons]
    exact ⟨⟨hzero, hpoint, hzeros _⟩, h⟩
  · split
    · simp only [List.forall_mem_append, List.forall_mem_cons]
      exact ⟨⟨h, hzeros _⟩, hpoint, hzero, nofun⟩
    · simp only [List.forall_mem_append, List.forall_mem_cons]
      exact ⟨hfront, hpoint, hback⟩

theorem ink_scientific : ∀ c ∈ Number.scientific digits k, IsInk c := by
  have hfront : ∀ c ∈ digits.take 1, IsInk c := fun c hc => h c (List.mem_of_mem_take hc)
  have hback : ∀ c ∈ digits.drop 1, IsInk c := fun c hc => h c (List.mem_of_mem_drop hc)
  have hfraction : ∀ c ∈ (if 1 < digits.length then '.' :: digits.drop 1 else []), IsInk c := by
    split
    · exact List.forall_mem_cons.mpr ⟨by decide, hback⟩
    · exact nofun
  have hsign : IsInk (if k - 1 < 0 then '-' else '+') := by split <;> decide
  simp only [Number.scientific, List.forall_mem_append, List.forall_mem_cons]
  exact ⟨⟨hfront, hfraction⟩, by decide, hsign, fun _ => isInk_of_mem_toDigits⟩

end

theorem positional_ne_nil (digits : List Char) (k : Int) :
    Number.positional digits k ['.', '0'] ≠ [] := by
  unfold Number.positional
  split
  · exact List.cons_ne_nil _ _
  · split <;> exact List.append_ne_nil_of_right_ne_nil _ (List.cons_ne_nil _ _)

theorem isLine_jsonText (x : Number) : IsLine x.jsonText.toList := by
  -- a sign may stand in front of the digits
  have hsigned : ∀ cs : List Char, cs ≠ [] → (∀ c ∈ cs, IsInk c) →
      IsLine (Number.signText x.negative ++ String.ofList cs).toList := by
    intro cs hne hcs
    have hsign : ∀ c ∈ (Number.signText x.negative).toList, IsInk c := by
      cases x.negative <;> exact forall_of_all (by decide)
    rw [String.toList_append, String.toList_ofList]
    exact isLine_of_ink (List.append_ne_nil_of_right_ne_nil _ hne)
      (List.forall_mem_append.mpr ⟨hsign, hcs⟩)
  have hchars : ∀ c ∈ (Number.shortest .toEven x).chars, IsInk c := fun _ =>
    isInk_of_mem_toDigits
  rw [Number.jsonText]
  split
  · exact hsigned ['0', '.', '0'] (List.cons_ne_nil _ _) (forall_of_all (by decide))
  · dsimp only
    split
    · exact hsigned _ (positional_ne_nil _ _) (ink_positional hchars _)
    · exact hsigned _ (List.append_ne_nil_of_right_ne_nil _ (List.cons_ne_nil _ _))
        (ink_scientific hchars _)

/-! ### Strings and brackets -/

theorem printable_quote (s : String) : ∀ c ∈ (quote s).toList, 32 ≤ c.toNat := by
  rw [quote, String.toList_ofList]
  have hinside : ∀ c ∈ s.toList.flatMap escaped, 32 ≤ c.toNat := by
    intro c hc
    obtain ⟨d, -, hc⟩ := List.mem_flatMap.mp hc
    exact escaped_printable d c hc
  exact List.forall_mem_append.mpr
    ⟨List.forall_mem_cons.mpr ⟨by decide, hinside⟩, forall_of_all (by decide)⟩

theorem isLine_quote (s : String) : IsLine (quote s).toList := by
  refine isLine_of_mem (c := '"') (printable_quote s) ?_ (by decide)
  rw [quote, String.toList_ofList]
  exact List.mem_cons_self

theorem printable_intercalate {ws : List String} (h : ∀ w ∈ ws, ∀ c ∈ w.toList, 32 ≤ c.toNat) :
    ∀ c ∈ (",".intercalate ws).toList, 32 ≤ c.toNat := by
  induction ws with
  | nil => exact fun _ hc => nomatch hc
  | cons w ws ih =>
    rw [List.forall_mem_cons] at h
    cases ws with
    | nil =>
      rw [String.intercalate_singleton]
      exact h.1
    | cons v ws =>
      rw [String.intercalate_cons_cons, String.toList_append, String.toList_append]
      exact List.forall_mem_append.mpr
        ⟨List.forall_mem_append.mpr ⟨h.1, forall_of_all (by decide)⟩, ih h.2⟩

/-- Texts between brackets stand on one line. -/
theorem isLine_bracketed {opening closing : String} (hopening : ∃ c, opening.toList = [c] ∧ IsInk c)
    (hclosing : ∀ c ∈ closing.toList, IsInk c) {ws : List String}
    (h : ∀ w ∈ ws, ∀ c ∈ w.toList, 32 ≤ c.toNat) :
    IsLine (opening ++ ",".intercalate ws ++ closing).toList := by
  obtain ⟨c, hc, hink⟩ := hopening
  rw [String.toList_append, String.toList_append, hc]
  refine isLine_of_mem ?_ (List.mem_append_left _ List.mem_cons_self) hink
  refine List.forall_mem_append.mpr
    ⟨List.forall_mem_cons.mpr ⟨Nat.le_of_succ_le hink.1, printable_intercalate h⟩, ?_⟩
  exact fun d hd => Nat.le_of_succ_le (hclosing d hd).1

/-- **The compact text of a tree stands on one line.** -/
theorem isLine_compact (j : Json) : IsLine j.compact.toList := by
  induction j using tree_induction with
  | null => exact isLine_of_ink (by decide) (forall_of_all (by decide))
  | bool b => cases b <;> exact isLine_of_ink (by decide) (forall_of_all (by decide))
  | int n => exact isLine_intText n
  | float x =>
    rw [compact]
    split
    · exact isLine_jsonText x
    · exact isLine_of_ink (by decide) (forall_of_all (by decide))
  | str s => exact isLine_quote s
  | arr items ih =>
    rw [compact, compactItems_eq]
    refine isLine_bracketed ⟨'[', rfl, by decide⟩ (forall_of_all (by decide)) ?_
    exact List.forall_mem_map.mpr fun j hj => (ih j hj).printable
  | obj members ih =>
    rw [compact, compactMembers_eq]
    refine isLine_bracketed ⟨'\x7b', rfl, by decide⟩ (forall_of_all (by decide)) ?_
    refine List.forall_mem_map.mpr fun m hm => ?_
    rw [String.toList_append, String.toList_append]
    exact List.forall_mem_append.mpr ⟨List.forall_mem_append.mpr
      ⟨printable_quote m.1, forall_of_all (by decide)⟩, (ih m hm).printable⟩

end Json

end ShapeGraph
