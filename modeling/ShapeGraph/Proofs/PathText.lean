import ShapeGraph.Proofs.Location

/-!
# Paths can be read back from their text

Between two segments of a text stands a point, unless the second one is an index: that begins with
a bracket. Keys without points and opening brackets leave no doubt about where a segment ends, so
the segments can be read back one after the other.

* `Path.isClear` — the segments that are told apart in a text
* `Path.ofText` — the segments of a text
* `Path.ofText_text` — they are those of the path that was written
* `Path.text_eq_text_iff` — paths with one text are one path
-/

namespace ShapeGraph

namespace Path

/-! ## Clear segments -/

/-- The characters that no segment begins or ends at. -/
def isInner (c : Char) : Bool := c != '.' && c != '['

/-- A key that can be told from its neighbours in a text. -/
def isKey (segment : String) : Bool := !segment.isEmpty && segment.toList.all isInner

/-- **A segment that can be told from its neighbours**: a decimal number in brackets, or a key that
is not empty and contains neither a point nor an opening bracket. -/
def isClear (segment : String) : Bool := (index? segment).isSome || isKey segment

theorem exists_of_index? {segment : String} {i : Nat} (h : index? segment = some i) :
    ∃ body, segment.toList = '[' :: body ∧ ∀ c ∈ body, isInner c = true := by
  unfold index? at h
  split at h
  · next cs hcs =>
    split at h
    · next hnumber =>
      obtain ⟨hlast, -, hdigits⟩ := hnumber
      refine ⟨cs, hcs, fun c hc => ?_⟩
      rw [List.all_eq_true] at hdigits
      obtain ⟨digits, rfl⟩ := List.getLast?_eq_some_iff.mp hlast
      rw [List.dropLast_concat] at hdigits
      rcases List.mem_append.mp hc with hc | hc
      · -- neither a point nor a bracket is a digit
        have hdigit := hdigits c hc
        rw [isInner, Bool.and_eq_true, bne_iff_ne, bne_iff_ne]
        constructor
        · rintro rfl
          exact absurd hdigit (by decide)
        · rintro rfl
          exact absurd hdigit (by decide)
      · rw [List.mem_singleton.mp hc]
        rfl
    · cases h
  · cases h

/-- A clear segment begins with its bracket, or it has only inner characters. -/
theorem isClear_cases {segment : String} (h : isClear segment = true) :
    (∃ body, segment.toList = '[' :: body ∧ ∀ c ∈ body, isInner c = true) ∨
      (segment.toList ≠ [] ∧ ∀ c ∈ segment.toList, isInner c = true) := by
  rw [isClear, Bool.or_eq_true] at h
  rcases h with h | h
  · obtain ⟨i, hi⟩ := Option.isSome_iff_exists.mp h
    exact .inl (exists_of_index? hi)
  · rw [isKey, Bool.and_eq_true, List.all_eq_true] at h
    refine .inr ⟨fun hnil => ?_, h.2⟩
    rw [String.toList_eq_nil_iff.mp hnil] at h
    cases h.1

theorem ne_nil_of_isClear {segment : String} (h : isClear segment = true) :
    segment.toList ≠ [] := by
  rcases isClear_cases h with ⟨body, hbody, -⟩ | ⟨hne, -⟩
  · rw [hbody]
    exact List.cons_ne_nil _ _
  · exact hne

/-! ## Writing -/

/-- A segment as it stands behind another one. -/
def mark (segment : String) : List Char :=
  if segment.toList.head? == some '[' then segment.toList else '.' :: segment.toList

/-- **Behind a text every segment is written with its mark.** -/
theorem extend_eq {text : List Char} (h : text ≠ []) (path : Path) :
    extend text path = text ++ path.flatMap mark := by
  induction path generalizing text with
  | nil => rw [extend, List.flatMap_nil, List.append_nil]
  | cons segment path ih =>
    have hempty : text.isEmpty = false := List.isEmpty_eq_false_iff.mpr h
    simp only [extend, hempty, Bool.false_or]
    rw [List.flatMap_cons, ← List.append_assoc, mark]
    split
    · exact ih (List.append_ne_nil_of_left_ne_nil h _)
    · exact ih (List.append_ne_nil_of_left_ne_nil h _)

theorem mark_of_bracket {segment : String} {body : List Char}
    (h : segment.toList = '[' :: body) : mark segment = '[' :: body := by
  rw [mark, h]
  rfl

theorem mark_of_inner {segment : String} (h : ∀ c ∈ segment.toList, isInner c = true) :
    mark segment = '.' :: segment.toList := by
  refine if_neg fun hhead => ?_
  have hmem := List.mem_of_head? (beq_iff_eq.mp hhead)
  exact absurd (h '[' hmem) (by decide)

theorem toList_text_cons {segment : String} (h : segment.toList ≠ []) (path : Path) :
    (text (segment :: path)).toList = segment.toList ++ path.flatMap mark := by
  rw [text, String.toList_ofList]
  exact extend_eq h path

/-! ## Reading -/

/-- A segment that has come to its end. -/
def closed (current : List Char) : Path :=
  if current.isEmpty then [] else [String.ofList current]

/-- The segments of a text of which `current` has been read: a point ends a segment, and so does a
bracket, with which the next one begins. -/
def segments : List Char → List Char → Path
  | current, [] => closed current
  | current, '.' :: cs => closed current ++ segments [] cs
  | current, '[' :: cs => closed current ++ segments ['['] cs
  | current, c :: cs => segments (current ++ [c]) cs

/-- **The segments of a text.** -/
def ofText (text : String) : Path := segments [] text.toList

theorem closed_of_ne_nil {current : List Char} (h : current ≠ []) :
    closed current = [String.ofList current] :=
  if_neg fun hempty => h (List.isEmpty_iff.mp hempty)

theorem segments_inner {c : Char} (h : isInner c = true) (current cs : List Char) :
    segments current (c :: cs) = segments (current ++ [c]) cs := by
  rw [isInner, Bool.and_eq_true, bne_iff_ne, bne_iff_ne] at h
  rw [segments]
  · exact h.1
  · exact h.2

/-- Inner characters are read into the segment. -/
theorem segments_append {cs : List Char} (h : ∀ c ∈ cs, isInner c = true)
    (current rest : List Char) :
    segments current (cs ++ rest) = segments (current ++ cs) rest := by
  induction cs generalizing current with
  | nil => rw [List.nil_append, List.append_nil]
  | cons c cs ih =>
    rw [List.forall_mem_cons] at h
    rw [List.cons_append, segments_inner h.1, ih h.2, List.append_assoc]
    rfl

/-- A clear segment at the beginning is read. -/
theorem segments_first {segment : String} (h : isClear segment = true) (rest : List Char) :
    segments [] (segment.toList ++ rest) = segments segment.toList rest := by
  rcases isClear_cases h with ⟨body, hbody, hinner⟩ | ⟨-, hinner⟩
  · rw [hbody, List.cons_append, segments, segments_append hinner]
    rfl
  · exact segments_append hinner [] rest

/-- **Where a clear segment begins, the one before ends.** -/
theorem segments_mark {segment : String} (h : isClear segment = true) {current : List Char}
    (hcurrent : current ≠ []) (rest : List Char) :
    segments current (mark segment ++ rest) =
      String.ofList current :: segments segment.toList rest := by
  rcases isClear_cases h with ⟨body, hbody, hinner⟩ | ⟨-, hinner⟩
  · rw [mark_of_bracket hbody, hbody, List.cons_append, segments, closed_of_ne_nil hcurrent,
      segments_append hinner]
    rfl
  · rw [mark_of_inner hinner, List.cons_append, segments, closed_of_ne_nil hcurrent,
      segments_append hinner]
    rfl

/-- What stands behind a segment is read segment by segment. -/
theorem segments_flatMap_mark {path : Path} (h : ∀ s ∈ path, isClear s = true)
    {current : List Char} (hcurrent : current ≠ []) :
    segments current (path.flatMap mark) = String.ofList current :: path := by
  induction path generalizing current with
  | nil => exact closed_of_ne_nil hcurrent
  | cons segment path ih =>
    rw [List.forall_mem_cons] at h
    rw [List.flatMap_cons, segments_mark h.1 hcurrent, ih h.2 (ne_nil_of_isClear h.1),
      String.ofList_toList]

/-- **A path of clear segments is read back.** -/
theorem ofText_text {path : Path} (h : ∀ s ∈ path, isClear s = true) : ofText path.text = path := by
  cases path with
  | nil => rfl
  | cons segment path =>
    rw [List.forall_mem_cons] at h
    have hne := ne_nil_of_isClear h.1
    rw [ofText, toList_text_cons hne, segments_first h.1, segments_flatMap_mark h.2 hne,
      String.ofList_toList]

/-- **Paths of clear segments have one text only if they are one path.** -/
theorem text_eq_text_iff {p q : Path} (hp : ∀ s ∈ p, isClear s = true)
    (hq : ∀ s ∈ q, isClear s = true) : p.text = q.text ↔ p = q := by
  constructor
  · intro h
    calc p = ofText p.text := (ofText_text hp).symm
      _ = ofText q.text := congrArg ofText h
      _ = q := ofText_text hq
  · exact congrArg text

/-- Digits and a closing bracket in a key, next to indices. -/
theorem text_eq_text_iff_digits :
    (∀ s ∈ ["7", "[0]", "a]", "[12]", "[3]"], isClear s = true) ∧
      (∀ s ∈ ["7", "[0]", "a]", "[123]"], isClear s = true) ∧
      (text ["7", "[0]", "a]", "[12]", "[3]"] = text ["7", "[0]", "a]", "[123]"] ↔
        ["7", "[0]", "a]", "[12]", "[3]"] = ["7", "[0]", "a]", "[123]"]) :=
  have hp : ∀ s ∈ ["7", "[0]", "a]", "[12]", "[3]"], isClear s = true := by decide
  have hq : ∀ s ∈ ["7", "[0]", "a]", "[123]"], isClear s = true := by decide
  ⟨hp, hq, text_eq_text_iff hp hq⟩

/-- Without the conditions it does not hold: a key may look like two. -/
example : text ["a.b"] = text ["a", "b"] := by decide

end Path

end ShapeGraph
