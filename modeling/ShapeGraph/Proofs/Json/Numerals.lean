import Mathlib.Tactic.IntervalCases
import ShapeGraph.Json.Reader
import ShapeGraph.Proofs.Json.Trees

/-!
# Number literals that are read back

A number literal ends where a separator, a closing bracket or nothing follows it. Integers that
fit a word are read back as they were written; of a double this depends on its digits, so it is a
property of its own.

* `Follows` — what may follow a value
* `Numeral.read_append` — what follows a literal does not change how it is read
* `Json.IsExact` — numbers that are read back as they were written
* `Json.isExact_int` — integers of a word are
-/

namespace ShapeGraph

/-- What may follow a value inside a text: nothing, a separator or a closing bracket. -/
inductive Follows : Text → Prop
  | nothing : Follows []
  | comma (t) : Follows (some ',' :: t)
  | bracket (t) : Follows (some ']' :: t)
  | brace (t) : Follows (some '\x7d' :: t)

theorem Utf8.ofString_append (s t : String) : ofString (s ++ t) = ofString s ++ ofString t := by
  rw [ofString, String.toList_append, List.map_append]
  rfl

namespace Numeral

variable {t r rest : Text} {ds : List Char}

/-! ## What follows a literal -/

theorem spanDigits_of_follows (h : Follows rest) : spanDigits rest = ([], rest) := by
  cases h <;> rfl

theorem spanDigits_append (hrest : Follows rest) (h : spanDigits t = (ds, r)) :
    spanDigits (t ++ rest) = (ds, r ++ rest) := by
  induction t generalizing ds with
  | nil =>
    cases h
    exact spanDigits_of_follows hrest
  | cons c t ih =>
    cases c with
    | none =>
      cases h
      rfl
    | some c =>
      rw [List.cons_append, spanDigits]
      rw [spanDigits] at h
      by_cases hc : c.isDigit = true
      · rw [if_pos hc] at h ⊢
        cases hspan : spanDigits t with
        | mk ds' r' =>
          rw [hspan] at h
          cases h
          rw [ih hspan]
      · rw [if_neg hc] at h ⊢
        cases h
        rfl

theorem readWhole_eq_ok_iff :
    readWhole t = .ok (ds, r) ↔
      spanDigits t = (ds, r) ∧ ds ≠ [] ∧ ∀ d ds', ds ≠ '0' :: d :: ds' := by
  unfold readWhole
  split <;> grind

theorem readDigits_eq_ok_iff :
    readDigits t = .ok (ds, r) ↔ spanDigits t = (ds, r) ∧ ds ≠ [] := by
  unfold readDigits
  split <;> grind

theorem readWhole_append (hrest : Follows rest) (h : readWhole t = .ok (ds, r)) :
    readWhole (t ++ rest) = .ok (ds, r ++ rest) := by
  rw [readWhole_eq_ok_iff] at h ⊢
  exact ⟨spanDigits_append hrest h.1, h.2⟩

theorem readDigits_append (hrest : Follows rest) (h : readDigits t = .ok (ds, r)) :
    readDigits (t ++ rest) = .ok (ds, r ++ rest) := by
  rw [readDigits_eq_ok_iff] at h ⊢
  exact ⟨spanDigits_append hrest h.1, h.2⟩

theorem readSign_cons (c : Option Char) (t : Text) :
    readSign (c :: t) =
      if c = some '-' then (true, t) else if c = some '+' then (false, t) else (false, c :: t) := by
  unfold readSign
  split <;> simp_all

/-- A sign in front of digits. -/
theorem readSign_append {b : Bool} {t' : Text} (hsign : readSign t = (b, t'))
    (h : readDigits t' = .ok (ds, r)) : readSign (t ++ rest) = (b, t' ++ rest) := by
  cases t with
  | nil =>
    cases hsign
    cases h
  | cons c t =>
    rw [List.cons_append]
    rw [readSign_cons] at hsign ⊢
    split_ifs at hsign ⊢ <;> cases hsign <;> rfl

theorem readExponent_of_follows (hrest : Follows rest) : readExponent rest = .ok (none, rest) := by
  cases hrest <;> rfl

theorem readExponent_append {x : Option (Bool × List Char)} (hrest : Follows rest)
    (h : readExponent t = .ok (x, r)) : readExponent (t ++ rest) = .ok (x, r ++ rest) := by
  match t with
  | [] =>
    cases h
    exact readExponent_of_follows hrest
  | none :: t =>
    cases h
    rfl
  | some c :: t =>
    rw [List.cons_append]
    simp only [readExponent] at h ⊢
    by_cases hc : c = 'e' ∨ c = 'E'
    · simp only [if_pos hc, bind_eq_ok, pure_eq_ok] at h ⊢
      obtain ⟨⟨ds, r'⟩, hdigits, he⟩ := h
      cases he
      rw [readSign_append rfl hdigits]
      refine ⟨(ds, r' ++ rest), ?_, rfl⟩
      exact readDigits_append hrest hdigits
    · rw [if_neg hc] at h ⊢
      cases h
      rfl

/-- The digits behind a point, when there is one. -/
def readFraction (t : Text) : Except Fault (Option (List Char) × Text) :=
  match t with
  | some '.' :: rest => do
    let (ds, rest) ← readDigits rest
    pure (some ds, rest)
  | t => pure (none, t)

theorem readFraction_cons (c : Option Char) (t : Text) :
    readFraction (c :: t) =
      if c = some '.' then (readDigits t).map fun e => (some e.1, e.2) else .ok (none, c :: t) := by
  unfold readFraction
  split
  · next rest h =>
    cases h
    rw [if_pos rfl]
    cases readDigits t <;> rfl
  · next h =>
    rw [if_neg fun hc => h t (by rw [hc])]
    rfl

theorem readUnsigned_eq (negative : Bool) (t : Text) :
    readUnsigned negative t = do
      let (whole, t) ← readWhole t
      let (fraction, t) ← readFraction t
      let (exponent, t) ← readExponent t
      return (⟨negative, whole, fraction, exponent⟩, t) := by
  unfold readUnsigned
  refine bind_congr fun e => ?_
  dsimp only
  split
  · next rest h =>
    rw [h, readFraction_cons, if_pos rfl]
    cases readDigits rest <;> rfl
  · next h =>
    cases ht : e.2 with
    | nil => rfl
    | cons c t =>
      rw [readFraction_cons, if_neg fun hc => h t (by rw [ht, hc])]
      rfl

theorem readFraction_append {x : Option (List Char)} (hrest : Follows rest)
    (h : readFraction t = .ok (x, r)) : readFraction (t ++ rest) = .ok (x, r ++ rest) := by
  cases t with
  | nil =>
    cases h
    cases hrest <;> rfl
  | cons c t =>
    rw [List.cons_append]
    rw [readFraction_cons] at h ⊢
    split_ifs at h ⊢
    · cases hdigits : readDigits t with
      | error f =>
        rw [hdigits] at h
        cases h
      | ok e =>
        rw [hdigits] at h
        cases h
        rw [readDigits_append hrest hdigits]
        rfl
    · cases h
      rfl

theorem readUnsigned_append {negative : Bool} {l : Numeral} (hrest : Follows rest)
    (h : readUnsigned negative t = .ok (l, r)) :
    readUnsigned negative (t ++ rest) = .ok (l, r ++ rest) := by
  simp only [readUnsigned_eq, bind_eq_ok, pure_eq_ok] at h ⊢
  obtain ⟨⟨whole, t₁⟩, hwhole, ⟨fraction, t₂⟩, hfraction, ⟨exponent, t₃⟩, hexponent, he⟩ := h
  cases he
  exact ⟨_, readWhole_append hrest hwhole, _, readFraction_append hrest hfraction, _,
    readExponent_append hrest hexponent, rfl⟩

theorem read_cons (c : Option Char) (t : Text) :
    read (c :: t) = if c = some '-' then readUnsigned true t else readUnsigned false (c :: t) := by
  unfold read
  split
  · next rest h =>
    cases h
    rw [if_pos rfl]
  · next h => rw [if_neg fun hc => h t (by rw [hc])]

/-- **What follows a literal does not change how it is read.** -/
theorem read_append {l : Numeral} (hrest : Follows rest) (h : read t = .ok (l, r)) :
    read (t ++ rest) = .ok (l, r ++ rest) := by
  cases t with
  | nil => cases h
  | cons c t =>
    rw [List.cons_append]
    rw [read_cons] at h ⊢
    split_ifs at h ⊢
    · exact readUnsigned_append hrest h
    · exact readUnsigned_append hrest h

/-- A literal starts with a sign or a digit. -/
theorem head_of_read {l : Numeral} (h : read t = .ok (l, r)) :
    ∃ c t', t = some c :: t' ∧ (c = '-' ∨ c.isDigit = true) := by
  cases t with
  | nil => cases h
  | cons c t =>
    rw [read_cons] at h
    split_ifs at h with hc
    · exact ⟨'-', t, by rw [hc], .inl rfl⟩
    · rw [readUnsigned_eq, bind_eq_ok] at h
      obtain ⟨⟨ds, t'⟩, hwhole, -⟩ := h
      obtain ⟨hspan, hne, -⟩ := readWhole_eq_ok_iff.mp hwhole
      cases c with
      | none =>
        cases hspan
        exact absurd rfl hne
      | some c =>
        rw [spanDigits] at hspan
        split_ifs at hspan with hd
        · exact ⟨c, t, rfl, .inr hd⟩
        · cases hspan
          exact absurd rfl hne

/-! ## Integers -/

theorem spanDigits_of_digits {ds : List Char} (h : ∀ d ∈ ds, d.isDigit = true) :
    spanDigits (ds.map some) = (ds, []) := by
  induction ds with
  | nil => rfl
  | cons d ds ih =>
    rw [List.forall_mem_cons] at h
    rw [List.map_cons, spanDigits, if_pos h.1, ih h.2]

/-- The first digit of a positive number is not zero. -/
theorem head?_toDigits_ne {n : Nat} (hn : 0 < n) : (Nat.toDigits 10 n).head? ≠ some '0' := by
  induction n using Nat.strong_induction_on with | h n ih => ?_
  rw [Nat.toDigits_eq_if (by decide)]
  split_ifs with hlt
  · interval_cases n <;> decide
  · rw [List.head?_append, Option.or_of_isSome]
    · exact ih (n / 10) (by omega) (by omega)
    · rw [List.isSome_head?]
      exact Nat.toDigits_ne_nil

theorem toDigits_ne_zero_cons {n : Nat} {d : Char} {ds : List Char} :
    Nat.toDigits 10 n ≠ '0' :: d :: ds := by
  intro h
  rcases Nat.eq_zero_or_pos n with rfl | hn
  · cases h
  · exact head?_toDigits_ne hn (by rw [h]; rfl)

theorem le_ofDigitChars (ds : List Char) (n : Nat) : n ≤ Nat.ofDigitChars 10 ds n := by
  rw [Nat.ofDigitChars_eq_ofDigitChars_zero]
  have hpos : 1 * n ≤ 10 ^ ds.length * n := Nat.mul_le_mul_right n (Nat.one_le_pow' _ _)
  omega

/-- One digit of a whole number. -/
def wholeStep (e : Nat × Nat) (c : Char) : Nat × Nat :=
  let next := 10 * e.1 + (c.toNat - 48)
  if e.2 = 0 ∧ next ≤ wordLimit then (next, 0) else (e.1, e.2 + 1)

/-- The digits of a word are all taken over. -/
theorem foldl_wholeStep {ds : List Char} {n : Nat} (h : Nat.ofDigitChars 10 ds n ≤ wordLimit) :
    ds.foldl wholeStep (n, 0) = (Nat.ofDigitChars 10 ds n, 0) := by
  induction ds generalizing n with
  | nil => rfl
  | cons d ds ih =>
    rw [Nat.ofDigitChars_cons] at h ⊢
    rw [List.foldl_cons, ← ih h, wholeStep, if_pos ⟨rfl, Nat.le_trans (le_ofDigitChars ds _) h⟩]
    rfl

theorem wholeDigits_toDigits {n : Nat} (h : n ≤ wordLimit) :
    wholeDigits (Nat.toDigits 10 n) = (n, 0) := by
  rw [show wholeDigits (Nat.toDigits 10 n) = (Nat.toDigits 10 n).foldl wholeStep (0, 0) from rfl,
    foldl_wholeStep] <;> rw [Nat.ofDigitChars_ten_toDigits]
  exact h

/-- An integer without its sign. -/
theorem readUnsigned_natText (negative : Bool) (n : Nat) :
    readUnsigned negative (Utf8.ofString (Number.natText n)) =
      .ok (⟨negative, Nat.toDigits 10 n, none, none⟩, []) := by
  have hdigits : ∀ d ∈ Nat.toDigits 10 n, d.isDigit = true := fun d hd =>
    Nat.isDigit_of_mem_toDigits (by decide) (by decide) hd
  have hwhole : readWhole (Utf8.ofString (Number.natText n)) = .ok (Nat.toDigits 10 n, []) := by
    rw [Utf8.ofString, Number.natText, String.toList_ofList, readWhole_eq_ok_iff]
    exact ⟨spanDigits_of_digits hdigits, Nat.toDigits_ne_nil, fun _ _ => toDigits_ne_zero_cons⟩
  rw [readUnsigned_eq, hwhole]
  rfl

theorem read_natText (n : Nat) :
    read (Utf8.ofString (Number.natText n)) =
      .ok (⟨false, Nat.toDigits 10 n, none, none⟩, []) := by
  have hread := readUnsigned_natText false n
  rw [Utf8.ofString, Number.natText, String.toList_ofList] at hread ⊢
  cases hds : Nat.toDigits 10 n with
  | nil => exact absurd hds Nat.toDigits_ne_nil
  | cons d ds =>
    have hd : d.isDigit = true :=
      Nat.isDigit_of_mem_toDigits (n := n) (by decide) (by decide) (hds ▸ List.mem_cons_self)
    have hsign : some d ≠ some '-' := by
      rintro ⟨rfl⟩
      cases hd
    rw [hds] at hread
    rw [List.map_cons, read_cons, if_neg hsign]
    exact hread

end Numeral

namespace Json

/-! ## Exact numbers -/

/-- A number that is read back as it was written. -/
def ReadsBack (j : Json) : Prop :=
  ∃ l : Numeral, Numeral.read (Utf8.ofString j.compact) = .ok (l, []) ∧ l.value = .ok j

/-- A tree whose numbers are all read back as they were written. -/
def IsExact : Json → Prop := ForallNumbers ReadsBack

/-- **An integer that fits a word is read back as it was written.** -/
theorem readsBack_int {n : Int} (hlow : -(2 ^ 63) ≤ n) (hhigh : n < 2 ^ 64) :
    ReadsBack (.int n) := by
  have hword : Numeral.wordLimit = 18446744073709551615 := by decide
  have hlimit : n.natAbs ≤ Numeral.wordLimit := by omega
  by_cases hn : n < 0
  · refine ⟨⟨true, Nat.toDigits 10 n.natAbs, none, none⟩, ?_, ?_⟩
    · rw [compact, Number.intText, if_pos hn, Utf8.ofString_append]
      exact Numeral.readUnsigned_natText true n.natAbs
    · have hvalue : Nat.pow 2 63 = 9223372036854775808 := by decide
      have hne : n.natAbs ≠ 0 := by omega
      have hback : -(n.natAbs : Int) = n := by omega
      rw [Numeral.value, Numeral.wholeDigits_toDigits hlimit]
      simp only [Option.isNone_none, Bool.and_self, beq_self_eq_true, if_true, Bool.not_true,
        Bool.false_eq_true, if_false, hne]
      rw [if_pos (by omega), hback]
  · refine ⟨⟨false, Nat.toDigits 10 n.natAbs, none, none⟩, ?_, ?_⟩
    · rw [compact, Number.intText, if_neg hn]
      exact Numeral.read_natText n.natAbs
    · have hback : (n.natAbs : Int) = n := by omega
      rw [Numeral.value, Numeral.wholeDigits_toDigits hlimit]
      simp only [Option.isNone_none, Bool.and_self, beq_self_eq_true, if_true, Bool.not_false,
        hback]

end Json

end ShapeGraph
