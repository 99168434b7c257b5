import Mathlib.Algebra.Group.Nat.Defs
import ShapeGraph.Proofs.Fingerprinting

/-!
# Integers below `2 ^ 53` are doubles

A double that is an integer of at most 53 bits has the integer for its mantissa, shifted until it
has 53 bits, and the exponent tells how far that was. Rounding the integer finds the same shift.
So a double that is such an integer is back when the integer is rounded.

* `ordinalOfRatio_shifted` — what an integer is rounded to
* `ordinal_of_isIntegral` — the doubles that are integers
* `ofInt_truncated` — there and back; only the sign of zero is lost
* `toJson_eq` — what a number is in JSON
-/

namespace ShapeGraph.Number

/-- The number of bits of a number, from how far it has to be shifted to have 53 of them. -/
theorem log2_of_shifted {n k : Nat} (hlow : 2 ^ 52 ≤ n * 2 ^ k) (hhigh : n * 2 ^ k < 2 ^ 53) :
    n.log2 + k = 52 := by
  have hne : n ≠ 0 := by
    rintro rfl
    rw [Nat.zero_mul] at hlow
    exact absurd hlow (by decide)
  have hbelow : 2 ^ (n.log2 + k) < 2 ^ 53 := by
    rw [Nat.pow_add]
    exact Nat.lt_of_le_of_lt (Nat.mul_le_mul_right _ (Nat.log2_self_le hne)) hhigh
  have habove : 2 ^ 52 < 2 ^ (n.log2 + 1 + k) := by
    rw [Nat.pow_add]
    exact Nat.lt_of_le_of_lt hlow
      (Nat.mul_lt_mul_of_pos_right Nat.lt_log2_self (Nat.two_pow_pos k))
  have := (Nat.pow_lt_pow_iff_right (by decide)).mp hbelow
  have := (Nat.pow_lt_pow_iff_right (by decide)).mp habove
  omega

/-- **An integer of at most 53 bits is rounded to itself**: it is the mantissa, and the shift is
in the exponent. -/
theorem ordinalOfRatio_shifted {n k : Nat} (hlow : 2 ^ 52 ≤ n * 2 ^ k)
    (hhigh : n * 2 ^ k < 2 ^ 53) :
    ordinalOfRatio n 1 = (1074 - k) * 2 ^ 52 + n * 2 ^ k := by
  have hlog := log2_of_shifted hlow hhigh
  have hne : n ≠ 0 := by
    rintro rfl
    rw [Nat.zero_mul] at hlow
    exact absurd hlow (by decide)
  have hunit : max ((n.log2 : Int) - ((1 : Nat).log2 : Int) - 53) (-1074) =
      -((k + 1 : Nat) : Int) := by
    rw [show (1 : Nat).log2 = 0 by decide]
    omega
  -- the first unit that is tried leaves a bit too many
  have hwide : ¬ n * 2 ^ (k + 1) < Nat.pow 2 53 := by
    show ¬ n * 2 ^ (k + 1) < 2 ^ 53
    rw [Nat.pow_succ, ← Nat.mul_assoc]
    omega
  have hscaled : ∀ j : Nat, scaled n 1 (-(j : Int)) = (n * 2 ^ j, 1) := by
    intro j
    rw [scaled]
    split
    · next h =>
      obtain rfl : j = 0 := by omega
      simp
    · rw [Int.neg_neg]
      rfl
  have hround : roundHalfEven (n * 2 ^ k) 1 = n * 2 ^ k := by
    rw [roundHalfEven_of_dvd (by decide) (Nat.mod_one _), Nat.div_one]
  have hexponent : (-((k : Nat) : Int) + 1074).toNat = 1074 - k := by omega
  have hnext : -((k + 1 : Nat) : Int) + 1 = -(k : Int) := by omega
  rw [ordinalOfRatio, if_neg hne]
  simp only [hunit, hscaled, Nat.div_one]
  rw [if_neg hwide, hnext, hscaled]
  simp only [hround, hexponent]
  refine Nat.min_eq_left ?_
  show (1074 - k) * 2 ^ 52 + n * 2 ^ k ≤ 2047 * 2 ^ 52
  omega

/-- The mantissa and the exponent of a double in the normal range, and of the others. -/
theorem parts_cases (x : Number) :
    (x.ordinal < 2 ^ 52 ∧ x.parts = (x.ordinal, -1074)) ∨
      ∃ field m : Nat, 0 < field ∧ 2 ^ 52 ≤ m ∧ m < 2 ^ 53 ∧ x.parts = (m, (field : Int) - 1075) ∧
        x.ordinal = (field - 1) * 2 ^ 52 + m := by
  have hdiv := Nat.div_add_mod x.ordinal (2 ^ 52)
  have hmod : x.ordinal % 2 ^ 52 < 2 ^ 52 := Nat.mod_lt _ (by decide)
  have hparts : x.parts = if x.ordinal / 2 ^ 52 = 0 then (x.ordinal % 2 ^ 52, -1074)
      else (x.ordinal % 2 ^ 52 + 2 ^ 52, ((x.ordinal / 2 ^ 52 : Nat) : Int) - 1075) := rfl
  by_cases hfield : x.ordinal / 2 ^ 52 = 0
  · refine .inl ⟨by omega, ?_⟩
    rw [hparts, if_pos hfield, Nat.mod_eq_of_lt (by omega)]
  · refine .inr ⟨x.ordinal / 2 ^ 52, x.ordinal % 2 ^ 52 + 2 ^ 52, by omega, by omega, by omega, ?_,
      by omega⟩
    rw [hparts, if_neg hfield]

theorem truncated_eq (x : Number) : x.truncated =
    if x.negative then -((x.ratio.1 / x.ratio.2 : Nat) : Int) else (x.ratio.1 / x.ratio.2 : Nat) :=
  rfl

theorem natAbs_truncated (x : Number) : x.truncated.natAbs = x.ratio.1 / x.ratio.2 := by
  rw [truncated_eq]
  split
  · rw [Int.natAbs_neg, Int.natAbs_natCast]
  · rw [Int.natAbs_natCast]

theorem ratio_eq (x : Number) : x.ratio =
    if 0 ≤ x.parts.2 then (x.parts.1 * 2 ^ x.parts.2.toNat, 1)
    else (x.parts.1, 2 ^ (-x.parts.2).toNat) :=
  rfl

/-- **A double that is an integer of at most 53 bits has the integer, shifted, for its
mantissa.** -/
theorem ordinal_of_isIntegral {x : Number} (hx : x.isIntegral = true) (hzero : x.isZero = false)
    (hlt : x.truncated.natAbs < 2 ^ 53) :
    ∃ k, 2 ^ 52 ≤ x.truncated.natAbs * 2 ^ k ∧ x.truncated.natAbs * 2 ^ k < 2 ^ 53 ∧
      x.ordinal = (1074 - k) * 2 ^ 52 + x.truncated.natAbs * 2 ^ k := by
  have hdvd : x.ratio.1 % x.ratio.2 = 0 := beq_iff_eq.mp (Bool.and_eq_true_iff.mp hx).2
  have hpos : x.ordinal ≠ 0 := by simpa [isZero] using hzero
  rw [natAbs_truncated, ratio_eq] at hlt ⊢
  rw [ratio_eq] at hdvd
  rcases x.parts_cases with ⟨hsmall, hparts⟩ | ⟨field, m, hfield, hlow, hhigh, hparts, hordinal⟩
  · -- below the normal range nothing but zero is an integer
    have hnegative : ¬ (0 : Int) ≤ -1074 := by decide
    have hwide : 2 ^ 52 ≤ 2 ^ (-(-1074 : Int)).toNat :=
      Nat.pow_le_pow_right (by decide) (by decide)
    rw [hparts, if_neg hnegative, Nat.mod_eq_of_lt (Nat.lt_of_lt_of_le hsmall hwide)] at hdvd
    exact absurd hdvd hpos
  · rw [hparts] at hdvd hlt ⊢
    by_cases hexponent : (0 : Int) ≤ (field : Int) - 1075
    · -- a mantissa of 53 bits cannot be shifted any further
      rw [if_pos hexponent, Nat.div_one] at hlt ⊢
      dsimp only at hlt ⊢
      have hfield : field = 1075 := by
        by_contra hne
        have hshift : 2 ^ 1 ≤ 2 ^ ((field : Int) - 1075).toNat :=
          Nat.pow_le_pow_right (by decide) (by omega)
        have := Nat.mul_le_mul hlow hshift
        omega
      subst hfield
      refine ⟨0, ?_⟩
      simp at hlt ⊢
      omega
    · rw [if_neg hexponent] at hdvd hlt ⊢
      obtain ⟨k, hk⟩ : ∃ k : Nat, (field : Int) - 1075 = -(k : Int) := ⟨1075 - field, by omega⟩
      rw [hk, Int.neg_neg, Int.toNat_natCast] at hdvd hlt ⊢
      dsimp only at hdvd hlt ⊢
      refine ⟨k, ?_⟩
      rw [Nat.div_mul_cancel (Nat.dvd_of_mod_eq_zero hdvd)]
      exact ⟨hlow, hhigh, by rw [hordinal]; congr 2; omega⟩

/-! ## There and back -/

theorem ratio_of_isZero {x : Number} (h : x.isZero = true) : x.ratio.1 = 0 := by
  have hordinal : x.ordinal = 0 := ordinal_of_isZero h
  rw [ratio_eq]
  rcases x.parts_cases with ⟨-, hparts⟩ | ⟨_, _, _, _, _, -, hlarge⟩
  · have hnegative : ¬ (0 : Int) ≤ -1074 := by decide
    rw [hparts, if_neg hnegative, hordinal]
  · omega

theorem truncated_of_isZero {x : Number} (h : x.isZero = true) : x.truncated = 0 := by
  rw [← Int.natAbs_eq_zero, natAbs_truncated, ratio_of_isZero h, Nat.zero_div]

theorem isIntegral_eq (x : Number) :
    x.isIntegral = (x.isFinite && (x.ratio.1 % x.ratio.2 == 0)) :=
  rfl

theorem isIntegral_of_isZero {x : Number} (h : x.isZero = true) : x.isIntegral = true := by
  rw [isIntegral_eq, ratio_of_isZero h, Nat.zero_mod, isFinite, ordinal_of_isZero h]
  rfl

theorem isNaN_of_isFinite {x : Number} (h : x.isFinite = true) : x.isNaN = false := by
  simp only [isFinite, isNaN, decide_eq_true_eq, decide_eq_false_iff_not] at h ⊢
  omega

/-- **A double that is an integer of at most 53 bits is back when the integer is rounded**, but
for the sign of zero. -/
theorem ofInt_truncated {x : Number} (hx : x.isIntegral = true)
    (hlt : x.truncated.natAbs < 2 ^ 53) : ofInt x.truncated = x.normal := by
  rw [normal, isNaN_of_isFinite (Bool.and_eq_true_iff.mp hx).1, if_neg Bool.false_ne_true]
  cases hzero : x.isZero with
  | true =>
    rw [truncated_of_isZero hzero, if_pos rfl]
    rfl
  | false =>
    obtain ⟨k, hlow, hhigh, hordinal⟩ := ordinal_of_isIntegral hx hzero hlt
    have hsign : decide (x.truncated < 0) = x.negative := by
      have hpos : 0 < x.ratio.1 / x.ratio.2 := by
        rw [← natAbs_truncated]
        by_contra hnone
        rw [Nat.eq_zero_of_not_pos hnone, Nat.zero_mul] at hlow
        exact absurd hlow (by decide)
      rw [truncated_eq]
      cases x.negative with
      | true => exact decide_eq_true (by rw [if_pos rfl]; omega)
      | false => exact decide_eq_false (by rw [if_neg Bool.false_ne_true]; omega)
    rw [if_neg Bool.false_ne_true, ofInt, ofRatio, ordinalOfRatio_shifted hlow hhigh, ← hordinal,
      hsign]

/-! ## In JSON -/

/-- Whether a number is written as an integer. -/
def isShortInteger (x : Number) : Bool := x.isIntegral && decide (x.truncated.natAbs < 2 ^ 53)

theorem toJson_eq (x : Number) : x.toJson =
    if x.isShortInteger then .int x.truncated else if x.isFinite then .float x else .null := by
  rw [toJson, toInt?, isShortInteger]
  cases hx : x.isIntegral with
  | false => rfl
  | true =>
    have hfinite : x.isFinite = true := (Bool.and_eq_true_iff.mp hx).1
    rw [Bool.true_and, hfinite, if_pos rfl, if_pos rfl]
    by_cases hlt : x.truncated.natAbs < 2 ^ 53
    · rw [decide_eq_true hlt, if_pos rfl]
      exact if_pos hlt
    · rw [decide_eq_false hlt, if_neg Bool.false_ne_true]
      exact if_neg hlt

theorem isShortInteger_of_isZero {x : Number} (h : x.isZero = true) :
    x.isShortInteger = true := by
  rw [isShortInteger, isIntegral_of_isZero h, truncated_of_isZero h]
  rfl

/-- A number is written as its normal form is. -/
theorem toJson_normal (x : Number) : x.normal.toJson = x.toJson := by
  rw [normal]
  split
  · next h =>
    have hnot : ∀ {y : Number}, y.isNaN = true → y.toJson = .null := by
      intro y hy
      have hfinite : y.isFinite = false := by
        rw [Bool.eq_false_iff]
        intro hfinite
        rw [isNaN_of_isFinite hfinite] at hy
        cases hy
      rw [toJson_eq, isShortInteger, isIntegral, hfinite]
      rfl
    rw [hnot isNaN_nan, hnot h]
  · split
    · next h =>
      have hzero : ∀ {y : Number}, y.isZero = true → y.toJson = .int 0 := by
        intro y hy
        rw [toJson_eq, isShortInteger_of_isZero hy, truncated_of_isZero hy, if_pos rfl]
      rw [hzero h, hzero rfl]
    · rfl

end ShapeGraph.Number
