import Mathlib.Algebra.BigOperators.Fin
import Mathlib.Tactic.Ring
import ShapeGraph.Fingerprint

/-!
# The rolling hash in whole numbers

The rolling hash wraps at every step. Reduction to a word goes through sums and products, so it
may as well happen once, at the end: the hash is a sum of powers of 31, reduced.

Strings are hashed by their UTF-16 units. What is appended to a string moves the hash of the string
up by as many powers as it has units.

* `Fingerprint.roll`, `Fingerprint.roll_eq` — the rolling hash without wrapping, a sum of powers
* `Fingerprint.toInt_combineAll` — to wrap once is enough
* `Fingerprint.utf16`, `Fingerprint.ofUtf16?_utf16` — the units of a string, and their characters
* `Fingerprint.combineAll_eq_sum_and_ofString_append` — the hashes of lists and of appended strings
-/

namespace ShapeGraph

namespace Fingerprint

/-! ## Whole numbers -/

/-- The rolling hash in whole numbers, which do not wrap. -/
def roll (seed : Int) (xs : List Int32) : Int := xs.foldl (fun h x => h * 31 + x.toInt) seed

theorem sum_powers_cons (x : Int32) (xs : List Int32) :
    ∑ i : Fin (x :: xs).length, (x :: xs)[i].toInt * 31 ^ ((x :: xs).length - 1 - i) =
      x.toInt * 31 ^ xs.length + ∑ i : Fin xs.length, xs[i].toInt * 31 ^ (xs.length - 1 - i) := by
  refine (Fin.sum_univ_succ _).trans (congrArg₂ (· + ·) rfl (Finset.sum_congr rfl fun i _ => ?_))
  -- one place further on in a list that is longer by one
  have hexponent : (x :: xs).length - 1 - (i.succ : Nat) = xs.length - 1 - i := by
    rw [List.length_cons, Fin.val_succ]
    omega
  rw [hexponent]
  rfl

/-- **Every number is multiplied by 31 as often as others follow it.** -/
theorem roll_eq (seed : Int) (xs : List Int32) :
    roll seed xs =
      seed * 31 ^ xs.length + ∑ i : Fin xs.length, xs[i].toInt * 31 ^ (xs.length - 1 - i) := by
  induction xs generalizing seed with
  | nil => simp [roll]
  | cons x xs ih =>
    have hstep : roll seed (x :: xs) = roll (seed * 31 + x.toInt) xs := rfl
    rw [hstep, ih, sum_powers_cons, List.length_cons, pow_succ]
    ring

/-- The seed adds its own power, and the numbers do not notice it. -/
theorem roll_eq_add (seed : Int) (xs : List Int32) :
    roll seed xs = seed * 31 ^ xs.length + roll 0 xs := by
  rw [roll_eq seed, roll_eq 0, zero_mul, zero_add]

/-! ## Words -/

/-- A step may wrap once for its product and its sum. -/
theorem toInt_combine (h x : Int32) :
    (combine h x).toInt = (h.toInt * 31 + x.toInt).bmod (2 ^ 32) := by
  rw [combine, Int32.toInt_add, Int32.toInt_mul, Int.bmod_add_bmod]
  rfl

/-- Whether the seed was wrapped makes no difference in the end. -/
theorem roll_bmod (seed : Int) (xs : List Int32) :
    (roll (seed.bmod (2 ^ 32)) xs).bmod (2 ^ 32) = (roll seed xs).bmod (2 ^ 32) := by
  rw [roll_eq_add, roll_eq_add seed, ← Int.bmod_add_bmod, Int.bmod_mul_bmod, Int.bmod_add_bmod]

/-- **To wrap once, at the end, is to wrap at every step.** -/
theorem toInt_combineAll (seed : Int32) (xs : List Int32) :
    (combineAll seed xs).toInt = (roll seed.toInt xs).bmod (2 ^ 32) := by
  induction xs generalizing seed with
  | nil => exact (Int32.toInt_bmod seed).symm
  | cons x xs ih =>
    calc (combineAll (combine seed x) xs).toInt
      _ = (roll (combine seed x).toInt xs).bmod (2 ^ 32) := ih _
      _ = (roll (seed.toInt * 31 + x.toInt) xs).bmod (2 ^ 32) := by
        rw [toInt_combine, roll_bmod]

/-! ## UTF-16 units -/

/-- The UTF-16 units of a string. -/
def utf16 (s : String) : List Nat := s.toList.flatMap units

/-- A character that takes two units, a pair of surrogates. -/
def isSupplementary (c : Char) : Bool := 0x10000 ≤ c.toNat

/-- A unit that is a character by itself. -/
def isWhole (n : Nat) : Bool := n < 0xD800 || 0xE000 ≤ n && n < 0x10000

/-- A high surrogate and a low one. -/
def isPair (n m : Nat) : Bool := 0xD800 ≤ n && n < 0xDC00 && 0xDC00 ≤ m && m < 0xE000

/-- The characters of UTF-16 units, among which surrogates stand in pairs only. -/
def ofUtf16? : List Nat → Option (List Char)
  | [] => some []
  | [n] => if isWhole n then some [Char.ofNat n] else none
  | n :: m :: rest =>
    if isWhole n then (ofUtf16? (m :: rest)).map (Char.ofNat n :: ·)
    else if isPair n m then
      (ofUtf16? rest).map (Char.ofNat (0x10000 + (n - 0xD800) * 0x400 + (m - 0xDC00)) :: ·)
    else none

theorem ofUtf16?_cons_of_isWhole {n : Nat} (h : isWhole n = true) (rest : List Nat) :
    ofUtf16? (n :: rest) = (ofUtf16? rest).map (Char.ofNat n :: ·) := by
  cases rest with
  | nil => exact if_pos h
  | cons m rest => rw [ofUtf16?, if_pos h]

theorem ofUtf16?_cons_cons_of_isPair {n m : Nat} (h : isPair n m = true) (rest : List Nat) :
    ofUtf16? (n :: m :: rest) =
      (ofUtf16? rest).map (Char.ofNat (0x10000 + (n - 0xD800) * 0x400 + (m - 0xDC00)) :: ·) := by
  have hwhole : isWhole n = false := by grind [isWhole, isPair]
  rw [ofUtf16?, hwhole, if_neg Bool.false_ne_true, if_pos h]

/-- **The units of a character are read as this character.** -/
theorem ofUtf16?_units_append (c : Char) (rest : List Nat) :
    ofUtf16? (units c ++ rest) = (ofUtf16? rest).map (c :: ·) := by
  -- no character is a surrogate, and none lies beyond the pairs
  have hvalid : c.toNat < 0xD800 ∨ 0xDFFF < c.toNat ∧ c.toNat < 0x110000 := c.valid
  by_cases hplane : c.toNat < 0x10000
  · have hwhole : isWhole c.toNat = true := by grind [isWhole]
    have hunits : units c = [c.toNat] := if_pos hplane
    rw [hunits, List.singleton_append, ofUtf16?_cons_of_isWhole hwhole, Char.ofNat_toNat]
  · have hunits : units c =
        [0xD800 + (c.toNat - 0x10000) / 0x400, 0xDC00 + (c.toNat - 0x10000) % 0x400] :=
      if_neg hplane
    have hpair : isPair (0xD800 + (c.toNat - 0x10000) / 0x400)
        (0xDC00 + (c.toNat - 0x10000) % 0x400) = true := by grind [isPair]
    have hsum : 0x10000 + (0xD800 + (c.toNat - 0x10000) / 0x400 - 0xD800) * 0x400 +
        (0xDC00 + (c.toNat - 0x10000) % 0x400 - 0xDC00) = c.toNat := by omega
    rw [hunits, List.cons_append, List.singleton_append, ofUtf16?_cons_cons_of_isPair hpair, hsum,
      Char.ofNat_toNat]

/-- **The units of a string are read as its characters.** -/
theorem ofUtf16?_utf16 (s : String) : ofUtf16? (utf16 s) = some s.toList := by
  rw [utf16]
  induction s.toList with
  | nil => rfl
  | cons c cs ih => rw [List.flatMap_cons, ofUtf16?_units_append, ih, Option.map_some]

theorem length_units (c : Char) : (units c).length = 1 + if isSupplementary c then 1 else 0 := by
  simp only [units, isSupplementary, decide_eq_true_eq]
  split
  · next hplane => rw [if_neg (Nat.not_le.mpr hplane), List.length_singleton]
  · next hplane => rw [if_pos (Nat.not_lt.mp hplane), List.length_cons, List.length_singleton]

/-- Supplementary characters count twice. -/
theorem length_utf16 (s : String) :
    (utf16 s).length = s.length + s.toList.countP isSupplementary := by
  rw [utf16, ← String.length_toList]
  induction s.toList with
  | nil => rfl
  | cons c cs ih =>
    rw [List.flatMap_cons, List.length_append, ih, length_units, List.length_cons, List.countP_cons]
    omega

example : utf16 "a😀" = [0x61, 0xD83D, 0xDE00] := by decide

/-! ## Strings -/

/-- The words that are hashed for a string. -/
def words (s : String) : List Int32 := (utf16 s).map fun n => Int32.ofNat n

theorem length_words (s : String) : (words s).length = (utf16 s).length := List.length_map _

theorem words_append (s t : String) : words (s ++ t) = words s ++ words t := by
  rw [words, utf16, String.toList_append, List.flatMap_append, List.map_append]
  rfl

theorem ofString_append (s t : String) : ofString (s ++ t) = combineAll (ofString s) (words t) := by
  have hwords : ofString (s ++ t) = combineAll 0 (words (s ++ t)) := rfl
  rw [hwords, words_append, combineAll_append]
  rfl

theorem toInt_ofString (s : String) : (ofString s).toInt = (roll 0 (words s)).bmod (2 ^ 32) :=
  toInt_combineAll 0 (words s)

/-- **The rolling hash is a sum of powers of 31 that wraps once**, and so the hash of an appended
string is that of the first one, multiplied by 31 for every UTF-16 unit of the second, and that of
the second. -/
theorem combineAll_eq_sum_and_ofString_append :
    (∀ (seed : Int32) (xs : List Int32), (combineAll seed xs).toInt =
      (seed.toInt * 31 ^ xs.length +
        ∑ i : Fin xs.length, xs[i].toInt * 31 ^ (xs.length - 1 - i)).bmod (2 ^ 32)) ∧
    ∀ s t : String,
      (ofString (s ++ t)).toInt =
        ((ofString s).toInt * 31 ^ (utf16 t).length + (ofString t).toInt).bmod (2 ^ 32) ∧
      ofUtf16? (utf16 t) = some t.toList ∧
      (utf16 t).length = t.length + t.toList.countP isSupplementary := by
  constructor
  · intro seed xs
    rw [toInt_combineAll, roll_eq]
  · intro s t
    refine ⟨?_, ofUtf16?_utf16 t, length_utf16 t⟩
    calc (ofString (s ++ t)).toInt
      _ = (roll (ofString s).toInt (words t)).bmod (2 ^ 32) := by
        rw [ofString_append, toInt_combineAll]
      _ = ((ofString s).toInt * 31 ^ (utf16 t).length + roll 0 (words t)).bmod (2 ^ 32) := by
        rw [roll_eq_add, length_words]
      _ = ((ofString s).toInt * 31 ^ (utf16 t).length + (ofString t).toInt).bmod (2 ^ 32) := by
        rw [toInt_ofString t, Int.add_bmod_bmod]

end Fingerprint

end ShapeGraph
