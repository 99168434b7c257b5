/-!
# Sorting by insertion

A sort that keeps elements of equal rank in their order.

* `sortBy_perm` — sorting only moves elements
* `sortBy_map` — elements can be changed before sorting or after
* `sortBy_pairwise`, `sortByName_pairwise` — what is sorted is in order
-/

namespace ShapeGraph

variable {α : Type}

/-- Put an element in front of the first one that does not come before it. -/
def insertBy (le : α → α → Bool) (a : α) : List α → List α
  | [] => [a]
  | b :: bs => if le a b then a :: b :: bs else b :: insertBy le a bs

/-- A list in the order of `le`, equal elements as they stood. -/
def sortBy (le : α → α → Bool) : List α → List α
  | [] => []
  | a :: as => insertBy le a (sortBy le as)

theorem insertBy_perm (le : α → α → Bool) (a : α) (bs : List α) :
    (insertBy le a bs).Perm (a :: bs) := by
  induction bs with
  | nil => exact List.Perm.refl _
  | cons b bs ih =>
    unfold insertBy
    split
    · exact List.Perm.refl _
    · exact (List.Perm.cons b ih).trans (List.Perm.swap a b bs)

theorem sortBy_perm (le : α → α → Bool) (as : List α) : (sortBy le as).Perm as := by
  induction as with
  | nil => exact List.Perm.refl _
  | cons a as ih => exact (insertBy_perm le a _).trans (ih.cons a)

theorem insertBy_map {β : Type} {le : α → α → Bool} {le' : β → β → Bool} {f : α → β}
    (h : ∀ a b, le' (f a) (f b) = le a b) (a : α) (bs : List α) :
    insertBy le' (f a) (bs.map f) = (insertBy le a bs).map f := by
  induction bs with
  | nil => rfl
  | cons b bs ih =>
    simp only [List.map_cons, insertBy, h]
    split
    · rfl
    · rw [List.map_cons, ih]

/-- A change of elements that keeps their order can be made before sorting or after. -/
theorem sortBy_map {β : Type} {le : α → α → Bool} {le' : β → β → Bool} {f : α → β}
    (h : ∀ a b, le' (f a) (f b) = le a b) (as : List α) :
    sortBy le' (as.map f) = (sortBy le as).map f := by
  induction as with
  | nil => rfl
  | cons a as ih => rw [List.map_cons, sortBy, ih, insertBy_map h, sortBy]

theorem mem_insertBy {le : α → α → Bool} {a b : α} {bs : List α} :
    b ∈ insertBy le a bs ↔ b = a ∨ b ∈ bs := by
  rw [(insertBy_perm le a bs).mem_iff, List.mem_cons]

theorem insertBy_pairwise {le : α → α → Bool} (total : ∀ a b, le a b = true ∨ le b a = true)
    (trans : ∀ a b c, le a b = true → le b c = true → le a c = true) (a : α) {bs : List α}
    (h : bs.Pairwise fun a b => le a b = true) :
    (insertBy le a bs).Pairwise fun a b => le a b = true := by
  induction h with
  | nil => exact List.pairwise_singleton _ a
  | @cons b bs hb hbs ih =>
    rw [insertBy]
    split
    · next hab =>
      refine List.pairwise_cons.mpr ⟨fun c hc => ?_, List.pairwise_cons.mpr ⟨hb, hbs⟩⟩
      rcases List.mem_cons.mp hc with rfl | hc
      · exact hab
      · exact trans a b c hab (hb c hc)
    · next hab =>
      refine List.pairwise_cons.mpr ⟨fun c hc => ?_, ih⟩
      rcases mem_insertBy.mp hc with rfl | hc
      · exact (total c b).resolve_left hab
      · exact hb c hc

/-- What is sorted is in order. -/
theorem sortBy_pairwise {le : α → α → Bool} (total : ∀ a b, le a b = true ∨ le b a = true)
    (trans : ∀ a b c, le a b = true → le b c = true → le a c = true) (as : List α) :
    (sortBy le as).Pairwise fun a b => le a b = true := by
  induction as with
  | nil => exact List.Pairwise.nil
  | cons a as ih => exact insertBy_pairwise total trans a ih

/-- Strings are ordered by the code points of their characters. -/
def stringLe (a b : String) : Bool := decide (a ≤ b)

/-- Entries sorted by name. -/
def sortByName (entries : List (String × α)) : List (String × α) :=
  sortBy (fun a b => stringLe a.1 b.1) entries

theorem sortByName_map {β : Type} (f : String × α → β) (entries : List (String × α)) :
    sortByName (entries.map fun e => (e.1, f e)) = (sortByName entries).map fun e => (e.1, f e) :=
  sortBy_map (fun _ _ => rfl) entries

theorem stringLe_total (a b : String) : stringLe a b = true ∨ stringLe b a = true := by
  rw [stringLe, stringLe, decide_eq_true_iff, decide_eq_true_iff]
  exact String.le_total a b

theorem stringLe_trans {a b c : String} (h : stringLe a b = true) (h' : stringLe b c = true) :
    stringLe a c = true :=
  decide_eq_true (String.le_trans (of_decide_eq_true h) (of_decide_eq_true h'))

/-- Entries under distinct names stand in the strict order of their names. -/
theorem sortByName_pairwise {entries : List (String × α)} (h : (entries.map (·.1)).Nodup) :
    ((sortByName entries).map (·.1)).Pairwise (· < ·) := by
  have hsorted : ((sortByName entries).map (·.1)).Pairwise fun a b => stringLe a b = true :=
    List.pairwise_map.mpr <| sortBy_pairwise (fun a b : String × α => stringLe_total a.1 b.1)
      (fun _ _ _ => stringLe_trans) entries
  have hdistinct : ((sortByName entries).map (·.1)).Nodup :=
    ((sortBy_perm _ entries).map (·.1)).nodup_iff.mpr h
  refine hsorted.imp₂ (fun a b hle hne => ?_) hdistinct
  have hle := of_decide_eq_true hle
  exact String.not_le.mp fun hge => hne (String.le_antisymm hle hge)

end ShapeGraph
