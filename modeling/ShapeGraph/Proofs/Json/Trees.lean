import ShapeGraph.Proofs.Definitions

/-!
# JSON trees and their parts

* `Json.tree_induction` — proofs from the items and the members
* `Json.IsTidy`, `Json.isTidy_tidy` — trees in which no object has a key twice
* `Json.depth_arr_le_iff`, `Json.depth_obj_le_iff` — the depth of a tree from its parts
* `Json.numbers` — the numbers of a tree
-/

namespace ShapeGraph

/-! ## Entries with distinct names -/

namespace Entries

variable {α : Type}

theorem insert_of_not_mem {es : Entries α} {key : String} (a : α) (h : key ∉ es.keys) :
    es.insert key a = es ++ [(key, a)] := by
  induction es with
  | nil => rfl
  | cons e es ih =>
    obtain ⟨k, b⟩ := e
    have hk : k ≠ key := fun hk => h (hk ▸ List.mem_cons_self)
    have hes : key ∉ keys es := fun hm => h (List.mem_cons_of_mem _ hm)
    rw [insert, if_neg hk, ih hes]
    rfl

/-- New names come to stand at the end, in order. -/
theorem insertAll_of_nodup {es : Entries α} {pairs : List (String × α)}
    (h : (keys (es ++ pairs)).Nodup) : es.insertAll pairs = es ++ pairs := by
  induction pairs generalizing es with
  | nil => rw [List.append_nil]; rfl
  | cons e pairs ih =>
    have hnew : e.1 ∉ es.keys := by
      rw [keys, List.map_append, List.nodup_append] at h
      exact fun hm => h.2.2 _ hm _ List.mem_cons_self rfl
    rw [insertAll, List.foldl_cons, insert_of_not_mem _ hnew]
    have hsplit : es ++ e :: pairs = es ++ [(e.1, e.2)] ++ pairs := by simp
    rw [hsplit] at h ⊢
    exact ih h

/-- Pairs with distinct names are entries as they are. -/
theorem ofList_of_nodup {pairs : List (String × α)} (h : (keys pairs).Nodup) :
    ofList pairs = pairs :=
  @insertAll_of_nodup _ [] _ h

end Entries

namespace Json

/-! ## Induction -/

/-- To prove something of every tree, prove it of scalars, and of lists and objects from their
parts. -/
theorem tree_induction {motive : Json → Prop} (null : motive .null) (bool : ∀ b, motive (.bool b))
    (int : ∀ n, motive (.int n)) (float : ∀ x, motive (.float x)) (str : ∀ s, motive (.str s))
    (arr : ∀ items, (∀ j ∈ items, motive j) → motive (.arr items))
    (obj : ∀ members, (∀ m ∈ members, motive m.2) → motive (.obj members)) (j : Json) :
    motive j := by
  refine (measure sizeOf).wf.induction j fun j ih => ?_
  cases j with
  | null => exact null
  | bool b => exact bool b
  | int n => exact int n
  | float x => exact float x
  | str s => exact str s
  | arr items =>
    refine arr items fun j hj => ih j ?_
    have hlt := List.sizeOf_lt_of_mem hj
    show sizeOf j < sizeOf (Json.arr items)
    rw [Json.arr.sizeOf_spec]
    omega
  | obj members =>
    refine obj members fun m hm => ih m.2 ?_
    have hlt := List.sizeOf_lt_of_mem hm
    rw [show sizeOf m = 1 + sizeOf m.1 + sizeOf m.2 from rfl] at hlt
    show sizeOf m.2 < sizeOf (Json.obj members)
    rw [Json.obj.sizeOf_spec]
    omega

/-! ## Distinct keys -/

theorem tidyItems_eq (items : List Json) : tidyItems items = items.map tidy := by
  induction items with
  | nil => rfl
  | cons j js ih => rw [tidyItems, ih, List.map_cons]

theorem tidyMembers_eq (members : List (String × Json)) :
    tidyMembers members = members.map fun m => (m.1, m.2.tidy) := by
  induction members with
  | nil => rfl
  | cons m ms ih => rw [tidyMembers, ih, List.map_cons]

/-- A tree in which no object has a key twice. -/
def IsTidy (j : Json) : Prop := j.tidy = j

theorem isTidy_arr_of_forall {items : List Json} (h : ∀ j ∈ items, IsTidy j) :
    IsTidy (.arr items) := by
  rw [IsTidy, tidy, tidyItems_eq, List.map_congr_left h, List.map_id']

theorem isTidy_obj_of_forall {members : List (String × Json)} (hd : (Entries.keys members).Nodup)
    (h : ∀ m ∈ members, IsTidy m.2) : IsTidy (.obj members) := by
  have hsame : tidyMembers members = members := by
    rw [tidyMembers_eq, List.map_congr_left fun m hm => congrArg (Prod.mk m.1) (h m hm)]
    exact List.map_id' members
  rw [IsTidy, tidy, hsame, Entries.ofList_of_nodup hd]

/-- **A tidied tree is tidy.** -/
theorem isTidy_tidy (j : Json) : IsTidy j.tidy := by
  induction j using tree_induction with
  | arr items ih =>
    rw [tidy, tidyItems_eq]
    refine isTidy_arr_of_forall fun k hk => ?_
    obtain ⟨j, hj, rfl⟩ := List.mem_map.mp hk
    exact ih j hj
  | obj members ih =>
    rw [tidy, tidyMembers_eq]
    refine isTidy_obj_of_forall (Entries.nodup_keys_ofList _) fun e he => ?_
    have he := (Entries.mem_insertAll he).resolve_left List.not_mem_nil
    obtain ⟨m, hm, rfl⟩ := List.mem_map.mp he
    exact ih m hm
  | _ => rfl

/-! ## Depth -/

theorem depthItems_le_iff {items : List Json} {d : Nat} :
    depthItems items ≤ d ↔ ∀ j ∈ items, j.depth ≤ d := by
  induction items with
  | nil => simp [depthItems]
  | cons j js ih => rw [depthItems, Nat.max_le, ih, List.forall_mem_cons]

theorem depthMembers_le_iff {members : List (String × Json)} {d : Nat} :
    depthMembers members ≤ d ↔ ∀ m ∈ members, m.2.depth ≤ d := by
  induction members with
  | nil => simp [depthMembers]
  | cons m ms ih => rw [depthMembers, Nat.max_le, ih, List.forall_mem_cons]

theorem depth_arr_le_iff {items : List Json} {d : Nat} :
    (arr items).depth ≤ d + 1 ↔ ∀ j ∈ items, j.depth ≤ d := by
  rw [depth, Nat.add_le_add_iff_right, depthItems_le_iff]

theorem depth_obj_le_iff {members : List (String × Json)} {d : Nat} :
    (obj members).depth ≤ d + 1 ↔ ∀ m ∈ members, m.2.depth ≤ d := by
  rw [depth, Nat.add_le_add_iff_right, depthMembers_le_iff]

/-! ## Numbers -/

/-- Whether a tree is a number, of either form. -/
def isNumber : Json → Bool
  | .int _ => true
  | .float _ => true
  | _ => false

/-- What is true of every number of a tree. -/
inductive ForallNumbers (P : Json → Prop) : Json → Prop
  | number {j} (hj : j.isNumber = true) (h : P j) : ForallNumbers P j
  | null : ForallNumbers P .null
  | bool (b) : ForallNumbers P (.bool b)
  | str (s) : ForallNumbers P (.str s)
  | arr {items} (h : ∀ j ∈ items, ForallNumbers P j) : ForallNumbers P (.arr items)
  | obj {members} (h : ∀ m ∈ members, ForallNumbers P m.2) : ForallNumbers P (.obj members)

end Json

end ShapeGraph
