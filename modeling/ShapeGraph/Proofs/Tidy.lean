import ShapeGraph.Value.Json

/-!
# Values with distinct keys

The members of an object are a list, so a key could come twice, and only the first member would
ever be read. Values that are decoded have no such objects: a JSON text is tidied when it is
read.

* `Value.isTidy` — no object has a key twice
* `Value.isTidy_ofJson_tidy` — what is read from a tidied text is tidy
* `Value.get_of_mem` — in a tidy value every member is read under its key
-/

namespace ShapeGraph

namespace Value

mutual

/-- Whether no object has a key twice, at any depth. -/
def isTidy : Value → Bool
  | .array items => isTidyItems items
  | .object members => decide (Entries.keys members).Nodup && isTidyMembers members
  | .undefined => true
  | .null => true
  | .bool _ => true
  | .number _ => true
  | .bigint _ => true
  | .string _ => true
  | .date _ => true

def isTidyItems : List Value → Bool
  | [] => true
  | v :: vs => isTidy v && isTidyItems vs

def isTidyMembers : List (String × Value) → Bool
  | [] => true
  | (_, v) :: ms => isTidy v && isTidyMembers ms

end

theorem isTidyItems_eq (items : List Value) : isTidyItems items = items.all isTidy := by
  induction items with
  | nil => rfl
  | cons v vs ih => rw [isTidyItems, ih, List.all_cons]

theorem isTidyMembers_eq (ms : List (String × Value)) :
    isTidyMembers ms = ms.all fun m => m.2.isTidy := by
  induction ms with
  | nil => rfl
  | cons m ms ih => rw [isTidyMembers, ih, List.all_cons]

theorem isTidy_array_iff {items : List Value} :
    (array items).isTidy = true ↔ ∀ v ∈ items, v.isTidy = true := by
  rw [isTidy, isTidyItems_eq, List.all_eq_true]

theorem isTidy_object_iff {ms : List (String × Value)} :
    (object ms).isTidy = true ↔ (Entries.keys ms).Nodup ∧ ∀ m ∈ ms, m.2.isTidy = true := by
  rw [isTidy, isTidyMembers_eq, Bool.and_eq_true, decide_eq_true_iff, List.all_eq_true]

/-! ## Reading -/

theorem isTidy_item {v : Value} (h : v.isTidy = true) (i : Nat) : (v.item i).isTidy = true := by
  cases v with
  | array items =>
    show (items[i]?.getD .undefined).isTidy = true
    cases hi : items[i]? with
    | none => rfl
    | some w => exact isTidy_array_iff.mp h w (List.mem_of_getElem? hi)
  | _ => rfl

theorem isTidy_get {v : Value} (h : v.isTidy = true) (key : String) :
    (v.get key).isTidy = true := by
  cases v with
  | object ms =>
    show ((Entries.get? ms key).getD .undefined).isTidy = true
    cases hk : Entries.get? ms key with
    | none => rfl
    | some w => exact (isTidy_object_iff.mp h).2 (key, w) (Entries.mem_of_get? hk)
  | _ => rfl

/-- **In a tidy value every member is read under its key.** -/
theorem get_of_mem {ms : List (String × Value)} {m : String × Value}
    (h : (object ms).isTidy = true) (hm : m ∈ ms) : (object ms).get m.1 = m.2 := by
  show (Entries.get? ms m.1).getD .undefined = m.2
  rw [Entries.get?_of_mem (isTidy_object_iff.mp h).1 hm]
  rfl

/-! ## Values of JSON trees -/

theorem keys_ofJsonMembers (members : List (String × Json)) :
    Entries.keys (ofJsonMembers members) = Entries.keys members := by
  rw [ofJsonMembers_eq, Entries.keys, Entries.keys, List.map_map]
  rfl

mutual

/-- **The value of a tidied JSON tree is tidy.** -/
theorem isTidy_ofJson_tidy : ∀ j : Json, (ofJson j.tidy).isTidy = true
  | .arr items => by
    rw [Json.tidy, ofJson, ofJsonItems_eq, isTidy_array_iff]
    intro v hv
    obtain ⟨j, hj, rfl⟩ := List.mem_map.mp hv
    exact isTidy_ofJson_tidyItems items j hj
  | .obj members => by
    rw [Json.tidy, ofJson, isTidy_object_iff, keys_ofJsonMembers]
    have hempty : (Entries.keys ([] : Entries Json)).Nodup := List.nodup_nil
    refine ⟨Entries.nodup_keys_insertAll hempty _, fun m hm => ?_⟩
    rw [ofJsonMembers_eq] at hm
    obtain ⟨e, he, rfl⟩ := List.mem_map.mp hm
    have he := (Entries.mem_insertAll he).resolve_left List.not_mem_nil
    exact isTidy_ofJson_tidyMembers members e he
  | .null => rfl
  | .bool _ => rfl
  | .int _ => rfl
  | .float _ => rfl
  | .str _ => rfl

theorem isTidy_ofJson_tidyItems : ∀ items : List Json,
    ∀ j ∈ Json.tidyItems items, (ofJson j).isTidy = true
  | [], _, h => by cases h
  | j :: items, k, h => by
    rcases List.mem_cons.mp h with rfl | h
    · exact isTidy_ofJson_tidy j
    · exact isTidy_ofJson_tidyItems items k h

theorem isTidy_ofJson_tidyMembers : ∀ members : List (String × Json),
    ∀ e ∈ Json.tidyMembers members, (ofJson e.2).isTidy = true
  | [], _, h => by cases h
  | (k, j) :: members, e, h => by
    rcases List.mem_cons.mp h with rfl | h
    · exact isTidy_ofJson_tidy j
    · exact isTidy_ofJson_tidyMembers members e h

end

end Value

end ShapeGraph
