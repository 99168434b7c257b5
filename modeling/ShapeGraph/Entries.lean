/-!
# Ordered entries

A record of named things in the order in which the names first came: the properties of an
object, the definitions of a graph, the mapping of a tagged union. A name that comes again
keeps its place and takes the new content.

* `keys_insert_of_mem` — inserting a present name changes no name and no place
* `keys_insert_of_not_mem` — inserting a new name puts it last
* `get?_insert` — what is read after an insertion
-/

namespace ShapeGraph

/-- Named things in order of first mention. -/
abbrev Entries (α : Type) := List (String × α)

namespace Entries

variable {α : Type}

/-- The names, in order. -/
def keys (es : Entries α) : List String := es.map Prod.fst

/-- The content under a name. -/
def get? : Entries α → String → Option α
  | [], _ => none
  | (k, a) :: es, key => if k = key then some a else get? es key

/-- Whether a name is present. -/
def has (es : Entries α) (key : String) : Bool := (es.get? key).isSome

/-- Put a content under a name: in place when the name is present, at the end otherwise. -/
def insert : Entries α → String → α → Entries α
  | [], key, a => [(key, a)]
  | (k, b) :: es, key, a => if k = key then (k, a) :: es else (k, b) :: insert es key a

/-- Put in every pair, one after the other. -/
def insertAll (es : Entries α) (pairs : List (String × α)) : Entries α :=
  pairs.foldl (fun acc p => acc.insert p.1 p.2) es

/-- The entries that a list of pairs stands for. -/
def ofList (pairs : List (String × α)) : Entries α := insertAll [] pairs

/-- The place of a name. -/
def place? : Entries α → String → Option Nat
  | [], _ => none
  | (k, _) :: es, key => if k = key then some 0 else (place? es key).map (· + 1)

/-! ## What insertion does to the names and to reading -/

theorem get?_eq_none_iff {es : Entries α} {key : String} :
    es.get? key = none ↔ key ∉ es.keys := by
  induction es with
  | nil => simp [get?, keys]
  | cons e es ih =>
    obtain ⟨k, a⟩ := e
    by_cases h : k = key
    · simp [get?, keys, h]
    · have h' : ¬ key = k := fun e => h e.symm
      simp only [keys] at ih
      simp [get?, keys, h, h', ih]

theorem mem_of_get? {es : Entries α} {key : String} {a : α} (h : es.get? key = some a) :
    (key, a) ∈ es := by
  induction es with
  | nil => cases h
  | cons e es ih =>
    obtain ⟨k, b⟩ := e
    by_cases hk : k = key
    · simp only [get?, hk, if_true, Option.some.injEq] at h
      rw [hk, h]
      exact List.mem_cons_self
    · simp only [get?, hk, if_false] at h
      exact List.mem_cons_of_mem _ (ih h)

/-- Where names are distinct, every entry is found under its name. -/
theorem get?_of_mem {es : Entries α} (hd : es.keys.Nodup) {key : String} {a : α}
    (h : (key, a) ∈ es) : es.get? key = some a := by
  induction es with
  | nil => cases h
  | cons e es ih =>
    obtain ⟨k, b⟩ := e
    obtain ⟨hk, hd⟩ := List.nodup_cons.mp hd
    rcases List.mem_cons.mp h with he | hm
    · cases he
      simp [get?]
    · have hkey : key ∈ keys es := List.mem_map.mpr ⟨_, hm, rfl⟩
      have hne : ¬ k = key := fun e => hk (e ▸ hkey)
      simp only [get?, hne, if_false]
      exact ih hd hm

/-- Where no name comes twice, one thing stands under a name. -/
theorem eq_of_mem {es : Entries α} (hd : es.keys.Nodup) {key : String} {a b : α}
    (ha : (key, a) ∈ es) (hb : (key, b) ∈ es) : a = b :=
  Option.some.inj ((get?_of_mem hd ha).symm.trans (get?_of_mem hd hb))

theorem has_iff {es : Entries α} {key : String} : es.has key = true ↔ key ∈ es.keys := by
  unfold has
  cases h : es.get? key with
  | none => simp [get?_eq_none_iff.mp h]
  | some a =>
    simp only [Option.isSome_some, true_iff]
    by_cases hm : key ∈ es.keys
    · exact hm
    · rw [get?_eq_none_iff.mpr hm] at h
      cases h

theorem keys_insert_of_mem {es : Entries α} {key : String} {a : α} (h : key ∈ es.keys) :
    (es.insert key a).keys = es.keys := by
  induction es with
  | nil => simp [keys] at h
  | cons e es ih =>
    obtain ⟨k, b⟩ := e
    by_cases hk : k = key
    · simp [insert, keys, hk]
    · have hm : key ∈ keys es := by
        simp only [keys, List.map_cons, List.mem_cons] at h
        rcases h with h | h
        · exact absurd h.symm hk
        · exact h
      have := ih hm
      simp only [keys] at this
      simp [insert, keys, hk, this]

theorem keys_insert_of_not_mem {es : Entries α} {key : String} {a : α} (h : key ∉ es.keys) :
    (es.insert key a).keys = es.keys ++ [key] := by
  induction es with
  | nil => simp [insert, keys]
  | cons e es ih =>
    obtain ⟨k, b⟩ := e
    have hk : ¬ k = key := fun hk => h (by simp [keys, hk])
    have hm : key ∉ keys es := fun hm => h (by simp only [keys] at hm; simp [keys, hm])
    have := ih hm
    simp only [keys] at this
    simp [insert, keys, hk, this]

theorem get?_insert (es : Entries α) (key other : String) (a : α) :
    (es.insert key a).get? other = if other = key then some a else es.get? other := by
  induction es with
  | nil =>
    by_cases h : other = key
    · simp [insert, get?, h]
    · have h' : ¬ key = other := fun e => h e.symm
      simp [insert, get?, h, h']
  | cons e es ih =>
    obtain ⟨k, b⟩ := e
    by_cases hk : k = key
    · subst hk
      by_cases h : k = other
      · simp [insert, get?, h]
      · have h' : ¬ other = k := fun e => h e.symm
        simp [insert, get?, h, h']
    · by_cases h : k = other
      · subst h
        simp [insert, get?, hk]
      · simp [insert, get?, hk, h, ih]

theorem mem_keys_insert {es : Entries α} {key other : String} {a : α} :
    other ∈ (es.insert key a).keys ↔ other = key ∨ other ∈ es.keys := by
  by_cases h : key ∈ es.keys
  · rw [keys_insert_of_mem h]
    exact ⟨.inr, fun ho => ho.elim (fun e => e ▸ h) id⟩
  · rw [keys_insert_of_not_mem h, List.mem_append, List.mem_singleton]
    exact Or.comm

theorem mem_keys_insertAll {es : Entries α} {pairs : List (String × α)} {key : String} :
    key ∈ (es.insertAll pairs).keys ↔ key ∈ es.keys ∨ key ∈ keys pairs := by
  induction pairs generalizing es with
  | nil => exact ⟨.inl, fun h => h.resolve_right List.not_mem_nil⟩
  | cons e pairs ih =>
    have hcons : key ∈ keys (e :: pairs) ↔ key = e.1 ∨ key ∈ keys pairs := List.mem_cons
    show key ∈ ((es.insert e.1 e.2).insertAll pairs).keys ↔ _
    rw [ih, mem_keys_insert, hcons, or_assoc]
    exact or_left_comm

/-- Putting in what is there changes nothing. -/
theorem insert_of_get? {es : Entries α} {key : String} {a : α} (h : es.get? key = some a) :
    es.insert key a = es := by
  induction es with
  | nil => cases h
  | cons e es ih =>
    obtain ⟨k, b⟩ := e
    by_cases hk : k = key
    · simp only [get?, hk, if_true, Option.some.injEq] at h
      simp only [insert, hk, if_true, h]
    · simp only [get?, hk, if_false] at h
      simp only [insert, hk, if_false, ih h]

/-- Names stay distinct under insertion. -/
theorem nodup_keys_insert {es : Entries α} (h : es.keys.Nodup) (key : String) (a : α) :
    (es.insert key a).keys.Nodup := by
  by_cases hm : key ∈ es.keys
  · rw [keys_insert_of_mem hm]; exact h
  · rw [keys_insert_of_not_mem hm, List.nodup_append]
    refine ⟨h, by simp, ?_⟩
    intro x hx y hy hxy
    simp only [List.mem_singleton] at hy
    exact hm (hy ▸ hxy ▸ hx)

theorem nodup_keys_insertAll {es : Entries α} (h : es.keys.Nodup) (pairs : List (String × α)) :
    (es.insertAll pairs).keys.Nodup := by
  induction pairs generalizing es with
  | nil => exact h
  | cons e pairs ih => exact ih (nodup_keys_insert h e.1 e.2)

theorem mem_insert {es : Entries α} {key : String} {a : α} {e : String × α}
    (h : e ∈ es.insert key a) : e = (key, a) ∨ e ∈ es := by
  induction es with
  | nil => exact .inl (List.mem_singleton.mp h)
  | cons f es ih =>
    obtain ⟨k, b⟩ := f
    by_cases hk : k = key
    · simp only [insert, hk, if_true, List.mem_cons] at h
      exact h.imp_right (List.mem_cons_of_mem _)
    · simp only [insert, hk, if_false, List.mem_cons] at h
      rcases h with rfl | h
      · exact .inr List.mem_cons_self
      · exact (ih h).imp_right (List.mem_cons_of_mem _)

/-- Nothing else comes in. -/
theorem mem_insertAll {es : Entries α} {pairs : List (String × α)} {e : String × α}
    (h : e ∈ es.insertAll pairs) : e ∈ es ∨ e ∈ pairs := by
  induction pairs generalizing es with
  | nil => exact .inl h
  | cons f pairs ih =>
    rcases ih h with h | h
    · rcases mem_insert h with rfl | h
      · exact .inr List.mem_cons_self
      · exact .inl h
    · exact .inr (List.mem_cons_of_mem _ h)

/-- Where contents are changed or dropped, the names that are left stand in their order. -/
theorem keys_filterMap_sublist {β : Type} {es : Entries α} {f : String × α → Option (String × β)}
    (h : ∀ e b, f e = some b → b.1 = e.1) :
    (keys (es.filterMap f)).Sublist es.keys := by
  induction es with
  | nil => exact List.Sublist.slnil
  | cons e es ih =>
    rw [List.filterMap_cons]
    cases he : f e with
    | none => exact ih.cons _
    | some b =>
      simp only [keys, List.map_cons, h e b he]
      exact ih.cons_cons _

/-! ## Contents changed, names selected -/

theorem get?_append (es fs : Entries α) (key : String) :
    get? (es ++ fs) key = (es.get? key).or (fs.get? key) := by
  induction es with
  | nil => rfl
  | cons e es ih =>
    obtain ⟨k, a⟩ := e
    by_cases hk : k = key
    · simp only [List.cons_append, get?, hk, if_true, Option.some_or]
    · simp only [List.cons_append, get?, hk, if_false]
      exact ih

/-- Where contents are changed or dropped, no other entry comes to light under their names. -/
theorem get?_filterMap {β : Type} {es : Entries α} (hd : es.keys.Nodup)
    (f : String → α → Option β) (key : String) :
    get? (es.filterMap fun e => (f e.1 e.2).map fun b => (e.1, b)) key =
      (es.get? key).bind (f key) := by
  induction es with
  | nil => rfl
  | cons e es ih =>
    obtain ⟨k, a⟩ := e
    obtain ⟨hk, hd⟩ := List.nodup_cons.mp hd
    rw [List.filterMap_cons]
    by_cases h : k = key
    · subst h
      have hrest : get? es k = none := get?_eq_none_iff.mpr hk
      cases hf : f k a with
      | none => simp only [get?, if_true, ih hd, hrest, Option.map_none, Option.bind, hf]
      | some b => simp only [get?, if_true, Option.map_some, Option.bind, hf]
    · cases hf : f k a with
      | none => simp only [get?, h, if_false, ih hd, Option.map_none]
      | some b => simp only [get?, h, if_false, ih hd, Option.map_some]

theorem get?_filter {es : Entries α} (hd : es.keys.Nodup) (q : α → Bool) (key : String) :
    get? (es.filter fun e => q e.2) key = (es.get? key).filter q := by
  have hguard : (es.filter fun e => q e.2) = es.filterMap fun e =>
      (if q e.2 then some e.2 else none).map fun b => (e.1, b) := by
    rw [← List.filterMap_eq_filter]
    refine congrArg (es.filterMap ·) (funext fun e => ?_)
    cases hq : q e.2 <;> simp [Option.guard, hq]
  rw [hguard, get?_filterMap hd fun _ a => if q a then some a else none]
  cases es.get? key with
  | none => rfl
  | some a => cases hq : q a <;> simp [hq, Option.filter]

/-- Every content changed in one way. -/
def mapValues {β : Type} (f : α → β) (es : Entries α) : Entries β := es.map fun e => (e.1, f e.2)

theorem keys_mapValues {β : Type} (f : α → β) (es : Entries α) :
    (es.mapValues f).keys = es.keys := by
  rw [mapValues, keys, List.map_map]
  rfl

theorem get?_mapValues {β : Type} (f : α → β) (es : Entries α) (key : String) :
    (es.mapValues f).get? key = (es.get? key).map f := by
  induction es with
  | nil => rfl
  | cons e es ih =>
    obtain ⟨k, a⟩ := e
    by_cases hk : k = key
    · simp only [mapValues, List.map_cons, get?, hk, if_true, Option.map_some]
    · simp only [mapValues, List.map_cons, get?, hk, if_false]
      exact ih

theorem mapValues_insert {β : Type} (f : α → β) (es : Entries α) (key : String) (a : α) :
    (es.insert key a).mapValues f = (es.mapValues f).insert key (f a) := by
  induction es with
  | nil => rfl
  | cons e es ih =>
    obtain ⟨k, b⟩ := e
    by_cases hk : k = key
    · simp only [insert, mapValues, List.map_cons, hk, if_true]
    · simp only [insert, mapValues, List.map_cons, hk, if_false, List.cons.injEq, true_and]
      exact ih

theorem mapValues_insertAll {β : Type} (f : α → β) (es : Entries α)
    (pairs : List (String × α)) :
    (es.insertAll pairs).mapValues f = (es.mapValues f).insertAll (mapValues f pairs) := by
  induction pairs generalizing es with
  | nil => rfl
  | cons e pairs ih =>
    have hstep := ih (es.insert e.1 e.2)
    rw [mapValues_insert] at hstep
    exact hstep

/-- The entries with selected names. -/
def select (q : String → Bool) (es : Entries α) : Entries α := es.filter fun e => q e.1

theorem select_cons (q : String → Bool) (e : String × α) (es : Entries α) :
    select q (e :: es) = if q e.1 then e :: es.select q else es.select q :=
  List.filter_cons

theorem get?_select {q : String → Bool} (es : Entries α) {key : String} (h : q key = true) :
    (es.select q).get? key = es.get? key := by
  induction es with
  | nil => rfl
  | cons e es ih =>
    obtain ⟨k, a⟩ := e
    rw [select_cons]
    by_cases hk : k = key
    · subst hk
      simp only [h, if_true, get?]
    · cases hq : q k <;> simp [get?, hk, ih]

theorem select_insert (q : String → Bool) (es : Entries α) (key : String) (a : α) :
    (es.insert key a).select q = if q key then (es.select q).insert key a else es.select q := by
  induction es with
  | nil => cases h : q key <;> simp [insert, select, h]
  | cons e es ih =>
    obtain ⟨k, b⟩ := e
    by_cases hk : k = key
    · subst hk
      cases h : q k <;> simp [insert, select_cons, h]
    · cases hq : q k <;> cases h : q key <;> simp [insert, select_cons, hk, hq, h, ih]

theorem select_insertAll (q : String → Bool) (es : Entries α) (pairs : List (String × α)) :
    (es.insertAll pairs).select q = (es.select q).insertAll (select q pairs) := by
  induction pairs generalizing es with
  | nil => rfl
  | cons e pairs ih =>
    have hstep := ih (es.insert e.1 e.2)
    rw [select_insert] at hstep
    show ((es.insert e.1 e.2).insertAll pairs).select q = _
    rw [hstep, select_cons]
    cases h : q e.1 <;> rfl

/-- Putting in what is there changes nothing. -/
theorem insertAll_of_get? {es : Entries α} {pairs : List (String × α)}
    (h : ∀ e ∈ pairs, es.get? e.1 = some e.2) : es.insertAll pairs = es := by
  induction pairs with
  | nil => rfl
  | cons e pairs ih =>
    obtain ⟨he, hpairs⟩ := List.forall_mem_cons.mp h
    show (es.insert e.1 e.2).insertAll pairs = es
    rw [insert_of_get? he]
    exact ih hpairs

/-- Under a name that is put in stands one of the contents put in for it; under any other name
nothing changes. -/
theorem get?_insertAll (es : Entries α) (pairs : List (String × α)) (key : String) :
    (∃ a, (key, a) ∈ pairs ∧ (es.insertAll pairs).get? key = some a) ∨
      key ∉ keys pairs ∧ (es.insertAll pairs).get? key = es.get? key := by
  induction pairs generalizing es with
  | nil => exact .inr ⟨List.not_mem_nil, rfl⟩
  | cons e pairs ih =>
    rcases ih (es.insert e.1 e.2) with ⟨a, ha, hget⟩ | ⟨hnot, hget⟩
    · exact .inl ⟨a, List.mem_cons_of_mem _ ha, hget⟩
    · rw [get?_insert] at hget
      by_cases hk : key = e.1
      · rw [if_pos hk] at hget
        exact .inl ⟨e.2, hk ▸ List.mem_cons_self, hget⟩
      · rw [if_neg hk] at hget
        exact .inr ⟨fun h => (List.mem_cons.mp h).elim hk hnot, hget⟩

/-- Contents changed by `f`, which changes nothing the second time, are unchanged by `f`, also when
some of them were put back as they had been. -/
theorem mapValues_insertAll_self {es : Entries α} {f : α → α} {pairs : List (String × α)}
    (hf : ∀ e ∈ es, f (f e.2) = f e.2) (h : ∀ e ∈ pairs, es.get? e.1 = some e.2) :
    ((es.mapValues f).insertAll pairs).mapValues f = es.mapValues f := by
  have htwice : (es.mapValues f).mapValues f = es.mapValues f := by
    rw [mapValues, mapValues, List.map_map]
    exact List.map_congr_left fun e he => congrArg (e.1, ·) (hf e he)
  rw [mapValues_insertAll, htwice]
  refine insertAll_of_get? (List.forall_mem_map.mpr fun e he => ?_)
  rw [get?_mapValues, h e he]
  rfl

end Entries

end ShapeGraph
