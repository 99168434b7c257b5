import ShapeGraph.Proofs.Lossless
import ShapeGraph.Proofs.Plain
import ShapeGraph.Proofs.Strictness
import ShapeGraph.Proofs.Tidy

/-!
# Values that JSON carries

JSON drops an absent member and makes null of an absent item; dates, big integers, numbers that are
not finite and the sign of zero do not survive either. A value without the latter may lose absent
members and may get nulls, and no shape minds: what accepts it accepts what comes back.

* `Value.everywhere` — a condition on a value and everything in it
* `Value.isPortable` — values that lose nothing but what is absent
* `Value.stored` — a value written as JSON and read again
* `Value.get_stored`, `Value.item_stored` — what is read in it
* `Guarded.accepts_stored` — an accepted value is accepted when it comes back
-/

namespace ShapeGraph

/-- A finite number that is not negative zero comes back as it is. -/
theorem Number.normal_eq_self {x : Number} (h : x.isFinite = true)
    (hzero : (x.negative && x.isZero) = false) : x.normal = x := by
  rw [normal, isNaN_of_isFinite h, if_neg Bool.false_ne_true]
  split
  · next hz =>
    rw [hz, Bool.and_true] at hzero
    obtain ⟨negative, ordinal⟩ := x
    cases hzero
    rw [isZero, beq_iff_eq] at hz
    cases hz
    rfl
  · rfl

namespace Value

/-! ## Portable values -/

mutual

/-- Whether a condition holds of a value and of everything in it. -/
def everywhere (q : Value → Bool) : Value → Bool
  | .array items => q (.array items) && everywhereItems q items
  | .object members => q (.object members) && everywhereMembers q members
  | .undefined => q .undefined
  | .null => q .null
  | .bool b => q (.bool b)
  | .number x => q (.number x)
  | .bigint n => q (.bigint n)
  | .string s => q (.string s)
  | .date millis => q (.date millis)

def everywhereItems (q : Value → Bool) : List Value → Bool
  | [] => true
  | v :: vs => everywhere q v && everywhereItems q vs

def everywhereMembers (q : Value → Bool) : List (String × Value) → Bool
  | [] => true
  | (_, v) :: ms => everywhere q v && everywhereMembers q ms

end

section

variable {q : Value → Bool}

theorem everywhereItems_eq (items : List Value) :
    everywhereItems q items = items.all (everywhere q) := by
  induction items with
  | nil => rfl
  | cons v vs ih => rw [everywhereItems, ih, List.all_cons]

theorem everywhereMembers_eq (ms : List (String × Value)) :
    everywhereMembers q ms = ms.all fun m => m.2.everywhere q := by
  induction ms with
  | nil => rfl
  | cons m ms ih => rw [everywhereMembers, ih, List.all_cons]

theorem everywhere_of_mem_array {items : List Value} (h : (array items).everywhere q = true) :
    ∀ v ∈ items, v.everywhere q = true := by
  rw [everywhere, everywhereItems_eq, Bool.and_eq_true, List.all_eq_true] at h
  exact h.2

theorem everywhere_of_mem_object {ms : List (String × Value)}
    (h : (object ms).everywhere q = true) : ∀ m ∈ ms, m.2.everywhere q = true := by
  rw [everywhere, everywhereMembers_eq, Bool.and_eq_true, List.all_eq_true] at h
  exact h.2

theorem everywhere_item (hq : q .undefined = true) {items : List Value}
    (h : (array items).everywhere q = true) (i : Nat) :
    ((array items).item i).everywhere q = true := by
  show (items[i]?.getD undefined).everywhere q = true
  cases hi : items[i]? with
  | none => exact hq
  | some v => exact everywhere_of_mem_array h v (List.mem_of_getElem? hi)

theorem everywhere_get (hq : q .undefined = true) {ms : List (String × Value)}
    (h : (object ms).everywhere q = true) (key : String) :
    ((object ms).get key).everywhere q = true := by
  show ((Entries.get? ms key).getD undefined).everywhere q = true
  cases hk : Entries.get? ms key with
  | none => exact hq
  | some v => exact everywhere_of_mem_object h _ (Entries.mem_of_get? hk)

end

/-- Whether a value, apart from what is in it, comes back from JSON, or is absent. -/
def isCarried : Value → Bool
  | .number x => x.isFinite && !(x.negative && x.isZero)
  | .bigint _ => false
  | .date _ => false
  | _ => true

/-- Whether a value has no dates, no big integers, no numbers that are not finite and no negative
zeros in it. Anything may be absent. -/
def isPortable (v : Value) : Bool := v.everywhere isCarried

/-! ## What comes back -/

/-- A value written as JSON and read again. -/
def stored (v : Value) : Value := ofJson v.toJson

theorem stored_array (items : List Value) :
    (array items).stored = array (items.map stored) := by
  rw [stored, toJson, toJsonItems_eq, ofJson, ofJsonItems_eq, List.map_map]
  rfl

theorem stored_object (ms : Entries Value) : (object ms).stored =
    object (Entries.mapValues stored (ms.filter fun m => !m.2.isUndefined)) := by
  rw [stored, toJson, toJsonMembers_eq, ofJson, ofJsonMembers_eq, List.map_map]
  rfl

/-- An item that is there comes back; behind the end there is nothing still. -/
theorem item_stored (items : List Value) (i : Nat) :
    (array items).stored.item i = ((array items).item i).stored ∨
      (array items).stored.item i = (array items).item i := by
  rw [stored_array]
  show (items.map stored)[i]?.getD undefined = (items[i]?.getD undefined).stored ∨
    (items.map stored)[i]?.getD undefined = items[i]?.getD undefined
  rw [List.getElem?_map]
  cases items[i]? with
  | none => exact .inr rfl
  | some v => exact .inl rfl

/-- A member that is there comes back; what is absent is absent still. -/
theorem get_stored {ms : List (String × Value)} (hd : (Entries.keys ms).Nodup) (key : String) :
    (object ms).stored.get key = ((object ms).get key).stored ∨
      (object ms).stored.get key = (object ms).get key := by
  rw [stored_object]
  show ((Entries.mapValues stored _).get? key).getD undefined = _ ∨
    ((Entries.mapValues stored _).get? key).getD undefined = _
  rw [Entries.get?_mapValues, Entries.get?_filter hd fun v => !v.isUndefined]
  show _ = ((Entries.get? ms key).getD undefined).stored ∨
    _ = (Entries.get? ms key).getD undefined
  cases Entries.get? ms key with
  | none => exact .inr rfl
  | some v =>
    cases v with
    | undefined => exact .inr rfl
    | _ => exact .inl rfl

theorem form_stored {v : Value} (h : v.isPortable = true) : v.stored.form = v.form := by
  cases v with
  | number x =>
    rw [isPortable, everywhere, isCarried, Bool.and_eq_true] at h
    rw [stored, toJson, ofJson_number h.1]
    rfl
  | bigint | date => cases h
  | _ => rfl

/-- A portable value that is neither absent nor has parts comes back as it is. -/
theorem stored_eq_self {v : Value} (h : v.isPortable = true) (hv : v.isUndefined = false)
    (hleaf : v.isLeaf = true) : v.stored = v := by
  cases v with
  | number x =>
    rw [isPortable, everywhere, isCarried, Bool.and_eq_true, Bool.not_eq_true'] at h
    rw [stored, toJson, ofJson_number h.1, Number.normal_eq_self h.1 h.2]
  | undefined => cases hv
  | array | object => cases hleaf
  | bigint | date => cases h
  | null | bool | string => rfl

/-- A tag is there, and comes back as it is. -/
theorem get_stored_of_tagKey? {v : Value} (hv : v.isPortable = true) (ht : v.isTidy = true)
    {tag key : String} (hkey : (v.get tag).tagKey? = some key) :
    v.stored.get tag = v.get tag := by
  cases v with
  | object ms =>
    rcases get_stored (isTidy_object_iff.mp ht).1 tag with hget | hget
    · have hportable := everywhere_get rfl hv tag
      rw [hget]
      generalize (object ms).get tag = w at hkey hportable
      cases w with
      | bool | number | string => exact stored_eq_self hportable rfl rfl
      | _ => cases hkey
    · exact hget
  | _ => cases hkey

end Value

theorem Literal.holds_stored {c : Literal} {v : Value} (hv : v.isPortable = true)
    (h : c.holds v = true) : c.holds v.stored = true := by
  cases v with
  | undefined => cases c <;> first | rfl | cases h
  | array | object => cases c <;> cases h
  | _ => rwa [Value.stored_eq_self hv rfl rfl]

namespace Graph

variable {g : Graph} {p : Policy}

/-- What is asked about a portable value is asked about portable values. -/
theorem Part.isPortable {s t : Shape} {v w : Value} (h : g.Part (t, w) (s, v))
    (hv : v.isPortable = true) : w.isPortable = true := by
  cases h with
  | slot => exact Value.everywhere_item rfl hv _
  | rest h => exact Value.everywhere_of_mem_array hv w (List.mem_of_mem_drop h)
  | item h => exact Value.everywhere_of_mem_array hv w h
  | property => exact Value.everywhere_get rfl hv _
  | key => rfl
  | member _ hm => exact Value.everywhere_of_mem_object hv _ hm
  | conjunct | disjunct | branch | inner | target => exact hv

theorem accepts_stored_of_keepsValues {s : Shape} {v : Value} (hs : s.keepsValues = true)
    (hv : v.isPortable = true) (ha : g.accepts p s v = true) : g.accepts p s v.stored = true := by
  cases v with
  | undefined | array | object =>
    cases s with
    | base type => cases type <;> cases ha
    | _ => first | exact ha | cases hs
  | _ => rwa [Value.stored_eq_self hv rfl rfl]

/-! ## Kinds with parts -/

/-- What has to be known of the parts of a question: what accepts a part accepts what comes back
of it. -/
def PartsCarry (g : Graph) (p : Policy) (s : Shape) (v : Value) : Prop :=
  ∀ t w, g.Part (t, w) (s, v) → g.accepts p t w = true → g.accepts p t w.stored = true

theorem PartsCarry.tuple (hg : g.Guarded) {slots : List Shape} {rest : Option Shape}
    {items : List Value} (h : g.PartsCarry p (.tuple slots rest) (.array items))
    (ha : g.accepts p (.tuple slots rest) (.array items) = true) :
    g.accepts p (.tuple slots rest) (Value.array items).stored = true := by
  have hslot : ∀ e ∈ slots.zipIdx, g.accepts p e.1 ((Value.array items).item e.2) = true →
      g.accepts p e.1 ((Value.array items).stored.item e.2) = true := by
    intro e he ha
    rcases Value.item_stored items e.2 with hitem | hitem <;> rw [hitem]
    · exact h e.1 _ (.slot (List.mem_zipIdx_iff_getElem?.mp he)) ha
    · exact ha
  rw [Value.stored_array] at hslot ⊢
  cases rest with
  | none =>
    rw [hg.accepts_tuple_closed, Bool.and_eq_true, List.all_eq_true] at ha ⊢
    rw [List.length_map]
    exact ⟨fun e he => hslot e he (ha.1 e he), ha.2⟩
  | some t =>
    rw [hg.accepts_tuple_open, Bool.and_eq_true, List.all_eq_true, List.all_eq_true] at ha ⊢
    rw [← List.map_drop]
    exact ⟨fun e he => hslot e he (ha.1 e he),
      List.forall_mem_map.mpr fun w hw => h t w (.rest hw) (ha.2 w hw)⟩

/-- Whatever is undeclared in what comes back was undeclared before. -/
theorem exists_of_undeclared_stored {properties : Entries Shape} {ms : Entries Value}
    {m : String × Value} (hm : m ∈ Shape.undeclared properties
      (Entries.mapValues Value.stored (ms.filter fun m => !m.2.isUndefined))) :
    ∃ m' ∈ Shape.undeclared properties ms, m = (m'.1, m'.2.stored) := by
  obtain ⟨hm, hkey⟩ := Shape.mem_undeclared.mp hm
  obtain ⟨m', hm', rfl⟩ := List.mem_map.mp hm
  exact ⟨m', Shape.mem_undeclared.mpr ⟨(List.mem_filter.mp hm').1, hkey⟩, rfl⟩

theorem PartsCarry.object (hg : g.Guarded) {properties : Entries Shape}
    {signatures : List (Shape × Shape)} {ms : List (String × Value)}
    (ht : (Value.object ms).isTidy = true)
    (h : g.PartsCarry p (.object properties signatures) (.object ms))
    (ha : g.accepts p (.object properties signatures) (.object ms) = true) :
    g.accepts p (.object properties signatures) (Value.object ms).stored = true := by
  have hget : ∀ e ∈ properties, g.accepts p e.2 ((Value.object ms).get e.1) = true →
      g.accepts p e.2 ((Value.object ms).stored.get e.1) = true := by
    intro e he ha
    rcases Value.get_stored (Value.isTidy_object_iff.mp ht).1 e.1 with hget | hget <;> rw [hget]
    · exact h e.2 _ (.property he) ha
    · exact ha
  rw [Value.stored_object] at hget ⊢
  rw [hg.accepts_object, Bool.and_eq_true, List.all_eq_true] at ha ⊢
  refine ⟨fun e he => hget e he (ha.1 e he), ?_⟩
  cases signatures with
  | nil =>
    have ha : (!(p.strict && !(Shape.undeclared properties ms).isEmpty)) = true := ha.2
    show (!(p.strict && !(Shape.undeclared properties _).isEmpty)) = true
    cases hp : p.strict with
    | false => rfl
    | true =>
      have hnil : Shape.undeclared properties ms = [] := by simpa [hp] using ha
      have hnil' : Shape.undeclared properties
          (Entries.mapValues Value.stored (ms.filter fun m => !m.2.isUndefined)) = [] := by
        refine List.eq_nil_iff_forall_not_mem.mpr fun m hm => ?_
        obtain ⟨m', hm', -⟩ := exists_of_undeclared_stored hm
        rw [hnil] at hm'
        cases hm'
      rw [hnil']
      rfl
  | cons signature signatures =>
    refine List.all_eq_true.mpr fun m hm => ?_
    obtain ⟨m, hback, rfl⟩ := exists_of_undeclared_stored hm
    have hmem : m ∈ ms := (Shape.mem_undeclared.mp hback).1
    obtain ⟨e, he, hadmits⟩ := List.any_eq_true.mp (List.all_eq_true.mp ha.2 m hback)
    rw [admits, Bool.and_eq_true] at hadmits
    have hvalue := h e.2 m.2 (.member he hmem) hadmits.2
    refine List.any_eq_true.mpr ⟨e, he, ?_⟩
    rw [admits, Bool.and_eq_true]
    exact ⟨hadmits.1, hvalue⟩

theorem PartsCarry.tagged {members : List Shape} {tag : String} {branches : Entries Shape}
    {v : Value} (ht : v.isTidy = true) (hv : v.isPortable = true)
    (h : g.PartsCarry p (.tagged members tag branches) v)
    (ha : g.accepts p (.tagged members tag branches) v = true) :
    g.accepts p (.tagged members tag branches) v.stored = true := by
  rw [accepts_tagged, Bool.and_eq_true, Value.isObject_iff] at ha ⊢
  rw [Value.form_stored hv]
  obtain ⟨hform, ha⟩ := ha
  obtain ⟨key, hkey, ha⟩ := (Option.any_eq_true _ _).mp ha
  obtain ⟨t, hbranch, ha⟩ := (Option.any_eq_true _ _).mp ha
  have hback := h t v (.branch (Entries.mem_of_get? hbranch)) ha
  refine ⟨hform, (Option.any_eq_true _ _).mpr ⟨key, ?_, (Option.any_eq_true _ _).mpr
    ⟨t, hbranch, hback⟩⟩⟩
  rw [Value.get_stored_of_tagKey? hv ht hkey]
  exact hkey

/-! ## Every shape -/

/-- **What accepts a portable value accepts what comes back from JSON.** -/
theorem Guarded.accepts_stored (hg : g.Guarded) (s : Shape) (v : Value) :
    v.isTidy = true → v.isPortable = true → g.accepts p s v = true →
      g.accepts p s (Value.ofJson v.toJson) = true := by
  induction s, v using hg.induction with | step s v ih => ?_
  intro ht hv ha
  have hparts : g.PartsCarry p s v :=
    fun t w hp => ih t w hp (hp.isTidy_value ht) (hp.isPortable hv)
  show g.accepts p s v.stored = true
  cases s with
  | never => cases ha
  | literal c => exact Literal.holds_stored hv ha
  | literals cs =>
    obtain ⟨c, hc, hholds⟩ := List.any_eq_true.mp ha
    exact List.any_eq_true.mpr ⟨c, hc, Literal.holds_stored hv hholds⟩
  | ref i name =>
    rw [hg.accepts_ref] at ha ⊢
    obtain ⟨t, hi, ha⟩ := (Option.any_eq_true _ _).mp ha
    exact (Option.any_eq_true _ _).mpr ⟨t, hi, hparts t v (.target hi) ha⟩
  | optional t =>
    rw [accepts_optional, Bool.or_eq_true, Value.isNullish_iff] at ha ⊢
    rw [Value.form_stored hv]
    exact ha.imp_right (hparts t v .inner)
  | allOf members =>
    rw [accepts_allOf, Bool.and_eq_true, Value.isObject_iff, List.all_eq_true] at ha ⊢
    rw [Value.form_stored hv]
    exact ⟨ha.1, fun t hm => hparts t v (.conjunct hm) (ha.2 t hm)⟩
  | anyOf members =>
    rw [accepts_anyOf, List.any_eq_true] at ha ⊢
    obtain ⟨t, hm, ha⟩ := ha
    exact ⟨t, hm, hparts t v (.disjunct hm) ha⟩
  | tagged members tag branches => exact hparts.tagged ht hv ha
  | array t =>
    cases v with
    | array items =>
      rw [Value.stored_array]
      rw [hg.accepts_array, List.all_eq_true] at ha ⊢
      exact List.forall_mem_map.mpr fun w hw => hparts t w (.item hw) (ha w hw)
    | _ => cases ha
  | tuple slots rest =>
    cases v with
    | array items => exact hparts.tuple hg ha
    | _ => cases rest <;> cases ha
  | object properties signatures =>
    cases v with
    | object ms => exact hparts.object hg ht ha
    | _ => cases ha
  | _ => exact accepts_stored_of_keepsValues rfl hv ha

/-- A note whose end is absent, with an absent member and an absent item besides. -/
def patchyNote : Value :=
  .object [("kind", .string "note"), ("ends", .undefined), ("blank", .undefined),
    ("text", .string "see below"), ("marks", .array [.undefined, .number (.ofInt 2)])]

theorem accepts_stored_patchyNote :
    patchyNote.isTidy = true ∧ patchyNote.isPortable = true ∧
      messages.accepts ({} : Policy).strictly (.ref 2 "Message") patchyNote = true ∧
      messages.accepts ({} : Policy).strictly (.ref 2 "Message")
        (Value.ofJson patchyNote.toJson) = true :=
  have ht : patchyNote.isTidy = true := by decide
  have hv : patchyNote.isPortable = true := by decide +kernel
  have ha : messages.accepts ({} : Policy).strictly (.ref 2 "Message") patchyNote = true := by
    decide +kernel
  ⟨ht, hv, ha, messages_guarded.accepts_stored _ _ ht hv ha⟩

end Graph

end ShapeGraph
