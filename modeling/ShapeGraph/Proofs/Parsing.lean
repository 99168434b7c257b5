import ShapeGraph.Proofs.Acceptance
import ShapeGraph.Decode.Parse

/-!
# Parsing in a guarded graph

What a shape makes of an accepted value is put together from what its parts make of the parts of
the value. Parsing an accepted value never fails, and the result has the form of the value; that
is why an intersection and a tagged union always get objects from their members.

* `Value.Form` — what kind of thing a value is
* `Graph.Settles` — every amount of fuel that is enough gives one result
* `Guarded.settles` — accepted values are parsed, and keep their form
* `Guarded.parsed_array`, `Guarded.parsed_object`, … — one equation for each kind with parts
-/

namespace ShapeGraph

/-! ## Forms -/

/-- What kind of thing a value is; null and what is missing are one kind. -/
inductive Value.Form
  | nullish
  | bool
  | number
  | bigint
  | string
  | date
  | array
  | object
  deriving DecidableEq, Repr

namespace Value

def form : Value → Form
  | .undefined => .nullish
  | .null => .nullish
  | .bool _ => .bool
  | .number _ => .number
  | .bigint _ => .bigint
  | .string _ => .string
  | .date _ => .date
  | .array _ => .array
  | .object _ => .object

/-- The members of an object; other values have none. -/
def fields (v : Value) : Entries Value := v.members?.getD []

theorem isNullish_iff {v : Value} : v.isNullish = true ↔ v.form = .nullish := by
  cases v <;> simp [isNullish, form]

theorem isObject_iff {v : Value} : v.isObject = true ↔ v.form = .object := by
  cases v <;> simp [isObject, members?, form]

theorem eq_object_of_form {v : Value} (h : v.form = .object) : v = .object v.fields := by
  cases v with
  | object members => rfl
  | _ => cases h

/-- Two values of one form are merged to a value of that form. -/
theorem form_merge {a b : Value} {f : Form} (ha : a.form = f) (hb : b.form = f) :
    (a.merge b).form = f := by
  subst ha
  cases b <;> cases a <;> first | rfl | cases hb

/-- Values merged one over the other, the last one on top. -/
def mergeAll : List Value → Value
  | [] => .undefined
  | v :: vs => vs.foldl merge v

/-- What holds of values, and of what two such values are merged to, holds of what they are all
merged to. -/
theorem mergeAll_induction {P : Value → Prop} (hmerge : ∀ a b, P a → P b → P (a.merge b))
    {vs : List Value} (hne : vs ≠ []) (h : ∀ w ∈ vs, P w) : P (mergeAll vs) := by
  have hfold : ∀ (ws : List Value) (v : Value), P v → (∀ w ∈ ws, P w) → P (ws.foldl merge v) := by
    intro ws
    induction ws with
    | nil => exact fun v hv _ => hv
    | cons w ws ih =>
      intro v hv hws
      exact ih _ (hmerge v w hv (hws w List.mem_cons_self)) fun u hu =>
        hws u (List.mem_cons_of_mem _ hu)
  cases vs with
  | nil => exact absurd rfl hne
  | cons v vs =>
    exact hfold vs v (h v List.mem_cons_self) fun w hw => h w (List.mem_cons_of_mem _ hw)

end Value

/-- A literal has the form of the values that it holds for. -/
theorem Literal.form_toValue {c : Literal} {v : Value} (h : c.holds v = true) :
    c.toValue.form = v.form := by
  cases c <;> cases v <;> first | rfl | cases h

/-- The first literal that holds for a value holds for it. -/
theorem Literal.holds_of_find? {cs : List Literal} {c : Literal} {v : Value}
    (h : cs.find? (·.holds v) = some c) : c.holds v = true := by
  have hholds := List.find?_some h
  exact hholds

/-! ## What the results of the parts make -/

theorem mapM_pure {m : Type → Type} [Monad m] [LawfulMonad m] {α β : Type} {l : List α}
    {f : α → m β} {r : α → β} (h : ∀ a ∈ l, f a = pure (r a)) : l.mapM f = pure (l.map r) := by
  induction l with
  | nil => rfl
  | cons a l ih =>
    rw [List.forall_mem_cons] at h
    rw [List.mapM_cons, h.1, ih h.2, pure_bind, pure_bind, List.map_cons]

theorem find?_congr_of_mem {α : Type} {l : List α} {f g : α → Bool} (h : ∀ a ∈ l, f a = g a) :
    l.find? f = l.find? g := by
  induction l with
  | nil => rfl
  | cons a l ih =>
    rw [List.find?_cons, List.find?_cons, h a List.mem_cons_self,
      ih fun b hb => h b (List.mem_cons_of_mem _ hb)]

namespace Shape

variable (res : Shape → Value → Value)

/-- The items that slots make; behind the end of the items a missing result makes none. -/
def slotItems (slots : List Shape) (items : List Value) (first : Nat) : List Value :=
  (slots.zipIdx first).filterMap fun e =>
    let w := res e.1 ((Value.array items).item e.2)
    if items.length ≤ e.2 && w.isUndefined then none else some w

/-- The members that declared properties make; a missing result makes none. -/
def declaredFields (properties : Entries Shape) (v : Value) : Entries Value :=
  properties.filterMap fun e =>
    let w := res e.2 (v.get e.1)
    if w.isUndefined then none else some (e.1, w)

/-- The members that all members of an intersection make; under a key the last one counts. -/
def joinedFields (members : List Shape) (before : Entries Value) (v : Value) : Entries Value :=
  members.foldl (fun fields s => fields.insertAll (res s v).fields) before

variable {p : Policy} {a : Nat → Value → Bool} {r : Nat → String → Value → Except ParseFault Value}
  {res}

section

-- worked out before the proofs that rewrite with them
attribute [local simp] parse parseSlots parseAll parseSome parseBranch parseProperties parseMember

theorem parseSlots_ok {slots : List Shape} {items : List Value} {i : Nat}
    (h : ∀ e ∈ slots.zipIdx i, parse p a r e.1 ((Value.array items).item e.2) =
      .ok (res e.1 ((Value.array items).item e.2))) :
    parseSlots p a r slots (items.drop i) = .ok (slotItems res slots items i) := by
  induction slots generalizing i with
  | nil => rfl
  | cons s slots ih =>
    rw [List.zipIdx_cons] at h
    have hs := h (s, i) List.mem_cons_self
    have hrest := ih fun e he => h e (List.mem_cons_of_mem _ he)
    have hempty : (items.drop i).isEmpty = decide (items.length ≤ i) := by
      rw [Bool.eq_iff_iff, List.isEmpty_iff, decide_eq_true_iff, List.drop_eq_nil_iff]
    rw [parseSlots, Value.headD_drop, hs, List.tail_drop, hrest, hempty]
    rw [slotItems, slotItems, List.zipIdx_cons, List.filterMap_cons]
    simp only [bind, Except.bind, pure, Except.pure]
    split <;> rfl

theorem parseProperties_ok {properties : Entries Shape} {v : Value}
    (h : ∀ e ∈ properties, parse p a r e.2 (v.get e.1) = .ok (res e.2 (v.get e.1))) :
    parseProperties p a r properties v = .ok (declaredFields res properties v) := by
  induction properties with
  | nil => rfl
  | cons e properties ih =>
    have he := h e List.mem_cons_self
    have hrest := ih fun d hd => h d (List.mem_cons_of_mem _ hd)
    rw [declaredFields, List.filterMap_cons]
    simp only [parseProperties, he, hrest, declaredFields, bind, Except.bind, pure, Except.pure]
    split <;> rfl

/-- When all members make objects, the intersection makes the object that joins them. -/
theorem parseAll_ok {members : List Shape} {before : Entries Value} {v : Value}
    (h : ∀ s ∈ members, parse p a r s v = .ok (res s v) ∧ (res s v).form = .object) :
    parseAll p a r members before v = .ok (joinedFields res members before v) := by
  induction members generalizing before with
  | nil => rfl
  | cons s members ih =>
    obtain ⟨hs, hform⟩ := h s List.mem_cons_self
    rw [Value.eq_object_of_form hform] at hs
    rw [parseAll, hs, joinedFields, List.foldl_cons]
    exact ih fun t ht => h t (List.mem_cons_of_mem _ ht)

theorem parseSome_some {members : List Shape} {before v : Value}
    (h : ∀ s ∈ members, accepts p a s v = true → parse p a r s v = .ok (res s v)) :
    parseSome p a r members (some before) v =
      .ok (((members.filter fun s => accepts p a s v).map fun s => res s v).foldl Value.merge
        before) := by
  induction members generalizing before with
  | nil => rfl
  | cons s members ih =>
    have hrest := fun t ht => h t (List.mem_cons_of_mem s ht)
    by_cases hs : accepts p a s v = true
    · simp [hs, h s List.mem_cons_self hs, ih hrest, mergeOver, bind, Except.bind]
    · simp [hs, ih hrest]

/-- A union makes what the results of its accepting members are merged to. -/
theorem parseSome_ok {members : List Shape} {v : Value}
    (hsome : ∃ s ∈ members, accepts p a s v = true)
    (h : ∀ s ∈ members, accepts p a s v = true → parse p a r s v = .ok (res s v)) :
    parseSome p a r members none v =
      .ok (Value.mergeAll ((members.filter fun s => accepts p a s v).map fun s => res s v)) := by
  induction members with
  | nil =>
    obtain ⟨s, hs, -⟩ := hsome
    cases hs
  | cons s members ih =>
    have hrest := fun t ht => h t (List.mem_cons_of_mem s ht)
    by_cases hs : accepts p a s v = true
    · rw [parseSome, if_pos hs, h s List.mem_cons_self hs, List.filter_cons, if_pos hs]
      exact parseSome_some hrest
    · rw [parseSome, if_neg hs, List.filter_cons, if_neg hs]
      obtain ⟨t, ht, hacc⟩ := hsome
      rcases List.mem_cons.mp ht with rfl | ht
      · exact absurd hacc hs
      · exact ih ⟨t, ht, hacc⟩ hrest

/-- A branch that makes an object gets the tag as the value has it. -/
theorem parseBranch_ok {branches : Entries Shape} {tag key : String} {v : Value} {s : Shape}
    (hs : branches.get? key = some s) (h : parse p a r s v = .ok (res s v))
    (hform : (res s v).form = .object) :
    parseBranch p a r branches tag key v =
      .ok (.object (Entries.insert (res s v).fields tag (v.get tag))) := by
  induction branches with
  | nil => cases hs
  | cons e branches ih =>
    obtain ⟨k, t⟩ := e
    by_cases hk : k = key
    · simp only [Entries.get?, hk, if_true, Option.some.injEq] at hs
      subst hs
      rw [Value.eq_object_of_form hform] at h
      rw [parseBranch, if_pos hk, h]
      rfl
    · simp only [Entries.get?, hk, if_false] at hs
      rw [parseBranch, if_neg hk]
      exact ih hs

theorem parseMember_ok {signatures : List (Shape × Shape)} {key : String} {v : Value}
    (h : ∀ e ∈ signatures, accepts p a e.2 v = true → parse p a r e.2 v = .ok (res e.2 v)) :
    parseMember p a r signatures key v =
      .ok ((signatures.find? fun e => accepts p a e.1 (.string key) && accepts p a e.2 v).map
        fun e => (key, res e.2 v)) := by
  induction signatures with
  | nil => rfl
  | cons e signatures ih =>
    have hrest := ih fun d hd => h d (List.mem_cons_of_mem _ hd)
    rw [parseMember, List.find?_cons]
    by_cases he : (accepts p a e.1 (.string key) && accepts p a e.2 v) = true
    · have hv : accepts p a e.2 v = true := (Bool.and_eq_true _ _ ▸ he).2
      rw [if_pos he, h e List.mem_cons_self hv, he]
      rfl
    · rw [if_neg he, Bool.eq_false_iff.mpr he]
      exact hrest

end

end Shape

namespace Graph

variable {g : Graph} {p : Policy}

/-! ## Results -/

/-- **Every amount of fuel that is enough makes `w` of `v`.** -/
def Settles (g : Graph) (p : Policy) (s : Shape) (v w : Value) : Prop :=
  ∀ n, g.need s v ≤ n → s.parse p (g.acceptsRef p n) (g.parseRef p n) v = .ok w

/-- The parsed form of an accepted value. -/
def parsed (g : Graph) (p : Policy) (s : Shape) (v : Value) : Value :=
  match g.parse p s v with
  | .ok w => w
  | .error _ => .undefined

theorem Settles.parse_eq {s : Shape} {v w : Value} (h : g.Settles p s v w) :
    g.parse p s v = .ok w :=
  h (g.budget v) (need_le_budget s v)

theorem Settles.parsed_eq {s : Shape} {v w : Value} (h : g.Settles p s v w) :
    g.parsed p s v = w := by
  rw [parsed, h.parse_eq]

/-- What has to be known of the parts of a question: those that accept are parsed, and keep the
form of the value. -/
def PartsSettle (g : Graph) (p : Policy) (s : Shape) (v : Value) : Prop :=
  ∀ t w, g.Part (t, w) (s, v) → g.accepts p t w = true →
    g.Settles p t w (g.parsed p t w) ∧ (g.parsed p t w).form = w.form

/-- What is enough for the whole is enough for an accepting part. -/
theorem PartsSettle.parse_part {s t : Shape} {v w : Value} {n : Nat} (h : g.PartsSettle p s v)
    (hg : g.Guarded) (hn : g.need s v ≤ n) (hp : g.Part (t, w) (s, v))
    (ha : g.accepts p t w = true) :
    t.parse p (g.acceptsRef p n) (g.parseRef p n) w = .ok (g.parsed p t w) :=
  (h t w hp ha).1 n (Nat.le_trans (hg.need_part_le hp) hn)

/-! ## One step for each kind with parts -/

/-- The first literal that holds is what a set of literals makes of a value. -/
theorem settles_literals {cs : List Literal} {v : Value}
    (ha : g.accepts p (.literals cs) v = true) :
    ∃ c : Literal, cs.find? (·.holds v) = some c ∧ g.Settles p (.literals cs) v c.toValue := by
  have hsome := List.find?_isSome.mpr (List.any_eq_true.mp ha)
  obtain ⟨c, hc⟩ := Option.isSome_iff_exists.mp hsome
  refine ⟨c, hc, fun n hn => ?_⟩
  rw [Shape.parse, hc]
  rfl

theorem Guarded.settles_ref (hg : g.Guarded) {i : Nat} {name : String} {t : Shape} {v : Value}
    (ht : g.shape? i = some t) (h : g.PartsSettle p (.ref i name) v)
    (ha : g.accepts p (.ref i name) v = true) :
    g.Settles p (.ref i name) v (g.parsed p t v) := by
  have hacc : g.accepts p t v = true := by rwa [hg.accepts_ref, ht] at ha
  intro n hn
  have hlt : g.need t v < g.need (.ref i name) v := hg.need_target_lt ht
  obtain ⟨n, rfl⟩ : ∃ k, n = k + 1 := ⟨n - 1, by omega⟩
  rw [Shape.parse, parseRef, ht]
  exact (h t v (.target ht) hacc).1 n (by omega)

theorem settles_optional_nullish {s : Shape} {v : Value} (hv : v.isNullish = true) :
    g.Settles p (.optional s) v v := by
  intro n _
  rw [Shape.parse, if_pos hv]

theorem Guarded.settles_optional (hg : g.Guarded) {s : Shape} {v : Value}
    (hv : ¬ v.isNullish = true) (h : g.PartsSettle p (.optional s) v)
    (ha : g.accepts p (.optional s) v = true) :
    g.Settles p (.optional s) v (g.parsed p s v) := by
  have hacc : g.accepts p s v = true := by
    rw [accepts_optional, Bool.or_eq_true] at ha
    exact ha.resolve_left hv
  intro n hn
  rw [Shape.parse, if_neg hv]
  exact h.parse_part hg hn .inner hacc

theorem Guarded.settles_array (hg : g.Guarded) {s : Shape} {items : List Value}
    (h : g.PartsSettle p (.array s) (.array items))
    (ha : g.accepts p (.array s) (.array items) = true) :
    g.Settles p (.array s) (.array items) (.array (items.map fun v => g.parsed p s v)) := by
  rw [hg.accepts_array, List.all_eq_true] at ha
  intro n hn
  rw [Shape.parse]
  have hitems := mapM_pure fun v hv => h.parse_part hg hn (.item hv) (ha v hv)
  rw [show (Value.array items).items?.getD [] = items from rfl, hitems]
  rfl

/-- The slots of an accepted array are parsed at their places. -/
theorem Guarded.parse_slots (hg : g.Guarded) {slots : List Shape} {rest : Option Shape}
    {items : List Value} {n : Nat} (h : g.PartsSettle p (.tuple slots rest) (.array items))
    (hn : g.need (.tuple slots rest) (.array items) ≤ n)
    (ha : ∀ e ∈ slots.zipIdx, g.accepts p e.1 ((Value.array items).item e.2) = true) :
    Shape.parseSlots p (g.acceptsRef p n) (g.parseRef p n) slots items =
      .ok (Shape.slotItems (g.parsed p) slots items 0) := by
  refine Shape.parseSlots_ok (i := 0) fun e he => ?_
  have hslot : slots[e.2]? = some e.1 := List.mem_zipIdx_iff_getElem?.mp he
  exact h.parse_part hg hn (.slot hslot) (ha e he)

theorem Guarded.settles_tuple_closed (hg : g.Guarded) {slots : List Shape}
    {items : List Value} (h : g.PartsSettle p (.tuple slots none) (.array items))
    (ha : g.accepts p (.tuple slots none) (.array items) = true) :
    g.Settles p (.tuple slots none) (.array items)
      (.array (Shape.slotItems (g.parsed p) slots items 0)) := by
  rw [hg.accepts_tuple_closed, Bool.and_eq_true, List.all_eq_true] at ha
  intro n hn
  rw [Shape.parse]
  rw [show (Value.array items).items?.getD [] = items from rfl, hg.parse_slots h hn ha.1]
  rfl

theorem Guarded.settles_tuple_open (hg : g.Guarded) {slots : List Shape} {rest : Shape}
    {items : List Value} (h : g.PartsSettle p (.tuple slots (some rest)) (.array items))
    (ha : g.accepts p (.tuple slots (some rest)) (.array items) = true) :
    g.Settles p (.tuple slots (some rest)) (.array items)
      (.array (Shape.slotItems (g.parsed p) slots items 0
        ++ (items.drop slots.length).map fun v => g.parsed p rest v)) := by
  rw [hg.accepts_tuple_open, Bool.and_eq_true, List.all_eq_true, List.all_eq_true] at ha
  intro n hn
  have hrest := mapM_pure fun v hv => h.parse_part hg hn (.rest hv) (ha.2 v hv)
  rw [Shape.parse]
  rw [show (Value.array items).items?.getD [] = items from rfl, hg.parse_slots h hn ha.1]
  simp only [bind, Except.bind]
  rw [hrest]
  rfl

theorem Guarded.settles_allOf (hg : g.Guarded) {members : List Shape} {v : Value}
    (h : g.PartsSettle p (.allOf members) v) (ha : g.accepts p (.allOf members) v = true) :
    g.Settles p (.allOf members) v (.object (Shape.joinedFields (g.parsed p) members [] v)) := by
  rw [accepts_allOf, Bool.and_eq_true, List.all_eq_true, Value.isObject_iff] at ha
  intro n hn
  rw [Shape.parse, Shape.parseAll_ok fun s hs =>
    ⟨h.parse_part hg hn (.conjunct hs) (ha.2 s hs),
      (h s v (.conjunct hs) (ha.2 s hs)).2.trans ha.1⟩]
  rfl

/-- The members of a union that accept a value. -/
def accepting (g : Graph) (p : Policy) (members : List Shape) (v : Value) : List Shape :=
  members.filter fun s => g.accepts p s v

theorem mem_accepting {members : List Shape} {s : Shape} {v : Value} :
    s ∈ g.accepting p members v ↔ s ∈ members ∧ g.accepts p s v = true := List.mem_filter

/-- A union that accepts a value has a member that does. -/
theorem map_accepting_ne_nil {members : List Shape} {v : Value} (f : Shape → Value)
    (ha : g.accepts p (.anyOf members) v = true) : (g.accepting p members v).map f ≠ [] := by
  rw [accepts_anyOf, List.any_eq_true] at ha
  obtain ⟨t, ht, hat⟩ := ha
  have hne := List.ne_nil_of_mem (mem_accepting.mpr ⟨ht, hat⟩)
  exact fun hnil => hne (List.map_eq_nil_iff.mp hnil)

theorem Guarded.settles_anyOf (hg : g.Guarded) {members : List Shape} {v : Value}
    (h : g.PartsSettle p (.anyOf members) v) (ha : g.accepts p (.anyOf members) v = true) :
    g.Settles p (.anyOf members) v
      (Value.mergeAll ((g.accepting p members v).map fun s => g.parsed p s v)) := by
  rw [accepts_anyOf, List.any_eq_true] at ha
  intro n hn
  have hsame : ∀ s ∈ members, s.accepts p (g.acceptsRef p n) v = g.accepts p s v :=
    fun s hs => hg.accepts_fuel (Nat.le_trans (hg.need_part_le (.disjunct hs)) hn)
  obtain ⟨s, hs, hacc⟩ := ha
  rw [Shape.parse, Shape.parseSome_ok ⟨s, hs, by rw [hsame s hs, hacc]⟩ fun t ht hat =>
    h.parse_part hg hn (.disjunct ht) (by rw [← hsame t ht, hat])]
  rw [accepting, List.filter_congr hsame]

theorem Guarded.settles_tagged (hg : g.Guarded) {members : List Shape} {tag key : String}
    {branches : Entries Shape} {v : Value} {s : Shape} (hv : v.form = .object)
    (hkey : (v.get tag).tagKey? = some key) (hs : branches.get? key = some s)
    (h : g.PartsSettle p (.tagged members tag branches) v) (ha : g.accepts p s v = true) :
    g.Settles p (.tagged members tag branches) v
      (.object (Entries.insert (g.parsed p s v).fields tag (v.get tag))) := by
  have hpart : g.Part (s, v) (.tagged members tag branches, v) := .branch (Entries.mem_of_get? hs)
  intro n hn
  rw [Shape.parse, if_pos (Value.isObject_iff.mpr hv), hkey]
  exact Shape.parseBranch_ok hs (h.parse_part hg hn hpart ha) ((h s v hpart ha).2.trans hv)

/-- The members that signatures make of those that are not declared; the first signature that
admits a member counts. -/
def otherFields (g : Graph) (p : Policy) (properties : Entries Shape)
    (signatures : List (Shape × Shape)) (ms : List (String × Value)) : Entries Value :=
  (Shape.undeclared properties ms).filterMap fun m =>
    (signatures.find? (g.admits p m)).map fun e => (m.1, g.parsed p e.2 m.2)

/-- Without signatures nothing is made of undeclared members. -/
theorem otherFields_nil {properties : Entries Shape} {ms : List (String × Value)} :
    g.otherFields p properties [] ms = [] :=
  List.filterMap_eq_nil_iff.mpr fun _ _ => rfl

/-- A member that is not declared is parsed by the first signature that admits it. -/
theorem Guarded.parse_member (hg : g.Guarded) {properties : Entries Shape}
    {signatures : List (Shape × Shape)} {ms : List (String × Value)} {m : String × Value} {n : Nat}
    (h : g.PartsSettle p (.object properties signatures) (.object ms))
    (hn : g.need (.object properties signatures) (.object ms) ≤ n) (hm : m ∈ ms) :
    Shape.parseMember p (g.acceptsRef p n) (g.parseRef p n) signatures m.1 m.2 =
      .ok ((signatures.find? (g.admits p m)).map fun e => (m.1, g.parsed p e.2 m.2)) := by
  have hkey : ∀ e ∈ signatures,
      e.1.accepts p (g.acceptsRef p n) (.string m.1) = g.accepts p e.1 (.string m.1) := fun e he =>
    hg.accepts_fuel (Nat.le_trans (hg.need_part_le (.key he hm)) hn)
  have hvalue : ∀ e ∈ signatures,
      e.2.accepts p (g.acceptsRef p n) m.2 = g.accepts p e.2 m.2 := fun e he =>
    hg.accepts_fuel (Nat.le_trans (hg.need_part_le (.member he hm)) hn)
  have hsame : ∀ e ∈ signatures, (e.1.accepts p (g.acceptsRef p n) (.string m.1)
      && e.2.accepts p (g.acceptsRef p n) m.2) = g.admits p m e := by
    intro e he
    rw [admits, hkey e he, hvalue e he]
  rw [Shape.parseMember_ok fun e he hacc => h.parse_part hg hn (.member he hm) ?_]
  · rw [find?_congr_of_mem hsame]
  · rwa [hvalue e he] at hacc

theorem Guarded.settles_object (hg : g.Guarded) {properties : Entries Shape}
    {signatures : List (Shape × Shape)} {ms : List (String × Value)}
    (h : g.PartsSettle p (.object properties signatures) (.object ms))
    (ha : g.accepts p (.object properties signatures) (.object ms) = true) :
    g.Settles p (.object properties signatures) (.object ms)
      (.object (Shape.declaredFields (g.parsed p) properties (.object ms)
        ++ g.otherFields p properties signatures ms)) := by
  rw [hg.accepts_object, Bool.and_eq_true, List.all_eq_true] at ha
  intro n hn
  have hdeclared := Shape.parseProperties_ok fun e he =>
    h.parse_part hg hn (.property he) (ha.1 e he)
  have hothers := mapM_pure (l := Shape.undeclared properties ms) fun m hm =>
    hg.parse_member h hn (List.mem_filter.mp hm).1
  rw [Shape.parse, hdeclared]
  simp only [bind, Except.bind]
  rw [show (Value.object ms).members?.getD [] = ms from rfl, hothers]
  show Except.ok (Value.object (_ ++ List.filterMap id (List.map _ _))) = _
  rw [List.filterMap_map]
  rfl

/-! ## Every accepted value is parsed -/

/-- What settles to a value of the same form settles to the parsed form. -/
theorem Settles.keeps_form {s : Shape} {v w : Value} (h : g.Settles p s v w)
    (hf : w.form = v.form) :
    g.Settles p s v (g.parsed p s v) ∧ (g.parsed p s v).form = v.form := by
  rw [h.parsed_eq]
  exact ⟨h, hf⟩

/-- **An accepted value is parsed, and keeps its form.** -/
theorem Guarded.settles (hg : g.Guarded) (s : Shape) (v : Value) :
    g.accepts p s v = true →
      g.Settles p s v (g.parsed p s v) ∧ (g.parsed p s v).form = v.form := by
  -- the form is carried along: only it tells that members and branches make objects
  induction s, v using hg.induction with | step s v ih => ?_
  have ih : g.PartsSettle p s v := ih
  intro ha
  cases s with
  | never => cases ha
  | literal c =>
    have hc : g.Settles p (.literal c) v c.toValue := fun _ _ => rfl
    exact hc.keeps_form (Literal.form_toValue ha)
  | literals cs =>
    obtain ⟨c, hfind, hc⟩ := settles_literals ha
    exact hc.keeps_form (Literal.form_toValue (Literal.holds_of_find? hfind))
  | ref i name =>
    cases ht : g.shape? i with
    | none => rw [hg.accepts_ref, ht] at ha; cases ha
    | some t =>
      refine (hg.settles_ref ht ih ha).keeps_form (ih t v (.target ht) ?_).2
      rwa [hg.accepts_ref, ht] at ha
  | optional t =>
    by_cases hv : v.isNullish = true
    · exact (settles_optional_nullish hv).keeps_form rfl
    · refine (hg.settles_optional hv ih ha).keeps_form (ih t v .inner ?_).2
      rw [accepts_optional, Bool.or_eq_true] at ha
      exact ha.resolve_left hv
  | allOf members =>
    refine (hg.settles_allOf ih ha).keeps_form ?_
    rw [accepts_allOf, Bool.and_eq_true, Value.isObject_iff] at ha
    exact ha.1.symm
  | anyOf members =>
    refine (hg.settles_anyOf ih ha).keeps_form ?_
    refine Value.mergeAll_induction (P := fun w => w.form = v.form)
      (fun a b => Value.form_merge) (map_accepting_ne_nil _ ha) fun w hw => ?_
    obtain ⟨t, ht, rfl⟩ := List.mem_map.mp hw
    obtain ⟨ht, hat⟩ := mem_accepting.mp ht
    exact (ih t v (.disjunct ht) hat).2
  | tagged members tag branches =>
    rw [accepts_tagged, Bool.and_eq_true, Value.isObject_iff] at ha
    obtain ⟨hv, ha⟩ := ha
    obtain ⟨key, hkey, ha⟩ := (Option.any_eq_true _ _).mp ha
    obtain ⟨t, ht, hat⟩ := (Option.any_eq_true _ _).mp ha
    exact (hg.settles_tagged hv hkey ht ih hat).keeps_form hv.symm
  | array t =>
    cases v with
    | array items => exact (hg.settles_array ih ha).keeps_form rfl
    | _ => cases ha
  | tuple slots rest =>
    cases v with
    | array items =>
      cases rest with
      | none => exact (hg.settles_tuple_closed ih ha).keeps_form rfl
      | some t => exact (hg.settles_tuple_open ih ha).keeps_form rfl
    | _ => cases rest <;> cases ha
  | object properties signatures =>
    cases v with
    | object ms => exact (hg.settles_object ih ha).keeps_form rfl
    | _ => cases ha
  | _ => exact Settles.keeps_form (w := v) (fun _ _ => rfl) rfl

theorem Guarded.partsSettle (hg : g.Guarded) (s : Shape) (v : Value) : g.PartsSettle p s v :=
  fun t w _ => hg.settles t w

theorem Guarded.parse_eq (hg : g.Guarded) {s : Shape} {v : Value} (ha : g.accepts p s v = true) :
    g.parse p s v = .ok (g.parsed p s v) :=
  (hg.settles s v ha).1.parse_eq

theorem Guarded.form_parsed (hg : g.Guarded) {s : Shape} {v : Value}
    (ha : g.accepts p s v = true) : (g.parsed p s v).form = v.form :=
  (hg.settles s v ha).2

/-! ## Equations -/

theorem Guarded.parsed_ref (hg : g.Guarded) {i : Nat} {name : String} {t : Shape} {v : Value}
    (ht : g.shape? i = some t) (ha : g.accepts p (.ref i name) v = true) :
    g.parsed p (.ref i name) v = g.parsed p t v :=
  (hg.settles_ref ht (hg.partsSettle _ _) ha).parsed_eq

theorem parsed_optional_nullish {s : Shape} {v : Value} (hv : v.isNullish = true) :
    g.parsed p (.optional s) v = v :=
  (settles_optional_nullish hv).parsed_eq

theorem Guarded.parsed_optional (hg : g.Guarded) {s : Shape} {v : Value}
    (hv : ¬ v.isNullish = true) (ha : g.accepts p (.optional s) v = true) :
    g.parsed p (.optional s) v = g.parsed p s v :=
  (hg.settles_optional hv (hg.partsSettle _ _) ha).parsed_eq

theorem Guarded.parsed_array (hg : g.Guarded) {s : Shape} {items : List Value}
    (ha : g.accepts p (.array s) (.array items) = true) :
    g.parsed p (.array s) (.array items) = .array (items.map fun v => g.parsed p s v) :=
  (hg.settles_array (hg.partsSettle _ _) ha).parsed_eq

theorem Guarded.parsed_tuple_closed (hg : g.Guarded) {slots : List Shape} {items : List Value}
    (ha : g.accepts p (.tuple slots none) (.array items) = true) :
    g.parsed p (.tuple slots none) (.array items) =
      .array (Shape.slotItems (g.parsed p) slots items 0) :=
  (hg.settles_tuple_closed (hg.partsSettle _ _) ha).parsed_eq

theorem Guarded.parsed_tuple_open (hg : g.Guarded) {slots : List Shape} {rest : Shape}
    {items : List Value} (ha : g.accepts p (.tuple slots (some rest)) (.array items) = true) :
    g.parsed p (.tuple slots (some rest)) (.array items) =
      .array (Shape.slotItems (g.parsed p) slots items 0
        ++ (items.drop slots.length).map fun v => g.parsed p rest v) :=
  (hg.settles_tuple_open (hg.partsSettle _ _) ha).parsed_eq

theorem Guarded.parsed_allOf (hg : g.Guarded) {members : List Shape} {v : Value}
    (ha : g.accepts p (.allOf members) v = true) :
    g.parsed p (.allOf members) v = .object (Shape.joinedFields (g.parsed p) members [] v) :=
  (hg.settles_allOf (hg.partsSettle _ _) ha).parsed_eq

theorem Guarded.parsed_anyOf (hg : g.Guarded) {members : List Shape} {v : Value}
    (ha : g.accepts p (.anyOf members) v = true) :
    g.parsed p (.anyOf members) v =
      Value.mergeAll ((g.accepting p members v).map fun s => g.parsed p s v) :=
  (hg.settles_anyOf (hg.partsSettle _ _) ha).parsed_eq

theorem Guarded.parsed_tagged (hg : g.Guarded) {members : List Shape} {tag key : String}
    {branches : Entries Shape} {v : Value} {s : Shape} (hv : v.form = .object)
    (hkey : (v.get tag).tagKey? = some key) (hs : branches.get? key = some s)
    (ha : g.accepts p s v = true) :
    g.parsed p (.tagged members tag branches) v =
      .object (Entries.insert (g.parsed p s v).fields tag (v.get tag)) :=
  (hg.settles_tagged hv hkey hs (hg.partsSettle _ _) ha).parsed_eq

theorem Guarded.parsed_object (hg : g.Guarded) {properties : Entries Shape}
    {signatures : List (Shape × Shape)} {ms : List (String × Value)}
    (ha : g.accepts p (.object properties signatures) (.object ms) = true) :
    g.parsed p (.object properties signatures) (.object ms) =
      .object (Shape.declaredFields (g.parsed p) properties (.object ms)
        ++ g.otherFields p properties signatures ms) :=
  (hg.settles_object (hg.partsSettle _ _) ha).parsed_eq

end Graph

end ShapeGraph
