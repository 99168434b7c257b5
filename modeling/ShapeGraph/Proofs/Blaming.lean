import ShapeGraph.Proofs.Diagnosis

/-!
# Which parts are blamed

The report of a container tells of the parts that are rejected, of each of them, and of nothing
else. What it tells of a part it tells below the segment of that part, so the parts can be read off
the first segments of the paths.

* `Graph.Blames` — the segments of which a container should tell
* `Tells` — the errors that begin with given segments, at least one with each of them
* `Guarded.tells_report` — a report tells of the segments of which it should
* `Guarded.head_path_iff_blames` — so no path is empty, and the first segments are these
-/

namespace ShapeGraph

/-- Whether a shape goes into the parts of a value: an array or a tuple into an array, an object
into an object. -/
def Shape.entersInto : Shape → Value → Bool
  | .array _, .array _ => true
  | .tuple _ _, .array _ => true
  | .object _ _, .object _ => true
  | _, _ => false

namespace Graph

/-- `g.Blames p s v k`: asked about `v`, the container `s` has something to say of the part behind
the segment `k`. Undeclared keys that a strict object refuses to have are told instead of all
else. -/
inductive Blames (g : Graph) (p : Policy) : Shape → Value → String → Prop
  | item {t items i w} : items[i]? = some w → g.accepts p t w = false →
      Blames g p (.array t) (.array items) (Path.index i)
  | slot {slots rest items i t} : slots[i]? = some t →
      g.accepts p t ((Value.array items).item i) = false →
      Blames g p (.tuple slots rest) (.array items) (Path.index i)
  | rest {slots t items i w} : slots.length ≤ i → items[i]? = some w →
      g.accepts p t w = false →
      Blames g p (.tuple slots (some t)) (.array items) (Path.index i)
  | overflow {slots items} : slots.length < items.length →
      Blames g p (.tuple slots none) (.array items) (Path.index slots.length)
  | extra {properties signatures ms m} : m ∈ extraKeys p properties signatures ms →
      Blames g p (.object properties signatures) (.object ms) m.1
  | property {properties signatures ms k t} : extraKeys p properties signatures ms = [] →
      (k, t) ∈ properties → g.accepts p t ((Value.object ms).get k) = false →
      Blames g p (.object properties signatures) (.object ms) k
  | member {properties signatures ms m} : signatures ≠ [] → m ∈ Shape.undeclared properties ms →
      signatures.any (g.admits p m) = false →
      Blames g p (.object properties signatures) (.object ms) m.1

end Graph

/-! ## First segments -/

/-- **All errors begin with a segment that is as asked, and with each such segment one begins.** -/
structure Tells (errors : List DecodeError) (P : String → Prop) : Prop where
  sound : ∀ e ∈ errors, ∃ k, e.path.head? = some k ∧ P k
  complete : ∀ k, P k → ∃ e ∈ errors, e.path.head? = some k

namespace Tells

variable {errors others : List DecodeError} {P Q : String → Prop}

theorem congr (h : Tells errors P) (hPQ : ∀ k, P k ↔ Q k) : Tells errors Q where
  sound := fun e he => (h.sound e he).imp fun k hk => ⟨hk.1, (hPQ k).mp hk.2⟩
  complete := fun k hk => h.complete k ((hPQ k).mpr hk)

theorem append (h : Tells errors P) (h' : Tells others Q) :
    Tells (errors ++ others) fun k => P k ∨ Q k where
  sound := by
    intro e he
    rcases List.mem_append.mp he with he | he
    · obtain ⟨k, hk, hP⟩ := h.sound e he
      exact ⟨k, hk, .inl hP⟩
    · obtain ⟨k, hk, hQ⟩ := h'.sound e he
      exact ⟨k, hk, .inr hQ⟩
  complete := by
    rintro k (hP | hQ)
    · obtain ⟨e, he, hk⟩ := h.complete k hP
      exact ⟨e, List.mem_append_left _ he, hk⟩
    · obtain ⟨e, he, hk⟩ := h'.complete k hQ
      exact ⟨e, List.mem_append_right _ he, hk⟩

theorem flatMap {α : Type} {l : List α} {f : α → List DecodeError} {P : α → String → Prop}
    (h : ∀ a ∈ l, Tells (f a) (P a)) : Tells (l.flatMap f) fun k => ∃ a ∈ l, P a k where
  sound := by
    intro e he
    obtain ⟨a, ha, he⟩ := List.mem_flatMap.mp he
    obtain ⟨k, hk, hP⟩ := (h a ha).sound e he
    exact ⟨k, hk, a, ha, hP⟩
  complete := by
    rintro k ⟨a, ha, hP⟩
    obtain ⟨e, he, hk⟩ := (h a ha).complete k hP
    exact ⟨e, List.mem_flatMap.mpr ⟨a, ha, he⟩, hk⟩

/-- Errors below one segment tell of that segment, if there are any. -/
theorem of_prefix {segment : String} (h : ∀ e ∈ errors, [segment] <+: e.path) :
    Tells errors fun k => k = segment ∧ errors ≠ [] where
  sound := by
    intro e he
    obtain ⟨rest, hrest⟩ := h e he
    exact ⟨segment, by rw [← hrest]; rfl, rfl, List.ne_nil_of_mem he⟩
  complete := by
    rintro k ⟨rfl, hne⟩
    obtain ⟨e, he⟩ := List.exists_mem_of_ne_nil errors hne
    obtain ⟨rest, hrest⟩ := h e he
    exact ⟨e, he, by rw [← hrest]; rfl⟩

end Tells

namespace Graph

variable {g : Graph} {p : Policy}

/-! ## What is told of one part -/

/-- A rejected part is told of, and no other. -/
theorem Guarded.tells_complaint (hg : g.Guarded) (s : Shape) (segment : String) (v : Value) :
    Tells (g.complaint p s [segment] v) fun k => k = segment ∧ g.accepts p s v = false := by
  have hprefix : ∀ e ∈ g.complaint p s [segment] v, [segment] <+: e.path := fun e he =>
    (hg.raises_of_mem_report s v _ e (mem_report_of_mem_complaint he)).path_isPrefix
  refine (Tells.of_prefix hprefix).congr fun k => and_congr_right fun _ => ?_
  rw [complaint, ← Bool.not_eq_true]
  split
  · next ha => exact iff_of_false (fun h => h rfl) fun h => h ha
  · exact not_congr (hg.report_eq_nil_iff s v _)

/-- A member that no signature admits is told of, and no other. -/
theorem Guarded.tells_memberComplaint (hg : g.Guarded) {signatures : List (Shape × Shape)}
    (hne : signatures ≠ []) (m : String × Value) :
    Tells (g.memberComplaint p signatures [] m) fun k =>
      k = m.1 ∧ signatures.any (g.admits p m) = false := by
  have hprefix : ∀ e ∈ g.memberComplaint p signatures [] m, [m.1] <+: e.path := by
    intro e he
    rw [memberComplaint] at he
    split at he
    · cases he
    · obtain ⟨f, -, he⟩ := List.mem_flatMap.mp he
      rw [signatureComplaint] at he
      split at he
      · exact (hg.raises_of_mem_report _ _ _ e he).path_isPrefix
      · exact (hg.raises_of_mem_report _ _ _ e he).path_isPrefix
  have hdiagnose : g.PartsDiagnose p (.object [] signatures) (.object [m]) :=
    fun t w _ => hg.report_eq_nil_iff t w
  refine (Tells.of_prefix hprefix).congr fun k => and_congr_right fun _ => ?_
  rw [← Bool.not_eq_true]
  exact not_congr (hdiagnose.member hne (List.mem_singleton_self m) [])

/-- Too many items are told of at the first of them. -/
theorem tells_overflow (slots : List Shape) (items : List Value) :
    Tells (overflow slots [] items) fun k =>
      k = Path.index slots.length ∧ slots.length < items.length := by
  have hprefix : ∀ e ∈ overflow slots [] items, [Path.index slots.length] <+: e.path :=
    fun e he => by
      rw [overflow] at he
      split at he
      · cases he
      · rw [List.mem_singleton.mp he]
        exact List.prefix_refl _
  refine (Tells.of_prefix hprefix).congr fun k => and_congr_right fun _ => ?_
  rw [Ne, overflow_eq_nil_iff, Nat.not_le]

/-! ## What is told of all parts -/

theorem Guarded.tells_slots (hg : g.Guarded) (slots : List Shape) (items : List Value) :
    Tells (g.slotComplaints p slots [] items) fun k => ∃ i t, slots[i]? = some t ∧
      k = Path.index i ∧ g.accepts p t ((Value.array items).item i) = false := by
  refine (Tells.flatMap fun e _ => hg.tells_complaint e.1 (Path.index e.2) _).congr fun k => ?_
  constructor
  · rintro ⟨e, he, hk⟩
    exact ⟨e.2, e.1, List.mem_zipIdx_iff_getElem?.mp he, hk⟩
  · rintro ⟨i, t, ht, hk⟩
    exact ⟨(t, i), List.mk_mem_zipIdx_iff_getElem?.mpr ht, hk⟩

theorem Guarded.tells_array (hg : g.Guarded) (t : Shape) (items : List Value) :
    Tells (g.report p (.array t) [] (.array items)) (g.Blames p (.array t) (.array items)) := by
  rw [hg.report_array]
  refine (Tells.flatMap fun e _ => hg.tells_complaint t (Path.index e.2) e.1).congr fun k => ?_
  constructor
  · rintro ⟨e, he, rfl, ha⟩
    exact .item (List.mem_zipIdx_iff_getElem?.mp he) ha
  · intro h
    cases h with
    | item hi ha => exact ⟨_, List.mk_mem_zipIdx_iff_getElem?.mpr hi, rfl, ha⟩

theorem Guarded.tells_tuple (hg : g.Guarded) (slots : List Shape) (rest : Option Shape)
    (items : List Value) :
    Tells (g.report p (.tuple slots rest) [] (.array items))
      (g.Blames p (.tuple slots rest) (.array items)) := by
  cases rest with
  | none =>
    rw [hg.report_tuple_closed]
    refine ((hg.tells_slots slots items).append (tells_overflow slots items)).congr fun k => ?_
    constructor
    · rintro (⟨i, t, ht, rfl, ha⟩ | ⟨rfl, hlt⟩)
      · exact .slot ht ha
      · exact .overflow hlt
    · intro h
      cases h with
      | slot ht ha => exact .inl ⟨_, _, ht, rfl, ha⟩
      | overflow hlt => exact .inr ⟨rfl, hlt⟩
  | some t =>
    rw [hg.report_tuple_open]
    refine ((hg.tells_slots slots items).append (Tells.flatMap fun e _ =>
      hg.tells_complaint t (Path.index e.2) e.1)).congr fun k => ?_
    constructor
    · rintro (⟨i, t, ht, rfl, ha⟩ | ⟨e, he, rfl, ha⟩)
      · exact .slot ht ha
      · obtain ⟨hle, hget⟩ := mem_zipIdx_drop.mp he
        exact .rest hle hget ha
    · intro h
      cases h with
      | slot ht ha => exact .inl ⟨_, _, ht, rfl, ha⟩
      | rest hle hget ha => exact .inr ⟨_, mem_zipIdx_drop.mpr ⟨hle, hget⟩, rfl, ha⟩

/-- A strict object tells of the keys that it refuses to have. -/
theorem tells_extraKeys (extra : List (String × Value)) :
    Tells (extra.map fun m => .mismatch Shape.extraProperty ([] ++ [m.1]) m.2) fun k =>
      ∃ m ∈ extra, k = m.1 where
  sound := by
    intro e he
    obtain ⟨m, hm, rfl⟩ := List.mem_map.mp he
    exact ⟨m.1, rfl, m, hm, rfl⟩
  complete := by
    rintro k ⟨m, hm, rfl⟩
    exact ⟨_, List.mem_map_of_mem hm, rfl⟩

theorem Guarded.tells_properties (hg : g.Guarded) (properties : Entries Shape) (v : Value) :
    Tells (properties.flatMap fun e => g.complaint p e.2 ([] ++ [e.1]) (v.get e.1)) fun k =>
      ∃ t, (k, t) ∈ properties ∧ g.accepts p t (v.get k) = false := by
  refine (Tells.flatMap fun e _ => hg.tells_complaint e.2 e.1 (v.get e.1)).congr fun k => ?_
  constructor
  · rintro ⟨e, he, rfl, ha⟩
    exact ⟨e.2, he, ha⟩
  · rintro ⟨t, ht, ha⟩
    exact ⟨(k, t), ht, rfl, ha⟩

theorem Guarded.tells_object (hg : g.Guarded) (properties : Entries Shape)
    (signatures : List (Shape × Shape)) (ms : List (String × Value)) :
    Tells (g.report p (.object properties signatures) [] (.object ms))
      (g.Blames p (.object properties signatures) (.object ms)) := by
  rw [hg.report_object]
  have hproperties := hg.tells_properties (p := p) properties (.object ms)
  by_cases hextra : extraKeys p properties signatures ms = []
  · rw [hextra, List.isEmpty_nil, if_pos rfl]
    cases signatures with
    | nil =>
      rw [List.isEmpty_nil, if_pos rfl, List.append_nil]
      refine hproperties.congr fun k => ⟨fun ⟨t, ht, ha⟩ => .property hextra ht ha, fun h => ?_⟩
      cases h with
      | extra hm =>
        rw [hextra] at hm
        cases hm
      | property _ ht ha => exact ⟨_, ht, ha⟩
      | member hne => exact absurd rfl hne
    | cons f signatures =>
      have hne : f :: signatures ≠ [] := List.cons_ne_nil _ _
      refine (hproperties.append (Tells.flatMap fun m _ =>
        hg.tells_memberComplaint hne m)).congr fun k => ?_
      constructor
      · rintro (⟨t, ht, ha⟩ | ⟨m, hm, rfl, ha⟩)
        · exact .property hextra ht ha
        · exact .member hne hm ha
      · intro h
        cases h with
        | extra hm =>
          rw [hextra] at hm
          cases hm
        | property _ ht ha => exact .inl ⟨_, ht, ha⟩
        | member _ hm ha => exact .inr ⟨_, hm, rfl, ha⟩
  · rw [if_neg fun h => hextra (List.isEmpty_iff.mp h)]
    refine (tells_extraKeys _).congr fun k => ⟨fun ⟨m, hm, hk⟩ => hk ▸ .extra hm, fun h => ?_⟩
    cases h with
    | extra hm => exact ⟨_, hm, rfl⟩
    | property hnone => exact absurd hnone hextra
    | member hne =>
      -- with signatures no key is refused
      obtain ⟨f, signatures, rfl⟩ := List.exists_cons_of_ne_nil hne
      exact absurd rfl hextra

/-- **A report tells of the segments of which it should.** -/
theorem Guarded.tells_report (hg : g.Guarded) {s : Shape} {v : Value} (h : s.entersInto v = true) :
    Tells (g.report p s [] v) (g.Blames p s v) := by
  cases s with
  | array t =>
    cases v with
    | array items => exact hg.tells_array t items
    | _ => cases h
  | tuple slots rest =>
    cases v with
    | array items => exact hg.tells_tuple slots rest items
    | _ => cases h
  | object properties signatures =>
    cases v with
    | object ms => exact hg.tells_object properties signatures ms
    | _ => cases h
  | _ => cases h

/-- **The parts that are blamed are the rejected ones.** Of a container that is asked about a value
of its kind, the report has no empty path, and the first segments of its paths are exactly those of
which it should tell. -/
theorem Guarded.head_path_iff_blames (hg : g.Guarded) (p : Policy) {s : Shape} {v : Value}
    (h : s.entersInto v = true) :
    (∀ e ∈ g.report p s [] v, e.path ≠ []) ∧
      ∀ k, (∃ e ∈ g.report p s [] v, e.path.head? = some k) ↔ g.Blames p s v k := by
  have htells : Tells (g.report p s [] v) (g.Blames p s v) := hg.tells_report h
  refine ⟨fun e he hnil => ?_, fun k => ⟨fun ⟨e, he, hk⟩ => ?_, htells.complete k⟩⟩
  · obtain ⟨k, hk, -⟩ := htells.sound e he
    rw [hnil] at hk
    cases hk
  · obtain ⟨k', hk', hblames⟩ := htells.sound e he
    cases hk.symm.trans hk'
    exact hblames

/-- The definition of forks. -/
def forkShape : Shape :=
  .object [("kind", .literal (.string "fork")), ("parts", .array (.ref 2 "Tree"))]
    [(.literals [.string "owner", .string "age"], .anyOf [.bigint, .ref 3 "Lost"])]

/-- A fork is blamed for its parts, its owner and its colour. -/
theorem head_path_iff_blames_spoiltFork :
    trees.shape? 1 = some forkShape ∧ forkShape.entersInto spoiltFork = true ∧
      (trees.report {} forkShape [] spoiltFork).map (·.path.head?) =
        [some "parts", some "owner", some "colour"] ∧
      (∀ e ∈ trees.report {} forkShape [] spoiltFork, e.path ≠ []) ∧
      ∀ k, (∃ e ∈ trees.report {} forkShape [] spoiltFork, e.path.head? = some k) ↔
        trees.Blames {} forkShape spoiltFork k :=
  have h : forkShape.entersInto spoiltFork = true := rfl
  ⟨rfl, h, by decide +kernel, trees_guarded.head_path_iff_blames {} h⟩

end Graph

end ShapeGraph
