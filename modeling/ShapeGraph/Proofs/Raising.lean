import ShapeGraph.Proofs.Reporting

/-!
# Where errors come from

An error of a report is raised by the shape itself, or by one of its parts at the place of that
part. Only two things stand apart: a union tells what its members say from its own place, and what a
signature says of a key is told at the value under the key.

* `Graph.Child` — a part of a shape, asked about a part of a value, and the segments that lead there
* `Graph.Raises` — an error, and how it comes about
* `Guarded.raises_of_mem_report` — every error of a report comes about so
* `Raises.path_isPrefix` — whatever a part says, it says at its own place or below
-/

namespace ShapeGraph

/-- What is left of a list, each with its place in the whole list. -/
theorem mem_zipIdx_drop {α : Type} {l : List α} {n i : Nat} {a : α} :
    (a, i) ∈ (l.drop n).zipIdx n ↔ n ≤ i ∧ l[i]? = some a := by
  rw [List.mk_mem_zipIdx_iff_le_and_getElem?_sub]
  refine and_congr_right fun hle => ?_
  rw [List.getElem?_drop, Nat.add_sub_cancel' hle]

namespace Graph

/-- `g.Child step (t, w) (s, v)`: what `s` says of `v` can be what `t` says of `w`, which stands in
`v` behind the segments of `step`. -/
inductive Child (g : Graph) : Path → Shape × Value → Shape × Value → Prop
  | slot {slots rest items i t} : slots[i]? = some t →
      Child g [Path.index i] (t, (Value.array items).item i) (.tuple slots rest, .array items)
  | rest {slots t items i w} : slots.length ≤ i → items[i]? = some w →
      Child g [Path.index i] (t, w) (.tuple slots (some t), .array items)
  | item {t items i w} : items[i]? = some w →
      Child g [Path.index i] (t, w) (.array t, .array items)
  | property {properties signatures ms k t} : (k, t) ∈ properties →
      Child g [k] (t, (Value.object ms).get k) (.object properties signatures, .object ms)
  | member {properties signatures ms k w t u} : (t, u) ∈ signatures → (k, w) ∈ ms →
      Child g [k] (u, w) (.object properties signatures, .object ms)
  | conjunct {members t v} : t ∈ members → Child g [] (t, v) (.allOf members, v)
  | branch {members tag branches k t v} : (k, t) ∈ branches →
      Child g [] (t, v) (.tagged members tag branches, v)
  | inner {t v} : Child g [] (t, v) (.optional t, v)
  | target {i name t v} : g.shape? i = some t → Child g [] (t, v) (.ref i name, v)

/-- `g.Raises p s path v e`: asked about `v`, which stands at `path`, the shape `s` can say `e`. -/
inductive Raises (g : Graph) (p : Policy) : Shape → Path → Value → DecodeError → Prop
  | expected {s path v} : Raises g p s path v (.mismatch s.expectation path v)
  | tag {members tag branches path v} :
      Raises g p (.tagged members tag branches) path v
        (.mismatch (Shape.knownTags branches) (path ++ [tag]) (v.get tag))
  | overflow {slots path items w} : items[slots.length]? = some w →
      Raises g p (.tuple slots none) path (.array items)
        (.mismatch (Shape.tooManyItems slots.length) (path ++ [Path.index slots.length]) w)
  | extra {properties path ms m} : p.strict = true → m ∈ Shape.undeclared properties ms →
      Raises g p (.object properties []) path (.object ms)
        (.mismatch Shape.extraProperty (path ++ [m.1]) m.2)
  | union {members path v} :
      Raises g p (.anyOf members) path v
        (.union path v (members.flatMap fun s => g.report p s [] v))
  | key {properties signatures path ms m t u e} : (t, u) ∈ signatures → m ∈ ms →
      Raises g p t (path ++ [m.1]) (.string m.1) e →
      Raises g p (.object properties signatures) path (.object ms) e
  | part {s path v step t w e} : Child g step (t, w) (s, v) →
      Raises g p t (path ++ step) w e → Raises g p s path v e

variable {g : Graph} {p : Policy} {s t : Shape} {path : Path} {v w : Value} {e : DecodeError}

/-- A child is a part of the question. -/
theorem Child.part {step : Path} (h : g.Child step (t, w) (s, v)) : g.Part (t, w) (s, v) := by
  cases h with
  | slot h => exact .slot h
  | rest hle h =>
    have hmem := List.fst_mem_of_mem_zipIdx (mem_zipIdx_drop.mpr ⟨hle, h⟩)
    exact .rest hmem
  | item h => exact .item (List.mem_of_getElem? h)
  | property h => exact .property h
  | member h hm => exact .member h hm
  | conjunct h => exact .conjunct h
  | branch h => exact .branch h
  | inner => exact .inner
  | target h => exact .target h

/-! ## Every error is raised -/

/-- What a part that stands at the value itself says, the shape says. -/
theorem Raises.of_here (h : g.Child [] (t, v) (s, v)) (he : g.Raises p t path v e) :
    g.Raises p s path v e := by
  refine .part h ?_
  rwa [List.append_nil]

/-- What a container takes from a part, the part says. -/
theorem mem_report_of_mem_complaint (h : e ∈ g.complaint p s path v) : e ∈ g.report p s path v := by
  rw [complaint] at h
  split at h
  · cases h
  · exact h

theorem raises_of_mem_overflow {slots : List Shape} {items : List Value}
    (h : e ∈ overflow slots path items) : g.Raises p (.tuple slots none) path (.array items) e := by
  rw [overflow] at h
  split at h
  · cases h
  · next w ws hdrop =>
    rw [List.mem_singleton.mp h]
    refine .overflow ?_
    rw [← Nat.add_zero slots.length, ← List.getElem?_drop, hdrop]
    rfl

/-- **Every error of a report is raised by the shape or by its parts.** -/
theorem Guarded.raises_of_mem_report (hg : g.Guarded) (s : Shape) (v : Value) :
    ∀ path, ∀ e ∈ g.report p s path v, g.Raises p s path v e := by
  induction s, v using hg.induction with | step s v ih => ?_
  -- a single error of the shape itself
  have hself : ∀ path, ∀ e ∈ [DecodeError.mismatch s.expectation path v],
      g.Raises p s path v e := by
    intro path e he
    rw [List.mem_singleton.mp he]
    exact .expected
  -- what is taken from a part
  have hchild : ∀ {step t w} path, g.Child step (t, w) (s, v) →
      ∀ e ∈ g.complaint p t (path ++ step) w, g.Raises p s path v e := fun path h e he =>
    .part h (ih _ _ h.part _ e (mem_report_of_mem_complaint he))
  intro path e he
  cases s with
  | any => cases he
  | ref i name =>
    cases ht : g.shape? i with
    | none => rw [report_ref_none name path v ht] at he; exact hself path e he
    | some t =>
      rw [hg.report_ref name path v ht] at he
      exact .of_here (.target ht) (ih t v (.target ht) path e he)
  | optional t =>
    rw [report_optional] at he
    split at he
    · cases he
    · exact .of_here .inner (ih t v .inner path e he)
  | allOf members =>
    rw [report_allOf] at he
    split at he
    · obtain ⟨t, ht, he⟩ := List.mem_flatMap.mp he
      exact .of_here (.conjunct ht) (ih t v (.conjunct ht) path e (mem_report_of_mem_complaint he))
    · exact hself path e he
  | anyOf members =>
    rw [report_anyOf] at he
    split at he
    · cases he
    · rw [List.mem_singleton.mp he]
      exact .union
  | tagged members tag branches =>
    rw [report_tagged] at he
    split at he
    · split at he
      · rw [List.mem_singleton.mp he]
        exact .tag
      · next t ht =>
        obtain ⟨key, -, ht⟩ := Option.bind_eq_some_iff.mp ht
        have hmem := Entries.mem_of_get? ht
        exact .of_here (.branch hmem) (ih t v (.branch hmem) path e he)
    · exact hself path e he
  | array t =>
    cases v with
    | array items =>
      rw [hg.report_array] at he
      obtain ⟨w, hw, he⟩ := List.mem_flatMap.mp he
      exact hchild path (.item (List.mem_zipIdx_iff_getElem?.mp hw)) e he
    | _ => exact hself path e he
  | tuple slots rest =>
    cases v with
    | array items =>
      have hslots : ∀ e ∈ g.slotComplaints p slots path items,
          g.Raises p (.tuple slots rest) path (.array items) e := by
        intro e he
        obtain ⟨w, hw, he⟩ := List.mem_flatMap.mp he
        exact hchild path (.slot (List.mem_zipIdx_iff_getElem?.mp hw)) e he
      cases rest with
      | none =>
        rw [hg.report_tuple_closed] at he
        exact (List.mem_append.mp he).elim (hslots e) raises_of_mem_overflow
      | some t =>
        rw [hg.report_tuple_open] at he
        refine (List.mem_append.mp he).elim (hslots e) fun he => ?_
        obtain ⟨w, hw, he⟩ := List.mem_flatMap.mp he
        obtain ⟨hle, hget⟩ := mem_zipIdx_drop.mp hw
        exact hchild path (.rest hle hget) e he
    | _ => cases rest <;> exact hself path e he
  | object properties signatures =>
    cases v with
    | object ms =>
      rw [hg.report_object] at he
      split at he
      · refine (List.mem_append.mp he).elim (fun he => ?_) fun he => ?_
        · obtain ⟨f, hf, he⟩ := List.mem_flatMap.mp he
          exact hchild path (.property hf) e he
        · split at he
          · cases he
          · obtain ⟨m, hm, he⟩ := List.mem_flatMap.mp he
            have hmem : m ∈ ms := (List.mem_filter.mp hm).1
            rw [memberComplaint] at he
            split at he
            · cases he
            · obtain ⟨f, hf, he⟩ := List.mem_flatMap.mp he
              rw [signatureComplaint] at he
              split at he
              · exact .part (.member hf hmem) (ih f.2 _ (.member hf hmem) _ e he)
              · exact .key hf hmem (ih f.1 _ (.key hf hmem) _ e he)
      · obtain ⟨m, hm, rfl⟩ := List.mem_map.mp he
        rw [extraKeys] at hm
        split at hm
        · next hstrict =>
          rw [Bool.and_eq_true, List.isEmpty_iff] at hstrict
          obtain ⟨rfl, hstrict⟩ := hstrict
          exact .extra hstrict hm
        · cases hm
    | _ => exact hself path e he
  | _ =>
    rw [report, Shape.report, Shape.check] at he
    split at he
    · cases he
    · exact hself path e he

/-! ## Where errors are told -/

/-- **Whatever a part says, it says at its own place or below.** -/
theorem Raises.path_isPrefix (h : g.Raises p s path v e) : path <+: e.path := by
  induction h with
  | expected | union => exact List.prefix_refl _
  | tag | overflow | extra => exact List.prefix_append _ _
  | key _ _ _ ih | part _ _ ih => exact (List.prefix_append _ _).trans ih

end Graph

end ShapeGraph
