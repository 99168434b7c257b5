import ShapeGraph.Proofs.Composition
import ShapeGraph.Proofs.Parsing
import ShapeGraph.Proofs.Reporting

/-!
# Shapes in place of references do not show

Where the shapes that are put in place of the references answer as the references did, the changed
shape answers as the shape did: whether it accepts a value, what it reports of one, what it makes of
one, and its fingerprint and schema. Only the references that stand inside the shape matter.

* `accepts_subst`, `report_subst` — values that are checked
* `SameResult`, `parse_subst` — values that are parsed; the faults of two parses may differ
* `fingerprint_subst`, `schema_subst` — what is read from the shape alone
-/

namespace ShapeGraph

theorem mapM_congr_of_mem {m : Type → Type} [Monad m] [LawfulMonad m] {α β : Type} {xs : List α}
    {f g : α → m β} (h : ∀ x ∈ xs, f x = g x) : xs.mapM f = xs.mapM g := by
  induction xs with
  | nil => rfl
  | cons x xs ih =>
    obtain ⟨hx, hxs⟩ := List.forall_mem_cons.mp h
    rw [List.mapM_cons, List.mapM_cons, hx, ih hxs]

namespace Shape

variable {f : Nat → String → Shape}

/-! ## Checking -/

section

variable {p : Policy} {a a' : Nat → Value → Bool}
  {r r' : Nat → String → Path → Value → List DecodeError}

/-- **Whether a value is accepted.** -/
theorem accepts_subst {s : Shape} {v : Value}
    (h : ∀ i name, s.Contains (.ref i name) → ∀ w, accepts p a' (f i name) w = a i w) :
    accepts p a' (s.subst f) v = accepts p a s v := by
  induction s using parts_induction generalizing v with | step s ih => ?_
  cases hs : s.isRef with
  | true =>
    obtain ⟨i, name, rfl⟩ := eq_ref_of_isRef hs
    rw [subst, accepts]
    exact h i name .refl v
  | false =>
    refine accepts_subst_congr (g := {}) hs fun t w hp => ?_
    have ht := hp.mem_parts hs
    exact ih t ht fun i name hi => h i name (.head ht hi)

/-- **What is reported of a value.** -/
theorem report_subst {s : Shape} {v : Value} (path : Path)
    (haccepts : ∀ i name, s.Contains (.ref i name) → ∀ w, accepts p a' (f i name) w = a i w)
    (hreport : ∀ i name, s.Contains (.ref i name) →
      ∀ path w, report p a' r' (f i name) path w = r i name path w) :
    report p a' r' (s.subst f) path v = report p a r s path v := by
  induction s using parts_induction generalizing v path with | step s ih => ?_
  cases hs : s.isRef with
  | true =>
    obtain ⟨i, name, rfl⟩ := eq_ref_of_isRef hs
    rw [subst, report]
    exact hreport i name .refl path v
  | false =>
    refine report_subst_congr (g := {}) hs (fun t w hp => ?_) (fun t w hp path => ?_) path
    · exact accepts_subst fun i name hi => haccepts i name (.head (hp.mem_parts hs) hi)
    · have ht := hp.mem_parts hs
      exact ih t ht path (fun i name hi => haccepts i name (.head ht hi))
        fun i name hi => hreport i name (.head ht hi)

end

end Shape

/-! ## Parsing -/

/-- Two steps have the same result, if either of them has one. -/
def SameResult {ε α : Type} (x y : Except ε α) : Prop := ∀ b, x = .ok b ↔ y = .ok b

namespace SameResult

variable {ε α β : Type}

theorem refl (x : Except ε α) : SameResult x x := fun _ => Iff.rfl

theorem error (e e' : ε) : SameResult (.error e : Except ε α) (.error e') :=
  fun _ => ⟨nofun, nofun⟩

theorem bind {x y : Except ε α} {f g : α → Except ε β} (h : SameResult x y)
    (hf : ∀ b, SameResult (f b) (g b)) : SameResult (x >>= f) (y >>= g) := by
  intro c
  rw [bind_eq_ok, bind_eq_ok]
  exact exists_congr fun b => and_congr (h b) (hf b c)

theorem mapM {xs : List α} {f g : α → Except ε β} (h : ∀ x ∈ xs, SameResult (f x) (g x)) :
    SameResult (xs.mapM f) (xs.mapM g) := by
  induction xs with
  | nil => exact .refl _
  | cons x xs ih =>
    obtain ⟨hx, hxs⟩ := List.forall_mem_cons.mp h
    rw [List.mapM_cons, List.mapM_cons]
    exact hx.bind fun _ => (ih hxs).bind fun _ => .refl _

end SameResult

namespace Shape

variable {f : Nat → String → Shape}

section

variable {p : Policy} {a a' : Nat → Value → Bool}
  {r r' : Nat → String → Value → Except ParseFault Value}

/-- What is known of the parts of a shape: the changed ones accept what they do, and have the
results that they have. -/
structure SameParts (p : Policy) (a a' : Nat → Value → Bool)
    (r r' : Nat → String → Value → Except ParseFault Value) (f : Nat → String → Shape)
    (parts : List Shape) : Prop where
  accepts : ∀ t ∈ parts, ∀ w, Shape.accepts p a' (t.subst f) w = Shape.accepts p a t w
  parse : ∀ t ∈ parts, ∀ w, SameResult (Shape.parse p a' r' (t.subst f) w) (Shape.parse p a r t w)

theorem SameParts.mono {shapes others : List Shape} (h : SameParts p a a' r r' f shapes)
    (hsub : ∀ t ∈ others, t ∈ shapes) : SameParts p a a' r r' f others :=
  ⟨fun t ht => h.accepts t (hsub t ht), fun t ht => h.parse t (hsub t ht)⟩

theorem SameParts.tail {s : Shape} {shapes : List Shape}
    (h : SameParts p a a' r r' f (s :: shapes)) :
    SameParts p a a' r r' f shapes :=
  h.mono fun _ => List.mem_cons_of_mem s

theorem SameParts.parseSlots {slots : List Shape} (h : SameParts p a a' r r' f slots)
    (items : List Value) :
    SameResult (Shape.parseSlots p a' r' (slots.map (subst f)) items)
      (Shape.parseSlots p a r slots items) := by
  induction slots generalizing items with
  | nil => exact .refl _
  | cons s slots ih =>
    rw [List.map_cons, Shape.parseSlots, Shape.parseSlots]
    exact (h.parse s List.mem_cons_self _).bind fun _ => (ih h.tail _).bind fun _ => .refl _

theorem SameParts.parseAll {members : List Shape} (h : SameParts p a a' r r' f members)
    (before : Entries Value) (v : Value) :
    SameResult (Shape.parseAll p a' r' (members.map (subst f)) before v)
      (Shape.parseAll p a r members before v) := by
  induction members generalizing before with
  | nil => exact .refl _
  | cons s members ih =>
    rw [List.map_cons, Shape.parseAll, Shape.parseAll]
    refine (h.parse s List.mem_cons_self v).bind fun w => ?_
    cases w with
    | object found => exact ih h.tail _
    | _ => exact .error _ _

theorem SameParts.parseSome {members : List Shape} (h : SameParts p a a' r r' f members)
    (before : Option Value) (v : Value) :
    SameResult (Shape.parseSome p a' r' (members.map (subst f)) before v)
      (Shape.parseSome p a r members before v) := by
  induction members generalizing before with
  | nil => cases before <;> exact .refl _
  | cons s members ih =>
    rw [List.map_cons, Shape.parseSome, Shape.parseSome, h.accepts s List.mem_cons_self v]
    split
    · exact (h.parse s List.mem_cons_self v).bind fun _ => ih h.tail _
    · exact ih h.tail _

theorem SameParts.parseBranch {branches : Entries Shape}
    (h : SameParts p a a' r r' f (branches.map (·.2))) (tag key : String) (v : Value) :
    SameResult (Shape.parseBranch p a' r' (branches.mapValues (subst f)) tag key v)
      (Shape.parseBranch p a r branches tag key v) := by
  induction branches with
  | nil => exact .refl _
  | cons e branches ih =>
    rw [Entries.mapValues, List.map_cons, Shape.parseBranch, Shape.parseBranch]
    split
    · refine (h.parse e.2 List.mem_cons_self v).bind fun w => ?_
      cases w <;> exact .refl _
    · exact ih h.tail

theorem SameParts.parseProperties {properties : Entries Shape}
    (h : SameParts p a a' r r' f (properties.map (·.2))) (v : Value) :
    SameResult (Shape.parseProperties p a' r' (properties.mapValues (subst f)) v)
      (Shape.parseProperties p a r properties v) := by
  induction properties with
  | nil => exact .refl _
  | cons e properties ih =>
    rw [Entries.mapValues, List.map_cons, Shape.parseProperties, Shape.parseProperties]
    exact (h.parse e.2 List.mem_cons_self _).bind fun _ => (ih h.tail).bind fun _ => .refl _

theorem SameParts.parseMember {signatures : List (Shape × Shape)}
    (h : SameParts p a a' r r' f (signatures.flatMap fun e => [e.1, e.2])) (key : String)
    (v : Value) :
    SameResult
      (Shape.parseMember p a' r' (signatures.map fun e => (e.1.subst f, e.2.subst f)) key v)
      (Shape.parseMember p a r signatures key v) := by
  induction signatures with
  | nil => exact .refl _
  | cons e signatures ih =>
    have hkey : e.1 ∈ (e :: signatures).flatMap fun e => [e.1, e.2] := List.mem_cons_self
    have hvalue : e.2 ∈ (e :: signatures).flatMap fun e => [e.1, e.2] :=
      List.mem_cons_of_mem _ List.mem_cons_self
    rw [List.map_cons, Shape.parseMember, Shape.parseMember, h.accepts e.1 hkey,
      h.accepts e.2 hvalue]
    split
    · exact (h.parse e.2 hvalue v).bind fun _ => .refl _
    · exact ih h.tail.tail

/-- One shape, from its parts. -/
theorem SameParts.parse_subst {s : Shape} (hs : s.isRef = false)
    (h : SameParts p a a' r r' f s.parts) (v : Value) :
    SameResult (Shape.parse p a' r' (s.subst f) v) (Shape.parse p a r s v) := by
  cases s with
  | ref => cases hs
  | tuple slots rest =>
    have hslots : SameParts p a a' r r' f slots := h.mono fun t => List.mem_append_left _
    rw [subst_tuple]
    cases rest with
    | none => exact (hslots.parseSlots _).bind fun _ => .refl _
    | some rest =>
      have hrest : rest ∈ slots ++ [rest] := List.mem_append_right _ List.mem_cons_self
      rw [Option.map_some, Shape.parse, Shape.parse, List.length_map]
      refine (hslots.parseSlots _).bind fun _ => ?_
      exact (SameResult.mapM fun w _ => h.parse rest hrest w).bind fun _ => .refl _
  | allOf members =>
    rw [subst_allOf]
    exact (h.parseAll [] v).bind fun _ => .refl _
  | anyOf members =>
    rw [subst_anyOf]
    exact h.parseSome none v
  | array item =>
    exact (SameResult.mapM fun w _ => h.parse item List.mem_cons_self w).bind fun _ => .refl _
  | tagged members tag branches =>
    have hbranches : SameParts p a a' r r' f (branches.map (·.2)) :=
      h.mono fun t => List.mem_append_right _
    rw [subst_tagged, Shape.parse, Shape.parse]
    split
    · exact .refl _
    · exact hbranches.parseBranch tag _ v
  | optional inner =>
    rw [subst, Shape.parse, Shape.parse]
    split
    · exact .refl _
    · exact h.parse inner List.mem_cons_self v
  | object properties signatures =>
    have hproperties : SameParts p a a' r r' f (properties.map (·.2)) :=
      h.mono fun t => List.mem_append_left _
    have hsignatures : SameParts p a a' r r' f (signatures.flatMap fun e => [e.1, e.2]) :=
      h.mono fun t => List.mem_append_right _
    rw [subst_object, Shape.parse, Shape.parse, undeclared_mapValues]
    refine (hproperties.parseProperties v).bind fun _ => ?_
    exact (SameResult.mapM fun m _ => hsignatures.parseMember m.1 m.2).bind fun _ => .refl _
  | _ => exact .refl _

/-- **What is made of a value.** -/
theorem parse_subst {s : Shape} {v : Value}
    (haccepts : ∀ i name, s.Contains (.ref i name) → ∀ w, accepts p a' (f i name) w = a i w)
    (hparse : ∀ i name, s.Contains (.ref i name) →
      ∀ w, SameResult (parse p a' r' (f i name) w) (r i name w)) :
    SameResult (parse p a' r' (s.subst f) v) (parse p a r s v) := by
  induction s using parts_induction generalizing v with | step s ih => ?_
  cases hs : s.isRef with
  | true =>
    obtain ⟨i, name, rfl⟩ := eq_ref_of_isRef hs
    rw [subst, parse]
    exact hparse i name .refl v
  | false =>
    have hparts : SameParts p a a' r r' f s.parts := by
      constructor
      · intro t ht w
        exact accepts_subst fun i name hi => haccepts i name (.head ht hi)
      · intro t ht w
        exact ih t ht (fun i name hi => haccepts i name (.head ht hi))
          fun i name hi => hparse i name (.head ht hi)
    exact hparts.parse_subst hs v

end

/-! ## Fingerprints and schemas -/

theorem hashed_subst {s : Shape} (hs : s.isRef = false) :
    (s.subst f).hashed = s.hashed.map (subst f) := by
  cases s with
  | ref => cases hs
  | tuple slots rest =>
    rw [subst_tuple, hashed, hashed, List.map_append]
    cases rest <;> rfl
  | allOf members => rw [subst_allOf]; rfl
  | anyOf members => rw [subst_anyOf]; rfl
  | tagged members tag branches =>
    rw [subst_tagged]
    exact snd_mapValues branches
  | object properties signatures =>
    rw [subst_object, hashed, hashed, snd_mapValues, List.map_append, List.map_flatMap,
      List.flatMap_map]
    rfl
  | _ => rfl

theorem digest_subst {s : Shape} (hs : s.isRef = false) : (s.subst f).digest = s.digest := by
  funext hashes
  cases s with
  | ref => cases hs
  | tuple slots rest => rw [subst_tuple]; rfl
  | tagged members tag branches => rw [subst_tagged, digest, Entries.keys_mapValues, digest]
  | object properties signatures =>
    have hlen : (Entries.mapValues (subst f) properties).length = properties.length :=
      List.length_map _
    rw [subst_object, digest, Entries.keys_mapValues, hlen, digest]
  | _ => rfl

/-- **The fingerprint.** -/
theorem fingerprint_subst {h h' : Nat → String → Int32} {s : Shape}
    (href : ∀ i name, s.Contains (.ref i name) → fingerprint h' (f i name) = h i name) :
    fingerprint h' (s.subst f) = fingerprint h s := by
  induction s using parts_induction with | step s ih => ?_
  cases hs : s.isRef with
  | true =>
    obtain ⟨i, name, rfl⟩ := eq_ref_of_isRef hs
    rw [subst, fingerprint]
    exact href i name .refl
  | false =>
    have hs' : (s.subst f).isRef = false := by rwa [isRef_subst hs]
    rw [fingerprint_eq _ hs', fingerprint_eq _ hs, hashed_subst hs, digest_subst hs, List.map_map]
    refine congrArg s.digest (List.map_congr_left fun t ht => ?_)
    have ht := mem_parts_of_mem_hashed ht
    exact ih t ht fun i name hi => href i name (.head ht hi)

/-- Only what is said of the references inside a shape counts. -/
theorem fingerprint_congr {h h' : Nat → String → Int32} {s : Shape}
    (href : ∀ i name, s.Contains (.ref i name) → h' i name = h i name) :
    fingerprint h' s = fingerprint h s := by
  have hsame : fingerprint h' (s.subst .ref) = fingerprint h s := fingerprint_subst href
  rwa [subst_ref] at hsame

theorem placed_subst {s : Shape} (hs : s.isRef = false) (path : Path) :
    (s.subst f).placed path = (s.placed path).map fun e => (e.1, e.2.subst f) := by
  cases s with
  | ref => cases hs
  | tuple slots rest =>
    rw [subst_tuple, placed, placed, List.map_append, List.map_map, List.zipIdx_map, List.map_map]
    cases rest <;> rfl
  | allOf members => rw [subst_allOf, placed, placed, List.map_map, List.map_map]; rfl
  | anyOf members => rw [subst_anyOf, placed, placed, List.map_map, List.map_map]; rfl
  | tagged members tag branches =>
    rw [subst_tagged]
    cases members with
    | nil => simp only [List.map_nil, placed, Entries.mapValues, List.map_map]; rfl
    | cons t members => simp only [List.map_cons, placed, List.map_map]; rfl
  | object properties signatures =>
    rw [subst_object, placed, placed, Entries.mapValues, List.map_append, List.map_map,
      List.map_map, List.map_flatMap, List.flatMap_map]
    rfl
  | _ => rfl

theorem compose_subst {s : Shape} (hs : s.isRef = false) (path : Path) :
    (s.subst f).compose path = s.compose path := by
  funext schemas
  cases s with
  | ref => cases hs
  | tuple slots rest => rw [subst_tuple, compose, compose, List.length_map, Option.isSome_map]
  | tagged members tag branches => rw [subst_tagged, compose, compose]
  | object properties signatures =>
    have hlen : (Entries.mapValues (subst f) properties).length = properties.length :=
      List.length_map _
    rw [subst_object, compose, Entries.keys_mapValues, hlen, List.isEmpty_map, compose]
  | _ => rfl

/-- **The schema.** -/
theorem schema_subst {o o' : Path → Nat → String → Except SchemaFault Json} {s : Shape}
    (path : Path)
    (href : ∀ i name, s.Contains (.ref i name) → ∀ path,
      schema o' path (f i name) = o path i name) :
    schema o' path (s.subst f) = schema o path s := by
  induction s using parts_induction generalizing path with | step s ih => ?_
  cases hs : s.isRef with
  | true =>
    obtain ⟨i, name, rfl⟩ := eq_ref_of_isRef hs
    rw [subst, schema]
    exact href i name .refl path
  | false =>
    have hs' : (s.subst f).isRef = false := by rwa [isRef_subst hs]
    have hparts : schemasAt o' ((s.subst f).placed path) = schemasAt o (s.placed path) := by
      rw [placed_subst hs, schemasAt, schemasAt, List.mapM_map]
      refine mapM_congr_of_mem fun e he => ?_
      have ht := mem_parts_of_mem_placed he
      exact ih e.2 ht e.1 fun i name hi => href i name (.head ht hi)
    rw [schema_eq hs', schema_eq hs, hparts, compose_subst hs]

end Shape

end ShapeGraph
