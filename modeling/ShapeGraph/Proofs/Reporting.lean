import ShapeGraph.Proofs.Acceptance
import ShapeGraph.Decode.Report

/-!
# Reports in a guarded graph

In a guarded graph the report of a container is what its parts report, each at its place. As with
acceptance, how many references may be opened one inside the other does not show.

* `Guarded.report_fuel` — all that may be opened, as long as it is enough, gives one report
* `Guarded.report_array`, `Guarded.report_object`, … — one equation for each kind with parts
-/

namespace ShapeGraph

namespace Shape

/-! ## What each kind takes from its parts -/

section

variable (p : Policy) (a : Nat → Value → Bool)
  (r : Nat → String → Path → Value → List DecodeError)

-- worked out before the proofs that rewrite with them
attribute [local simp] report reportSlots reportAll reportEach reportBranch reportProperties
  reportMember

theorem reportSlots_drop (slots : List Shape) (path : Path) (items : List Value) (i : Nat) :
    reportSlots p a r slots i path (items.drop i) =
      (slots.zipIdx i).flatMap fun e =>
        if accepts p a e.1 ((Value.array items).item e.2) then []
        else report p a r e.1 (path ++ [Path.index e.2]) ((Value.array items).item e.2) := by
  induction slots generalizing i with
  | nil => rfl
  | cons s slots ih =>
    rw [reportSlots, List.tail_drop, ih (i + 1), List.zipIdx_cons, List.flatMap_cons]
    simp only [Value.headD_drop]

theorem reportSlots_eq (slots : List Shape) (path : Path) (items : List Value) :
    reportSlots p a r slots 0 path items =
      slots.zipIdx.flatMap fun e =>
        if accepts p a e.1 ((Value.array items).item e.2) then []
        else report p a r e.1 (path ++ [Path.index e.2]) ((Value.array items).item e.2) :=
  reportSlots_drop p a r slots path items 0

theorem reportAll_eq (members : List Shape) (path : Path) (v : Value) :
    reportAll p a r members path v =
      members.flatMap fun s => if accepts p a s v then [] else report p a r s path v := by
  induction members with
  | nil => rfl
  | cons s members ih => simp [ih]

theorem reportEach_eq (members : List Shape) (v : Value) :
    reportEach p a r members v = members.flatMap fun s => report p a r s [] v := by
  induction members with
  | nil => rfl
  | cons s members ih => simp [ih]

theorem reportBranch_eq (branches : Entries Shape) (key : String) (missing : DecodeError)
    (path : Path) (v : Value) :
    reportBranch p a r branches key missing path v =
      match branches.get? key with
      | none => [missing]
      | some s => report p a r s path v := by
  induction branches with
  | nil => rfl
  | cons e branches ih =>
    obtain ⟨k, s⟩ := e
    by_cases h : k = key
    · simp [Entries.get?, h]
    · simp [Entries.get?, h, ih]

theorem reportProperties_eq (properties : Entries Shape) (path : Path) (v : Value) :
    reportProperties p a r properties path v =
      properties.flatMap fun e =>
        if accepts p a e.2 (v.get e.1) then []
        else report p a r e.2 (path ++ [e.1]) (v.get e.1) := by
  induction properties with
  | nil => rfl
  | cons e properties ih => simp [ih]

theorem reportMember_eq (signatures : List (Shape × Shape)) (path : Path) (key v : Value) :
    reportMember p a r signatures path key v =
      signatures.flatMap fun e =>
        if accepts p a e.1 key then report p a r e.2 path v else report p a r e.1 path key := by
  induction signatures with
  | nil => rfl
  | cons e signatures ih => simp [ih]

end

variable {g : Graph} {p : Policy} {a a' : Nat → Value → Bool}
  {r r' : Nat → String → Path → Value → List DecodeError}

/-- What has to agree for two ways to answer for the references to give one report: acceptance
and reports of all parts. -/
structure PartsAgree (g : Graph) (p : Policy) (a a' : Nat → Value → Bool)
    (r r' : Nat → String → Path → Value → List DecodeError) (s : Shape) (v : Value) : Prop where
  accepts : ∀ t w, g.Part (t, w) (s, v) → Shape.accepts p a t w = Shape.accepts p a' t w
  report : ∀ t w, g.Part (t, w) (s, v) →
    ∀ path, Shape.report p a r t path w = Shape.report p a' r' t path w

theorem check_congr {s : Shape} {v : Value} (h : accepts p a s v = accepts p a' s v)
    (path : Path) : check p a s path v = check p a' s path v := by
  rw [check, check, h]

/-- **A shape with shapes in place of its references reports what the shape reports, when all parts
of the question are answered as they are there**, unless it is a reference itself. -/
theorem report_subst_congr {f : Nat → String → Shape} {s : Shape} {v : Value} (hs : s.isRef = false)
    (haccepts : ∀ t w, g.Part (t, w) (s, v) → accepts p a' (t.subst f) w = accepts p a t w)
    (hreport : ∀ t w, g.Part (t, w) (s, v) →
      ∀ path, report p a' r' (t.subst f) path w = report p a r t path w) (path : Path) :
    report p a' r' (s.subst f) path v = report p a r s path v := by
  have hself : accepts p a' (s.subst f) v = accepts p a s v := accepts_subst_congr hs haccepts
  cases s with
  | ref => cases hs
  | optional t => rw [subst, report, report, hreport t v .inner]
  | allOf members =>
    rw [subst_allOf, report, report, reportAll_eq, reportAll_eq, List.flatMap_map]
    congr 1
    refine List.flatMap_congr fun t ht => ?_
    rw [haccepts t v (.conjunct ht), hreport t v (.conjunct ht)]
  | anyOf members =>
    rw [subst_anyOf, accepts, accepts] at hself
    rw [subst_anyOf, report, report, hself, reportEach_eq, reportEach_eq, List.flatMap_map]
    rw [List.flatMap_congr fun t ht => hreport t v (.disjunct ht) []]
  | tagged members tag branches =>
    have hknown : knownTags (Entries.mapValues (subst f) branches) = knownTags branches :=
      congrArg
        (fun keys : List String => "expected one of " ++ ", ".intercalate (keys.map Json.quote))
        (Entries.keys_mapValues (subst f) branches)
    rw [subst_tagged, report, report]
    congr 1
    simp only [reportBranch_eq, hknown]
    cases (v.get tag).tagKey? with
    | none => rfl
    | some key =>
      simp only [Entries.get?_mapValues]
      cases hb : Entries.get? branches key with
      | none => rfl
      | some t => exact hreport t v (.branch (Entries.mem_of_get? hb)) path
  | array t =>
    cases v with
    | array items =>
      rw [subst, report, report]
      refine List.flatMap_congr fun e he => ?_
      have hw : e.1 ∈ items := List.fst_mem_of_mem_zipIdx he
      simp only [haccepts t e.1 (.item hw), hreport t e.1 (.item hw)]
    | _ => rfl
  | tuple slots rest =>
    rw [subst_tuple]
    cases v with
    | array items =>
      have hslots : reportSlots p a' r' (slots.map (subst f)) 0 path items =
          reportSlots p a r slots 0 path items := by
        rw [reportSlots_eq, reportSlots_eq, List.zipIdx_map, List.flatMap_map]
        refine List.flatMap_congr fun e he => ?_
        have hslot : slots[e.2]? = some e.1 := List.mem_zipIdx_iff_getElem?.mp he
        have hsame := haccepts e.1 _ (.slot hslot)
        simp only [Prod.map, id, hsame, hreport e.1 _ (.slot hslot)]
      cases rest with
      | none => rw [Option.map_none, report, report, hslots, List.length_map]
      | some t =>
        rw [Option.map_some, report, report, hslots, List.length_map]
        congr 1
        refine List.flatMap_congr fun e he => ?_
        have hw : e.1 ∈ items.drop slots.length := List.fst_mem_of_mem_zipIdx he
        simp only [haccepts t e.1 (.rest hw), hreport t e.1 (.rest hw)]
    | _ => cases rest <;> rfl
  | object properties signatures =>
    rw [subst_object]
    cases v with
    | object ms =>
      have hproperties :
          reportProperties p a' r' (Entries.mapValues (subst f) properties) path (.object ms) =
            reportProperties p a r properties path (.object ms) := by
        rw [reportProperties_eq, reportProperties_eq, Entries.mapValues, List.flatMap_map]
        refine List.flatMap_congr fun e he => ?_
        rw [haccepts e.2 _ (.property he), hreport e.2 _ (.property he)]
      rw [report, report, hproperties, undeclared_mapValues, List.isEmpty_map]
      congr 3
      refine List.flatMap_congr fun m hm => ?_
      have hmem : m ∈ ms := (List.mem_filter.mp hm).1
      rw [acceptsMember_eq, acceptsMember_eq, reportMember_eq, reportMember_eq, List.any_map,
        List.flatMap_map]
      rw [any_congr_of_mem fun e he => by
        rw [Function.comp_apply, haccepts e.1 _ (.key he hmem), haccepts e.2 _ (.member he hmem)]]
      rw [List.flatMap_congr fun e he => by
        rw [haccepts e.1 _ (.key he hmem), hreport e.1 _ (.key he hmem),
          hreport e.2 _ (.member he hmem)]]
    | _ => rfl
  | any => rfl
  | _ => exact check_congr hself path

theorem report_congr {s : Shape} {v : Value} (hs : s.isRef = false)
    (h : PartsAgree g p a a' r r' s v) (path : Path) :
    report p a r s path v = report p a' r' s path v := by
  have hsame : report p a r (s.subst .ref) path v = report p a' r' s path v :=
    report_subst_congr hs (fun t w hp => by rw [subst_ref, h.accepts t w hp])
      (fun t w hp path => by rw [subst_ref, h.report t w hp path]) path
  rwa [subst_ref] at hsame

end Shape

namespace Graph

variable {g : Graph} {p : Policy}

/-! ## Fuel does not show -/

/-- Any two amounts of fuel that are enough give the same report. -/
theorem Guarded.report_fuel_agree (hg : g.Guarded) (s : Shape) (v : Value) :
    ∀ n m path, g.need s v ≤ n → g.need s v ≤ m →
      s.report p (g.acceptsRef p n) (g.reportRef p n) path v =
        s.report p (g.acceptsRef p m) (g.reportRef p m) path v := by
  induction s, v using hg.induction with | step s v ih => ?_
  intro n m path hn hm
  cases hs : s.isRef with
  | true =>
    obtain ⟨i, name, rfl⟩ := Shape.eq_ref_of_isRef hs
    rw [Shape.report, Shape.report]
    cases ht : g.shape? i with
    | none => cases n <;> cases m <;> simp only [reportRef, ht]
    | some t =>
      have hlt : g.need t v < g.need (.ref i name) v := hg.need_target_lt ht
      obtain ⟨n, rfl⟩ : ∃ k, n = k + 1 := ⟨n - 1, by omega⟩
      obtain ⟨m, rfl⟩ : ∃ k, m = k + 1 := ⟨m - 1, by omega⟩
      simp only [reportRef, ht]
      exact ih t v (.target ht) n m path (by omega) (by omega)
  | false =>
    have hparts : Shape.PartsAgree g p (g.acceptsRef p n) (g.acceptsRef p m) (g.reportRef p n)
        (g.reportRef p m) s v := by
      constructor
      · intro t w hp
        have hle := hg.need_part_le hp
        exact hg.accepts_fuel_agree t w n m (Nat.le_trans hle hn) (Nat.le_trans hle hm)
      · intro t w hp path
        have hle := hg.need_part_le hp
        exact ih t w hp n m path (Nat.le_trans hle hn) (Nat.le_trans hle hm)
    exact Shape.report_congr hs hparts path

/-- **Every amount of fuel that is enough gives the report of the graph.** -/
theorem Guarded.report_fuel (hg : g.Guarded) {s : Shape} {v : Value} {n : Nat} (path : Path)
    (hn : g.need s v ≤ n) :
    s.report p (g.acceptsRef p n) (g.reportRef p n) path v = g.report p s path v :=
  hg.report_fuel_agree s v n (g.budget v) path hn (need_le_budget s v)

/-- Within the budget of the whole a part gets the report of the graph. -/
theorem Guarded.report_part (hg : g.Guarded) {s t : Shape} {v w : Value} (path : Path)
    (h : g.Part (t, w) (s, v)) :
    t.report p (g.acceptsRef p (g.budget v)) (g.reportRef p (g.budget v)) path w =
      g.report p t path w :=
  hg.report_fuel path (hg.need_part_le_budget h)

/-! ## Equations -/

/-- What a container takes from a part: nothing when the part accepts. -/
def complaint (g : Graph) (p : Policy) (s : Shape) (path : Path) (v : Value) :
    List DecodeError :=
  if g.accepts p s v then [] else g.report p s path v

/-- Within the budget of the whole a part makes its complaint. -/
theorem Guarded.complaint_part (hg : g.Guarded) {s t : Shape} {v w : Value} (path : Path)
    (h : g.Part (t, w) (s, v)) :
    (if t.accepts p (g.acceptsRef p (g.budget v)) w then []
      else t.report p (g.acceptsRef p (g.budget v)) (g.reportRef p (g.budget v)) path w) =
      g.complaint p t path w := by
  rw [complaint, hg.accepts_part h, hg.report_part path h]

/-- A reference reports what the definition behind it reports. -/
theorem Guarded.report_ref (hg : g.Guarded) {i : Nat} {t : Shape} (name : String) (path : Path)
    (v : Value) (ht : g.shape? i = some t) :
    g.report p (.ref i name) path v = g.report p t path v := by
  have hlt : g.need t v < g.need (.ref i name) v := hg.need_target_lt ht
  have hle : g.need (.ref i name) v ≤ g.budget v := need_le_budget _ v
  obtain ⟨n, hn⟩ : ∃ n, g.budget v = n + 1 := ⟨g.budget v - 1, by omega⟩
  rw [report, Shape.report, hn, reportRef, ht]
  exact hg.report_fuel path (by omega)

/-- A reference without a definition reports that. -/
theorem report_ref_none {i : Nat} (name : String) (path : Path) (v : Value)
    (ht : g.shape? i = none) :
    g.report p (.ref i name) path v = [.mismatch (Shape.ref i name).expectation path v] := by
  rw [report, Shape.report]
  cases g.budget v with
  | zero => rfl
  | succ n => rw [reportRef, ht]

theorem report_optional (s : Shape) (path : Path) (v : Value) :
    g.report p (.optional s) path v = if v.isNullish then [] else g.report p s path v := rfl

theorem report_allOf (members : List Shape) (path : Path) (v : Value) :
    g.report p (.allOf members) path v =
      if v.isObject then members.flatMap fun s => g.complaint p s path v
      else [.mismatch (Shape.allOf members).expectation path v] := by
  rw [report, Shape.report, Shape.reportAll_eq]
  rfl

theorem report_anyOf (members : List Shape) (path : Path) (v : Value) :
    g.report p (.anyOf members) path v =
      if g.accepts p (.anyOf members) v then []
      else [.union path v (members.flatMap fun s => g.report p s [] v)] := by
  rw [report, Shape.report, Shape.reportEach_eq]
  rfl

theorem report_tagged (members : List Shape) (tag : String) (branches : Entries Shape)
    (path : Path) (v : Value) :
    g.report p (.tagged members tag branches) path v =
      if v.isObject then
        match (v.get tag).tagKey?.bind branches.get? with
        | none => [.mismatch (Shape.knownTags branches) (path ++ [tag]) (v.get tag)]
        | some s => g.report p s path v
      else [.mismatch (Shape.tagged members tag branches).expectation path v] := by
  rw [report, Shape.report]
  congr 1
  simp only [Shape.reportBranch_eq]
  cases (v.get tag).tagKey? with
  | none => rfl
  | some key => rfl

theorem Guarded.report_array (hg : g.Guarded) (s : Shape) (path : Path) (items : List Value) :
    g.report p (.array s) path (.array items) =
      items.zipIdx.flatMap fun e => g.complaint p s (path ++ [Path.index e.2]) e.1 := by
  rw [report, Shape.report]
  refine List.flatMap_congr fun e he => ?_
  exact hg.complaint_part _ (.item (List.fst_mem_of_mem_zipIdx he))

/-- The complaints of the slots of a tuple, each at its place. -/
def slotComplaints (g : Graph) (p : Policy) (slots : List Shape) (path : Path)
    (items : List Value) : List DecodeError :=
  slots.zipIdx.flatMap fun e =>
    g.complaint p e.1 (path ++ [Path.index e.2]) ((Value.array items).item e.2)

theorem Guarded.reportSlots_eq (hg : g.Guarded) (slots : List Shape) (rest : Option Shape)
    (path : Path) (items : List Value) :
    Shape.reportSlots p (g.acceptsRef p (g.budget (.array items)))
      (g.reportRef p (g.budget (.array items))) slots 0 path items =
      g.slotComplaints p slots path items := by
  rw [Shape.reportSlots_eq, slotComplaints]
  refine List.flatMap_congr fun e he => ?_
  have hpart : g.Part (e.1, (Value.array items).item e.2) (.tuple slots rest, .array items) :=
    .slot (List.mem_zipIdx_iff_getElem?.mp he)
  exact hg.complaint_part _ hpart

/-- What a tuple without a rest says of the first item behind its slots. -/
def overflow (slots : List Shape) (path : Path) (items : List Value) : List DecodeError :=
  match items.drop slots.length with
  | [] => []
  | v :: _ => [.mismatch (Shape.tooManyItems slots.length) (path ++ [Path.index slots.length]) v]

theorem Guarded.report_tuple_closed (hg : g.Guarded) (slots : List Shape) (path : Path)
    (items : List Value) :
    g.report p (.tuple slots none) path (.array items) =
      g.slotComplaints p slots path items ++ overflow slots path items := by
  rw [report, Shape.report, hg.reportSlots_eq slots none]
  rfl

theorem Guarded.report_tuple_open (hg : g.Guarded) (slots : List Shape) (rest : Shape)
    (path : Path) (items : List Value) :
    g.report p (.tuple slots (some rest)) path (.array items) =
      g.slotComplaints p slots path items
        ++ ((items.drop slots.length).zipIdx slots.length).flatMap fun e =>
          g.complaint p rest (path ++ [Path.index e.2]) e.1 := by
  rw [report, Shape.report, hg.reportSlots_eq slots (some rest)]
  congr 1
  refine List.flatMap_congr fun e he => ?_
  exact hg.complaint_part _ (.rest (List.fst_mem_of_mem_zipIdx he))

/-- What one signature says of a member: it speaks of the value when it accepts the key. -/
def signatureComplaint (g : Graph) (p : Policy) (path : Path) (m : String × Value)
    (signature : Shape × Shape) : List DecodeError :=
  if g.accepts p signature.1 (.string m.1) then g.report p signature.2 (path ++ [m.1]) m.2
  else g.report p signature.1 (path ++ [m.1]) (.string m.1)

/-- What the signatures say of a member: nothing when one of them admits it. -/
def memberComplaint (g : Graph) (p : Policy) (signatures : List (Shape × Shape)) (path : Path)
    (m : String × Value) : List DecodeError :=
  if signatures.any (g.admits p m) then []
  else signatures.flatMap (g.signatureComplaint p path m)

theorem Guarded.memberComplaint_eq (hg : g.Guarded) {properties : Entries Shape}
    {signatures : List (Shape × Shape)} {ms : List (String × Value)} {m : String × Value}
    (path : Path) (hm : m ∈ Shape.undeclared properties ms) :
    (if Shape.acceptsMember p (g.acceptsRef p (g.budget (.object ms))) signatures (.string m.1) m.2
      then []
      else Shape.reportMember p (g.acceptsRef p (g.budget (.object ms)))
        (g.reportRef p (g.budget (.object ms))) signatures (path ++ [m.1]) (.string m.1) m.2) =
      g.memberComplaint p signatures path m := by
  have hmem : m ∈ ms := (List.mem_filter.mp hm).1
  rw [memberComplaint, hg.acceptsMember_eq hm, Shape.reportMember_eq]
  congr 1
  refine List.flatMap_congr fun e he => ?_
  have hkey : g.Part (e.1, .string m.1) (.object properties signatures, .object ms) :=
    .key he hmem
  have hvalue : g.Part (e.2, m.2) (.object properties signatures, .object ms) := .member he hmem
  rw [signatureComplaint, hg.accepts_part hkey, hg.report_part _ hkey, hg.report_part _ hvalue]

/-- The keys that a strict object without signatures refuses to have. -/
def extraKeys (p : Policy) (properties : Entries Shape) (signatures : List (Shape × Shape))
    (ms : List (String × Value)) : List (String × Value) :=
  if signatures.isEmpty && p.strict then Shape.undeclared properties ms else []

theorem Guarded.report_object (hg : g.Guarded) (properties : Entries Shape)
    (signatures : List (Shape × Shape)) (path : Path) (ms : List (String × Value)) :
    g.report p (.object properties signatures) path (.object ms) =
      if (extraKeys p properties signatures ms).isEmpty then
        (properties.flatMap fun e =>
          g.complaint p e.2 (path ++ [e.1]) ((Value.object ms).get e.1))
          ++ if signatures.isEmpty then []
            else (Shape.undeclared properties ms).flatMap (g.memberComplaint p signatures path)
      else (extraKeys p properties signatures ms).map fun m =>
        .mismatch Shape.extraProperty (path ++ [m.1]) m.2 := by
  have hproperties : ∀ e ∈ properties,
      g.Part (e.2, (Value.object ms).get e.1) (.object properties signatures, .object ms) :=
    fun e he => .property he
  have hothers : ∀ m ∈ Shape.undeclared properties ms,
      _ = g.memberComplaint p signatures path m := fun m hm => hg.memberComplaint_eq path hm
  rw [report, Shape.report, Shape.reportProperties_eq]
  rw [List.flatMap_congr fun e he => hg.complaint_part (path ++ [e.1]) (hproperties e he)]
  rw [List.flatMap_congr hothers]
  cases hsig : signatures.isEmpty <;> cases hstrict : p.strict <;>
    simp [extraKeys, hsig, hstrict]

end Graph

end ShapeGraph
