import ShapeGraph.Proofs.Json.TooDeep
import ShapeGraph.Proofs.Records.RoundTrip

/-!
# Documents are read back as they were written

As a tree, every document is read back, and after one reading of any tree nothing changes any
more. As a text, a document is read back as long as it nests no deeper than brackets may be open
while a text is read; a deeper one is refused.

* `Document.ofTree_toJson`, `Document.wellFormed_of_ofTree` — trees
* `Document.takes_recordText`, `Document.takes_definitionsText` — the parts of a text
* `Document.ofText_compact_iff` — texts
* `Document.round_trip` — all together
* `Graph.built_of_ofText` — graphs that were read
-/

namespace ShapeGraph

/-! ## Structures with one field -/

namespace Json.SingleField

variable {α : Type} {s : SingleField α} {read : Json → Except Reason α}

theorem ofTree_single (s : SingleField α) (read : Json → Except Reason α) (j : Json) :
    s.ofTree read (.obj [(s.field, j)]) = read j := by
  rw [ofTree, Entries.get?, if_pos rfl, Option.mapM_some]
  cases read j <;> rfl

/-- A structure whose field has no default holds what was read in some place. -/
theorem exists_of_ofTree (hdefault : s.default? = none) {j : Json} {a : α}
    (h : s.ofTree read j = .ok a) : ∃ k, read k = .ok a := by
  have hmissing : ∀ reason, s.orMissing reason none ≠ .ok a := by
    intro reason h
    rw [orMissing, hdefault] at h
    cases h
  unfold ofTree at h
  split at h
  · next members =>
    obtain ⟨found, hfound, h⟩ := bind_eq_ok.mp h
    cases found with
    | none => exact absurd h (hmissing _)
    | some b =>
      cases h
      cases hfield : Entries.get? members s.field with
      | none =>
        rw [hfield] at hfound
        cases hfound
      | some k =>
        rw [hfield, Option.mapM_some] at hfound
        cases hread : read k with
        | error reason =>
          rw [hread] at hfound
          cases hfound
        | ok b =>
          rw [hread] at hfound
          cases hfound
          exact ⟨k, hread⟩
  · exact absurd h (hmissing _)
  · exact ⟨_, h⟩
  · obtain ⟨_, -, h⟩ := bind_eq_ok.mp h
    cases h
  · cases h

/-- A member of a structure in a text: its field, or one that nobody asks for. -/
def member (s : SingleField α) (read : Text → Except Problem (α × Text)) (found : Option α)
    (key : String) : Except Reason (Text → Except Problem (Option α × Text)) :=
  if key = s.field then
    if found.isSome then .error (.duplicateField key)
    else .ok fun t => do
      let (a, t) ← read t
      return (some a, t)
  else .ok fun t => do
    let t ← (skip t).mapError Problem.ofFault
    return (found, t)

/-- A structure as an object. -/
theorem ofText_object (s : SingleField α) (read : Text → Except Problem (α × Text)) (t : Text) :
    s.ofText read (some '\x7b' :: t) = (do
      let (found, _) ← object (s.member read) none t
      (s.orMissing s.missing found).mapError Problem.here) := by
  rw [ofText, skipBlank_of_not rfl]
  rfl

end Json.SingleField

namespace Document

open Json (Takes Refuses IsTooDeep Folds Opens IsExact)

/-- A document in which nothing has a name twice. -/
structure WellFormed (d : Document) : Prop where
  names : d.definitions.keys.Nodup
  records : ∀ e ∈ d.definitions, e.2.WellFormed

/-! ## Trees -/

/-- **Every document is read back as a tree.** -/
theorem ofTree_toJson {d : Document} (h : d.WellFormed) : ofTree d.toJson = .ok d := by
  have hread : Record.readEntries Record.ofTree (.obj (Record.toJsonNamed d.definitions)) =
      .ok d.definitions :=
    Record.readNamed_toJson h.names fun e he => Record.ofTree_toJson (h.records e he)
  have hfield := Json.SingleField.ofTree_single structureOf (Record.readEntries Record.ofTree)
    (.obj (Record.toJsonNamed d.definitions))
  rw [ofTree, toJson, show "definitions" = structureOf.field from rfl, hfield, hread]
  rfl

/-- **What is read from a tree is well-formed.** -/
theorem wellFormed_of_ofTree {j : Json} {d : Document} (h : ofTree j = .ok d) : d.WellFormed := by
  simp only [ofTree, bind_eq_ok, pure_eq_ok] at h
  obtain ⟨definitions, hdefinitions, rfl⟩ := h
  obtain ⟨k, hk⟩ := Json.SingleField.exists_of_ofTree rfl hdefinitions
  obtain ⟨hnames, hrecords⟩ :=
    Record.forall_of_readEntries (fun _ _ => Record.wellFormed_of_ofTree) hk
  exact ⟨hnames, hrecords⟩

/-! ## Records in a text -/

theorem takes_kindText (k : Kind) : Takes kindText (Json.quote k.name) k := by
  intro rest _
  obtain ⟨t, ht, hstring⟩ := Json.string_quote k.name
  rw [ht, List.cons_append, kindText, Json.skipBlank_of_not rfl]
  simp only [hstring, Except.mapError, Record.readKind, Kind.ofName?_name, bind, Except.bind, pure,
    Except.pure]

/-- The members of a record behind its kind. -/
theorem folds_memberText {members : List (String × Json)}
    (h : ∀ m ∈ members, Takes (Json.value recordDepth) m.2.compact m.2)
    (hkey : Record.kindKey ∉ Entries.keys members) (k : Kind) (before : List (String × Json)) :
    Folds memberText (some k, before) (members.map fun m => (m.1, m.2.compact))
      (some k, members.reverse ++ before) := by
  induction members generalizing before with
  | nil => exact .nil _
  | cons m members ih =>
    rw [List.forall_mem_cons] at h
    have hm : m.1 ≠ Record.kindKey := fun he => hkey (he ▸ List.mem_cons_self)
    have hmembers : Record.kindKey ∉ Entries.keys members := fun hk =>
      hkey (List.mem_cons_of_mem _ hk)
    have htail := ih h.2 hmembers (m :: before)
    rw [List.reverse_cons, List.append_assoc, List.singleton_append]
    refine .cons (if_neg hm) (fun rest hrest => ?_) htail
    rw [h.1 rest hrest]
    rfl

/-- The kind and some of the members of a record. -/
theorem folds_kind {members : List (String × Json)}
    (h : ∀ m ∈ members, Takes (Json.value recordDepth) m.2.compact m.2)
    (hkey : Record.kindKey ∉ Entries.keys members) (k : Kind) :
    Folds memberText (none, [])
      ((Record.kindKey, Json.quote k.name) :: members.map fun m => (m.1, m.2.compact))
      (some k, members.reverse) := by
  have htail := folds_memberText h hkey k []
  rw [List.append_nil] at htail
  refine .cons (if_pos rfl) (fun rest hrest => ?_) htail
  rw [takes_kindText k rest hrest]
  rfl

/-- The text of a record as an object of its kind and its other members. -/
theorem ofString_compact_record (r : Record) :
    Utf8.ofString r.toJson.compact = some '\x7b' :: (Utf8.ofString (",".intercalate
      (((Record.kindKey, Json.quote r.kind.name) ::
        r.content.map fun m => (m.1, m.2.compact)).map Json.memberText)) ++ [some '\x7d']) := by
  rw [Record.toJson_eq, Record.tagged, Json.ofString_compact_obj, List.map_cons]
  rfl

/-- The members of a record are exact when the record is. -/
theorem isExact_content {r : Record} (h : r.toJson.IsExact) : ∀ m ∈ r.content, m.2.IsExact := by
  rw [Record.toJson_eq] at h
  cases h with
  | number hj => cases hj
  | obj h => exact fun m hm => h m (List.mem_cons_of_mem _ hm)

theorem depth_toJson_le_iff {r : Record} {d : Nat} :
    r.toJson.depth ≤ d + 1 ↔ ∀ m ∈ r.content, m.2.depth ≤ d := by
  rw [Record.toJson_eq, Record.tagged, Json.depth_obj_le_iff, List.forall_mem_cons]
  exact and_iff_right (Nat.zero_le d)

/-- **A record is read back from its text** where it is not too deep. -/
theorem takes_recordText {r : Record} (hr : r.WellFormed) (hexact : r.toJson.IsExact)
    (hd : r.toJson.depth ≤ recordDepth + 1) : Takes recordText r.toJson.compact r := by
  intro rest _
  obtain ⟨hsettled, hparts⟩ := Record.wellFormed_iff.mp hr
  have hcontent : ∀ m ∈ r.content, Takes (Json.value recordDepth) m.2.compact m.2 := fun m hm =>
    Json.takes_value (isExact_content hexact m hm) (depth_toJson_le_iff.mp hd m hm)
  have hfolds := folds_kind hcontent (Record.kindKey_not_mem_content r) r.kind
  have hread : Record.readOfKind (Record.readInner (Json.depthLimit + 1)) r.kind r.content =
      .ok r := by
    refine Record.readOfKind_content hsettled fun e he => Record.readInner_toJson (hparts e he) ?_
    have hlt := Record.depth_part_lt e he
    have hlimit : recordDepth + 1 ≤ Json.depthLimit + 1 := by decide
    omega
  rw [ofString_compact_record, List.cons_append, List.append_assoc, List.singleton_append,
    recordText, Json.skipBlank_of_not rfl]
  simp only [Json.object_intercalate hfolds, bind, Except.bind, List.reverse_reverse, hread,
    Except.mapError, pure, Except.pure]

/-- A record that is too deep is refused. -/
theorem refuses_recordText {r : Record} (hexact : r.toJson.IsExact)
    (hd : recordDepth + 1 < r.toJson.depth) : Refuses recordText r.toJson.compact := by
  intro rest _
  have hdeep : ¬ ∀ m ∈ r.content, m.2.depth ≤ recordDepth := fun h =>
    Nat.not_le.mpr hd (depth_toJson_le_iff.mpr h)
  obtain ⟨us, m, vs, hcontent, hus, hm⟩ :=
    Json.exists_first_deeper (f := fun m : String × Json => m.2.depth) hdeep
  have hkey := Record.kindKey_not_mem_content r
  have hexact := isExact_content hexact
  rw [hcontent] at hkey hexact
  rw [Entries.keys, List.map_append, List.mem_append, not_or, List.map_cons, List.mem_cons,
    not_or] at hkey
  have hmem : m ∈ us ++ m :: vs := List.mem_append_right us List.mem_cons_self
  have hfolds := folds_kind (fun u hu => Json.takes_value
    (hexact u (List.mem_append_left _ hu)) (hus u hu)) hkey.1 r.kind
  have hmember : Refuses (fun t => do
      let e ← Json.value recordDepth t
      return ((some r.kind, (m.1, e.1) :: us.reverse), e.2)) m.2.compact := fun rest hrest =>
    (Json.refuses_value (hexact m hmem) hm rest hrest).bind _
  rw [ofString_compact_record, List.cons_append, List.append_assoc, List.singleton_append,
    recordText, Json.skipBlank_of_not rfl, hcontent, List.map_append, List.map_cons]
  exact (Json.object_refuses hfolds (if_neg (Ne.symm hkey.2.1)) hmember rest).bind _

/-! ## Documents in a text -/

/-- The records under the names of a document. -/
theorem folds_definitions {entries : List (String × Record)}
    (h : ∀ e ∈ entries, Takes recordText e.2.toJson.compact e.2) {before : Entries Record}
    (hd : (Entries.keys (before ++ entries)).Nodup) :
    Folds (fun (es : Entries Record) name => .ok fun t => do
        let (r, t) ← recordText t
        return (es.insert name r, t))
      before (entries.map fun e => (e.1, e.2.toJson.compact)) (before ++ entries) := by
  induction entries generalizing before with
  | nil =>
    rw [List.append_nil]
    exact .nil before
  | cons e entries ih =>
    rw [List.forall_mem_cons] at h
    have hnew : e.1 ∉ before.keys := by
      rw [Entries.keys, List.map_append, List.nodup_append] at hd
      exact fun hm => hd.2.2 _ hm _ List.mem_cons_self rfl
    have hsplit : before ++ e :: entries = before.insert e.1 e.2 ++ entries := by
      rw [Entries.insert_of_not_mem _ hnew, List.append_assoc, List.singleton_append]
    rw [hsplit] at hd ⊢
    refine .cons rfl (fun rest hrest => ?_) (ih h.2 hd)
    rw [h.1 rest hrest]
    rfl

theorem ofString_compact_definitions (entries : List (String × Record)) :
    Utf8.ofString (Json.compact (.obj (Record.toJsonNamed entries))) = some '\x7b' ::
      (Utf8.ofString (",".intercalate
        ((entries.map fun e => (e.1, e.2.toJson.compact)).map Json.memberText)) ++
          [some '\x7d']) := by
  rw [Json.ofString_compact_obj, Record.toJsonNamed_eq]
  simp only [List.map_map]
  rfl

theorem takes_definitionsText {entries : List (String × Record)}
    (h : ∀ e ∈ entries, Takes recordText e.2.toJson.compact e.2)
    (hd : (Entries.keys entries).Nodup) :
    Takes definitionsText (Json.compact (.obj (Record.toJsonNamed entries))) entries := by
  intro rest _
  have hfolds := @folds_definitions _ h [] hd
  rw [ofString_compact_definitions, List.cons_append, List.append_assoc, List.singleton_append,
    definitionsText, Json.skipBlank_of_not rfl]
  exact Json.object_intercalate hfolds rest

theorem refuses_definitionsText {us vs : List (String × Record)} {e : String × Record}
    (h : ∀ u ∈ us, Takes recordText u.2.toJson.compact u.2)
    (hd : (Entries.keys us).Nodup) (hrefuses : Refuses recordText e.2.toJson.compact) :
    Refuses definitionsText (Json.compact (.obj (Record.toJsonNamed (us ++ e :: vs)))) := by
  intro rest _
  have hfolds := @folds_definitions _ h [] hd
  have hmember : Refuses (fun t => do
      let (r, t) ← recordText t
      return (Entries.insert us e.1 r, t)) e.2.toJson.compact := fun rest hrest =>
    (hrefuses rest hrest).bind _
  rw [ofString_compact_definitions, List.cons_append, List.append_assoc, List.singleton_append,
    definitionsText, Json.skipBlank_of_not rfl, List.map_append, List.map_cons]
  exact Json.object_refuses hfolds rfl hmember rest

theorem ofString_compact (d : Document) :
    Utf8.ofString d.toJson.compact = some '\x7b' :: (Utf8.ofString (",".intercalate
      ([(structureOf.field, Json.compact (.obj (Record.toJsonNamed d.definitions)))].map
        Json.memberText)) ++ [some '\x7d']) := by
  rw [toJson, Json.ofString_compact_obj]
  rfl

/-- A document is read when its definitions are. -/
theorem ofText_of_takes {d : Document}
    (h : Takes definitionsText (Json.compact (.obj (Record.toJsonNamed d.definitions)))
      d.definitions) : ofText (Utf8.ofString d.toJson.compact) = .ok d := by
  have hfolds : Folds (structureOf.member definitionsText) none
      [(structureOf.field, Json.compact (.obj (Record.toJsonNamed d.definitions)))]
      (some d.definitions) := by
    refine .cons (if_pos rfl) (fun rest hrest => ?_) (.nil _)
    rw [h rest hrest]
    rfl
  rw [ofText, ofString_compact, Json.SingleField.ofText_object, Json.object_intercalate hfolds]
  rfl

/-- A document is refused when its definitions are. -/
theorem ofText_of_refuses {d : Document}
    (h : Refuses definitionsText (Json.compact (.obj (Record.toJsonNamed d.definitions)))) :
    IsTooDeep (ofText (Utf8.ofString d.toJson.compact)) := by
  have hmember : Refuses (fun t => do
      let (definitions, t) ← definitionsText t
      return (some definitions, t)) (Json.compact (.obj (Record.toJsonNamed d.definitions))) :=
    fun rest hrest => (h rest hrest).bind _
  rw [ofText, ofString_compact, Json.SingleField.ofText_object]
  exact ((Json.object_refuses (.nil none) (if_pos rfl) hmember []).bind _).bind _

/-- The brackets of a document: two around its records. -/
theorem depth_toJson_le_depthLimit_iff {d : Document} :
    d.toJson.depth ≤ Json.depthLimit ↔
      ∀ e ∈ d.definitions, e.2.toJson.depth ≤ recordDepth + 1 := by
  rw [toJson, show Json.depthLimit = recordDepth + 1 + 1 + 1 from rfl, Json.depth_obj_le_iff,
    List.forall_mem_singleton, Json.depth_obj_le_iff, Record.toJsonNamed_eq, List.forall_mem_map]

theorem isExact_record {d : Document} (h : d.toJson.IsExact) :
    ∀ e ∈ d.definitions, e.2.toJson.IsExact := by
  cases h with
  | number hj => cases hj
  | obj h =>
    cases h _ List.mem_cons_self with
    | number hj => cases hj
    | obj h =>
      rw [Record.toJsonNamed_eq, List.forall_mem_map] at h
      exact h

/-- **A document is read back from its text** exactly if it nests no deeper than brackets may be
open. -/
theorem ofText_compact_iff {d : Document} (hd : d.WellFormed) (hexact : d.toJson.IsExact) :
    ofText (Utf8.ofString d.toJson.compact) = .ok d ↔ d.toJson.depth ≤ Json.depthLimit := by
  have hexact := isExact_record hexact
  rw [depth_toJson_le_depthLimit_iff]
  constructor
  · intro h
    by_contra hdeep
    obtain ⟨us, e, vs, hsplit, hus, he⟩ :=
      Json.exists_first_deeper (f := fun e : String × Record => e.2.toJson.depth) hdeep
    have hmem : ∀ u ∈ us, u ∈ d.definitions := fun u hu =>
      hsplit ▸ List.mem_append_left _ hu
    have hnames := hd.names
    rw [hsplit, Entries.keys, List.map_append] at hnames
    have hrefuses : Refuses definitionsText
        (Json.compact (.obj (Record.toJsonNamed d.definitions))) := by
      have he := refuses_recordText (hexact e (by rw [hsplit]; simp)) he
      have hus := fun u hu =>
        takes_recordText (hd.records u (hmem u hu)) (hexact u (hmem u hu)) (hus u hu)
      rw [hsplit]
      exact refuses_definitionsText hus hnames.of_append_left he
    obtain ⟨p, hp, -⟩ := ofText_of_refuses hrefuses
    rw [hp] at h
    cases h
  · intro h
    exact ofText_of_takes (takes_definitionsText
      (fun e he => takes_recordText (hd.records e he) (hexact e he) (h e he)) hd.names)

end Document

/-! ## What is read from a text -/

namespace Json

variable {σ : Type} {step : σ → String → Except Reason (Text → Except Problem (σ × Text))}
  {P : σ → Prop}

/-- A value of another form is never read. -/
theorem mismatch_ne_ok {α : Type} {expected : String} {t : Text} {a : α} :
    mismatch expected t ≠ .ok a := by
  intro h
  unfold mismatch at h
  split at h
  · cases h
  · cases h
  · cases h
  · split at h <;> cases h

variable (step) in
/-- What the loop over members does behind the opening quote of a key. -/
def memberBehind (fuel : Nat) (s : σ) (t : Text) : Except Problem (σ × Text) := do
  let (key, t) ← located .unknown ((string t).mapError Problem.ofFault)
  let read ← (step s key).mapError Problem.here
  let (s, t) ← located (.key key) (match skipBlank t with
    | [] => failing .endInObject
    | some ':' :: t => read t
    | _ => failing .colonExpected)
  members step fuel false s t

/-- What every member keeps is kept by the loop over members. -/
theorem members_invariant
    (hstep : ∀ s key read, P s → step s key = .ok read → ∀ t e, read t = .ok e → P e.1)
    {fuel : Nat} {isFirst : Bool} {s : σ} {t : Text} {e : σ × Text} (hs : P s)
    (h : members step fuel isFirst s t = .ok e) : P e.1 := by
  induction fuel generalizing isFirst s t with
  | zero => cases h
  | succ fuel ih =>
    have hmember : ∀ t, memberBehind step fuel s t = .ok e → P e.1 := by
      intro t ht
      obtain ⟨⟨key, t₁⟩, -, ht⟩ := bind_eq_ok.mp ht
      obtain ⟨read, hread, ht⟩ := bind_eq_ok.mp ht
      obtain ⟨⟨s', t₂⟩, hcontent, ht⟩ := bind_eq_ok.mp ht
      have hread := mapError_eq_ok.mp hread
      have hcontent := mapError_eq_ok.mp hcontent
      split at hcontent
      · cases hcontent
      · exact ih (hstep s key read hs hread _ _ hcontent) ht
      · cases hcontent
    rw [members] at h
    split at h
    · cases h
    · cases h
      exact hs
    · split at h
      · exact hmember _ h
      · cases h
    · split at h
      · cases h
      · split at h
        · cases h
        · exact hmember _ h
        · cases h
        · cases h
    · cases h

end Json

namespace Document

theorem wellFormed_of_recordText {t : Text} {e : Record × Text} (h : recordText t = .ok e) :
    e.1.WellFormed := by
  have hinner := Record.wellFormed_of_readInner (Json.depthLimit + 1)
  unfold recordText at h
  split at h
  · obtain ⟨⟨⟨k, members⟩, t'⟩, -, h⟩ := bind_eq_ok.mp h
    cases k with
    | none => cases h
    | some k =>
      obtain ⟨r, hr, h⟩ := bind_eq_ok.mp h
      cases h
      exact Record.wellFormed_of_readOfKind hinner (mapError_eq_ok.mp hr)
  · obtain ⟨⟨found, t'⟩, -, h⟩ := bind_eq_ok.mp h
    cases found with
    | none => cases h
    | some found =>
      obtain ⟨r, hr, h⟩ := bind_eq_ok.mp h
      cases h
      exact Record.wellFormed_of_readOfItems hinner (mapError_eq_ok.mp hr)
  · exact absurd h Json.mismatch_ne_ok

theorem wellFormed_of_definitionsText {t : Text} {e : Entries Record × Text}
    (h : definitionsText t = .ok e) : WellFormed ⟨e.1⟩ := by
  unfold definitionsText at h
  split at h
  · have hempty : WellFormed ⟨[]⟩ := ⟨List.nodup_nil, fun _ he => absurd he List.not_mem_nil⟩
    refine Json.members_invariant (P := fun es => WellFormed ⟨es⟩) ?_ hempty h
    rintro es name read ⟨hnames, hrecords⟩ ⟨rfl⟩ t' e' he'
    obtain ⟨⟨r, t''⟩, hr, he'⟩ := bind_eq_ok.mp he'
    cases he'
    refine ⟨Entries.nodup_keys_insert hnames name r, fun d hd => ?_⟩
    rcases Entries.mem_insert hd with rfl | hd
    · exact wellFormed_of_recordText hr
    · exact hrecords d hd
  · exact absurd h Json.mismatch_ne_ok

/-- **What is read from a text is well-formed.** -/
theorem wellFormed_of_ofText {t : Text} {d : Document} (h : ofText t = .ok d) : d.WellFormed := by
  simp only [ofText, bind_eq_ok, pure_eq_ok] at h
  obtain ⟨definitions, h, rfl⟩ := h
  have hmissing : ∀ reason, ¬ (structureOf.orMissing reason none).mapError Problem.here =
      .ok definitions := by
    intro reason h
    cases h
  unfold Json.SingleField.ofText at h
  split at h
  · next rest _ =>
    obtain ⟨⟨found, t'⟩, hfound, h⟩ := bind_eq_ok.mp h
    have hall : ∀ ds ∈ found, WellFormed ⟨ds⟩ := by
      refine Json.members_invariant (P := fun found => ∀ ds ∈ found, WellFormed ⟨ds⟩) ?_
        (fun _ h => by cases h)
        (show Json.object (structureOf.member definitionsText) none rest = _ from hfound)
      intro found key read hbefore hread t e he
      unfold Json.SingleField.member at hread
      split at hread
      · split at hread
        · cases hread
        · cases hread
          obtain ⟨⟨ds, t''⟩, hds, he⟩ := bind_eq_ok.mp he
          cases he
          rintro _ ⟨rfl⟩
          exact wellFormed_of_definitionsText hds
      · cases hread
        obtain ⟨t'', -, he⟩ := bind_eq_ok.mp he
        cases he
        exact hbefore
    cases found with
    | none => exact absurd h (hmissing _)
    | some ds =>
      cases h
      exact hall _ rfl
  · split at h
    · cases h
    · exact absurd h (hmissing _)
    · obtain ⟨⟨ds, t'⟩, hds, h⟩ := bind_eq_ok.mp h
      obtain ⟨_, -, h⟩ := bind_eq_ok.mp h
      cases h
      exact wellFormed_of_definitionsText (mapError_eq_ok.mp hds)
  · exact absurd h Json.mismatch_ne_ok

/-! ## Round trips -/

/-- **Documents survive a round trip.** A document in which nothing has a name twice is read back
from its tree, and from its compact text exactly if it nests no deeper than brackets may be open
in a text. What is read from any tree or text is such a document, so reading what was written
changes nothing. -/
theorem round_trip :
    (∀ d : Document, d.WellFormed → ofTree d.toJson = .ok d ∧ (d.toJson.IsExact →
      (ofText (Utf8.ofString d.toJson.compact) = .ok d ↔ d.toJson.depth ≤ Json.depthLimit))) ∧
      (∀ j d, ofTree j = .ok d → d.WellFormed ∧ ofTree d.toJson = .ok d) ∧
      ∀ t d, ofText t = .ok d → d.WellFormed ∧ ofTree d.toJson = .ok d := by
  refine ⟨fun d hd => ⟨ofTree_toJson hd, ofText_compact_iff hd⟩, fun j d h => ?_, fun t d h => ?_⟩
  · have hd := wellFormed_of_ofTree h
    exact ⟨hd, ofTree_toJson hd⟩
  · have hd := wellFormed_of_ofText h
    exact ⟨hd, ofTree_toJson hd⟩

/-- Arrays of arrays, to a depth. -/
def stacked : Nat → Record
  | 0 => .any
  | n + 1 => .array (stacked n)

/-- A document of arrays of arrays. -/
def pile (n : Nat) : Document := ⟨[("Pile", stacked n)]⟩

theorem depth_pile (n : Nat) : (pile n).toJson.depth = n + 3 := by
  have hstacked : (stacked n).toJson.depth = n + 1 := by
    induction n with
    | zero => rfl
    | succ n ih => simp [stacked, Record.toJson, Record.tagged, Json.depth, Json.depthMembers, ih]
  simp [pile, toJson, Record.toJsonNamed, Json.depth, Json.depthMembers, hstacked]

theorem wellFormed_pile (n : Nat) : (pile n).WellFormed := by
  refine ⟨List.nodup_singleton _, List.forall_mem_singleton.mpr ?_⟩
  induction n with
  | zero => exact Record.wellFormed_iff.mpr ⟨trivial, nofun⟩
  | succ n ih => exact Record.wellFormed_iff.mpr ⟨trivial, List.forall_mem_singleton.mpr ih⟩

theorem isExact_pile (n : Nat) : (pile n).toJson.IsExact := by
  have hstacked : (stacked n).toJson.IsExact := by
    induction n with
    | zero => exact .obj (List.forall_mem_singleton.mpr (.str _))
    | succ n ih =>
      exact .obj (List.forall_mem_cons.mpr ⟨.str _, List.forall_mem_singleton.mpr ih⟩)
  exact .obj (List.forall_mem_singleton.mpr (.obj (List.forall_mem_singleton.mpr hstacked)))

/-- A tree that says more than it has to, and some of it twice. -/
def looseTree : Json :=
  .obj [("title", .null), ("definitions", .obj
    [("Leaf", .arr [.str "tuple", .arr []]),
     ("Tree", .obj [("properties", .obj [("a", .arr [.int 1]), ("a", .arr [.int 18, .str "Leaf"])]),
       ("kind", .str "object"), ("unused", .int 3)]),
     ("Leaf", .obj [("kind", .str "const"), ("value", .obj [("x", .null), ("x", .bool true)])])])]

theorem round_trip_pile :
    ((pile 124).WellFormed ∧ ofTree (pile 124).toJson = .ok (pile 124) ∧
      ofText (Utf8.ofString (pile 124).toJson.compact) = .ok (pile 124)) ∧
      ∃ d, ofTree looseTree = .ok d ∧ ofTree d.toJson = .ok d := by
  obtain ⟨htree, htext⟩ := round_trip.1 (pile 124) (wellFormed_pile 124)
  refine ⟨⟨wellFormed_pile 124, htree, (htext (isExact_pile 124)).mpr ?_⟩, ?_⟩
  · rw [depth_pile]
    decide
  · exact ⟨_, rfl, (round_trip.2.1 looseTree _ rfl).2⟩

/-- One array more, and the text of the document is refused. -/
theorem ofText_pile_refused :
    (pile 125).WellFormed ∧ (pile 125).toJson.IsExact ∧
      ofText (Utf8.ofString (pile 125).toJson.compact) ≠ .ok (pile 125) := by
  refine ⟨wellFormed_pile 125, isExact_pile 125, fun h => ?_⟩
  have hdepth := (ofText_compact_iff (wellFormed_pile 125) (isExact_pile 125)).mp h
  rw [depth_pile] at hdepth
  revert hdepth
  decide

end Document

/-! ## Graphs that were read -/

theorem Document.WellFormed.built {d : Document} (hd : d.WellFormed) {formats : Formats}
    {g : Graph} (h : d.build formats = .ok g) : g.Built :=
  ⟨formats, d.definitions, hd.names, fun e he => (hd.records e he).isTidy, h⟩

/-- A graph that was read from a text is compiled from records that have no name twice. -/
theorem Graph.built_of_ofText {formats : Formats} {t : Text} {g : Graph}
    (h : ofText formats t = .ok g) : g.Built := by
  obtain ⟨d, hd, h⟩ := bind_eq_ok.mp h
  exact (Document.wellFormed_of_ofText (mapError_eq_ok.mp hd)).built h

end ShapeGraph
