import ShapeGraph.Document
import ShapeGraph.Proofs.Building
import ShapeGraph.Proofs.Json.Trees

/-!
# Records are read back as they were written

A record is written with all its fields, in their order. Reading accepts more than is written:
fields in any order, unknown fields, lists, missing fields with a default, repeated names. But
what it makes of all this is a record as it is written down, so after one reading nothing changes
any more.

* `Record.WellFormed`, `Record.WellFormed.isTidy` — no map and no constant has a name twice
* `Record.read_toJson` — one record, when the records inside it are read back
* `Record.ofTree_toJson` — a record is read back, however deep it is
* `Record.wellFormed_of_ofTree` — what is read is well-formed
-/

namespace ShapeGraph

namespace Record

/-! ## Well-formed records -/

/-- A record whose own maps and constants have no name twice. -/
def IsSettled : Record → Prop
  | .const value => value.IsTidy
  | .anyOfConsts values => ∀ j ∈ values, j.IsTidy
  | .anyOfDiscriminated _ _ branches => (Entries.keys branches).Nodup
  | .object properties _ => (Entries.keys properties).Nodup
  | _ => True

/-- A record in which nothing has a name twice, at any depth. -/
def WellFormed (r : Record) : Prop := ∀ t, r.Contains t → t.IsSettled

theorem wellFormed_iff {r : Record} :
    r.WellFormed ↔ r.IsSettled ∧ ∀ e ∈ r.parts, e.2.WellFormed := by
  constructor
  · intro h
    exact ⟨h r .refl, fun e he t ht => h t (.head ⟨e, he, rfl⟩ ht)⟩
  · rintro ⟨hr, hparts⟩ t ht
    rcases Relation.ReflTransGen.cases_head ht with rfl | ⟨_, ⟨e, he, rfl⟩, ht⟩
    · exact hr
    · exact hparts e he t ht

/-! ## Parts of records -/

theorem forall_mem_listed {P : Record → Prop} {label : String} {records : List Record}
    {first : Nat} : (∀ e ∈ listed label records first, P e.2) ↔ ∀ r ∈ records, P r := by
  rw [listed, List.forall_mem_map]
  constructor
  · intro h r hr
    rw [← List.zipIdx_map_fst first records] at hr
    obtain ⟨e, he, rfl⟩ := List.mem_map.mp hr
    exact h e he
  · intro h e he
    exact h e.1 (List.fst_mem_of_mem_zipIdx he)

theorem forall_mem_named {P : Record → Prop} {label : String}
    {entries : List (String × Record)} :
    (∀ e ∈ named label entries, P e.2) ↔ ∀ e ∈ entries, P e.2 := by
  rw [named, List.forall_mem_map]

theorem forall_mem_paired {P : Record → Prop} {pairs : List (Record × Record)} :
    (∀ e ∈ paired pairs, P e.2) ↔ ∀ e ∈ pairs, P e.1 ∧ P e.2 := by
  rw [paired, List.forall_mem_flatMap]
  refine forall₂_congr fun e _ => ?_
  rw [List.forall_mem_cons, List.forall_mem_singleton]

/-! ## Well-formed records are tidy -/

theorem isTidyAll_eq (records : List Record) : isTidyAll records = records.all isTidy := by
  induction records with
  | nil => rfl
  | cons r records ih => rw [isTidyAll, ih, List.all_cons]

theorem isTidyNamed_eq (entries : List (String × Record)) :
    isTidyNamed entries = entries.all fun e => e.2.isTidy := by
  induction entries with
  | nil => rfl
  | cons e entries ih => rw [isTidyNamed, ih, List.all_cons]

theorem isTidyPairs_eq (pairs : List (Record × Record)) :
    isTidyPairs pairs = pairs.all fun e => e.1.isTidy && e.2.isTidy := by
  induction pairs with
  | nil => rfl
  | cons e pairs ih => rw [isTidyPairs, ih, List.all_cons]

theorem isTidy_of_parts {r : Record} (hr : r.IsSettled)
    (hparts : ∀ e ∈ r.parts, e.2.isTidy = true) : r.isTidy = true := by
  cases r with
  | tuple slots rest =>
    cases rest with
    | none =>
      rw [isTidy, isTidyAll_eq, List.all_eq_true]
      exact forall_mem_listed.mp hparts
    | some rest =>
      obtain ⟨hslots, hrest⟩ := List.forall_mem_append.mp hparts
      rw [isTidy, isTidyAll_eq, Bool.and_eq_true, List.all_eq_true]
      exact ⟨forall_mem_listed.mp hslots, hrest _ List.mem_cons_self⟩
  | allOf members | anyOf members =>
    rw [isTidy, isTidyAll_eq, List.all_eq_true]
    exact forall_mem_listed.mp hparts
  | array item | optionalField item => exact hparts _ List.mem_cons_self
  | anyOfDiscriminated members tag branches =>
    obtain ⟨hbranches, hmembers⟩ := List.forall_mem_append.mp hparts
    rw [isTidy, isTidyAll_eq, isTidyNamed_eq, Bool.and_eq_true, Bool.and_eq_true, List.all_eq_true,
      List.all_eq_true]
    exact ⟨decide_eq_true hr, forall_mem_listed.mp hmembers,
      (forall_mem_named (P := (·.isTidy = true))).mp hbranches⟩
  | object properties signatures =>
    obtain ⟨hproperties, hsignatures⟩ := List.forall_mem_append.mp hparts
    rw [isTidy, isTidyNamed_eq, isTidyPairs_eq, Bool.and_eq_true, Bool.and_eq_true,
      List.all_eq_true, List.all_eq_true]
    refine ⟨decide_eq_true hr, (forall_mem_named (P := (·.isTidy = true))).mp hproperties, ?_⟩
    have hpairs := (forall_mem_paired (P := (·.isTidy = true))).mp hsignatures
    exact fun e he => Bool.and_eq_true_iff.mpr (hpairs e he)
  | _ => rfl

theorem WellFormed.isTidy {r : Record} (h : r.WellFormed) : r.isTidy = true := by
  induction r using parts_induction with | step r ih => ?_
  obtain ⟨hr, hparts⟩ := wellFormed_iff.mp h
  exact isTidy_of_parts hr fun e he => ih e he (hparts e he)

/-! ## Lists of records written down -/

theorem toJsonAll_eq (records : List Record) : toJsonAll records = records.map toJson := by
  induction records with
  | nil => rfl
  | cons r records ih => rw [toJsonAll, ih, List.map_cons]

theorem toJsonNamed_eq (entries : List (String × Record)) :
    toJsonNamed entries = entries.map fun e => (e.1, e.2.toJson) := by
  induction entries with
  | nil => rfl
  | cons e entries ih => rw [toJsonNamed, ih, List.map_cons]

theorem toJsonPairs_eq (pairs : List (Record × Record)) :
    toJsonPairs pairs = pairs.map fun e => .obj [("key", e.1.toJson), ("value", e.2.toJson)] := by
  induction pairs with
  | nil => rfl
  | cons e pairs ih => rw [toJsonPairs, ih, List.map_cons]

/-- The members of a record behind its kind. -/
def content (r : Record) : List (String × Json) :=
  match r.toJson with
  | .obj members => members.tail
  | _ => []

theorem toJson_eq (r : Record) : r.toJson = tagged r.kind r.content := by
  cases r with
  | tuple slots rest => cases rest <;> rfl
  | _ => rfl

/-- No field is called as the kind is. -/
theorem kindKey_not_mem_content (r : Record) : kindKey ∉ Entries.keys r.content := by
  cases r with
  | tuple slots rest => cases rest <;> simp [content, toJson, tagged, Entries.keys, kindKey]
  | _ => simp [content, toJson, tagged, Entries.keys, kindKey]

/-! ## Reading what was written -/

variable {node : Json → Except Reason Record}

theorem mapM_map_ok {ε α β : Type} {f : α → β} {read : β → Except ε α} {l : List α}
    (h : ∀ a ∈ l, read (f a) = .ok a) : (l.map f).mapM read = .ok l := by
  rw [List.mapM_map]
  have hpure := mapM_pure (f := read ∘ f) (r := id) h
  rw [List.map_id] at hpure
  exact hpure

theorem readTexts_map (ss : List String) : readList readText (.arr (ss.map .str)) = .ok ss :=
  mapM_map_ok fun _ _ => rfl

theorem readTrees_of_isTidy {js : List Json} (h : ∀ j ∈ js, j.IsTidy) :
    readList (fun j => .ok j.tidy) (.arr js) = .ok js := by
  have hread : (js.map id).mapM (fun j : Json => (.ok j.tidy : Except Reason Json)) = .ok js :=
    mapM_map_ok fun j hj => congrArg Except.ok (h j hj)
  rwa [List.map_id] at hread

theorem readAll_toJson {records : List Record} (h : ∀ r ∈ records, node r.toJson = .ok r) :
    readList node (.arr (toJsonAll records)) = .ok records := by
  rw [toJsonAll_eq]
  exact mapM_map_ok h

theorem readNamed_toJson {entries : List (String × Record)}
    (hd : (Entries.keys entries).Nodup) (h : ∀ e ∈ entries, node e.2.toJson = .ok e.2) :
    readEntries node (.obj (toJsonNamed entries)) = .ok entries := by
  have hread : (toJsonNamed entries).mapM
      (fun m => do return (m.1, ← node m.2) : _ → Except Reason (String × Record)) =
        .ok entries := by
    rw [toJsonNamed_eq]
    refine mapM_map_ok fun e he => ?_
    show (do return (e.1, ← node e.2.toJson) : Except Reason (String × Record)) = _
    rw [h e he]
    rfl
  rw [readEntries, hread]
  show Except.ok (Entries.ofList entries) = _
  rw [Entries.ofList_of_nodup hd]

theorem readPairs_toJson {pairs : List (Record × Record)}
    (h : ∀ e ∈ pairs, node e.1.toJson = .ok e.1 ∧ node e.2.toJson = .ok e.2) :
    readList (readSignature node) (.arr (toJsonPairs pairs)) = .ok pairs := by
  rw [toJsonPairs_eq]
  refine mapM_map_ok fun e he => ?_
  obtain ⟨hkey, hvalue⟩ := h e he
  simp [readSignature, readMembers, signatureFields, hkey, hvalue, recordOf, required,
    Entries.get?, Entries.has, bind, Except.bind, pure, Except.pure]

section

-- a field is found by its name, and its content is read as its type says
attribute [local simp] content toJson tagged kind readOfKind Kind.fields readMembers readContent
  ofFields required Entries.get? Entries.has bind Except.bind pure Except.pure

/-- The fields of a record are read back in any record of its kind. -/
theorem readOfKind_content {r : Record} (hr : r.IsSettled)
    (h : ∀ e ∈ r.parts, node e.2.toJson = .ok e.2) :
    readOfKind node r.kind r.content = .ok r := by
  cases r with
  | any | nullish | never | date | bigint => rfl
  | typeof type => simp [readBaseType, readBaseName, BaseType.ofName?_name, baseTypeOf]
  | const value =>
    have hvalue : value.tidy = value := hr
    simp [treeOf, hvalue]
  | regex text label => simp [readText, textOf]
  | ref name => simp [readText, textOf]
  | stringWithFormats formats | numberWithFormats formats => simp [readTexts_map, textsOf]
  | anyOfConsts values => simp [readTrees_of_isTidy hr, treesOf]
  | tuple slots rest =>
    cases rest with
    | none =>
      have hslots := readAll_toJson (forall_mem_listed.mp h)
      simp [hslots, recordsOf, optionalRecordOf]
    | some rest =>
      obtain ⟨hslots, hrest⟩ := List.forall_mem_append.mp h
      have hslots := readAll_toJson (forall_mem_listed.mp hslots)
      have hrest : node rest.toJson = .ok rest := hrest _ List.mem_cons_self
      -- a record is never written as null, which would be no rest
      obtain ⟨members, hobject⟩ : ∃ members, rest.toJson = .obj members := ⟨_, toJson_eq rest⟩
      rw [hobject] at hrest
      simp [hslots, hobject, hrest, recordsOf, optionalRecordOf]
  | allOf members | anyOf members =>
    have hmembers := readAll_toJson (forall_mem_listed.mp h)
    simp [hmembers, recordsOf]
  | array item | optionalField item =>
    have hitem := List.forall_mem_singleton.mp h
    simp [hitem, recordOf]
  | anyOfDiscriminated members tag branches =>
    obtain ⟨hbranches, hmembers⟩ := List.forall_mem_append.mp h
    have hbranches := forall_mem_named (P := fun r => node r.toJson = .ok r).mp hbranches
    have hbranches := readNamed_toJson hr hbranches
    have hmembers := readAll_toJson (forall_mem_listed.mp hmembers)
    simp [hbranches, hmembers, readText, textOf, recordsOf, recordMapOf]
  | object properties signatures =>
    obtain ⟨hproperties, hsignatures⟩ := List.forall_mem_append.mp h
    have hproperties := forall_mem_named (P := fun r => node r.toJson = .ok r).mp hproperties
    have hproperties := readNamed_toJson hr hproperties
    have hsignatures := forall_mem_paired (P := fun r => node r.toJson = .ok r).mp hsignatures
    have hsignatures := readPairs_toJson hsignatures
    simp [hproperties, hsignatures, recordMapOf, signaturesOf]

end

theorem find?_kindKey (k : Kind) : k.fields.find? (·.name == kindKey) = none := by
  cases k <;> rfl

/-- The kind itself is no field. -/
theorem readOfKind_kind_cons (k : Kind) (j : Json) (members : List (String × Json)) :
    readOfKind node k ((kindKey, j) :: members) = readOfKind node k members := by
  rw [readOfKind, readMembers, find?_kindKey]
  rfl

theorem findKind_of_not_mem {inside : Bool} {k : Kind} {members : List (String × Json)}
    (h : kindKey ∉ Entries.keys members) : findKind inside (some k) members = .ok k := by
  induction members with
  | nil => rfl
  | cons m members ih =>
    obtain ⟨name, j⟩ := m
    have hname : name ≠ kindKey := fun he => h (he ▸ List.mem_cons_self)
    have hmembers : kindKey ∉ Entries.keys members := fun hm => h (List.mem_cons_of_mem _ hm)
    rw [findKind, if_neg hname, ih hmembers]

/-- **A record is read back** when the records inside it are. -/
theorem read_toJson {r : Record} (inside : Bool) (hr : r.IsSettled)
    (h : ∀ e ∈ r.parts, node e.2.toJson = .ok e.2) : read node inside r.toJson = .ok r := by
  have hkind : findKind inside none (("kind", .str r.kind.name) :: r.content) = .ok r.kind := by
    show findKind inside none ((kindKey, .str r.kind.name) :: r.content) = _
    rw [findKind, if_pos rfl, readKind, Kind.ofName?_name]
    exact findKind_of_not_mem (kindKey_not_mem_content r)
  rw [toJson_eq, tagged, read, hkind]
  exact (readOfKind_kind_cons _ _ _).trans (readOfKind_content hr h)

/-! ## Depth -/

theorem depth_le_of_mem_listed {label : String} {records : List Record} {first : Nat} :
    ∀ e ∈ listed label records first, e.2.toJson.depth ≤ Json.depthItems (toJsonAll records) := by
  refine forall_mem_listed (P := fun r => r.toJson.depth ≤ _).mpr fun r hr => ?_
  rw [toJsonAll_eq]
  exact Json.depthItems_le_iff.mp (Nat.le_refl _) _ (List.mem_map_of_mem hr)

theorem depth_le_of_mem_named {label : String} {entries : List (String × Record)} :
    ∀ e ∈ named label entries,
      e.2.toJson.depth ≤ Json.depthMembers (toJsonNamed entries) := by
  refine forall_mem_named (P := fun r => r.toJson.depth ≤ _).mpr fun e he => ?_
  rw [toJsonNamed_eq]
  exact Json.depthMembers_le_iff.mp (Nat.le_refl _) (e.1, e.2.toJson) (List.mem_map_of_mem he)

theorem depth_le_of_mem_paired {pairs : List (Record × Record)} :
    ∀ e ∈ paired pairs, e.2.toJson.depth ≤ Json.depthItems (toJsonPairs pairs) := by
  refine forall_mem_paired (P := fun r => r.toJson.depth ≤ _).mpr fun e he => ?_
  have hmem : .obj [("key", e.1.toJson), ("value", e.2.toJson)] ∈ toJsonPairs pairs := by
    rw [toJsonPairs_eq]
    exact List.mem_map.mpr ⟨e, he, rfl⟩
  have hpair := Json.depthItems_le_iff.mp (Nat.le_refl _) _ hmem
  rw [Json.depth, Json.depthMembers, Json.depthMembers, Json.depthMembers] at hpair
  omega

/-- The records inside a record are less deep. -/
theorem depth_part_lt {r : Record} : ∀ e ∈ r.parts, e.2.toJson.depth < r.toJson.depth := by
  intro e he
  cases r with
  | tuple slots rest =>
    cases rest with
    | none =>
      have hslots := depth_le_of_mem_listed e he
      simp only [toJson, tagged, Json.depth, Json.depthMembers]
      omega
    | some rest =>
      simp only [toJson, tagged, Json.depth, Json.depthMembers]
      rcases List.mem_append.mp he with he | he
      · have hslots := depth_le_of_mem_listed e he
        omega
      · obtain rfl := List.mem_singleton.mp he
        dsimp only
        omega
  | allOf members | anyOf members =>
    have hmembers := depth_le_of_mem_listed e he
    simp only [toJson, tagged, Json.depth, Json.depthMembers]
    omega
  | array item | optionalField item =>
    obtain rfl := List.mem_singleton.mp he
    simp only [toJson, tagged, Json.depth, Json.depthMembers]
    omega
  | anyOfDiscriminated members tag branches =>
    simp only [toJson, tagged, Json.depth, Json.depthMembers]
    rcases List.mem_append.mp he with he | he
    · have hbranches := depth_le_of_mem_named e he
      omega
    · have hmembers := depth_le_of_mem_listed e he
      omega
  | object properties signatures =>
    simp only [toJson, tagged, Json.depth, Json.depthMembers]
    rcases List.mem_append.mp he with he | he
    · have hproperties := depth_le_of_mem_named e he
      omega
    · have hsignatures := depth_le_of_mem_paired e he
      omega
  | _ => cases he

/-- A record inside another one is read back where the tree may be as deep as it is. -/
theorem readInner_toJson {r : Record} (h : r.WellFormed) {d : Nat} (hd : r.toJson.depth < d) :
    readInner d r.toJson = .ok r := by
  induction r using parts_induction generalizing d with | step r ih => ?_
  obtain ⟨d, rfl⟩ : ∃ k, d = k + 1 := ⟨d - 1, by omega⟩
  obtain ⟨hr, hparts⟩ := wellFormed_iff.mp h
  refine read_toJson true hr fun e he => ih e he (hparts e he) ?_
  have hlt := depth_part_lt e he
  omega

/-- **Every record is read back.** -/
theorem ofTree_toJson {r : Record} (h : r.WellFormed) : ofTree r.toJson = .ok r := by
  obtain ⟨hr, hparts⟩ := wellFormed_iff.mp h
  refine read_toJson false hr fun e he => readInner_toJson (hparts e he) ?_
  have hlt := depth_part_lt e he
  omega

end Record

/-! ## What is read -/

/-- The content of a field in which nothing has a name twice. -/
def FieldValue.WellFormed : FieldValue → Prop
  | .tree j => j.IsTidy
  | .trees js => ∀ j ∈ js, j.IsTidy
  | .record r => r.WellFormed
  | .optionalRecord r => ∀ t ∈ r, t.WellFormed
  | .records rs => ∀ r ∈ rs, r.WellFormed
  | .recordMap rs => (Entries.keys rs).Nodup ∧ ∀ e ∈ rs, e.2.WellFormed
  | .signatures pairs => ∀ e ∈ pairs, e.1.WellFormed ∧ e.2.WellFormed
  | .text _ => True
  | .texts _ => True
  | .baseType _ => True

namespace Record

theorem forall_of_readList {α : Type} {item : Json → Except Reason α} {P : α → Prop}
    (hitem : ∀ j a, item j = .ok a → P a) {j : Json} {as : List α}
    (h : readList item j = .ok as) : ∀ a ∈ as, P a := by
  cases j with
  | arr items =>
    intro a ha
    obtain ⟨j, -, hj⟩ := exists_of_mem_mapM h ha
    exact hitem j a hj
  | _ => cases h

theorem forall_of_readEntries {α : Type} {item : Json → Except Reason α} {P : α → Prop}
    (hitem : ∀ j a, item j = .ok a → P a) {j : Json} {es : Entries α}
    (h : readEntries item j = .ok es) : es.keys.Nodup ∧ ∀ e ∈ es, P e.2 := by
  cases j with
  | obj members =>
    simp only [readEntries, bind_eq_ok, pure_eq_ok] at h
    obtain ⟨pairs, hpairs, rfl⟩ := h
    refine ⟨Entries.nodup_keys_ofList pairs, fun e he => ?_⟩
    have he := (Entries.mem_insertAll he).resolve_left List.not_mem_nil
    obtain ⟨m, -, hm⟩ := exists_of_mem_mapM hpairs he
    simp only [bind_eq_ok, pure_eq_ok] at hm
    obtain ⟨a, ha, rfl⟩ := hm
    exact hitem m.2 a ha
  | _ => cases h

section

variable {field : FieldType → Json → Except Reason FieldValue}
  (hfield : ∀ type j v, field type j = .ok v → v.WellFormed)
include hfield

/-- The fields that are found in an object. -/
theorem wellFormed_of_readMembers {fields : List Field} {found : Entries FieldValue}
    {members : List (String × Json)} {after : Entries FieldValue}
    (hfound : ∀ e ∈ found, e.2.WellFormed)
    (h : readMembers field fields found members = .ok after) :
    ∀ e ∈ after, e.2.WellFormed := by
  induction members generalizing found with
  | nil =>
    cases h
    exact hfound
  | cons m members ih =>
    rw [readMembers] at h
    split at h
    · exact ih hfound h
    · split at h
      · cases h
      · obtain ⟨v, hv, h⟩ := bind_eq_ok.mp h
        refine ih (List.forall_mem_append.mpr ⟨hfound, ?_⟩) h
        exact List.forall_mem_singleton.mpr (hfield _ _ v hv)

/-- The fields that are found in a list. -/
theorem wellFormed_of_readItems {title : String} {count i : Nat} {fields : List Field}
    {items : List Json} {found : Entries FieldValue}
    (h : readItems field title count i fields items = .ok found) :
    ∀ e ∈ found, e.2.WellFormed := by
  fun_induction readItems field title count i fields items generalizing found with
  | case1 => cases h; exact nofun
  | case2 => cases h
  | case3 i f fields hopt ih => exact ih h
  | case4 => cases h
  | case5 i f fields j items ih =>
    simp only [bind_eq_ok, pure_eq_ok] at h
    obtain ⟨v, hv, others, hothers, rfl⟩ := h
    exact List.forall_mem_cons.mpr ⟨hfield _ _ v hv, ih hothers⟩

end

section

variable {found : Entries FieldValue} (hfound : ∀ e ∈ found, e.2.WellFormed)
include hfound

/-- A field that has to be there is one of those that were found. -/
theorem wellFormed_of_required {α : Type} {name : String} {pick : FieldValue → Option α} {a : α}
    (h : required found name pick = .ok a) : ∃ v, v.WellFormed ∧ pick v = some a := by
  rw [required] at h
  split at h
  · next b hb =>
    cases h
    obtain ⟨v, hv, hpick⟩ := Option.bind_eq_some_iff.mp hb
    exact ⟨v, hfound _ (Entries.mem_of_get? hv), hpick⟩
  · cases h

theorem wellFormed_of_recordOf {name : String} {r : Record} (h : recordOf found name = .ok r) :
    r.WellFormed := by
  obtain ⟨v, hv, hpick⟩ := wellFormed_of_required hfound h
  cases v <;> cases hpick
  exact hv

theorem wellFormed_of_recordsOf {name : String} {rs : List Record}
    (h : recordsOf found name = .ok rs) : ∀ r ∈ rs, r.WellFormed := by
  obtain ⟨v, hv, hpick⟩ := wellFormed_of_required hfound h
  cases v <;> cases hpick
  exact hv

theorem wellFormed_of_recordMapOf {name : String} {rs : Entries Record}
    (h : recordMapOf found name = .ok rs) : rs.keys.Nodup ∧ ∀ e ∈ rs, e.2.WellFormed := by
  obtain ⟨v, hv, hpick⟩ := wellFormed_of_required hfound h
  cases v <;> cases hpick
  exact hv

theorem wellFormed_of_optionalRecordOf {name : String} :
    ∀ t ∈ optionalRecordOf found name, t.WellFormed := by
  unfold optionalRecordOf
  split
  · next r h => exact hfound _ (Entries.mem_of_get? h)
  · exact nofun

theorem wellFormed_of_signaturesOf {name : String} :
    ∀ e ∈ signaturesOf found name, e.1.WellFormed ∧ e.2.WellFormed := by
  unfold signaturesOf
  split
  · next pairs h => exact hfound _ (Entries.mem_of_get? h)
  · exact nofun

/-- A record is well-formed when its fields are. -/
theorem wellFormed_of_ofFields {k : Kind} {r : Record} (h : ofFields k found = .ok r) :
    r.WellFormed := by
  rw [wellFormed_iff]
  cases k with
  | any | nullish | never | date | bigint =>
    cases h
    exact ⟨trivial, nofun⟩
  | typeof | stringWithFormats | numberWithFormats | ref =>
    simp only [ofFields, bind_eq_ok, pure_eq_ok] at h
    obtain ⟨_, -, rfl⟩ := h
    exact ⟨trivial, nofun⟩
  | regex =>
    simp only [ofFields, bind_eq_ok, pure_eq_ok] at h
    obtain ⟨_, -, _, -, rfl⟩ := h
    exact ⟨trivial, nofun⟩
  | const =>
    simp only [ofFields, bind_eq_ok, pure_eq_ok] at h
    obtain ⟨value, hvalue, rfl⟩ := h
    obtain ⟨v, hv, hpick⟩ := wellFormed_of_required hfound hvalue
    cases v <;> cases hpick
    exact ⟨hv, nofun⟩
  | anyOfConsts =>
    simp only [ofFields, bind_eq_ok, pure_eq_ok] at h
    obtain ⟨values, hvalues, rfl⟩ := h
    obtain ⟨v, hv, hpick⟩ := wellFormed_of_required hfound hvalues
    cases v <;> cases hpick
    exact ⟨hv, nofun⟩
  | tuple =>
    simp only [ofFields, bind_eq_ok, pure_eq_ok] at h
    obtain ⟨slots, hslots, rfl⟩ := h
    have hslots : ∀ e ∈ listed "" slots 0, e.2.WellFormed :=
      forall_mem_listed.mpr (wellFormed_of_recordsOf hfound hslots)
    have hrest : ∀ r ∈ optionalRecordOf found "rest", r.WellFormed :=
      wellFormed_of_optionalRecordOf hfound
    refine ⟨trivial, ?_⟩
    cases hopt : optionalRecordOf found "rest" with
    | none => exact hslots
    | some rest =>
      exact List.forall_mem_append.mpr ⟨hslots, List.forall_mem_singleton.mpr (hrest rest hopt)⟩
  | allOf | anyOf =>
    simp only [ofFields, bind_eq_ok, pure_eq_ok] at h
    obtain ⟨members, hmembers, rfl⟩ := h
    exact ⟨trivial, forall_mem_listed.mpr (wellFormed_of_recordsOf hfound hmembers)⟩
  | array | optionalField =>
    simp only [ofFields, bind_eq_ok, pure_eq_ok] at h
    obtain ⟨item, hitem, rfl⟩ := h
    exact ⟨trivial, List.forall_mem_singleton.mpr (wellFormed_of_recordOf hfound hitem)⟩
  | anyOfDiscriminated =>
    simp only [ofFields, bind_eq_ok, pure_eq_ok] at h
    obtain ⟨members, hmembers, tag, -, branches, hbranches, rfl⟩ := h
    obtain ⟨hnames, hbranches⟩ := wellFormed_of_recordMapOf hfound hbranches
    refine ⟨hnames, List.forall_mem_append.mpr ⟨forall_mem_named.mpr hbranches, ?_⟩⟩
    exact forall_mem_listed.mpr (wellFormed_of_recordsOf hfound hmembers)
  | object =>
    simp only [ofFields, bind_eq_ok, pure_eq_ok] at h
    obtain ⟨properties, hproperties, rfl⟩ := h
    obtain ⟨hnames, hproperties⟩ := wellFormed_of_recordMapOf hfound hproperties
    refine ⟨hnames, List.forall_mem_append.mpr ⟨forall_mem_named.mpr hproperties, ?_⟩⟩
    exact forall_mem_paired.mpr (wellFormed_of_signaturesOf hfound)

end

section

variable {node : Json → Except Reason Record}
  (hnode : ∀ j r, node j = .ok r → r.WellFormed)
include hnode

theorem wellFormed_of_readSignature (j : Json) (e : Record × Record)
    (h : readSignature node j = .ok e) : e.1.WellFormed ∧ e.2.WellFormed := by
  have hfield : ∀ (type : FieldType) (j : Json) (v : FieldValue),
      (do return .record (← node j) : Except Reason FieldValue) = .ok v → v.WellFormed := by
    intro type j v hv
    simp only [bind_eq_ok, pure_eq_ok] at hv
    obtain ⟨r, hr, rfl⟩ := hv
    exact hnode j r hr
  have hpair : ∀ found : Entries FieldValue, (∀ e ∈ found, e.2.WellFormed) →
      (do return (← recordOf found "key", ← recordOf found "value")) = Except.ok e →
        e.1.WellFormed ∧ e.2.WellFormed := by
    intro found hfound he
    simp only [bind_eq_ok, pure_eq_ok] at he
    obtain ⟨key, hkey, value, hvalue, rfl⟩ := he
    exact ⟨wellFormed_of_recordOf hfound hkey, wellFormed_of_recordOf hfound hvalue⟩
  unfold readSignature at h
  split at h
  · obtain ⟨found, hfound, h⟩ := bind_eq_ok.mp h
    exact hpair found (wellFormed_of_readMembers hfield
      (fun _ he => absurd he List.not_mem_nil) hfound) h
  · obtain ⟨found, hfound, h⟩ := bind_eq_ok.mp h
    exact hpair found (wellFormed_of_readItems hfield hfound) h
  · cases h

/-- The content of a field is well-formed when the records inside it are. -/
theorem wellFormed_of_readContent (type : FieldType) (j : Json) (v : FieldValue)
    (h : readContent node type j = .ok v) : v.WellFormed := by
  unfold readContent at h
  split at h
  all_goals simp only [bind_eq_ok, pure_eq_ok, Except.ok.injEq] at h
  · obtain ⟨_, -, rfl⟩ := h
    trivial
  · obtain ⟨_, -, rfl⟩ := h
    trivial
  · cases h
    exact Json.isTidy_tidy j
  · obtain ⟨js, hjs, rfl⟩ := h
    refine forall_of_readList (fun k t ht => ?_) hjs
    cases ht
    exact Json.isTidy_tidy k
  · obtain ⟨_, -, rfl⟩ := h
    trivial
  · obtain ⟨r, hr, rfl⟩ := h
    exact hnode j r hr
  · cases h
    exact nofun
  · obtain ⟨r, hr, rfl⟩ := h
    rintro t ⟨rfl⟩
    exact hnode j r hr
  · obtain ⟨rs, hrs, rfl⟩ := h
    exact forall_of_readList hnode hrs
  · obtain ⟨rs, hrs, rfl⟩ := h
    exact forall_of_readEntries hnode hrs
  · obtain ⟨pairs, hpairs, rfl⟩ := h
    exact forall_of_readList (wellFormed_of_readSignature hnode) hpairs

theorem wellFormed_of_readOfKind {k : Kind} {members : List (String × Json)} {r : Record}
    (h : readOfKind node k members = .ok r) : r.WellFormed := by
  obtain ⟨found, hfound, h⟩ := bind_eq_ok.mp h
  exact wellFormed_of_ofFields
    (wellFormed_of_readMembers (wellFormed_of_readContent hnode)
      (fun _ he => absurd he List.not_mem_nil) hfound) h

theorem wellFormed_of_readOfItems {k : Kind} {items : List Json} {r : Record}
    (h : readOfItems node k items = .ok r) : r.WellFormed := by
  obtain ⟨found, hfound, h⟩ := bind_eq_ok.mp h
  exact wellFormed_of_ofFields
    (wellFormed_of_readItems (wellFormed_of_readContent hnode) hfound) h

theorem wellFormed_of_read {inside : Bool} {j : Json} {r : Record}
    (h : read node inside j = .ok r) : r.WellFormed := by
  unfold read at h
  split at h
  · obtain ⟨k, -, h⟩ := bind_eq_ok.mp h
    exact wellFormed_of_readOfKind hnode h
  · cases h
  · obtain ⟨k, -, h⟩ := bind_eq_ok.mp h
    exact wellFormed_of_readOfItems hnode h
  · cases h

end

theorem wellFormed_of_readInner (d : Nat) (j : Json) (r : Record) (h : readInner d j = .ok r) :
    r.WellFormed := by
  induction d generalizing j r with
  | zero => cases h
  | succ d ih => exact wellFormed_of_read ih h

/-- **What is read is well-formed.** -/
theorem wellFormed_of_ofTree {j : Json} {r : Record} (h : ofTree j = .ok r) : r.WellFormed :=
  wellFormed_of_read (wellFormed_of_readInner _) h

end Record

end ShapeGraph
