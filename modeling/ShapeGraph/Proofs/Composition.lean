import ShapeGraph.JsonSchema
import ShapeGraph.Proofs.Compiling
import ShapeGraph.Proofs.Description.Parts
import ShapeGraph.Proofs.Fingerprinting

/-!
# Fingerprints and schemas from those of the parts

A fingerprint goes through parts of a shape and puts their fingerprints together, and so does a
schema, which also says at which path each part is and ends at the first part without one. Only at
a reference is it not the shape itself that says how.

* `Shape.hashed`, `Shape.digest` — the parts that are hashed, and what their hashes make
* `fingerprint_eq` — a fingerprint is what the fingerprints of the parts make
* `Shape.placed`, `Shape.compose` — the parts that are written, and what their schemas make
* `schema_eq` — a schema is what the schemas of the parts make
-/

namespace ShapeGraph

namespace Shape

/-! ## Fingerprints -/

open Fingerprint

/-- The parts of a shape that are hashed. -/
def hashed : Shape → List Shape
  | .tuple slots rest => slots ++ rest.toList
  | .allOf members => members
  | .anyOf members => members
  | .array item => [item]
  | .tagged _ _ branches => branches.map (·.2)
  | .optional inner => [inner]
  | .object properties signatures =>
    properties.map (·.2) ++ signatures.flatMap fun e => [e.1, e.2]
  | _ => []

/-- The hashes of signatures, from those of their keys and values in turn. -/
def signatureHashes : List Int32 → List Int32
  | k :: v :: hashes => combine k v :: signatureHashes hashes
  | _ => []

/-- **The fingerprint of a shape from those of its parts.** -/
def digest : Shape → List Int32 → Int32
  | .base type, _ => combine (ofKind .typeof) (ofString type.name)
  | .literal c, _ => combine (ofKind .const) (ofLiteral c)
  | .pattern text _ _, _ => combine (ofKind .regex) (ofString text)
  | .stringFormats formats, _ => ofFormats .stringWithFormats formats
  | .numberFormats formats, _ => ofFormats .numberWithFormats formats
  | .literals cs, _ => combineAll (ofKind .anyOfConsts) ((sortBy Literal.le cs).map ofLiteral)
  | .tagged _ tag branches, hashes =>
    combineNamed (combine (ofKind .anyOfDiscriminated) (ofString tag))
      ((Entries.keys branches).zip hashes)
  | .object properties _, hashes =>
    combineAll
      (combineNamed (ofKind .object)
        ((Entries.keys properties).zip (hashes.take properties.length)))
      (sortBy (fun a b => decide (a ≤ b)) (signatureHashes (hashes.drop properties.length)))
  | s, hashes => combineAll (ofKind s.kind) hashes

theorem mem_parts_of_mem_hashed {s t : Shape} (h : t ∈ s.hashed) : t ∈ s.parts := by
  cases s with
  | tagged members tag branches => exact List.mem_append_right _ h
  | _ => exact h

section

variable (onRef : Nat → String → Int32)

theorem zip_keys_map (entries : Entries Shape) :
    entries.keys.zip ((entries.map (·.2)).map (fingerprint onRef)) =
      entries.mapValues (fingerprint onRef) := by
  rw [List.map_map, Entries.keys, List.zip_map']
  rfl

theorem signatureHashes_map (signatures : List (Shape × Shape)) :
    signatureHashes ((signatures.flatMap fun e => [e.1, e.2]).map (fingerprint onRef)) =
      fingerprintPairs onRef signatures := by
  induction signatures with
  | nil => rfl
  | cons e signatures ih => exact congrArg (_ :: ·) ih

/-- **A fingerprint is what the fingerprints of the parts make.** -/
theorem fingerprint_eq {s : Shape} (hs : s.isRef = false) :
    s.fingerprint onRef = s.digest (s.hashed.map (fingerprint onRef)) := by
  cases s with
  | ref => cases hs
  | tuple slots rest =>
    cases rest with
    | none =>
      rw [fingerprint, fingerprintAll_eq, hashed, Option.toList_none, List.append_nil]
      rfl
    | some rest =>
      rw [fingerprint, fingerprintAll_eq, hashed, Option.toList_some, List.map_append]
      exact (combineAll_append (ofKind .tuple) _ [fingerprint onRef rest]).symm
  | allOf | anyOf =>
    rw [fingerprint, fingerprintAll_eq]
    rfl
  | tagged members tag branches =>
    rw [fingerprint, fingerprintNamed_eq, hashed, digest, zip_keys_map]
  | object properties signatures =>
    have hlen : ((properties.map (·.2)).map (fingerprint onRef)).length = properties.length := by
      rw [List.length_map, List.length_map]
    rw [fingerprint, fingerprintNamed_eq, hashed, digest, List.map_append, List.take_left' hlen,
      List.drop_left' hlen, zip_keys_map, signatureHashes_map]
  | _ => rfl

end

/-! ## Schemas -/

/-- The parts of a shape that are written, each at its path. The branches of a tagged union stand
for its members when it has none. -/
def placed (path : Path) : Shape → List (Path × Shape)
  | .tuple slots rest =>
    (slots.zipIdx.map fun e => (path ++ [Path.index e.2], e.1))
      ++ rest.toList.map fun s => (path ++ ["[]"], s)
  | .allOf members => members.map fun s => (path, s)
  | .anyOf members => members.map fun s => (path, s)
  | .array item => [(path ++ ["[]"], item)]
  | .tagged [] _ branches => branches.map fun e => (path, e.2)
  | .tagged members _ _ => members.map fun s => (path, s)
  | .optional inner => [(path, inner)]
  | .object properties signatures =>
    (properties.map fun e => (path ++ [e.1], e.2))
      ++ signatures.flatMap fun e => [(path ++ ["[key]"], e.1), (path ++ ["[value]"], e.2)]
  | _ => []

/-- The schemas of signatures, from those of their keys and values in turn. -/
def signatureSchemas : List Json → List Json
  | key :: value :: schemas =>
    .obj [("additionalProperties", value), ("propertyNames", key)] :: signatureSchemas schemas
  | _ => []

/-- **The schema of a shape from those of its parts.** -/
def compose (path : Path) : Shape → List Json → Except SchemaFault Json
  | .base type, _ => .ok (.obj [("type", .str type.name)])
  | .any, _ => .ok (.obj [])
  | .nullish, _ => .ok (.obj [("type", .str "null")])
  | .never, _ => .ok (.obj [("anyOf", .arr [])])
  | .literal c, _ => .ok (.obj [("const", c.toJson)])
  | .pattern _ _ label, _ => .ok (.obj [("type", .str "string"), ("pattern", .str label)])
  | .date, _ => .error (.unsupported "Date" path)
  | .bigint, _ => .error (.unsupported "BigInt" path)
  | .stringFormats formats, _ =>
    .ok (.obj [("type", .str "string"), ("format", .str (" and ".intercalate formats))])
  | .numberFormats formats, _ =>
    .ok (.obj [("type", .str "number"), ("format", .str (" and ".intercalate formats))])
  | .literals cs, _ => .ok (.obj [("enum", .arr (cs.map (·.toJson)))])
  | .tuple slots rest, schemas =>
    let items := if rest.isSome then (schemas.drop slots.length).headD .null else .bool false
    .ok (.obj [("type", .str "array"), ("prefixItems", .arr (schemas.take slots.length)),
      ("items", items)])
  | .allOf _, schemas => .ok (.obj [("allOf", .arr schemas)])
  | .anyOf _, schemas => .ok (.obj [("anyOf", .arr schemas)])
  | .array _, schemas => .ok (.obj [("type", .str "array"), ("items", schemas.headD .null)])
  | .tagged .., schemas => .ok (.obj [("anyOf", .arr schemas)])
  | .optional _, schemas => .ok (schemas.headD .null)
  | .object properties signatures, schemas =>
    let declared := (Entries.keys properties).zip (schemas.take properties.length)
    if signatures.isEmpty then .ok (objectSchema declared [("additionalProperties", .bool false)])
    else
      let others := signatureSchemas (schemas.drop properties.length)
      .ok (.obj [("allOf", .arr (objectSchema declared [] :: others))])
  | .ref _ name, _ => .error (.unresolved name)

theorem mem_parts_of_mem_placed {s : Shape} {path : Path} {e : Path × Shape}
    (h : e ∈ s.placed path) : e.2 ∈ s.parts := by
  cases s with
  | tuple slots rest =>
    rcases List.mem_append.mp h with h | h
    · obtain ⟨x, hx, rfl⟩ := List.mem_map.mp h
      exact List.mem_append_left _ (List.fst_mem_of_mem_zipIdx hx)
    · obtain ⟨t, ht, rfl⟩ := List.mem_map.mp h
      exact List.mem_append_right _ ht
  | allOf | anyOf =>
    obtain ⟨t, ht, rfl⟩ := List.mem_map.mp h
    exact ht
  | array | optional =>
    obtain rfl := List.mem_singleton.mp h
    exact List.mem_cons_self
  | tagged members tag branches =>
    cases members with
    | nil =>
      obtain ⟨x, hx, rfl⟩ := List.mem_map.mp h
      exact List.mem_append_right _ (List.mem_map_of_mem hx)
    | cons t members =>
      obtain ⟨u, hu, rfl⟩ := List.mem_map.mp h
      exact List.mem_append_left _ hu
  | object properties signatures =>
    rcases List.mem_append.mp h with h | h
    · obtain ⟨x, hx, rfl⟩ := List.mem_map.mp h
      exact List.mem_append_left _ (List.mem_map_of_mem hx)
    · obtain ⟨x, hx, he⟩ := List.mem_flatMap.mp h
      refine List.mem_append_right _ (List.mem_flatMap.mpr ⟨x, hx, ?_⟩)
      have hcases : e = (path ++ ["[key]"], x.1) ∨ e = (path ++ ["[value]"], x.2) := by
        simpa using he
      rcases hcases with rfl | rfl
      · exact List.mem_cons_self
      · exact List.mem_cons_of_mem _ List.mem_cons_self
  | _ => cases h

section

variable (onRef : Path → Nat → String → Except SchemaFault Json)

/-- The schemas of shapes at their paths, in order. -/
def schemasAt (parts : List (Path × Shape)) : Except SchemaFault (List Json) :=
  parts.mapM fun e => schema onRef e.1 e.2

theorem schemasAt_cons (path : Path) (s : Shape) (parts : List (Path × Shape)) :
    schemasAt onRef ((path, s) :: parts) = do
      let first ← schema onRef path s
      let others ← schemasAt onRef parts
      return first :: others :=
  List.mapM_cons

theorem schemasAt_singleton (path : Path) (s : Shape) :
    schemasAt onRef [(path, s)] = schema onRef path s >>= fun first => pure [first] :=
  schemasAt_cons onRef path s []

theorem schemasAt_append (parts others : List (Path × Shape)) :
    schemasAt onRef (parts ++ others) = do
      let front ← schemasAt onRef parts
      let back ← schemasAt onRef others
      return front ++ back :=
  List.mapM_append

theorem schemaSlots_eq (path : Path) (i : Nat) (slots : List Shape) :
    schemaSlots onRef path i slots =
      schemasAt onRef ((slots.zipIdx i).map fun e => (path ++ [Path.index e.2], e.1)) := by
  induction slots generalizing i with
  | nil => rfl
  | cons s slots ih => rw [schemaSlots, ih, List.zipIdx_cons, List.map_cons, schemasAt_cons]

theorem schemaAll_eq (path : Path) (members : List Shape) :
    schemaAll onRef path members = schemasAt onRef (members.map fun s => (path, s)) := by
  induction members with
  | nil => rfl
  | cons s members ih => rw [schemaAll, ih, List.map_cons, schemasAt_cons]

theorem schemaBranches_eq (path : Path) (branches : Entries Shape) :
    schemaBranches onRef path branches =
      schemasAt onRef (branches.map fun e => (path, e.2)) := by
  induction branches with
  | nil => rfl
  | cons e branches ih => rw [schemaBranches, ih, List.map_cons, schemasAt_cons]

theorem schemaProperties_eq (path : Path) (properties : Entries Shape) :
    schemaProperties onRef path properties = do
      let schemas ← schemasAt onRef (properties.map fun e => (path ++ [e.1], e.2))
      return properties.keys.zip schemas := by
  induction properties with
  | nil => rfl
  | cons e properties ih =>
    rw [schemaProperties, ih, List.map_cons, schemasAt_cons]
    simp only [bind_assoc, pure_bind]
    rfl

theorem schemaSignatures_eq (path : Path) (signatures : List (Shape × Shape)) :
    schemaSignatures onRef path signatures = do
      let schemas ← schemasAt onRef (signatures.flatMap fun e =>
        [(path ++ ["[key]"], e.1), (path ++ ["[value]"], e.2)])
      return signatureSchemas schemas := by
  induction signatures with
  | nil => rfl
  | cons e signatures ih =>
    rw [schemaSignatures, ih, List.flatMap_cons, List.cons_append, List.singleton_append,
      schemasAt_cons, schemasAt_cons]
    simp only [bind_assoc, pure_bind]
    rfl

variable {onRef} in
theorem length_schemasAt {parts : List (Path × Shape)} {schemas : List Json}
    (h : schemasAt onRef parts = .ok schemas) : schemas.length = parts.length :=
  (mapM_eq_ok_iff.mp h).length_eq.symm

/-- Schemas in two parts, told apart by how many there are in the first. -/
theorem schemasAt_append_bind {parts : List (Path × Shape)} {n : Nat} (hlen : parts.length = n)
    (others : List (Path × Shape)) (f : List Json → List Json → Except SchemaFault Json) :
    (schemasAt onRef parts >>= fun front => schemasAt onRef others >>= f front) =
      schemasAt onRef (parts ++ others) >>= fun schemas =>
        f (schemas.take n) (schemas.drop n) := by
  subst hlen
  rw [schemasAt_append]
  cases hfront : schemasAt onRef parts with
  | error fault => rfl
  | ok front =>
    cases schemasAt onRef others with
    | error fault => rfl
    | ok back =>
      show f front back = f ((front ++ back).take _) ((front ++ back).drop _)
      rw [← length_schemasAt hfront, List.take_left, List.drop_left]

variable {onRef}

/-- **A schema is what the schemas of the parts make.** -/
theorem schema_eq {s : Shape} (hs : s.isRef = false) (path : Path) :
    s.schema onRef path = schemasAt onRef (s.placed path) >>= s.compose path := by
  cases s with
  | ref => cases hs
  | tuple slots rest =>
    have hlen : (slots.zipIdx.map fun e => (path ++ [Path.index e.2], e.1)).length =
        slots.length := by
      rw [List.length_map, List.length_zipIdx]
    have happend := schemasAt_append_bind onRef hlen
      (rest.toList.map fun t => (path ++ ["[]"], t))
    cases rest with
    | none =>
      rw [schema, schemaSlots_eq]
      exact happend fun front back => .ok (.obj [("type", .str "array"),
        ("prefixItems", .arr front), ("items", .bool false)])
    | some rest =>
      rw [schema, schemaSlots_eq]
      refine Eq.trans ?_ (happend fun front back => .ok (.obj [("type", .str "array"),
        ("prefixItems", .arr front), ("items", back.headD .null)]))
      simp only [Option.toList_some, List.map_cons, List.map_nil, schemasAt_singleton, bind_assoc,
        pure_bind]
      rfl
  | allOf | anyOf =>
    rw [schema, schemaAll_eq]
    rfl
  | array item =>
    rw [schema, placed, schemasAt_singleton, bind_assoc]
    simp only [pure_bind]
    rfl
  | optional inner =>
    rw [schema, placed, schemasAt_singleton, bind_assoc]
    exact (bind_pure _).symm
  | tagged members tag branches =>
    cases members with
    | nil =>
      rw [schema, schemaBranches_eq]
      rfl
    | cons t members =>
      simp only [schema, schemaAll_eq, placed, List.map_cons, schemasAt_cons, bind_assoc, pure_bind]
      rfl
  | object properties signatures =>
    have hlen : (properties.map fun e => (path ++ [e.1], e.2)).length = properties.length :=
      List.length_map _
    have happend := schemasAt_append_bind onRef hlen
      (signatures.flatMap fun e => [(path ++ ["[key]"], e.1), (path ++ ["[value]"], e.2)])
    rw [schema, schemaProperties_eq]
    cases signatures with
    | nil =>
      refine Eq.trans ?_ (happend fun front back => .ok (objectSchema
        ((Entries.keys properties).zip front) [("additionalProperties", .bool false)]))
      simp only [bind_assoc, pure_bind]
      rfl
    | cons e signatures =>
      refine Eq.trans ?_ (happend fun front back => .ok (.obj [("allOf", .arr
        (objectSchema ((Entries.keys properties).zip front) [] :: signatureSchemas back))]))
      simp only [bind_assoc, pure_bind, schemaSignatures_eq]
      rfl
  | _ => rfl

end

end Shape

end ShapeGraph
