import ShapeGraph.Record.Parts

/-!
# Records in place of references

Every reference inside a record can be replaced by a record; everything else stays. To replace some
of them only, these are told apart first: in a record with a hole they bear a name of their own.

* `Record.subst` — records in place of the references
* `Record.subst_ref`, `Record.contains_subst` — references in their own place change nothing, and
  what stands inside a record stands changed inside the changed one
* `Record.fill`, `Record.Inlined` — a record in place of some of the references to a name
-/

namespace ShapeGraph

namespace Record

section

variable (f : String → Record)

mutual

/-- **A record with records in place of its references.** -/
def subst : Record → Record
  | .tuple slots none => .tuple (substAll slots) none
  | .tuple slots (some rest) => .tuple (substAll slots) (some (subst rest))
  | .allOf members => .allOf (substAll members)
  | .anyOf members => .anyOf (substAll members)
  | .array item => .array (subst item)
  | .anyOfDiscriminated members tag branches =>
    .anyOfDiscriminated (substAll members) tag (substNamed branches)
  | .optionalField inner => .optionalField (subst inner)
  | .object properties signatures => .object (substNamed properties) (substPairs signatures)
  | .ref name => f name
  | r => r

def substAll : List Record → List Record
  | [] => []
  | r :: records => subst r :: substAll records

def substNamed : List (String × Record) → List (String × Record)
  | [] => []
  | (k, r) :: entries => (k, subst r) :: substNamed entries

def substPairs : List (Record × Record) → List (Record × Record)
  | [] => []
  | (a, b) :: pairs => (subst a, subst b) :: substPairs pairs

end

end

/-! ## References in their own place -/

mutual

/-- References in their own place change nothing. -/
theorem subst_ref : ∀ r : Record, r.subst .ref = r
  | .tuple slots none => by rw [subst, substAll_ref slots]
  | .tuple slots (some rest) => by rw [subst, substAll_ref slots, subst_ref rest]
  | .allOf members => by rw [subst, substAll_ref members]
  | .anyOf members => by rw [subst, substAll_ref members]
  | .array item => by rw [subst, subst_ref item]
  | .anyOfDiscriminated members tag branches => by
    rw [subst, substAll_ref members, substNamed_ref branches]
  | .optionalField inner => by rw [subst, subst_ref inner]
  | .object properties signatures => by
    rw [subst, substNamed_ref properties, substPairs_ref signatures]
  | .ref _ | .typeof _ | .any | .nullish | .never | .const _ | .regex .. | .date | .bigint
  | .stringWithFormats _ | .numberWithFormats _ | .anyOfConsts _ => rfl

theorem substAll_ref : ∀ records : List Record, substAll .ref records = records
  | [] => rfl
  | r :: records => by rw [substAll, subst_ref r, substAll_ref records]

theorem substNamed_ref : ∀ entries : List (String × Record), substNamed .ref entries = entries
  | [] => rfl
  | (_, r) :: entries => by rw [substNamed, subst_ref r, substNamed_ref entries]

theorem substPairs_ref : ∀ pairs : List (Record × Record), substPairs .ref pairs = pairs
  | [] => rfl
  | (a, b) :: pairs => by rw [substPairs, subst_ref a, subst_ref b, substPairs_ref pairs]

end

/-! ## What stands inside -/

variable {f : String → Record}

theorem mem_listed_subst {label : String} {records : List Record} {first : Nat}
    {e : Path × Record} (h : e ∈ listed label records first) :
    (e.1, e.2.subst f) ∈ listed label (substAll f records) first := by
  induction records generalizing first with
  | nil => cases h
  | cons r records ih =>
    rw [listed, List.zipIdx_cons, List.map_cons] at h
    rw [substAll, listed, List.zipIdx_cons, List.map_cons]
    rcases List.mem_cons.mp h with rfl | h
    · exact List.mem_cons_self
    · exact List.mem_cons_of_mem _ (ih h)

theorem mem_named_subst {label : String} {entries : List (String × Record)} {e : Path × Record}
    (h : e ∈ named label entries) : (e.1, e.2.subst f) ∈ named label (substNamed f entries) := by
  induction entries with
  | nil => cases h
  | cons d entries ih =>
    rcases List.mem_cons.mp h with rfl | h
    · exact List.mem_cons_self
    · exact List.mem_cons_of_mem _ (ih h)

theorem mem_paired_subst {pairs : List (Record × Record)} {e : Path × Record}
    (h : e ∈ paired pairs) : (e.1, e.2.subst f) ∈ paired (substPairs f pairs) := by
  induction pairs with
  | nil => cases h
  | cons d pairs ih =>
    rw [paired, List.flatMap_cons] at h
    rw [substPairs, paired, List.flatMap_cons]
    rcases List.mem_append.mp h with h | h
    · refine List.mem_append_left _ ?_
      rcases List.mem_cons.mp h with rfl | h
      · exact List.mem_cons_self
      · rw [List.mem_singleton.mp h]
        exact List.mem_cons_of_mem _ List.mem_cons_self
    · exact List.mem_append_right _ (ih h)

/-- The parts are replaced one by one. -/
theorem mem_parts_subst {r : Record} {e : Path × Record} (h : e ∈ r.parts) :
    (e.1, e.2.subst f) ∈ (r.subst f).parts := by
  cases r with
  | tuple slots rest =>
    cases rest with
    | none => exact mem_listed_subst h
    | some rest =>
      rcases List.mem_append.mp h with h | h
      · exact List.mem_append_left _ (mem_listed_subst h)
      · rw [List.mem_singleton.mp h]
        exact List.mem_append_right _ List.mem_cons_self
  | allOf members | anyOf members => exact mem_listed_subst h
  | array item | optionalField item =>
    rw [List.mem_singleton.mp h]
    exact List.mem_cons_self
  | anyOfDiscriminated members tag branches =>
    rcases List.mem_append.mp h with h | h
    · exact List.mem_append_left _ (mem_named_subst h)
    · exact List.mem_append_right _ (mem_listed_subst h)
  | object properties signatures =>
    rcases List.mem_append.mp h with h | h
    · exact List.mem_append_left _ (mem_named_subst h)
    · exact List.mem_append_right _ (mem_paired_subst h)
  | _ => cases h

/-- **What stands inside a record stands changed inside the changed one.** -/
theorem contains_subst {r t : Record} (h : r.Contains t) : (r.subst f).Contains (t.subst f) := by
  induction h with
  | refl => exact .refl
  | tail _ hpart ih =>
    obtain ⟨e, he, rfl⟩ := hpart
    exact .tail ih ⟨_, mem_parts_subst he, rfl⟩

/-! ## Some of the references to a name -/

/-- A record with a record in its hole, which is where it refers to a name that stands for it. -/
def fill (r : Record) (hole : String) (filling : Record) : Record :=
  r.subst fun name => if name = hole then filling else .ref name

/-- **A record, and the same record with a record in place of some of the references to a name.**
Both are made from one record, in which those references, whichever they are, bear a name that
stands nowhere else in it. -/
def Inlined (r : Record) (name : String) (body r' : Record) : Prop :=
  ∃ (hole : String) (template : Record),
    r = template.fill hole (.ref name) ∧ r' = template.fill hole body

end Record

end ShapeGraph
