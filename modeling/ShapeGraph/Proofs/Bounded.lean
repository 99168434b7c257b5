import ShapeGraph.Proofs.Parsing
import ShapeGraph.Proofs.Reporting

/-!
# Decoding in a bounded number of nested calls

Checking, reporting and parsing ask about parts of shapes and values in turn. Here every such
question is counted: it gets one unit of fuel less than the one in which it is asked, whether it
goes into the value, into the shape or through a reference, and without fuel there is no answer. So
there is an answer where all the questions that are asked come to an end, and a question that is
asked in circles has none, however much fuel there is.

What is asked, in which order, and what is not asked any more because of an answer is as in
`Shape.accepts`, `Shape.report` and `Shape.parse`.

* `Graph.acceptsWithin`, `Graph.reportWithin`, `Graph.parseWithin` — an answer within some fuel
* `acceptsWithin_loop` — a definition that is itself has no answer
-/

namespace ShapeGraph

namespace Graph

/-! ## Checking -/

/-- Whether a signature accepts a member; the value is not asked about when the key is rejected. -/
def admitsWithin (accepts : Shape → Value → Option Bool) (m : String × Value)
    (signature : Shape × Shape) : Option Bool := do
  if ← accepts signature.1 (.string m.1) then accepts signature.2 m.2 else return false

variable (g : Graph) (p : Policy)

/-- **Whether a shape accepts a value**, if the fuel is enough to tell. -/
def acceptsWithin : Nat → Shape → Value → Option Bool
  | 0, _, _ => none
  | fuel + 1, s, v =>
    match s, v with
    | .tuple slots rest, .array items => do
      if ← slots.zipIdx.allM fun e => acceptsWithin fuel e.1 ((Value.array items).item e.2) then
        match rest with
        | none => return decide (items.length ≤ slots.length)
        | some t => (items.drop slots.length).allM fun w => acceptsWithin fuel t w
      else return false
    | .allOf members, v =>
      if v.isObject then members.allM fun t => acceptsWithin fuel t v else return false
    | .anyOf members, v => members.anyM fun t => acceptsWithin fuel t v
    | .array t, .array items => items.allM fun w => acceptsWithin fuel t w
    | .tagged _ tag branches, v =>
      if v.isObject then
        match (v.get tag).tagKey?.bind (Entries.get? branches) with
        | none => return false
        | some t => acceptsWithin fuel t v
      else return false
    | .optional t, v => if v.isNullish then return true else acceptsWithin fuel t v
    | .object properties signatures, .object ms => do
      let others := Shape.undeclared properties ms
      if ← properties.allM fun e => acceptsWithin fuel e.2 ((Value.object ms).get e.1) then
        if signatures.isEmpty then return !(p.strict && !others.isEmpty)
        else others.allM fun m => signatures.anyM (admitsWithin (acceptsWithin fuel) m)
      else return false
    | .ref place _, v =>
      match g.shape? place with
      | none => return false
      | some t => acceptsWithin fuel t v
    -- nothing is asked of anything else
    | s, v => return s.accepts p (fun _ _ => false) v

/-- A definition that is nothing but itself. -/
def loop : Graph := ⟨[("Loop", .ref 0 "Loop")]⟩

/-- **No amount of fuel makes up for a question that is asked in circles.** -/
theorem acceptsWithin_loop (p : Policy) (fuel : Nat) (name : String) (v : Value) :
    loop.acceptsWithin p fuel (.ref 0 name) v = none := by
  induction fuel generalizing name with
  | zero => rfl
  | succ fuel ih => exact ih "Loop"

/-! ## Reporting -/

/-- What is taken from the report of a part: nothing when the part accepts. -/
def complaintWithin (accepts : Shape → Value → Option Bool)
    (report : Shape → Path → Value → Option (List DecodeError)) (s : Shape) (path : Path)
    (v : Value) : Option (List DecodeError) := do
  if ← accepts s v then return [] else report s path v

/-- What a signature says of a member. -/
def signatureComplaintWithin (accepts : Shape → Value → Option Bool)
    (report : Shape → Path → Value → Option (List DecodeError)) (path : Path) (m : String × Value)
    (signature : Shape × Shape) : Option (List DecodeError) := do
  if ← accepts signature.1 (.string m.1) then report signature.2 (path ++ [m.1]) m.2
  else report signature.1 (path ++ [m.1]) (.string m.1)

/-- What the signatures say of a member: nothing when one of them admits it. -/
def memberComplaintWithin (accepts : Shape → Value → Option Bool)
    (report : Shape → Path → Value → Option (List DecodeError))
    (signatures : List (Shape × Shape)) (path : Path) (m : String × Value) :
    Option (List DecodeError) := do
  if ← signatures.anyM (admitsWithin accepts m) then return []
  else return (← signatures.mapM (signatureComplaintWithin accepts report path m)).flatten

/-- **The errors of a value**, if the fuel is enough to tell. -/
def reportWithin : Nat → Shape → Path → Value → Option (List DecodeError)
  | 0, _, _, _ => none
  | fuel + 1, s, path, v =>
    let accepts := g.acceptsWithin p fuel
    let complaint := complaintWithin accepts (reportWithin fuel)
    match s, v with
    | .tuple slots rest, .array items => do
      let front ← slots.zipIdx.mapM fun e =>
        complaint e.1 (path ++ [Path.index e.2]) ((Value.array items).item e.2)
      match rest with
      | none => return front.flatten ++ overflow slots path items
      | some t =>
        let back ← ((items.drop slots.length).zipIdx slots.length).mapM fun e =>
          complaint t (path ++ [Path.index e.2]) e.1
        return front.flatten ++ back.flatten
    | .allOf members, v =>
      if v.isObject then return (← members.mapM fun t => complaint t path v).flatten
      else return [.mismatch (Shape.allOf members).expectation path v]
    | .anyOf members, v => do
      if ← members.anyM fun t => accepts t v then return []
      else return [.union path v (← members.mapM fun t => reportWithin fuel t [] v).flatten]
    | .array t, .array items =>
      return (← items.zipIdx.mapM fun e => complaint t (path ++ [Path.index e.2]) e.1).flatten
    | .tagged members tag branches, v =>
      if v.isObject then
        match (v.get tag).tagKey?.bind (Entries.get? branches) with
        | none => return [.mismatch (Shape.knownTags branches) (path ++ [tag]) (v.get tag)]
        | some t => reportWithin fuel t path v
      else return [.mismatch (Shape.tagged members tag branches).expectation path v]
    | .optional t, v => if v.isNullish then return [] else reportWithin fuel t path v
    | .object properties signatures, .object ms =>
      let extra := extraKeys p properties signatures ms
      if extra.isEmpty then do
        let declared ← properties.mapM fun e =>
          complaint e.2 (path ++ [e.1]) ((Value.object ms).get e.1)
        if signatures.isEmpty then return declared.flatten
        else
          let others ← (Shape.undeclared properties ms).mapM
            (memberComplaintWithin accepts (reportWithin fuel) signatures path)
          return declared.flatten ++ others.flatten
      else return extra.map fun m => .mismatch Shape.extraProperty (path ++ [m.1]) m.2
    | .ref place name, v =>
      match g.shape? place with
      | none => return [.mismatch (Shape.ref place name).expectation path v]
      | some t => reportWithin fuel t path v
    -- nothing is asked of anything else
    | s, v => return s.report p (fun _ _ => false) (fun _ _ _ _ => []) path v

/-! ## Parsing -/

/-- Parsing can also fail. -/
abbrev ParseWithin := ExceptT ParseFault Option

/-- The results of parts, as far as they are kept. -/
def keepWithin {α β : Type} (parse : α → ParseWithin Value) (keep : α → Value → Option β)
    (parts : List α) : ParseWithin (List β) := do
  let results ← parts.mapM fun a => keep a <$> parse a
  return results.filterMap id

/-- An object that joins what the members of an intersection make. -/
def joinWithin (parse : Shape → Value → ParseWithin Value) (v : Value) (fields : Entries Value)
    (s : Shape) : ParseWithin (Entries Value) := do
  match ← parse s v with
  | .object found => return fields.insertAll found
  | w => throw (.memberNotObject s.kind w)

/-- What the accepting members of a union make, one over the other. -/
def mergeWithin (accepts : Shape → Value → Option Bool) (parse : Shape → Value → ParseWithin Value)
    (v : Value) (before : Option Value) (s : Shape) : ParseWithin (Option Value) := do
  if ← accepts s v then return some (Shape.mergeOver before (← parse s v)) else return before

/-- An undeclared member with its result by the first signature that admits it. -/
def parseMemberWithin (accepts : Shape → Value → Option Bool)
    (parse : Shape → Value → ParseWithin Value) (signatures : List (Shape × Shape))
    (m : String × Value) : ParseWithin (Option (String × Value)) := do
  match ← (signatures.findM? fun e => admitsWithin accepts m e :
      Option (Option (Shape × Shape))) with
  | none => return none
  | some e => return some (m.1, ← parse e.2 m.2)

/-- **The parsed form of a value**, if the fuel is enough to tell. -/
def parseWithin : Nat → Shape → Value → ParseWithin Value
  | 0, _, _ => ExceptT.mk none
  | fuel + 1, s, v =>
    let accepts := g.acceptsWithin p fuel
    match s with
    | .tuple slots rest => do
      let items := v.items?.getD []
      let front ← slots.zipIdx |> keepWithin
        (fun e => parseWithin fuel e.1 ((Value.array items).item e.2))
        (fun e w => if items.length ≤ e.2 && w.isUndefined then none else some w)
      match rest with
      | none => return .array front
      | some t =>
        let back ← (items.drop slots.length).mapM fun w => parseWithin fuel t w
        return .array (front ++ back)
    | .allOf members => return .object (← members.foldlM (joinWithin (parseWithin fuel) v) [])
    | .anyOf members => do
      match ← members.foldlM (mergeWithin accepts (parseWithin fuel) v) none with
      | none => throw .noMember
      | some w => return w
    | .array t => return .array (← (v.items?.getD []).mapM fun w => parseWithin fuel t w)
    | .tagged _ tag branches =>
      match (if v.isObject then (v.get tag).tagKey? else none).bind (Entries.get? branches) with
      | none => throw (.noBranch tag)
      | some t => do
        match ← parseWithin fuel t v with
        | .object fields => return .object (Entries.insert fields tag (v.get tag))
        | w => throw (.branchNotObject w)
    | .optional t => if v.isNullish then return v else parseWithin fuel t v
    | .object properties signatures => do
      let declared ← properties |> keepWithin (fun e => parseWithin fuel e.2 (v.get e.1))
        (fun e w => if w.isUndefined then none else some (e.1, w))
      let others ← (Shape.undeclared properties (v.members?.getD [])).mapM
        (parseMemberWithin accepts (parseWithin fuel) signatures)
      return .object (declared ++ others.filterMap id)
    | .ref place name =>
      match g.shape? place with
      | none => throw (.unresolved name)
      | some t => parseWithin fuel t v
    -- nothing is asked of anything else
    | s => ExceptT.mk (some (s.parse p (fun _ _ => false) (fun _ _ _ => .error .never) v))

end Graph

end ShapeGraph
