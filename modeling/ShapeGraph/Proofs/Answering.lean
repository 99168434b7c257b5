import ShapeGraph.Proofs.Bounded
import ShapeGraph.Proofs.Guarded

/-!
# Answers that come are the answers

A question that is asked within some fuel may be left without an answer. Where an answer comes, it
is the one of the definitions without a bound, as long as that holds of the parts of the question.
This is said once for two uses: where all parts are answered, so is the whole; and where parts may
be left without an answer, so may the whole, but it is not answered otherwise.

* `Answers`, `AnswerBoth`, `AnswersParse` — computations that give one answer or, if answers may be
  lost, none
* `acceptsWithin_answers`, `reportWithin_answers`, `parseWithin_answers` — from the parts of a
  question to the whole
-/

namespace ShapeGraph

/-! ## Computations that may lose their answer -/

section

variable {α β : Type} {lost : Prop} {x x' : Option α} {a a' : α}

/-- A computation gives its answer or, where answers may be lost, none. -/
def Answers (lost : Prop) (x : Option α) (a : α) : Prop := x = some a ∨ (lost ∧ x = none)

/-- Two computations give their answers both or, where answers may be lost, none of them does. -/
def AnswerBoth (lost : Prop) (x x' : Option α) (a a' : α) : Prop :=
  (x = some a ∧ x' = some a') ∨ (lost ∧ x = none ∧ x' = none)

namespace Answers

theorem pure (a : α) : Answers lost (some a) a := .inl rfl

theorem eq_some (h : Answers False x a) : x = some a := h.resolve_right And.left

theorem bind {f : α → Option β} {b : β} (h : Answers lost x a) (hf : Answers lost (f a) b) :
    Answers lost (x >>= f) b := by
  rcases h with rfl | ⟨hlost, rfl⟩
  · exact hf
  · exact .inr ⟨hlost, rfl⟩

theorem both (h : Answers lost x a) : AnswerBoth lost x x a a := by
  rcases h with h | ⟨hlost, h⟩
  · exact .inl ⟨h, h⟩
  · exact .inr ⟨hlost, h, h⟩

variable {l : List α}

theorem allM {f : α → Option Bool} {r : α → Bool} (h : ∀ a ∈ l, Answers lost (f a) (r a)) :
    Answers lost (l.allM f) (l.all r) := by
  induction l with
  | nil => exact .pure true
  | cons a l ih =>
    rw [List.forall_mem_cons] at h
    rw [List.allM, List.all_cons]
    refine h.1.bind ?_
    cases r a with
    | false => exact .pure false
    | true => exact ih h.2

theorem anyM {f : α → Option Bool} {r : α → Bool} (h : ∀ a ∈ l, Answers lost (f a) (r a)) :
    Answers lost (l.anyM f) (l.any r) := by
  induction l with
  | nil => exact .pure false
  | cons a l ih =>
    rw [List.forall_mem_cons] at h
    rw [List.anyM, List.any_cons]
    refine h.1.bind ?_
    cases r a with
    | true => exact .pure true
    | false => exact ih h.2

theorem findM? {f : α → Option Bool} {r : α → Bool} (h : ∀ a ∈ l, Answers lost (f a) (r a)) :
    Answers lost (l.findM? f) (l.find? r) := by
  induction l with
  | nil => exact .pure none
  | cons a l ih =>
    rw [List.forall_mem_cons] at h
    rw [List.findM?, List.find?_cons]
    refine h.1.bind ?_
    cases r a with
    | true => exact .pure (some a)
    | false => exact ih h.2

end Answers

namespace AnswerBoth

theorem pure (a a' : α) : AnswerBoth lost (some a) (some a') a a' := .inl ⟨rfl, rfl⟩

theorem answers (h : AnswerBoth lost x x' a a') : Answers lost x a :=
  h.imp And.left fun hnone => ⟨hnone.1, hnone.2.1⟩

theorem bind {f f' : α → Option β} {b b' : β} (h : AnswerBoth lost x x' a a')
    (hf : AnswerBoth lost (f a) (f' a') b b') : AnswerBoth lost (x >>= f) (x' >>= f') b b' := by
  rcases h with ⟨rfl, rfl⟩ | ⟨hlost, rfl, rfl⟩
  · exact hf
  · exact .inr ⟨hlost, rfl, rfl⟩

theorem mapM {l : List α} {f f' : α → Option β} {r r' : α → β}
    (h : ∀ a ∈ l, AnswerBoth lost (f a) (f' a) (r a) (r' a)) :
    AnswerBoth lost (l.mapM f) (l.mapM f') (l.map r) (l.map r') := by
  induction l with
  | nil => exact .pure [] []
  | cons a l ih =>
    rw [List.forall_mem_cons] at h
    rw [List.mapM_cons, List.mapM_cons]
    exact h.1.bind ((ih h.2).bind (.pure _ _))

theorem flatMap {l : List α} {f f' : α → Option (List β)} {r r' : α → List β}
    (h : ∀ a ∈ l, AnswerBoth lost (f a) (f' a) (r a) (r' a)) :
    AnswerBoth lost (return (← l.mapM f).flatten) (return (← l.mapM f').flatten) (l.flatMap r)
      (l.flatMap r') := by
  rw [List.flatMap_def, List.flatMap_def]
  exact (mapM h).bind (.pure _ _)

/-- What is asked first decides how both go on. -/
theorem ite {answer : Option Bool} {b : Bool} {y y' z z' : Option α} {c c' d d' : α}
    (h : Answers lost answer b) (hyes : AnswerBoth lost y y' c c')
    (hno : AnswerBoth lost z z' d d') :
    AnswerBoth lost (do if ← answer then y else z) (do if ← answer then y' else z')
      (if b then c else d) (if b then c' else d') := by
  refine h.both.bind ?_
  cases b with
  | true => exact hyes
  | false => exact hno

end AnswerBoth

end

namespace Graph

variable {g : Graph} {p : Policy} {lost : Prop} {n : Nat} {s : Shape} {v : Value}
  {a : Nat → Value → Bool} {r : Nat → String → Path → Value → List DecodeError}

/-! ## Checking -/

/-- A part that is checked within some calls gives the answer it has. -/
def PartsAnswerChecked (g : Graph) (p : Policy) (lost : Prop) (a : Nat → Value → Bool) (n : Nat)
    (s : Shape) (v : Value) : Prop :=
  ∀ t w, g.Part (t, w) (s, v) → Answers lost (g.acceptsWithin p n t w) (t.accepts p a w)

theorem answers_admits {accept : Shape → Value → Option Bool} {m : String × Value}
    {e : Shape × Shape} {b b' : Bool} (hkey : Answers lost (accept e.1 (.string m.1)) b)
    (hvalue : Answers lost (accept e.2 m.2) b') :
    Answers lost (admitsWithin accept m e) (b && b') := by
  refine hkey.bind ?_
  cases b with
  | true => exact hvalue
  | false => exact .pure false

theorem PartsAnswerChecked.admits {properties : Entries Shape} {signatures : List (Shape × Shape)}
    {ms : List (String × Value)} {m : String × Value} {e : Shape × Shape}
    (h : g.PartsAnswerChecked p lost a n (.object properties signatures) (.object ms))
    (hm : m ∈ Shape.undeclared properties ms) (he : e ∈ signatures) :
    Answers lost (admitsWithin (g.acceptsWithin p n) m e)
      (e.1.accepts p a (.string m.1) && e.2.accepts p a m.2) :=
  have hmem : m ∈ ms := (List.mem_filter.mp hm).1
  answers_admits (h _ _ (.key he hmem)) (h _ _ (.member he hmem))

/-- **From the parts to the whole**: what is checked within one call more. -/
theorem acceptsWithin_answers (hs : s.isRef = false) (h : g.PartsAnswerChecked p lost a n s v) :
    Answers lost (g.acceptsWithin p (n + 1) s v) (s.accepts p a v) := by
  cases s with
  | ref => cases hs
  | optional t =>
    rw [acceptsWithin, Shape.accepts]
    cases v.isNullish with
    | true => exact .pure true
    | false => exact h t v .inner
  | allOf members =>
    rw [acceptsWithin, Shape.accepts, Shape.acceptsAll_eq]
    cases v.isObject with
    | true => exact .allM fun t ht => h t v (.conjunct ht)
    | false => exact .pure false
  | anyOf members =>
    rw [acceptsWithin, Shape.accepts, Shape.acceptsSome_eq]
    exact .anyM fun t ht => h t v (.disjunct ht)
  | tagged members tag branches =>
    rw [acceptsWithin, Shape.accepts]
    simp only [Shape.acceptsBranch_eq]
    cases v.isObject with
    | false => exact .pure false
    | true =>
      cases (v.get tag).tagKey? with
      | none => exact .pure false
      | some key =>
        simp only [Bool.true_and, Option.any_some, Option.bind_some, if_true]
        cases hb : Entries.get? branches key with
        | none => exact .pure false
        | some t => exact h t v (.branch (Entries.mem_of_get? hb))
  | array t =>
    cases v with
    | array items => exact .allM fun w hw => h t w (.item hw)
    | _ => exact .pure _
  | tuple slots rest =>
    cases v with
    | array items =>
      have hslots := Answers.allM (l := slots.zipIdx) fun e he =>
        h e.1 ((Value.array items).item e.2) (.slot (List.mem_zipIdx_iff_getElem?.mp he))
      cases rest with
      | none =>
        rw [acceptsWithin, Shape.accepts, Shape.acceptsSlots_eq]
        refine hslots.bind ?_
        cases List.all slots.zipIdx _ <;> exact .pure _
      | some t =>
        rw [acceptsWithin, Shape.accepts, Shape.acceptsSlots_eq]
        refine hslots.bind ?_
        cases List.all slots.zipIdx _ with
        | true => exact .allM fun w hw => h t w (.rest hw)
        | false => exact .pure _
    | _ => cases rest <;> exact .pure _
  | object properties signatures =>
    cases v with
    | object ms =>
      have hdeclared := Answers.allM (l := properties) fun e he =>
        h e.2 ((Value.object ms).get e.1) (.property he)
      have hothers := Answers.allM (l := Shape.undeclared properties ms) fun m hm =>
        Answers.anyM fun e he => h.admits hm he
      rw [acceptsWithin, Shape.accepts, Shape.acceptsProperties_eq]
      simp only [Shape.acceptsMember_eq]
      refine hdeclared.bind ?_
      cases List.all properties _ with
      | false => exact .pure _
      | true =>
        cases signatures.isEmpty with
        | true => exact .pure _
        | false => exact hothers
    | _ => exact .pure _
  | _ => exact .pure _

/-! ## Reporting -/

/-- A part that is reported on within some calls gives the report it has, at all paths alike. -/
def PartsAnswerReported (g : Graph) (p : Policy) (lost : Prop) (a : Nat → Value → Bool)
    (r : Nat → String → Path → Value → List DecodeError) (n : Nat) (s : Shape) (v : Value) : Prop :=
  ∀ t w, g.Part (t, w) (s, v) → ∀ path path', AnswerBoth lost (g.reportWithin p n t path w)
    (g.reportWithin p n t path' w) (t.report p a r path w) (t.report p a r path' w)

theorem PartsAnswerReported.complaint (h : g.PartsAnswerReported p lost a r n s v)
    (hc : g.PartsAnswerChecked p lost a n s v) {t : Shape} {w : Value} (hp : g.Part (t, w) (s, v))
    (path path' : Path) :
    AnswerBoth lost (complaintWithin (g.acceptsWithin p n) (g.reportWithin p n) t path w)
      (complaintWithin (g.acceptsWithin p n) (g.reportWithin p n) t path' w)
      (if t.accepts p a w then [] else t.report p a r path w)
      (if t.accepts p a w then [] else t.report p a r path' w) :=
  .ite (hc t w hp) (.pure [] []) (h t w hp path path')

theorem PartsAnswerReported.member {properties : Entries Shape} {signatures : List (Shape × Shape)}
    {ms : List (String × Value)} {m : String × Value}
    (h : g.PartsAnswerReported p lost a r n (.object properties signatures) (.object ms))
    (hc : g.PartsAnswerChecked p lost a n (.object properties signatures) (.object ms))
    (hm : m ∈ Shape.undeclared properties ms) (path path' : Path) :
    let member (path : Path) :=
      if Shape.acceptsMember p a signatures (.string m.1) m.2 then []
      else Shape.reportMember p a r signatures (path ++ [m.1]) (.string m.1) m.2
    AnswerBoth lost
      (memberComplaintWithin (g.acceptsWithin p n) (g.reportWithin p n) signatures path m)
      (memberComplaintWithin (g.acceptsWithin p n) (g.reportWithin p n) signatures path' m)
      (member path) (member path') := by
  intro member
  have hmem : m ∈ ms := (List.mem_filter.mp hm).1
  simp only [member, Shape.acceptsMember_eq, Shape.reportMember_eq]
  refine .ite (.anyM fun e he => hc.admits hm he) (.pure [] []) (.flatMap fun e he => ?_)
  have hkey : g.Part (e.1, .string m.1) (.object properties signatures, .object ms) :=
    .key he hmem
  have hvalue : g.Part (e.2, m.2) (.object properties signatures, .object ms) := .member he hmem
  exact .ite (hc _ _ hkey) (h _ _ hvalue _ _) (h _ _ hkey _ _)

/-- **From the parts to the whole**: what is reported within one call more. -/
theorem reportWithin_answers (hs : s.isRef = false) (hc : g.PartsAnswerChecked p lost a n s v)
    (h : g.PartsAnswerReported p lost a r n s v) (path path' : Path) :
    AnswerBoth lost (g.reportWithin p (n + 1) s path v) (g.reportWithin p (n + 1) s path' v)
      (s.report p a r path v) (s.report p a r path' v) := by
  have hcomplaint {t : Shape} {w : Value} (hp : g.Part (t, w) (s, v)) := h.complaint hc hp
  cases s with
  | ref => cases hs
  | optional t =>
    simp only [reportWithin, Shape.report]
    cases v.isNullish with
    | true => exact .pure [] []
    | false => exact h t v .inner path path'
  | allOf members =>
    simp only [reportWithin, Shape.report, Shape.reportAll_eq]
    cases v.isObject with
    | true => exact .flatMap fun t ht => hcomplaint (.conjunct ht) path path'
    | false => exact .pure _ _
  | anyOf members =>
    simp only [reportWithin, Shape.report, Shape.acceptsSome_eq, Shape.reportEach_eq,
      List.flatMap_def]
    refine .ite (.anyM fun t ht => hc t v (.disjunct ht)) (.pure [] []) ?_
    exact (AnswerBoth.mapM fun t ht => h t v (.disjunct ht) [] []).bind (.pure _ _)
  | tagged members tag branches =>
    simp only [reportWithin, Shape.report, Shape.reportBranch_eq]
    cases v.isObject with
    | false => exact .pure _ _
    | true =>
      cases (v.get tag).tagKey? with
      | none => exact .pure _ _
      | some key =>
        simp only [Option.bind_some]
        cases hb : Entries.get? branches key with
        | none => exact .pure _ _
        | some t => exact h t v (.branch (Entries.mem_of_get? hb)) path path'
  | array t =>
    cases v with
    | array items =>
      exact .flatMap fun e he => hcomplaint (.item (List.fst_mem_of_mem_zipIdx he)) _ _
    | _ => exact .pure _ _
  | tuple slots rest =>
    cases v with
    | array items =>
      have hslots := AnswerBoth.mapM (l := slots.zipIdx) fun e he =>
        hcomplaint (.slot (List.mem_zipIdx_iff_getElem?.mp he)) (path ++ [Path.index e.2])
          (path' ++ [Path.index e.2])
      cases rest with
      | none =>
        simp only [reportWithin, Shape.report, Shape.reportSlots_eq, List.flatMap_def]
        exact hslots.bind (.pure _ _)
      | some t =>
        simp only [reportWithin, Shape.report, Shape.reportSlots_eq, List.flatMap_def]
        refine hslots.bind (AnswerBoth.bind (.mapM fun e he => ?_) (.pure _ _))
        exact hcomplaint (.rest (List.fst_mem_of_mem_zipIdx he)) _ _
    | _ => cases rest <;> exact .pure _ _
  | object properties signatures =>
    cases v with
    | object ms =>
      have hdeclared := AnswerBoth.mapM (l := properties) fun e he =>
        hcomplaint (.property he) (path ++ [e.1]) (path' ++ [e.1])
      have hothers := AnswerBoth.mapM (l := Shape.undeclared properties ms) fun m hm =>
        h.member hc hm path path'
      simp only [reportWithin, Shape.report, Shape.reportProperties_eq, List.flatMap_def, extraKeys]
      by_cases hsig : signatures.isEmpty = true
      · cases hextra : p.strict && !(Shape.undeclared properties ms).isEmpty with
        | true =>
          rw [Bool.and_eq_true, Bool.not_eq_true'] at hextra
          simp only [hsig, hextra, Bool.and_self, Bool.not_false, if_true, Bool.false_eq_true,
            if_false]
          exact .pure _ _
        | false =>
          have hnone : (if p.strict then Shape.undeclared properties ms else []).isEmpty := by
            cases hstrict : p.strict with
            | true => rwa [hstrict, Bool.true_and, Bool.not_eq_false'] at hextra
            | false => rfl
          simp only [hsig, hextra, hnone, Bool.true_and, Bool.false_eq_true, if_true, if_false,
            List.append_nil]
          exact hdeclared.bind (.pure _ _)
      · simp only [hsig, Bool.false_and, Bool.false_eq_true, if_false, List.isEmpty_nil, if_true]
        exact hdeclared.bind (hothers.bind (.pure _ _))
    | _ => exact .pure _ _
  | _ => exact .pure _ _

/-! ## Parsing -/

/-- The same of a computation that can also fail. -/
def AnswersParse {α : Type} (lost : Prop) (x : ParseWithin α) (r : Except ParseFault α) : Prop :=
  Answers lost x.run r

namespace AnswersParse

variable {α β : Type} {x : ParseWithin α} {res : Except ParseFault α}

theorem pure (w : α) : AnswersParse lost (Pure.pure w) (.ok w) := .inl rfl

theorem throw (f : ParseFault) : AnswersParse (α := α) lost (MonadExcept.throw f) (.error f) :=
  .inl rfl

theorem bind {f : α → ParseWithin β} {k : α → Except ParseFault β} (h : AnswersParse lost x res)
    (hf : ∀ w, AnswersParse lost (f w) (k w)) : AnswersParse lost (x >>= f) (res >>= k) := by
  refine Answers.bind h ?_
  cases res with
  | error e => exact .inl rfl
  | ok w => exact hf w

theorem bind_lift {answer : Option α} {b : α} {f : α → ParseWithin β} {res : Except ParseFault β}
    (h : Answers lost answer b) (hf : AnswersParse lost (f b) res) :
    AnswersParse lost (liftM answer >>= f) res := by
  rcases h with rfl | ⟨hlost, rfl⟩
  · exact hf
  · exact .inr ⟨hlost, rfl⟩

theorem mapM {l : List α} {f : α → ParseWithin β} {k : α → Except ParseFault β}
    (h : ∀ a ∈ l, AnswersParse lost (f a) (k a)) : AnswersParse lost (l.mapM f) (l.mapM k) := by
  induction l with
  | nil => exact .pure []
  | cons a l ih =>
    rw [List.forall_mem_cons] at h
    rw [List.mapM_cons, List.mapM_cons]
    exact h.1.bind fun _ => (ih h.2).bind fun _ => .pure _

end AnswersParse

theorem keepWithin_cons {α β : Type} (parse : α → ParseWithin Value) (keep : α → Value → Option β)
    (e : α) (parts : List α) :
    keepWithin parse keep (e :: parts) = (do
      let w ← parse e
      let rest ← keepWithin parse keep parts
      return (keep e w).toList ++ rest) := by
  simp only [keepWithin, List.mapM_cons, bind_assoc, map_eq_pure_bind, pure_bind]
  refine bind_congr fun w => bind_congr fun results => ?_
  cases keep e w <;> simp

section

variable {q : Nat → String → Value → Except ParseFault Value} {members : List Shape}
  {accept : Shape → Value → Option Bool} {parse : Shape → Value → ParseWithin Value}

theorem answers_slots {slots : List Shape} {items : List Value} {i : Nat}
    (h : ∀ e ∈ slots.zipIdx i, AnswersParse lost (parse e.1 ((Value.array items).item e.2))
      (e.1.parse p a q ((Value.array items).item e.2))) :
    AnswersParse lost
      (keepWithin (fun e : Shape × Nat => parse e.1 ((Value.array items).item e.2))
        (fun e w => if items.length ≤ e.2 && w.isUndefined then none else some w) (slots.zipIdx i))
      (Shape.parseSlots p a q slots (items.drop i)) := by
  induction slots generalizing i with
  | nil => exact .pure []
  | cons s slots ih =>
    rw [List.zipIdx_cons, List.forall_mem_cons] at h
    have hempty : (items.drop i).isEmpty = decide (items.length ≤ i) := by
      rw [Bool.eq_iff_iff, List.isEmpty_iff, decide_eq_true_iff, List.drop_eq_nil_iff]
    rw [List.zipIdx_cons, keepWithin_cons, Shape.parseSlots, Value.headD_drop, List.tail_drop,
      hempty]
    refine h.1.bind fun w => (ih h.2).bind fun rest => ?_
    cases decide (items.length ≤ i) && w.isUndefined <;> exact .pure _

theorem answers_properties {properties : Entries Shape}
    (h : ∀ e ∈ properties,
      AnswersParse lost (parse e.2 (v.get e.1)) (e.2.parse p a q (v.get e.1))) :
    AnswersParse lost
      (keepWithin (fun e : String × Shape => parse e.2 (v.get e.1))
        (fun e w => if w.isUndefined then none else some (e.1, w)) properties)
      (Shape.parseProperties p a q properties v) := by
  induction properties with
  | nil => exact .pure []
  | cons e properties ih =>
    rw [List.forall_mem_cons] at h
    rw [keepWithin_cons, Shape.parseProperties]
    refine h.1.bind fun w => (ih h.2).bind fun rest => ?_
    cases w.isUndefined <;> exact .pure _

theorem answers_join {before : Entries Value}
    (h : ∀ t ∈ members, AnswersParse lost (parse t v) (t.parse p a q v)) :
    AnswersParse lost (members.foldlM (joinWithin parse v) before)
      (Shape.parseAll p a q members before v) := by
  induction members generalizing before with
  | nil => exact .pure before
  | cons t members ih =>
    rw [List.forall_mem_cons] at h
    rw [List.foldlM_cons, joinWithin, bind_assoc, Shape.parseAll]
    refine h.1.bind fun w => ?_
    cases w with
    | object found => exact ih h.2
    | _ => exact .throw _

/-- What accepting members make, with an end for each of the two ways that it can go. -/
theorem answers_merge {before : Option Value}
    (hc : ∀ t ∈ members, Answers lost (accept t v) (t.accepts p a v))
    (h : ∀ t ∈ members, t.accepts p a v = true → AnswersParse lost (parse t v) (t.parse p a q v)) :
    AnswersParse lost
      (members.foldlM (mergeWithin accept parse v) before >>= fun
        | none => throw .noMember
        | some w => return w)
      (Shape.parseSome p a q members before v) := by
  induction members generalizing before with
  | nil =>
    cases before with
    | none => exact .throw .noMember
    | some w => exact .pure w
  | cons t members ih =>
    rw [List.forall_mem_cons] at hc h
    rw [List.foldlM_cons, mergeWithin, bind_assoc, bind_assoc, Shape.parseSome]
    refine .bind_lift hc.1 ?_
    cases ht : t.accepts p a v with
    | true =>
      simp only [if_true, bind_assoc, pure_bind]
      exact (h.1 ht).bind fun w => ih hc.2 h.2
    | false =>
      simp only [Bool.false_eq_true, if_false, pure_bind]
      exact ih hc.2 h.2

theorem answers_branch {branches : Entries Shape} {tag key : String}
    (h : ∀ t, branches.get? key = some t → AnswersParse lost (parse t v) (t.parse p a q v)) :
    AnswersParse lost
      (match branches.get? key with
      | none => throw (.noBranch tag)
      | some t => do
        match ← parse t v with
        | .object fields => return .object (Entries.insert fields tag (v.get tag))
        | w => throw (.branchNotObject w))
      (Shape.parseBranch p a q branches tag key v) := by
  induction branches with
  | nil => exact .throw _
  | cons e branches ih =>
    obtain ⟨k, u⟩ := e
    simp only [Entries.get?, Shape.parseBranch] at h ⊢
    by_cases hk : k = key
    · simp only [hk, if_true] at h ⊢
      refine (h u rfl).bind fun w => ?_
      cases w with
      | object fields => exact .pure _
      | _ => exact .throw _
    · simp only [hk, if_false] at h ⊢
      exact ih h

theorem parseMember_eq (signatures : List (Shape × Shape)) (key : String) (v : Value) :
    Shape.parseMember p a q signatures key v =
      match signatures.find? fun e => e.1.accepts p a (.string key) && e.2.accepts p a v with
      | none => .ok none
      | some e => return some (key, ← e.2.parse p a q v) := by
  induction signatures with
  | nil => rfl
  | cons e signatures ih =>
    rw [Shape.parseMember, List.find?_cons]
    cases e.1.accepts p a (.string key) && e.2.accepts p a v with
    | true => rfl
    | false => exact ih

theorem answers_member {signatures : List (Shape × Shape)} {m : String × Value}
    (hc : ∀ e ∈ signatures, Answers lost (admitsWithin accept m e)
      (e.1.accepts p a (.string m.1) && e.2.accepts p a m.2))
    (h : ∀ e ∈ signatures, e.2.accepts p a m.2 = true →
      AnswersParse lost (parse e.2 m.2) (e.2.parse p a q m.2)) :
    AnswersParse lost (parseMemberWithin accept parse signatures m)
      (Shape.parseMember p a q signatures m.1 m.2) := by
  rw [parseMemberWithin, parseMember_eq]
  refine .bind_lift (.findM? hc) ?_
  cases hfind : signatures.find? fun e => e.1.accepts p a (.string m.1) && e.2.accepts p a m.2 with
  | none => exact .pure none
  | some e =>
    have hadmits := List.find?_some hfind
    rw [Bool.and_eq_true] at hadmits
    exact (h e (List.mem_of_find?_eq_some hfind) hadmits.2).bind fun w => .pure _

end

variable {q : Nat → String → Value → Except ParseFault Value}

/-- A part that is parsed within some calls gives the form it has. When the whole is accepted, only
accepted parts are parsed. -/
def PartsAnswerParsed (g : Graph) (p : Policy) (lost : Prop) (a : Nat → Value → Bool)
    (q : Nat → String → Value → Except ParseFault Value) (n : Nat) (s : Shape) (v : Value) : Prop :=
  ∀ t w, (s.accepts p a v = true → g.Part (t, w) (s, v) ∧ t.accepts p a w = true) →
    AnswersParse lost (g.parseWithin p n t w) (t.parse p a q w)

theorem PartsAnswerParsed.slots {slots : List Shape} {rest : Option Shape}
    (h : g.PartsAnswerParsed p lost a q n (.tuple slots rest) v) :
    AnswersParse lost
      (keepWithin
        (fun e : Shape × Nat => g.parseWithin p n e.1 ((Value.array (v.items?.getD [])).item e.2))
        (fun e w => if (v.items?.getD []).length ≤ e.2 && w.isUndefined then none else some w)
        slots.zipIdx)
      (Shape.parseSlots p a q slots (v.items?.getD [])) := by
  refine answers_slots (i := 0) fun e he => h _ _ fun ha => ?_
  obtain ⟨items, rfl⟩ : ∃ items, v = .array items := by
    cases v with
    | array items => exact ⟨items, rfl⟩
    | _ => cases rest <;> cases ha
  refine ⟨.slot (List.mem_zipIdx_iff_getElem?.mp he), ?_⟩
  have hslots : Shape.acceptsSlots p a slots items = true := by
    cases rest <;> exact (Bool.and_eq_true _ _ ▸ ha).1
  rw [Shape.acceptsSlots_eq, List.all_eq_true] at hslots
  exact hslots e he

/-- **From the parts to the whole**: what is parsed within one call more. -/
theorem parseWithin_answers (hs : s.isRef = false) (hc : g.PartsAnswerChecked p lost a n s v)
    (h : g.PartsAnswerParsed p lost a q n s v) :
    AnswersParse lost (g.parseWithin p (n + 1) s v) (s.parse p a q v) := by
  cases s with
  | ref => cases hs
  | optional t =>
    rw [parseWithin, Shape.parse]
    by_cases hv : v.isNullish = true
    · rw [if_pos hv, if_pos hv]
      exact .pure v
    · rw [if_neg hv, if_neg hv]
      refine h t v fun ha => ⟨.inner, ?_⟩
      rw [Shape.accepts, Bool.or_eq_true] at ha
      exact ha.resolve_left hv
  | allOf members =>
    rw [parseWithin, Shape.parse]
    refine (answers_join fun t ht => h t v fun ha => ⟨.conjunct ht, ?_⟩).bind fun _ => .pure _
    rw [Shape.accepts, Shape.acceptsAll_eq, Bool.and_eq_true, List.all_eq_true] at ha
    exact ha.2 t ht
  | anyOf members =>
    rw [parseWithin, Shape.parse]
    exact answers_merge (fun t ht => hc t v (.disjunct ht)) fun t ht hacc =>
      h t v fun _ => ⟨.disjunct ht, hacc⟩
  | tagged members tag branches =>
    rw [parseWithin, Shape.parse]
    cases hkey : if v.isObject then (v.get tag).tagKey? else none with
    | none => exact .throw _
    | some key =>
      refine answers_branch fun t hb => h t v fun ha => ⟨.branch (Entries.mem_of_get? hb), ?_⟩
      rw [Shape.accepts, Bool.and_eq_true] at ha
      rw [if_pos ha.1] at hkey
      rw [hkey, Option.any_some, Shape.acceptsBranch_eq, hb] at ha
      exact ha.2
  | array t =>
    rw [parseWithin, Shape.parse]
    refine (AnswersParse.mapM fun w hw => h t w fun ha => ?_).bind fun _ => .pure _
    cases v with
    | array items =>
      rw [Shape.accepts, List.all_eq_true] at ha
      exact ⟨.item hw, ha w hw⟩
    | _ => cases ha
  | tuple slots rest =>
    cases rest with
    | none =>
      rw [parseWithin, Shape.parse]
      exact h.slots.bind fun _ => .pure _
    | some t =>
      rw [parseWithin, Shape.parse]
      refine h.slots.bind fun front => ?_
      refine (AnswersParse.mapM fun w hw => h t w fun ha => ?_).bind fun _ => .pure _
      cases v with
      | array items =>
        rw [Shape.accepts, Bool.and_eq_true, List.all_eq_true] at ha
        exact ⟨.rest hw, ha.2 w hw⟩
      | _ => cases ha
  | object properties signatures =>
    rw [parseWithin, Shape.parse]
    refine (answers_properties fun e he => h e.2 _ fun ha => ?_).bind fun declared =>
      (AnswersParse.mapM fun m hm => ?_).bind fun others => .pure _
    · cases v with
      | object ms =>
        rw [Shape.accepts, Bool.and_eq_true, Shape.acceptsProperties_eq, List.all_eq_true] at ha
        exact ⟨.property he, ha.1 e he⟩
      | _ => cases ha
    · cases v with
      | object ms =>
        exact answers_member (fun e he => hc.admits hm he) fun e he hacc =>
          h e.2 m.2 fun _ => ⟨.member he (List.mem_filter.mp hm).1, hacc⟩
      | _ => cases hm
  | _ => exact .inl rfl

end Graph

end ShapeGraph
