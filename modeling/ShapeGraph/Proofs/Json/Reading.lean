import ShapeGraph.Proofs.Json.Numerals

/-!
# Compact texts are read back

A compact text is read back as the tree that it was written from, in front of everything that can
follow a value. The loops of the reader are followed once, for any items and any members, so
trees and typed structures share what is known about them.

* `Takes` — a reader takes a text and stops at its end
* `stringBody_escaped`, `string_quote` — string literals
* `takes_list`, `Folds`, `takes_object` — the two loops
* `takes_value` — a tree takes as many open brackets as it is deep
* `ofString_compact` — a whole text
-/

namespace ShapeGraph.Json

variable {α σ : Type}

/-- A reader takes a text off the front of a longer one. -/
def Takes (read : Text → Except Problem (α × Text)) (w : String) (a : α) : Prop :=
  ∀ rest, Follows rest → read (Utf8.ofString w ++ rest) = .ok (a, rest)

/-! ## Strings -/

theorem hexValue?_control {n : Nat} (h : n < 32) :
    hexValue? [some '0', some '0', some (hexChar (n / 16)), some (hexChar (n % 16))] = some n := by
  interval_cases n <;> rfl

/-- A numbered escape of a character below the surrogates. -/
theorem numberedEscape_of_hex {a b c d : Option Char} {n : Nat}
    (h : hexValue? [a, b, c, d] = some n) (hn : n < 0xD800) (t : Text) :
    numberedEscape (a :: b :: c :: d :: t) = .ok (Char.ofNat n, t) := by
  have hquad : hexQuad (a :: b :: c :: d :: t) = .ok (n, t) := by
    rw [hexQuad, show (a :: b :: c :: d :: t).take 4 = [a, b, c, d] from rfl, h]
    rfl
  have hlow : ¬ (0xDC00 ≤ n ∧ n < 0xE000) := by omega
  rw [numberedEscape, hquad]
  show (if 0xDC00 ≤ n ∧ n < 0xE000 then _ else _) = _
  rw [if_neg hlow, if_pos (.inl hn)]
  rfl

/-- The escape of a control character. -/
theorem escape_controlEscape {n : Nat} (h : n < 32) (t : Text) :
    ∃ cs, controlEscape n = '\\' :: cs ∧ escape (cs.map some ++ t) = .ok (Char.ofNat n, t) := by
  unfold controlEscape
  split
  · exact ⟨_, rfl, rfl⟩
  · exact ⟨_, rfl, rfl⟩
  · exact ⟨_, rfl, rfl⟩
  · exact ⟨_, rfl, rfl⟩
  · exact ⟨_, rfl, rfl⟩
  · exact ⟨_, rfl, numberedEscape_of_hex (hexValue?_control h) (by omega) t⟩

/-- One character of a literal is read back, however it was written. -/
theorem stringBody_escaped (fuel : Nat) (seen : List (Option Char)) (c : Char) (t : Text) :
    stringBody (fuel + 1) seen ((escaped c).map some ++ t) =
      stringBody fuel (some c :: seen) t := by
  unfold escaped
  split_ifs with hquote hslash hcontrol
  · subst hquote
    rfl
  · subst hslash
    rfl
  · obtain ⟨cs, hcs, hescape⟩ := escape_controlEscape hcontrol t
    rw [Char.ofNat_toNat] at hescape
    rw [hcs, List.map_cons, List.cons_append, stringBody, if_neg (by decide), if_pos rfl, hescape]
  · rw [List.map_cons, List.map_nil, List.singleton_append, stringBody, if_neg hquote,
      if_neg hslash, if_neg hcontrol]

theorem stringBody_flatMap {cs : List Char} {fuel : Nat} (hfuel : cs.length < fuel)
    (before : List Char) (rest : Text) :
    stringBody fuel (before.map some).reverse
      ((cs.flatMap escaped).map some ++ some '"' :: rest) =
        .ok (String.ofList (before ++ cs), rest) := by
  induction cs generalizing fuel before with
  | nil =>
    obtain ⟨fuel, rfl⟩ : ∃ k, fuel = k + 1 := ⟨fuel - 1, by omega⟩
    rw [List.flatMap_nil, List.map_nil, List.nil_append, stringBody, if_pos rfl, if_pos (by simp)]
    simp [List.filterMap_reverse, List.filterMap_map]
  | cons c cs ih =>
    obtain ⟨fuel, rfl⟩ : ∃ k, fuel = k + 1 := ⟨fuel - 1, by omega⟩
    rw [List.flatMap_cons, List.map_append, List.append_assoc, stringBody_escaped]
    have hseen : some c :: (before.map some).reverse = ((before ++ [c]).map some).reverse := by simp
    rw [hseen, ih (Nat.lt_of_succ_lt_succ hfuel), List.append_assoc, List.singleton_append]

/-- No character is written as nothing. -/
theorem length_le_flatMap_escaped (cs : List Char) : cs.length ≤ (cs.flatMap escaped).length := by
  induction cs with
  | nil => exact Nat.le_refl _
  | cons c cs ih =>
    have hpos : 0 < (escaped c).length := by
      unfold escaped
      split_ifs with _ _ hcontrol
      · decide
      · decide
      · obtain ⟨cs, hcs, -⟩ := escape_controlEscape hcontrol []
        rw [hcs]
        exact Nat.succ_pos _
      · exact Nat.one_pos
    rw [List.flatMap_cons, List.length_append, List.length_cons]
    omega

/-- **A string literal is read back behind its opening quote.** -/
theorem string_quote (s : String) :
    ∃ t, Utf8.ofString (quote s) = some '"' :: t ∧ ∀ rest, string (t ++ rest) = .ok (s, rest) := by
  refine ⟨(s.toList.flatMap escaped).map some ++ [some '"'], ?_, fun rest => ?_⟩
  · rw [Utf8.ofString, quote, String.toList_ofList]
    simp
  · have hlen := length_le_flatMap_escaped s.toList
    rw [List.append_assoc, List.singleton_append, string]
    refine (stringBody_flatMap ?_ [] rest).trans ?_
    · rw [List.length_append, List.length_map]
      omega
    · rw [List.nil_append, String.ofList_toList]

/-! ## The first character -/

/-- A character with which a value can start. -/
def isFirst (c : Char) : Bool :=
  !isBlank c && c != ',' && c != ':' && c != ']' && c != '\x7d'

/-- A text that starts as a value does. -/
def Opens (w : String) : Prop := ∃ c t, Utf8.ofString w = some c :: t ∧ isFirst c = true

theorem skipBlank_of_not {c : Char} (h : isBlank c = false) (t : Text) :
    skipBlank (some c :: t) = some c :: t := by
  rw [skipBlank, h]
  rfl

theorem Opens.skipBlank {w : String} (h : Opens w) (rest : Text) :
    ∃ c t, Json.skipBlank (Utf8.ofString w ++ rest) = some c :: t ∧
      Utf8.ofString w ++ rest = some c :: t ∧ c ≠ ',' ∧ c ≠ ']' ∧ c ≠ '\x7d' := by
  obtain ⟨c, t, hw, hc⟩ := h
  simp only [isFirst, Bool.and_eq_true, Bool.not_eq_true', bne_iff_ne, ne_eq] at hc
  obtain ⟨⟨⟨⟨hblank, hcomma⟩, -⟩, hbracket⟩, hbrace⟩ := hc
  rw [hw, List.cons_append]
  exact ⟨c, t ++ rest, skipBlank_of_not hblank _, rfl, hcomma, hbracket, hbrace⟩

/-! ## Lists -/

/-- What stands behind a value inside a list or an object. -/
theorem follows_flatMap {β : Type} (ws : List β) (f : β → Text) {rest : Text} (h : Follows rest) :
    Follows ((ws.flatMap fun w => some ',' :: f w) ++ rest) := by
  cases ws with
  | nil => exact h
  | cons w ws => exact .comma _

section

variable {item : Text → Except Problem (α × Text)} {w : String} {a : α} {fuel i : Nat}

theorem items_close (rest : Text) :
    items item (fuel + 1) i (some ']' :: rest) = .ok ([], rest) := by
  rw [items]
  rfl

/-- One item and the items behind it. -/
def itemThen (item : Text → Except Problem (α × Text)) (fuel i : Nat) (t : Text) :
    Except Problem (List α × Text) := do
  let (a, t) ← located (.index i) (item t)
  let (as, t) ← items item fuel (i + 1) t
  return (a :: as, t)

/-- The first item of a list. -/
theorem items_first (hw : Opens w) (rest : Text) :
    items item (fuel + 1) 0 (Utf8.ofString w ++ rest) =
      itemThen item fuel 0 (Utf8.ofString w ++ rest) := by
  obtain ⟨c, t, hskip, htext, -, hbracket, -⟩ := hw.skipBlank rest
  rw [items, hskip]
  split
  · next he => cases he
  · next he =>
    cases he
    exact absurd rfl hbracket
  · next he =>
    cases he
    dsimp only
    rw [if_pos rfl, ← htext]
    rfl

/-- An item behind a comma. -/
theorem items_next (hi : i ≠ 0) (hw : Opens w) (rest : Text) :
    items item (fuel + 1) i (some ',' :: (Utf8.ofString w ++ rest)) =
      itemThen item fuel i (Utf8.ofString w ++ rest) := by
  obtain ⟨c, t, hskip, htext, -, hbracket, -⟩ := hw.skipBlank rest
  rw [items, skipBlank_of_not rfl]
  split
  · next he => cases he
  · next he => cases he
  · next he =>
    cases he
    dsimp only
    rw [if_neg hi, if_pos rfl, hskip]
    split
    · next he => cases he
    · next he =>
      cases he
      exact absurd rfl hbracket
    · rw [← htext]
      rfl

theorem itemThen_takes (h : Takes item w a) {rest : Text} (hrest : Follows rest) :
    itemThen item fuel i (Utf8.ofString w ++ rest) =
      (items item fuel (i + 1) rest).map fun e => (a :: e.1, e.2) := by
  rw [itemThen, h rest hrest]
  rfl

/-- A run of items behind the first one. -/
theorem items_run {ws : List String} {as : List α}
    (h : List.Forall₂ (fun w a => Opens w ∧ Takes item w a) ws as) (hi : i ≠ 0) {rest : Text}
    (hrest : Follows rest) :
    items item (fuel + ws.length) i
      ((ws.flatMap fun w => some ',' :: Utf8.ofString w) ++ rest) =
        (items item fuel (i + ws.length) rest).map fun e => (as ++ e.1, e.2) := by
  induction h generalizing i with
  | nil =>
    rw [List.length_nil, Nat.add_zero, Nat.add_zero]
    cases hitems : items item fuel i rest with
    | error p => exact hitems
    | ok e => exact hitems
  | @cons w a ws as h _ ih =>
    rw [List.flatMap_cons, List.append_assoc, List.cons_append, List.length_cons, ← Nat.add_assoc,
      items_next hi h.1, itemThen_takes h.2 (follows_flatMap ws Utf8.ofString hrest),
      ih (Nat.succ_ne_zero i), Nat.add_right_comm i 1, Nat.add_assoc i]
    cases items item fuel (i + (ws.length + 1)) rest <;> rfl

end

/-- Texts with a separator in front of all but the first. -/
theorem toList_intercalate_cons (sep w : String) (ws : List String) :
    (sep.intercalate (w :: ws)).toList =
      w.toList ++ ws.flatMap fun w => sep.toList ++ w.toList := by
  induction ws generalizing w with
  | nil => rw [String.intercalate_singleton, List.flatMap_nil, List.append_nil]
  | cons v ws ih =>
    rw [String.intercalate_cons_cons, String.toList_append, String.toList_append, ih,
      List.flatMap_cons, List.append_assoc, List.append_assoc]

theorem ofString_intercalate_cons (sep w : String) (ws : List String) :
    Utf8.ofString (sep.intercalate (w :: ws)) =
      Utf8.ofString w ++ ws.flatMap fun w => Utf8.ofString sep ++ Utf8.ofString w := by
  simp only [Utf8.ofString, toList_intercalate_cons, List.map_append, List.map_flatMap]

theorem ofString_commas_cons (w : String) (ws : List String) :
    Utf8.ofString (",".intercalate (w :: ws)) =
      Utf8.ofString w ++ ws.flatMap fun w => some ',' :: Utf8.ofString w := by
  have hcomma : Utf8.ofString "," = [some ','] := rfl
  rw [ofString_intercalate_cons, hcomma]
  simp only [List.singleton_append]

/-- The length of a text is enough fuel for all that it joins, and for its end. -/
theorem exists_fuel (w : String) (ws : List String) (c : Option Char) (rest : Text) :
    ∃ fuel, (Utf8.ofString w ++ ((ws.flatMap fun w => some ',' :: Utf8.ofString w)
      ++ c :: rest)).length + 1 = fuel + 1 + ws.length + 1 := by
  have hlen : ws.length ≤ (ws.flatMap fun w => some ',' :: Utf8.ofString w).length := by
    induction ws with
    | nil => exact Nat.le_refl _
    | cons w ws ih =>
      rw [List.flatMap_cons, List.length_append, List.length_cons, List.length_cons]
      omega
  refine ⟨(Utf8.ofString w).length + (ws.flatMap fun w => some ',' :: Utf8.ofString w).length
    + rest.length - ws.length, ?_⟩
  rw [List.length_append, List.length_append, List.length_cons]
  omega

/-- **A list is read back behind its opening bracket.** -/
theorem list_intercalate {item : Text → Except Problem (α × Text)} {ws : List String}
    {as : List α} (h : List.Forall₂ (fun w a => Opens w ∧ Takes item w a) ws as) (rest : Text) :
    list item (Utf8.ofString (",".intercalate ws) ++ some ']' :: rest) = .ok (as, rest) := by
  cases h with
  | nil => exact items_close rest
  | @cons w a ws as h hs =>
    have hends := follows_flatMap ws Utf8.ofString (Follows.bracket rest)
    rw [ofString_commas_cons, List.append_assoc]
    obtain ⟨fuel, hfuel⟩ := exists_fuel w ws (some ']') rest
    rw [list, hfuel, items_first h.1, itemThen_takes h.2 hends,
      items_run hs (Nat.succ_ne_zero 0) (.bracket rest), items_close]
    simp only [Except.map, List.append_nil]

/-! ## Objects -/

/-- The text of a member: its key and the text of its content. -/
def memberText (m : String × String) : String := quote m.1 ++ ":" ++ m.2

/-- The loop over members goes from one state to another, one member after the other. -/
inductive Folds (step : σ → String → Except Reason (Text → Except Problem (σ × Text))) :
    σ → List (String × String) → σ → Prop
  | nil (s) : Folds step s [] s
  | cons {s s' s'' : σ} {k w ms read} (hstep : step s k = .ok read) (h : Takes read w s')
      (hs : Folds step s' ms s'') : Folds step s ((k, w) :: ms) s''

section

variable {step : σ → String → Except Reason (Text → Except Problem (σ × Text))}
  {s s' : σ} {k w : String} {read : Text → Except Problem (σ × Text)} {fuel : Nat}

theorem ofString_memberText (k w : String) :
    ∃ t, (∀ rest, Utf8.ofString (memberText (k, w)) ++ rest = some '"' :: (t ++ rest)) ∧
      ∀ rest, string (t ++ rest) = .ok (k, some ':' :: (Utf8.ofString w ++ rest)) := by
  obtain ⟨t, hquote, hstring⟩ := string_quote k
  refine ⟨t ++ some ':' :: Utf8.ofString w, fun rest => ?_, fun rest => ?_⟩
  · rw [memberText, Utf8.ofString_append, Utf8.ofString_append, hquote]
    simp [Utf8.ofString]
  · rw [List.append_assoc, hstring, List.cons_append]

theorem members_close (isFirst : Bool) (rest : Text) :
    members step (fuel + 1) isFirst s (some '\x7d' :: rest) = .ok (s, rest) := by
  rw [members]
  rfl

/-- The content of a member and the members behind it. -/
def memberThen (step : σ → String → Except Reason (Text → Except Problem (σ × Text)))
    (read : Text → Except Problem (σ × Text)) (fuel : Nat) (k : String) (t : Text) :
    Except Problem (σ × Text) := do
  let (s, t) ← located (.key k) (read t)
  members step fuel false s t

/-- The first member of an object. -/
theorem members_first (hstep : step s k = .ok read) (rest : Text) :
    members step (fuel + 1) true s (Utf8.ofString (memberText (k, w)) ++ rest) =
      memberThen step read fuel k (Utf8.ofString w ++ rest) := by
  obtain ⟨t, htext, hstring⟩ := ofString_memberText k w
  rw [htext, members, skipBlank_of_not rfl]
  simp only [if_true, hstring, hstep, Except.mapError, located, bind, Except.bind,
    skipBlank_of_not (c := ':') rfl, memberThen]

/-- A member behind a comma. -/
theorem members_next (hstep : step s k = .ok read) (rest : Text) :
    members step (fuel + 1) false s (some ',' :: (Utf8.ofString (memberText (k, w)) ++ rest)) =
      memberThen step read fuel k (Utf8.ofString w ++ rest) := by
  obtain ⟨t, htext, hstring⟩ := ofString_memberText k w
  rw [htext, members, skipBlank_of_not rfl]
  simp only [Bool.false_eq_true, if_false, hstring, hstep, Except.mapError, located, bind,
    Except.bind, skipBlank_of_not (c := '"') rfl, skipBlank_of_not (c := ':') rfl, memberThen]

theorem memberThen_takes (h : Takes read w s') {rest : Text} (hrest : Follows rest) :
    memberThen step read fuel k (Utf8.ofString w ++ rest) = members step fuel false s' rest := by
  rw [memberThen, h rest hrest]
  rfl

/-- A run of members behind the first one. -/
theorem members_run {ms : List (String × String)} (h : Folds step s ms s') {rest : Text}
    (hrest : Follows rest) :
    members step (fuel + ms.length) false s
      ((ms.flatMap fun m => some ',' :: Utf8.ofString (memberText m)) ++ rest) =
        members step fuel false s' rest := by
  induction h with
  | nil => rfl
  | @cons _ _ _ k w ms read hstep h _ ih =>
    have hends := follows_flatMap ms (fun m => Utf8.ofString (memberText m)) hrest
    rw [List.flatMap_cons, List.append_assoc, List.cons_append, List.length_cons, ← Nat.add_assoc,
      members_next hstep, memberThen_takes h hends, ih]

end

/-- **An object is read back behind its opening brace.** -/
theorem object_intercalate
    {step : σ → String → Except Reason (Text → Except Problem (σ × Text))} {s s' : σ}
    {ms : List (String × String)} (h : Folds step s ms s') (rest : Text) :
    object step s (Utf8.ofString (",".intercalate (ms.map memberText)) ++ some '\x7d' :: rest) =
      .ok (s', rest) := by
  cases h with
  | nil => exact members_close true rest
  | @cons _ s₁ _ k w ms read hstep h hs =>
    have hends := follows_flatMap ms (fun m => Utf8.ofString (memberText m)) (Follows.brace rest)
    obtain ⟨fuel, hfuel⟩ := exists_fuel (memberText (k, w)) (ms.map memberText) (some '\x7d') rest
    rw [List.map_cons, ofString_commas_cons, List.append_assoc, object, hfuel, List.length_map,
      List.flatMap_map, members_first hstep, memberThen_takes h hends, members_run hs (.brace rest),
      members_close]

/-! ## Scalars -/

theorem isFirst_of_digit {c : Char} (h : c = '-' ∨ c.isDigit = true) : isFirst c = true := by
  rcases h with rfl | h
  · decide
  · have hne : ∀ d : Char, d.isDigit = false → c ≠ d := by
      rintro d hd rfl
      rw [hd] at h
      cases h
    simp [isFirst, isBlank, hne ' ' rfl, hne '\n' rfl, hne '\t' rfl, hne '\r' rfl, hne ',' rfl,
      hne ':' rfl, hne ']' rfl, hne '\x7d' rfl]

theorem scalar_digit {c : Char} (h : c = '-' ∨ c.isDigit = true) (t : Text) :
    scalar (some c) t = do
      let (l, t) ← Numeral.read (some c :: t)
      let j ← l.value
      return (j, t) := by
  unfold scalar
  split
  · next hc =>
    cases hc
    exact absurd h (by decide)
  · next hc =>
    cases hc
    exact absurd h (by decide)
  · next hc =>
    cases hc
    exact absurd h (by decide)
  · next hc =>
    cases hc
    exact absurd h (by decide)
  · next hc =>
    cases hc
    rw [if_pos h]
  · next hc => cases hc

/-- A value that is neither a list nor an object. -/
theorem value_scalar {c : Char} (hfirst : isFirst c = true) (hbracket : c ≠ '[')
    (hbrace : c ≠ '\x7b') (d : Nat) (t : Text) :
    value d (some c :: t) = (scalar (some c) t).mapError Problem.ofFault := by
  have hblank : isBlank c = false := by
    simp only [isFirst, Bool.and_eq_true, Bool.not_eq_true'] at hfirst
    exact hfirst.1.1.1.1
  rw [value, skipBlank_of_not hblank]
  split
  · next he => cases he
  · next he =>
    cases he
    exact absurd rfl hbracket
  · next he =>
    cases he
    exact absurd rfl hbrace
  · next he =>
    cases he
    rfl

/-! ## Trees -/

theorem ofString_compact_arr (items : List Json) :
    Utf8.ofString (compact (.arr items)) =
      some '[' :: (Utf8.ofString (",".intercalate (items.map compact)) ++ [some ']']) := by
  rw [compact, compactItems_eq, Utf8.ofString_append, Utf8.ofString_append]
  rfl

theorem ofString_compact_obj (members : List (String × Json)) :
    Utf8.ofString (compact (.obj members)) =
      some '\x7b' :: (Utf8.ofString (",".intercalate
        ((members.map fun m => (m.1, m.2.compact)).map memberText)) ++ [some '\x7d']) := by
  rw [compact, compactMembers_eq, Utf8.ofString_append, Utf8.ofString_append, List.map_map]
  rfl

theorem value_list (d : Nat) (t : Text) :
    value (d + 1) (some '[' :: t) = (list (value d) t).map fun e => (.arr e.1, e.2) := by
  rw [value, skipBlank_of_not rfl]
  rfl

/-- One member of a tree, put in front of those before it. -/
def treeMember (d : Nat) (before : List (String × Json)) (key : String) :
    Except Reason (Text → Except Problem (List (String × Json) × Text)) :=
  .ok fun t => (value d t).map fun e => ((key, e.1) :: before, e.2)

theorem value_object (d : Nat) (t : Text) :
    value (d + 1) (some '\x7b' :: t) =
      (object (treeMember d) [] t).map fun e => (.obj e.1.reverse, e.2) := by
  rw [value, skipBlank_of_not rfl]
  rfl

theorem folds_treeMember {members : List (String × Json)} {d : Nat}
    (h : ∀ m ∈ members, Takes (value d) m.2.compact m.2) (before : List (String × Json)) :
    Folds (treeMember d) before (members.map fun m => (m.1, m.2.compact))
      (members.reverse ++ before) := by
  induction members generalizing before with
  | nil => exact .nil before
  | cons m members ih =>
    rw [List.forall_mem_cons] at h
    have htail := ih h.2 (m :: before)
    rw [List.reverse_cons, List.append_assoc, List.singleton_append]
    refine .cons rfl (fun rest hrest => ?_) htail
    rw [h.1 rest hrest]
    rfl

theorem ReadsBack.head {j : Json} (h : ReadsBack j) :
    ∃ c t, Utf8.ofString j.compact = some c :: t ∧ (c = '-' ∨ c.isDigit = true) := by
  obtain ⟨l, hread, -⟩ := h
  exact Numeral.head_of_read hread

/-- The text of a tree starts as a value does. -/
theorem opens_compact {j : Json} (h : j.IsExact) : Opens j.compact := by
  cases h with
  | number hj h =>
    obtain ⟨c, t, ht, hc⟩ := h.head
    exact ⟨c, t, ht, isFirst_of_digit hc⟩
  | null => exact ⟨'n', _, rfl, rfl⟩
  | bool b =>
    cases b with
    | false => exact ⟨'f', _, rfl, rfl⟩
    | true => exact ⟨'t', _, rfl, rfl⟩
  | str s =>
    obtain ⟨t, ht, -⟩ := string_quote s
    exact ⟨'"', t, ht, rfl⟩
  | arr => exact ⟨'[', _, ofString_compact_arr _, rfl⟩
  | obj => exact ⟨'\x7b', _, ofString_compact_obj _, rfl⟩

theorem ReadsBack.takes_value {j : Json} (h : ReadsBack j) (d : Nat) :
    Takes (value d) j.compact j := by
  intro rest hrest
  obtain ⟨c, t, ht, hc⟩ := h.head
  obtain ⟨l, hread, hvalue⟩ := h
  have hread := Numeral.read_append hrest hread
  have hbracket : c ≠ '[' := by
    rintro rfl
    simp at hc
  have hbrace : c ≠ '\x7b' := by
    rintro rfl
    simp at hc
  rw [ht, List.cons_append] at hread ⊢
  rw [value_scalar (isFirst_of_digit hc) hbracket hbrace, scalar_digit hc, hread]
  show ((l.value >>= fun j => pure (j, rest)).mapError Problem.ofFault) = _
  rw [hvalue]
  rfl

/-- **A tree is read back from its compact text**, when as many brackets may be open as it is
deep. -/
theorem takes_value {j : Json} (hj : j.IsExact) {d : Nat} (hd : j.depth ≤ d) :
    Takes (value d) j.compact j := by
  induction hj generalizing d with
  | number _ h => exact h.takes_value d
  | null =>
    intro rest _
    exact value_scalar rfl (by decide) (by decide) d _
  | bool b =>
    intro rest _
    cases b with
    | false => exact value_scalar rfl (by decide) (by decide) d _
    | true => exact value_scalar rfl (by decide) (by decide) d _
  | str s =>
    intro rest _
    obtain ⟨t, ht, hstring⟩ := string_quote s
    rw [compact, ht, List.cons_append, value_scalar rfl (by decide) (by decide), scalar, hstring]
    rfl
  | @arr items hitems ih =>
    intro rest _
    obtain ⟨d, rfl⟩ : ∃ k, d = k + 1 := ⟨d - 1, by rw [depth] at hd; omega⟩
    have hlist : List.Forall₂ (fun w a => Opens w ∧ Takes (value d) w a)
        (items.map compact) items := by
      rw [List.forall₂_map_left_iff, List.forall₂_same]
      exact fun j hj => ⟨opens_compact (hitems j hj), ih j hj (depth_arr_le_iff.mp hd j hj)⟩
    rw [ofString_compact_arr, List.cons_append, List.append_assoc, List.singleton_append,
      value_list, list_intercalate hlist]
    rfl
  | @obj members hmembers ih =>
    intro rest _
    obtain ⟨d, rfl⟩ : ∃ k, d = k + 1 := ⟨d - 1, by rw [depth] at hd; omega⟩
    have hfolds := folds_treeMember (d := d)
      (fun m hm => ih m hm (depth_obj_le_iff.mp hd m hm)) []
    rw [ofString_compact_obj, List.cons_append, List.append_assoc, List.singleton_append,
      value_object, object_intercalate hfolds, List.append_nil]
    show Except.ok (obj members.reverse.reverse, rest) = _
    rw [List.reverse_reverse]

/-- **A whole text is read back**, up to repeated keys. -/
theorem ofString_compact {j : Json} (hj : j.IsExact) (hd : j.depth ≤ depthLimit) :
    ofString j.compact = .ok j.tidy := by
  have hvalue := takes_value hj hd [] .nothing
  rw [List.append_nil] at hvalue
  rw [ofString, ofText, hvalue]
  rfl

end ShapeGraph.Json
