import ShapeGraph.Codec
import ShapeGraph.Proofs.Rearranging

/-!
# Fingerprints do not see order

What a shape lists without meaning an order is sorted before it is hashed. A sort makes one list of
all orders of a list, unless different elements share a place; the only literals that do are the
two zeros, which have one text, and the bit patterns that are not a number, which have one too.

* `sortBy_eq_of_perm` — elements that have places of their own are sorted in one way
* `Literal.map_sortBy_eq_of_perm` — so are literals, up to what cannot be told from their text
* `Shape.Rearranged.fingerprint_eq` — a rearranged shape has the fingerprint of the shape
* `Codec.fingerprint_rearranged` — so has a codec in a graph whose definitions are rearranged
-/

namespace ShapeGraph

/-! ## Sorting -/

theorem sortBy_eq_of_perm {α : Type} {le : α → α → Bool}
    (total : ∀ a b, le a b = true ∨ le b a = true)
    (trans : ∀ a b c, le a b = true → le b c = true → le a c = true) {as bs : List α}
    (h : as.Perm bs)
    (antisymm : ∀ a ∈ as, ∀ b ∈ as, le a b = true → le b a = true → a = b) :
    sortBy le as = sortBy le bs := by
  have hperm : (sortBy le as).Perm (sortBy le bs) :=
    ((sortBy_perm le as).trans h).trans (sortBy_perm le bs).symm
  refine hperm.eq_of_pairwise (fun a b ha hb => antisymm a ?_ b ?_)
    (sortBy_pairwise total trans as) (sortBy_pairwise total trans bs)
  · exact (sortBy_perm le as).mem_iff.mp ha
  · exact h.mem_iff.mpr ((sortBy_perm le bs).mem_iff.mp hb)

theorem stringLe_antisymm {a b : String} (h : stringLe a b = true) (h' : stringLe b a = true) :
    a = b :=
  String.le_antisymm (of_decide_eq_true h) (of_decide_eq_true h')

/-- Entries under distinct names are sorted in one way. -/
theorem sortByName_eq_of_perm {α : Type} {es fs : Entries α} (hd : es.keys.Nodup)
    (h : es.Perm fs) : sortByName es = sortByName fs := by
  refine sortBy_eq_of_perm (fun a b : String × α => stringLe_total a.1 b.1)
    (fun _ _ _ => stringLe_trans) h ?_
  intro a ha b hb hab hba
  have hname : a.1 = b.1 := stringLe_antisymm hab hba
  have hsame : some a.2 = some b.2 := by
    rw [← Entries.get?_of_mem hd ha, ← Entries.get?_of_mem hd hb, hname]
  exact Prod.ext hname (Option.some.inj hsame)

/-! ## Entries by name -/

/-- Entries that have the same distinct names and the same content under each are the same up to
their order. -/
theorem Entries.mapValues_perm {α β γ : Type} {f : α → γ} {f' : β → γ} {es : Entries α}
    {fs : Entries β} (hd : es.keys.Nodup) (hkeys : es.keys.Perm fs.keys)
    (h : ∀ {k a b}, (k, a) ∈ es → (k, b) ∈ fs → f' b = f a) :
    (es.mapValues f).Perm (fs.mapValues f') := by
  have hes : (es.mapValues f).Nodup := by
    rw [← keys_mapValues f] at hd
    exact List.Nodup.of_map Prod.fst hd
  have hfs : (fs.mapValues f').Nodup := by
    rw [hkeys.nodup_iff, ← keys_mapValues f'] at hd
    exact List.Nodup.of_map Prod.fst hd
  rw [List.perm_ext_iff_of_nodup hes hfs]
  intro x
  constructor
  · intro hx
    obtain ⟨⟨k, a⟩, ha, rfl⟩ := List.mem_map.mp hx
    obtain ⟨⟨_, b⟩, hb, rfl⟩ := List.mem_map.mp (hkeys.mem_iff.mp (List.mem_map_of_mem ha))
    exact List.mem_map.mpr ⟨_, hb, congrArg _ (h ha hb)⟩
  · intro hx
    obtain ⟨⟨k, b⟩, hb, rfl⟩ := List.mem_map.mp hx
    obtain ⟨⟨_, a⟩, ha, rfl⟩ := List.mem_map.mp (hkeys.mem_iff.mpr (List.mem_map_of_mem hb))
    exact List.mem_map.mpr ⟨_, ha, congrArg _ (h ha hb).symm⟩

/-! ## Literals -/

namespace Number

/-- The number that stands for all numbers of its place in the order: both zeros are the positive
one, and there is one value that is not a number. -/
def normal (x : Number) : Number :=
  if x.isNaN then nan else if x.isZero then zero else x

theorem ordinal_of_isZero {x : Number} (h : x.isZero = true) : x.ordinal = 0 := beq_iff_eq.mp h

theorem isNaN_nan : nan.isNaN = true := decide_eq_true (Nat.lt_succ_self _)

theorem key_normal (x : Number) : x.normal.key = x.key := by
  rw [normal]
  split
  · next h => rw [key, key, if_pos h, if_pos isNaN_nan]
  · split
    · next h hzero =>
      rw [show zero.key = 0 from rfl, key, if_neg h, ordinal_of_isZero hzero]
      split <;> rfl
    · rfl

theorem plain_normal (x : Number) : x.normal.plain = x.plain := by
  rw [normal]
  split
  · next h => rw [plain, plain, if_pos h, if_pos isNaN_nan]
  · split
    · next h hzero =>
      have hinfinite : x.isInfinite = false := by
        rw [isInfinite, ordinal_of_isZero hzero]
        rfl
      rw [plain, plain, if_neg h, hinfinite, hzero]
      rfl
    · rfl

/-- A number that is not a number has a place of its own. -/
theorem isNaN_iff_key {x : Number} : x.isNaN = true ↔ x.key = infinityOrdinal + 1 := by
  rw [key]
  split
  · next h => exact iff_of_true h rfl
  · next h =>
    refine iff_of_false h fun hkey => ?_
    simp only [isNaN, decide_eq_true_eq] at h
    split at hkey <;> omega

theorem isZero_iff_key {x : Number} (h : x.isNaN = false) : x.isZero = true ↔ x.key = 0 := by
  rw [key, if_neg (Bool.eq_false_iff.mp h), isZero, beq_iff_eq]
  split <;> omega

/-- Numbers that share a place are one number when they are normal. -/
theorem normal_eq_of_key_eq {x y : Number} (h : x.key = y.key) : x.normal = y.normal := by
  have hnan : x.isNaN = y.isNaN := by
    rw [Bool.eq_iff_iff, isNaN_iff_key, isNaN_iff_key, h]
  rw [normal, normal, hnan]
  split
  · rfl
  · next hy =>
    have hy : y.isNaN = false := Bool.eq_false_iff.mpr hy
    have hzero : x.isZero = y.isZero := by
      rw [Bool.eq_iff_iff, isZero_iff_key (hnan.trans hy), isZero_iff_key hy, h]
    rw [hzero]
    split
    · rfl
    · next hz =>
      rw [key, key, hnan, hy] at h
      obtain ⟨negative, ordinal⟩ := x
      obtain ⟨negative', ordinal'⟩ := y
      have hpos : ordinal' ≠ 0 := fun h => hz (beq_iff_eq.mpr h)
      simp only [Bool.false_eq_true, if_false] at h
      rw [Number.mk.injEq]
      cases negative <;> cases negative' <;> simp at h ⊢ <;> omega

end Number

namespace Literal

/-- The literal with its number made normal. -/
def normal : Literal → Literal
  | .number x => .number x.normal
  | c => c

theorem render_normal (c : Literal) : c.normal.render = c.render := by
  cases c with
  | number x => exact x.plain_normal
  | _ => rfl

theorem le_iff {a b : Literal} : le a b = true ↔ a.rank < b.rank ∨
    a.rank = b.rank ∧ (a.key < b.key ∨ a.key = b.key ∧ stringLe a.label b.label = true) := by
  simp only [le, stringLe, Bool.or_eq_true, Bool.and_eq_true, decide_eq_true_eq, beq_iff_eq]

theorem le_total (a b : Literal) : le a b = true ∨ le b a = true := by
  rw [le_iff, le_iff]
  rcases stringLe_total a.label b.label with h | h
  · simp only [h, and_true]
    omega
  · simp only [h, and_true]
    omega

theorem le_trans {a b c : Literal} (h : le a b = true) (h' : le b c = true) : le a c = true := by
  rw [le_iff] at *
  rcases h with h | ⟨h, hkey⟩ <;> rcases h' with h' | ⟨h', hkey'⟩
  · exact .inl (h.trans h')
  · exact .inl (h' ▸ h)
  · exact .inl (h ▸ h')
  · refine .inr ⟨h.trans h', ?_⟩
    rcases hkey with hkey | ⟨hkey, hlabel⟩ <;> rcases hkey' with hkey' | ⟨hkey', hlabel'⟩
    · exact .inl (hkey.trans hkey')
    · exact .inl (hkey' ▸ hkey)
    · exact .inl (hkey ▸ hkey')
    · exact .inr ⟨hkey.trans hkey', stringLe_trans hlabel hlabel'⟩

theorem rank_normal (c : Literal) : c.normal.rank = c.rank := by
  cases c <;> rfl

theorem key_normal (c : Literal) : c.normal.key = c.key := by
  cases c with
  | number x => exact x.key_normal
  | _ => rfl

theorem label_normal (c : Literal) : c.normal.label = c.label := by
  cases c <;> rfl

theorem le_normal (a b : Literal) : le a.normal b.normal = le a b := by
  simp only [le, rank_normal, key_normal, label_normal]

/-- Literals that share a place are one literal when they are normal. -/
theorem normal_eq_of_le {a b : Literal} (h : le a b = true) (h' : le b a = true) :
    a.normal = b.normal := by
  rw [le_iff] at h h'
  have hrank : a.rank = b.rank := by omega
  have hkey : a.key = b.key := by omega
  have hlabel : a.label = b.label := by
    rcases h with h | ⟨-, h | ⟨-, h⟩⟩
    · omega
    · omega
    · rcases h' with h' | ⟨-, h' | ⟨-, h'⟩⟩
      · omega
      · omega
      · exact stringLe_antisymm h h'
  cases a with
  | null =>
    cases b with
    | null => rfl
    | _ => cases hrank
  | bool x =>
    cases b with
    | bool y => cases x <;> cases y <;> first | rfl | cases hkey
    | _ => cases hrank
  | number x =>
    cases b with
    | number y => exact congrArg Literal.number (Number.normal_eq_of_key_eq hkey)
    | _ => cases hrank
  | string x =>
    cases b with
    | string y => exact congrArg Literal.string hlabel
    | _ => cases hrank

/-- **Literals are sorted in one way, up to what cannot be told from their text.** -/
theorem map_sortBy_eq_of_perm {cs cs' : List Literal} (h : cs.Perm cs') :
    (sortBy le cs).map render = (sortBy le cs').map render := by
  have hnormal : ∀ ds : List Literal, (sortBy le ds).map render =
      (sortBy le (ds.map normal)).map render := by
    intro ds
    rw [sortBy_map le_normal, List.map_map]
    exact List.map_congr_left fun c _ => (render_normal c).symm
  rw [hnormal cs, hnormal cs', sortBy_eq_of_perm le_total (fun _ _ _ => le_trans) (h.map normal)]
  intro a ha b hb hab hba
  obtain ⟨c, -, rfl⟩ := List.mem_map.mp ha
  obtain ⟨d, -, rfl⟩ := List.mem_map.mp hb
  rw [le_normal] at hab hba
  exact normal_eq_of_le hab hba

end Literal

/-! ## Shapes -/

namespace Fingerprint

theorem ofFormats_eq_of_perm (k : Kind) {names names' : List String} (h : names.Perm names') :
    ofFormats k names = ofFormats k names' := by
  rw [ofFormats, ofFormats, sortBy_eq_of_perm stringLe_total (fun _ _ _ => stringLe_trans) h]
  exact fun a _ b _ => stringLe_antisymm

theorem combineNamed_eq_of_perm (seed : Int32) {es fs : Entries Int32} (hd : es.keys.Nodup)
    (h : es.Perm fs) : combineNamed seed es = combineNamed seed fs := by
  rw [combineNamed, combineNamed, sortByName_eq_of_perm hd h]

theorem sortBy_pairs_eq_of_perm {xs ys : List Int32} (h : xs.Perm ys) :
    sortBy (fun a b => decide (a ≤ b)) xs = sortBy (fun a b => decide (a ≤ b)) ys := by
  refine sortBy_eq_of_perm (fun a b => ?_) (fun a b c hab hbc => ?_) h fun a _ b _ hab hba => ?_
  · rw [decide_eq_true_iff, decide_eq_true_iff]
    exact Int32.le_total a b
  · exact decide_eq_true (Int32.le_trans (of_decide_eq_true hab) (of_decide_eq_true hbc))
  · exact Int32.le_antisymm (of_decide_eq_true hab) (of_decide_eq_true hba)

end Fingerprint

namespace Shape

open Fingerprint

variable (onRef : Nat → String → Int32)

theorem fingerprintAll_eq (shapes : List Shape) :
    fingerprintAll onRef shapes = shapes.map (fingerprint onRef) := by
  induction shapes with
  | nil => rfl
  | cons s shapes ih => rw [fingerprintAll, ih, List.map_cons]

theorem fingerprintNamed_eq (entries : Entries Shape) :
    fingerprintNamed onRef entries = entries.mapValues (fingerprint onRef) := by
  induction entries with
  | nil => rfl
  | cons e entries ih => rw [fingerprintNamed, ih]; rfl

theorem fingerprintPairs_eq (pairs : List (Shape × Shape)) :
    fingerprintPairs onRef pairs =
      pairs.map fun e => combine (fingerprint onRef e.1) (fingerprint onRef e.2) := by
  induction pairs with
  | nil => rfl
  | cons e pairs ih => rw [fingerprintPairs, ih, List.map_cons]

variable {onRef}

/-- **A rearranged shape has the fingerprint of the shape.** -/
theorem Rearranged.fingerprint_eq {s s' : Shape} (h : s.Rearranged List.Perm s')
    (hs : s.isTidy = true) : s'.fingerprint onRef = s.fingerprint onRef := by
  induction h with
  | plain => rfl
  | stringFormats h | numberFormats h => exact ofFormats_eq_of_perm _ h.symm
  | literals h =>
    have hrendered := Literal.map_sortBy_eq_of_perm h.symm
    have hhashed := congrArg (List.map ofString) hrendered
    rw [List.map_map, List.map_map] at hhashed
    exact congrArg (combineAll (ofKind .anyOfConsts)) hhashed
  | closed hlen h ih =>
    have hslots := map_eq_map_of_zip hlen fun hmem =>
      ih hmem (all_of_mem_parts hs (List.mem_append_left _ (List.of_mem_zip hmem).1))
    rw [fingerprint, fingerprint, fingerprintAll_eq, fingerprintAll_eq, hslots]
  | opened hlen h _ ih ihrest =>
    have hslots := map_eq_map_of_zip hlen fun hmem =>
      ih hmem (all_of_mem_parts hs (List.mem_append_left _ (List.of_mem_zip hmem).1))
    have hrest := ihrest (all_of_mem_parts hs (List.mem_append_right _ List.mem_cons_self))
    rw [fingerprint, fingerprint, fingerprintAll_eq, fingerprintAll_eq, hslots, hrest]
  | allOf hlen h ih | anyOf hlen h ih =>
    have hmembers := map_eq_map_of_zip hlen fun hmem =>
      ih hmem (all_of_mem_parts hs (List.of_mem_zip hmem).1)
    rw [fingerprint, fingerprint, fingerprintAll_eq, fingerprintAll_eq, hmembers]
  | array _ ih | optional _ ih =>
    rw [fingerprint, fingerprint, ih (all_of_mem_parts hs List.mem_cons_self)]
  | tagged _ _ hkeys h _ ih =>
    have hd : (Entries.keys _).Nodup := of_decide_eq_true (of_all hs)
    have hbranches := Entries.mapValues_perm hd hkeys fun he he' =>
      ih he he' (all_of_mem_parts hs (List.mem_append_right _ (List.mem_map_of_mem he)))
    rw [fingerprint, fingerprint, fingerprintNamed_eq, fingerprintNamed_eq,
      combineNamed_eq_of_perm _ ((Entries.keys_mapValues _ _).symm ▸ hd) hbranches]
  | @object properties _ signatures _ _ hkeys _ hmoves hlen _ _ ih ihkey ihvalue =>
    have hd := nodup_properties hs
    have hproperties := Entries.mapValues_perm hd hkeys fun he he' =>
      ih he he' (all_of_mem_parts hs (List.mem_append_left _ (List.mem_map_of_mem he)))
    have htidy : ∀ e ∈ signatures, ∀ t ∈ [e.1, e.2], t.isTidy = true := fun e he t ht =>
      all_of_mem_parts hs (List.mem_append_right _ (List.mem_flatMap.mpr ⟨e, he, ht⟩))
    have hsignatures := map_eq_map_of_zip hlen fun {e e'} hmem => by
      have he : e ∈ signatures := hmoves.mem_iff.mpr (List.of_mem_zip hmem).1
      have hkey := ihkey hmem (htidy e he e.1 List.mem_cons_self)
      have hvalue := ihvalue hmem (htidy e he e.2 (List.mem_cons_of_mem _ List.mem_cons_self))
      exact congrArg₂ combine hkey hvalue
    have hsorted := sortBy_pairs_eq_of_perm
      (hmoves.map fun e => combine (fingerprint onRef e.1) (fingerprint onRef e.2))
    rw [fingerprint, fingerprint, fingerprintNamed_eq, fingerprintNamed_eq,
      combineNamed_eq_of_perm _ ((Entries.keys_mapValues _ _).symm ▸ hd) hproperties,
      fingerprintPairs_eq, fingerprintPairs_eq, hsignatures, hsorted]

end Shape

/-! ## Graphs and codecs -/

namespace Graph

variable {g g' : Graph}

/-- Rearranged definitions have the fingerprints of the definitions, whatever is being hashed. -/
theorem Rearranged.fingerprintRef_eq (h : g.Rearranged List.Perm g') (hd : g.isTidy = true)
    (fuel : Nat) (stack : List Nat) :
    g'.fingerprintRef fuel stack = g.fingerprintRef fuel stack := by
  induction fuel generalizing stack with
  | zero => rfl
  | succ fuel ih =>
    funext place name
    rw [fingerprintRef, fingerprintRef]
    cases stack.findIdx? (· == place) with
    | some i => rfl
    | none =>
      have hrel := h.shape? place
      cases hs : g.shape? place with
      | none =>
        rw [hs] at hrel
        cases hs' : g'.shape? place with
        | none => rfl
        | some s' => rw [hs'] at hrel; cases hrel
      | some s =>
        rw [hs] at hrel
        cases hs' : g'.shape? place with
        | none => rw [hs'] at hrel; cases hrel
        | some s' =>
          obtain ⟨e, he, rfl⟩ := mem_of_shape? hs
          show s'.fingerprint _ = e.2.fingerprint _
          rw [ih, (h.shapes hs hs').fingerprint_eq (List.all_eq_true.mp hd e he)]

end Graph

namespace Codec

/-- A codec and the same codec with its definitions and its root rearranged. -/
structure Rearranged (moves : Moves) (c c' : Codec) : Prop where
  graph : c.graph.Rearranged moves c'.graph
  root : c.root.Rearranged moves c'.root

/-- **The fingerprint of a codec does not see in which order anything is listed**: properties,
signatures, branches, literals and formats, at any depth of the root and of every definition. -/
theorem fingerprint_rearranged {c c' : Codec} (hd : c.graph.isTidy = true)
    (hs : c.root.isTidy = true) (h : c.Rearranged List.Perm c') :
    c'.fingerprint = c.fingerprint := by
  rw [fingerprint, fingerprint, Graph.fingerprint, Graph.fingerprint, h.graph.size,
    h.graph.fingerprintRef_eq hd, h.root.fingerprint_eq hs]

end Codec

namespace Graph

/-- Entries and books of entries, which lead to each other. -/
def ledger : Graph :=
  ⟨[("Entry", .object [("amount", .numberFormats ["cents", "positive"]),
      ("mark", .literals [.number ⟨true, 0⟩, .null, .number .nan, .string "x", .number .zero]),
      ("next", .optional (.ref 1 "Book"))] []),
    ("Book", .tagged [] "kind" [("entry", .ref 0 "Entry"),
      ("other", .object [("kind", .any)] [(.any, .bigint), (.base .string, .date)])])]⟩

/-- The same with everything that has no order in another order. -/
def shuffledLedger : Graph :=
  ⟨[("Entry", .object [("next", .optional (.ref 1 "Book")),
      ("mark", .literals [.string "x", .number .zero, .number ⟨true, 0⟩, .number .nan, .null]),
      ("amount", .numberFormats ["positive", "cents"])] []),
    ("Book", .tagged [] "kind"
      [("other", .object [("kind", .any)] [(.base .string, .date), (.any, .bigint)]),
        ("entry", .ref 0 "Entry")])]⟩

theorem shuffledLedger_rearranged {moves : Moves} (hmoves : ∀ ss, moves ss ss)
    (hswap : moves [(.any, .bigint), (.base .string, .date)]
      [(.base .string, .date), (.any, .bigint)]) : ledger.Rearranged moves shuffledLedger where
  names := rfl
  shapes := by
    have hsame (s : Shape) (hs : s.isTidy = true) : s.Rearranged moves s := .refl hmoves hs
    intro i s s' hs hs'
    match i with
    | 0 =>
      cases hs
      cases hs'
      refine .object (by decide) (Shape.forall_same_name (by decide) ?_) (hmoves _) rfl nofun nofun
      refine List.forall_mem_cons.mpr ⟨⟨_, rfl, .numberFormats (by decide)⟩, ?_⟩
      refine List.forall_mem_cons.mpr ⟨⟨_, rfl, .literals (by decide)⟩, ?_⟩
      exact List.forall_mem_singleton.mpr ⟨_, rfl, hsame _ rfl⟩
    | 1 =>
      cases hs
      cases hs'
      refine .tagged rfl nofun (by decide) (Shape.forall_same_name (by decide) ?_)
      refine List.forall_mem_cons.mpr ⟨⟨_, rfl, hsame _ rfl⟩, ?_⟩
      refine List.forall_mem_singleton.mpr ⟨_, rfl, ?_⟩
      refine .object (.refl _) (Shape.forall_same_name (by decide) ?_) hswap rfl ?_ ?_
      · exact List.forall_mem_singleton.mpr ⟨_, rfl, hsame _ rfl⟩
      · exact forall_mem_zip_self (R := fun e e' : Shape × Shape => e.1.Rearranged moves e'.1)
          (List.forall_mem_cons.mpr ⟨hsame _ rfl, List.forall_mem_singleton.mpr (hsame _ rfl)⟩)
      · exact forall_mem_zip_self (R := fun e e' : Shape × Shape => e.2.Rearranged moves e'.2)
          (List.forall_mem_cons.mpr ⟨hsame _ rfl, List.forall_mem_singleton.mpr (hsame _ rfl)⟩)
    | _ + 2 => cases hs

theorem fingerprint_shuffledLedger :
    ledger.isTidy = true ∧ (Codec.mk "Book" ledger (.ref 1 "Book")).Rearranged List.Perm
        ⟨"Book", shuffledLedger, .ref 1 "Book"⟩ ∧
      (Codec.mk "Book" shuffledLedger (.ref 1 "Book")).fingerprint =
        (Codec.mk "Book" ledger (.ref 1 "Book")).fingerprint :=
  have hd : ledger.isTidy = true := by decide
  have h : (Codec.mk "Book" ledger (.ref 1 "Book")).Rearranged List.Perm
      ⟨"Book", shuffledLedger, .ref 1 "Book"⟩ :=
    ⟨shuffledLedger_rearranged List.Perm.refl (.swap _ _ _), .plain rfl⟩
  ⟨hd, h, Codec.fingerprint_rearranged hd rfl h⟩

end Graph

end ShapeGraph
