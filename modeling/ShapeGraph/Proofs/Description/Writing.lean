import ShapeGraph.Proofs.Description.Rendering
import ShapeGraph.Proofs.Trace

/-!
# The second pass of a description

While the second pass writes, the definitions that it has entered and not left are a chain, each
of them mentioned by the one around it. A definition that is not shared is mentioned once, so it
is not entered inside itself; a shared one is marked before it is entered. No definition stands
twice in the chain, and the depth is bounded by their number.

A text in the table is either the rendering of a body or the mark of a definition in the chain.

* `Graph.Open` — the chains of definitions
* `Open.not_mem_of_opens` — what is not shared is not entered inside itself
* `Graph.Consistent` — what the texts are while some definitions are open
* `Closed.writesRefs` — references are written as they are rendered
* `writePending_writes`, `foldl_writePending` — what is missing at the end is added
-/

namespace ShapeGraph

namespace Graph

/-! ## Open definitions -/

/-- What is mentioned where the definitions `chain` are open, innermost first: by the body of the
first of them, by the root where none is open. -/
inductive Opens (g : Graph) (root : Shape) : List Nat → Nat → Prop
  | root {i : Nat} : i ∈ root.mentions.map (·.1) → Opens g root [] i
  | body {i j : Nat} {chain : List Nat} : g.Mentions j i → Opens g root (j :: chain) i

/-- The definitions that can be open at the same time, innermost first. At the end, shared
definitions are entered from outside. -/
inductive Open (g : Graph) (root : Shape) : List Nat → Prop
  | nil : Open g root []
  | pending {i : Nat} : g.Shared root i → Open g root [i]
  | enter {i : Nat} {chain : List Nat} :
      Open g root chain → g.Opens root chain i → i ∉ chain → Open g root (i :: chain)

variable {g : Graph} {root : Shape} {chain : List Nat}

theorem Open.nodup (h : g.Open root chain) : chain.Nodup := by
  induction h with
  | nil => exact List.nodup_nil
  | pending => exact List.nodup_singleton _
  | enter _ _ hi ih => exact List.nodup_cons.mpr ⟨hi, ih⟩

theorem Open.mentioned (h : g.Open root chain) : ∀ i ∈ chain, g.Mentioned root i := by
  induction h with
  | nil => exact nofun
  | pending hshared => exact List.forall_mem_singleton.mpr hshared.mentioned
  | enter _ hopens _ ih =>
    refine List.forall_mem_cons.mpr ⟨?_, ih⟩
    cases hopens with
    | root hroot =>
      obtain ⟨m, hm, rfl⟩ := List.mem_map.mp hroot
      exact ⟨m, hm, .refl⟩
    | body hbody => exact (ih _ List.mem_cons_self).step hbody

/-- Chains are no longer than there are definitions. -/
theorem Open.length_le (hc : g.Closed) (hr : g.Resolves root.mentions) (h : g.Open root chain) :
    chain.length ≤ g.size :=
  length_le_of_nodup h.nodup fun i hi => hc.lt_of_mentioned hr (h.mentioned i hi)

/-- From where an open definition that is not shared was entered. -/
theorem Open.entered_from (h : g.Open root chain) {i : Nat} (hi : i ∈ chain)
    (hshared : ¬ g.Shared root i) :
    i ∈ root.mentions.map (·.1) ∨ ∃ j ∈ chain.tail, g.Mentions j i := by
  induction h with
  | nil => cases hi
  | pending h =>
    obtain rfl := List.mem_singleton.mp hi
    exact absurd h hshared
  | enter _ hopens _ ih =>
    rcases List.mem_cons.mp hi with rfl | hi
    · cases hopens with
      | root hroot => exact .inl hroot
      | body hbody => exact .inr ⟨_, List.mem_cons_self, hbody⟩
    · rcases ih hi with hroot | ⟨j, hj, hji⟩
      · exact .inl hroot
      · exact .inr ⟨j, List.mem_of_mem_tail hj, hji⟩

/-- **What is not shared is not entered inside itself**: it would be mentioned a second time. -/
theorem Open.not_mem_of_opens (h : g.Open root chain) {i : Nat} (hopens : g.Opens root chain i)
    (hshared : ¬ g.Shared root i) : i ∉ chain := by
  intro hi
  cases hopens with
  | root => cases hi
  | @body _ j chain hbody =>
    have hj := h.mentioned j List.mem_cons_self
    -- one mention is by `j`, the innermost; the one through which `i` was entered is another
    rcases h.entered_from hi hshared with hroot | ⟨k, hk, hki⟩
    · exact hshared (hj.shared_of_root hroot hbody)
    · have hne : j ≠ k := by
        rintro rfl
        exact (List.nodup_cons.mp h.nodup).1 hk
      have hk' := h.mentioned k (List.mem_cons_of_mem j hk)
      exact hshared (hj.shared_of_ne hne hbody hk' hki)

/-! ## The table of texts -/

/-- The texts that have been written while the definitions `chain` are open. -/
structure Consistent (g : Graph) (root : Shape) (chain : List Nat) (texts : List (Option String)) :
    Prop where
  length_eq : texts.length = g.size
  /-- A shared definition is marked before it is entered. -/
  marked : ∀ i ∈ chain, g.Shared root i → (texts.getD i none).isSome
  /-- All other texts are renderings of bodies. -/
  rendered : ∀ i text, g.Shared root i → i ∉ chain → texts.getD i none = some text →
    ∀ t, g.shape? i = some t → g.Renders (g.Shared root) t text

/-- A table holds a text for every definition for which another one does. -/
def Keeps (before after : List (Option String)) : Prop :=
  ∀ i, (before.getD i none).isSome → (after.getD i none).isSome

variable {texts before mid after : List (Option String)} {i : Nat}

theorem Keeps.refl (texts : List (Option String)) : Keeps texts texts := fun _ => id

theorem Keeps.trans (h : Keeps before mid) (h' : Keeps mid after) : Keeps before after :=
  fun i hi => h' i (h i hi)

theorem Keeps.set (hi : i < texts.length) (text : String) :
    Keeps texts (texts.set i (some text)) := by
  intro j hj
  rw [getD_set hi]
  split
  · rfl
  · exact hj

namespace Consistent

/-- A definition that is not shared needs no mark. -/
theorem enter (h : g.Consistent root chain texts) (hi : ¬ g.Shared root i) :
    g.Consistent root (i :: chain) texts where
  length_eq := h.length_eq
  marked j hj hshared := by
    rcases List.mem_cons.mp hj with rfl | hj
    · exact absurd hshared hi
    · exact h.marked j hj hshared
  rendered j text hshared hj :=
    h.rendered j text hshared fun hmem => hj (List.mem_cons_of_mem _ hmem)

theorem leave (h : g.Consistent root (i :: chain) texts) (hi : ¬ g.Shared root i) :
    g.Consistent root chain texts where
  length_eq := h.length_eq
  marked j hj := h.marked j (List.mem_cons_of_mem _ hj)
  rendered j text hshared hj := by
    refine h.rendered j text hshared fun hmem => ?_
    rcases List.mem_cons.mp hmem with rfl | hmem
    · exact hi hshared
    · exact hj hmem

/-- The mark of a shared definition. -/
theorem mark (h : g.Consistent root chain texts) (hi : i < g.size) (text : String) :
    g.Consistent root (i :: chain) (texts.set i (some text)) where
  length_eq := (List.length_set ..).trans h.length_eq
  marked j hj hshared := by
    rw [getD_set (h.length_eq ▸ hi)]
    split
    · rfl
    · next hne => exact h.marked j ((List.mem_cons.mp hj).resolve_left hne) hshared
  rendered j text' hshared hj := by
    obtain ⟨hne, hmem⟩ := not_or.mp fun h => hj (List.mem_cons.mpr h)
    rw [getD_set (h.length_eq ▸ hi), if_neg hne]
    exact h.rendered j text' hshared hmem

/-- The text of a shared definition. -/
theorem finish (h : g.Consistent root (i :: chain) texts) (hmem : i ∉ chain) {t : Shape}
    {text : String} (ht : g.shape? i = some t) (htext : g.Renders (g.Shared root) t text) :
    g.Consistent root chain (texts.set i (some text)) where
  length_eq := (List.length_set ..).trans h.length_eq
  marked j hj hshared := by
    rw [getD_set (h.length_eq ▸ lt_size_of_shape? ht)]
    split
    · rfl
    · exact h.marked j (List.mem_cons_of_mem _ hj) hshared
  rendered j text' hshared hj hget u hu := by
    rw [getD_set (h.length_eq ▸ lt_size_of_shape? ht)] at hget
    split at hget
    · next heq =>
      subst heq
      obtain rfl := Option.some.inj hget
      obtain rfl := Option.some.inj (ht.symm.trans hu)
      exact htext
    · next hne =>
      refine h.rendered j text' hshared (fun hmem => ?_) hget u hu
      exact hj ((List.mem_cons.mp hmem).resolve_left hne)

end Consistent

/-! ## Writing references -/

/-- What writing gives: the rendering of a shape, and texts that are still consistent. -/
def Writes (g : Graph) (root : Shape) (chain : List Nat) (s : Shape)
    (before : List (Option String)) (written : String × List (Option String)) : Prop :=
  g.Renders (g.Shared root) s written.1 ∧ g.Consistent root chain written.2 ∧
    Keeps before written.2

/-- Where the definitions `chain` are open, there is fuel for all others. -/
def WritesRefs (g : Graph) (root : Shape) (fuel : Nat) : Prop :=
  ∀ chain texts place name, g.Open root chain → g.size < fuel + chain.length →
    g.Opens root chain place → g.name? place = some name → g.Consistent root chain texts →
      g.Writes root chain (.ref place name) texts
        (g.writeRef (g.referenceCounts root) fuel place name texts)

/-- A shape is written when its references are. -/
theorem WritesRefs.describe {fuel : Nat} (h : g.WritesRefs root fuel) (hopen : g.Open root chain)
    (hfuel : g.size < fuel + chain.length) {s : Shape} (hs : g.Resolves s.mentions)
    (hopens : ∀ i ∈ s.mentions.map (·.1), g.Opens root chain i)
    (htexts : g.Consistent root chain texts) :
    g.Writes root chain s texts (s.describe (g.writeRef (g.referenceCounts root) fuel) texts) := by
  refine Shape.describe_renders (I := fun st => g.Consistent root chain st ∧ Keeps texts st) s
    (fun m hm st hst => ?_) texts ⟨htexts, .refl texts⟩
  have hopens := hopens m.1 (List.mem_map_of_mem hm)
  obtain ⟨hrenders, hst', hkeeps⟩ := h chain st m.1 m.2 hopen hfuel hopens (hs m hm) hst.1
  exact ⟨hrenders, hst', hst.2.trans hkeeps⟩

/-- A shared definition is written between its mark and its text. -/
theorem WritesRefs.shared {fuel : Nat} (h : g.WritesRefs root fuel) (hc : g.Closed) {place : Nat}
    {t : Shape} (ht : g.shape? place = some t) (hopen : g.Open root (place :: chain))
    (hfuel : g.size < fuel + (place :: chain).length) (hmem : place ∉ chain)
    (htexts : g.Consistent root chain texts) {written : String × List (Option String)}
    (hwritten : t.describe (g.writeRef (g.referenceCounts root) fuel) (texts.set place (some "")) =
      written) :
    g.Consistent root chain (written.2.set place (some written.1)) ∧
      Keeps texts (written.2.set place (some written.1)) := by
  have hplace := lt_size_of_shape? ht
  have hopens : ∀ i ∈ t.mentions.map (·.1), g.Opens root (place :: chain) i :=
    fun i hi => .body ⟨t, ht, hi⟩
  obtain ⟨hrenders, htexts', hkeeps⟩ :=
    h.describe hopen hfuel (hc place t ht) hopens (htexts.mark hplace "")
  rw [hwritten] at hrenders htexts' hkeeps
  refine ⟨htexts'.finish hmem ht hrenders, ?_⟩
  have hmark := Keeps.set (htexts.length_eq ▸ hplace) ""
  exact (hmark.trans hkeeps).trans (.set (htexts'.length_eq ▸ hplace) _)

/-- **References are written as they are rendered.** -/
theorem Closed.writesRefs (hc : g.Closed) (hr : g.Resolves root.mentions) (fuel : Nat) :
    g.WritesRefs root fuel := by
  -- a definition that is entered takes one unit of fuel and makes the chain longer by one
  induction fuel with
  | zero =>
    intro chain texts place name hopen hfuel
    have hle := hopen.length_le hc hr
    omega
  | succ fuel ih =>
    intro chain texts place name hopen hfuel hopens hname htexts
    obtain ⟨t, ht⟩ := exists_shape?_of_lt (lt_size_of_name? hname)
    have hfuel' : g.size < fuel + (place :: chain).length := by
      rw [List.length_cons]
      omega
    simp only [writeRef, ht]
    cases hshared : isShared (g.referenceCounts root) place with
    | false =>
      have hnot : ¬ g.Shared root place := by
        rw [← hc.isShared_iff hr, hshared]
        exact Bool.false_ne_true
      have hopen' := hopen.enter hopens (hopen.not_mem_of_opens hopens hnot)
      obtain ⟨hrenders, htexts', hkeeps⟩ := ih.describe hopen' hfuel' (hc place t ht)
        (fun i hi => .body ⟨t, ht, hi⟩) (htexts.enter hnot)
      exact ⟨.body hnot ht hrenders, htexts'.leave hnot, hkeeps⟩
    | true =>
      have hshared := (hc.isShared_iff hr).mp hshared
      have hrenders : g.Renders (g.Shared root) (.ref place name) name := .name hshared hname
      cases htext : texts.getD place none with
      | some text => exact ⟨hrenders, htexts, .refl texts⟩
      | none =>
        -- it is not open, for then it would be marked
        have hmem : place ∉ chain := by
          intro hmem
          have hmarked := htexts.marked place hmem hshared
          rw [htext] at hmarked
          cases hmarked
        have hopen' := hopen.enter hopens hmem
        obtain ⟨htexts', hkeeps⟩ := ih.shared hc ht hopen' hfuel' hmem htexts rfl
        exact ⟨hrenders, htexts', hkeeps⟩

/-! ## What is missing at the end -/

/-- **A shared definition has a text afterwards**, and all that were there are kept. -/
theorem Closed.writePending_writes (hc : g.Closed) (hr : g.Resolves root.mentions)
    (hi : g.Shared root i) (htexts : g.Consistent root [] texts) :
    g.Consistent root [] (g.writePending (g.referenceCounts root) texts i) ∧
      Keeps texts (g.writePending (g.referenceCounts root) texts i) ∧
      ((g.writePending (g.referenceCounts root) texts i).getD i none).isSome := by
  have hlt := hc.lt_of_mentioned hr hi.mentioned
  obtain ⟨t, ht⟩ := exists_shape?_of_lt hlt
  simp only [writePending, ht]
  split
  · have hfuel : g.size < g.size + 1 + [i].length := by omega
    obtain ⟨htexts', hkeeps⟩ := (hc.writesRefs hr (g.size + 1)).shared hc ht (.pending hi) hfuel
      List.not_mem_nil htexts rfl
    refine ⟨htexts', hkeeps, ?_⟩
    have hlen := htexts'.length_eq
    rw [List.length_set] at hlen
    rw [getD_set (Nat.lt_of_lt_of_eq hlt hlen.symm), if_pos rfl]
    rfl
  · next hfull =>
    refine ⟨htexts, .refl texts, ?_⟩
    cases htext : texts.getD i none with
    | some text => rfl
    | none => exact absurd (by rw [htext]; rfl) hfull

/-- Shared definitions have texts afterwards, in whatever order they are gone through. -/
theorem Closed.foldl_writePending (hc : g.Closed) (hr : g.Resolves root.mentions)
    {places : List Nat} (hplaces : ∀ i ∈ places, g.Shared root i)
    (htexts : g.Consistent root [] texts) :
    g.Consistent root [] (places.foldl (g.writePending (g.referenceCounts root)) texts) ∧
      Keeps texts (places.foldl (g.writePending (g.referenceCounts root)) texts) ∧
      ∀ i ∈ places,
        ((places.foldl (g.writePending (g.referenceCounts root)) texts).getD i none).isSome := by
  induction places generalizing texts with
  | nil => exact ⟨htexts, .refl texts, nofun⟩
  | cons i places ih =>
    obtain ⟨hi, hplaces⟩ := List.forall_mem_cons.mp hplaces
    obtain ⟨hmid, hkeeps, hsome⟩ := hc.writePending_writes hr hi htexts
    obtain ⟨hend, hkeeps', hall⟩ := ih hplaces hmid
    rw [List.foldl_cons]
    refine ⟨hend, hkeeps.trans hkeeps', List.forall_mem_cons.mpr ⟨hkeeps' i hsome, hall⟩⟩

end Graph

end ShapeGraph
