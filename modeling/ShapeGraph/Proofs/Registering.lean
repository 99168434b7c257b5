import ShapeGraph.Proofs.Building
import ShapeGraph.Session

/-!
# Registered formats in a session

Under every name the last registration that succeeded counts, and strings and numbers do not get
in each other's way. A graph can only be built while all formats that it names are registered.
Names stay registered, so its shapes never meet a format without a rule, however often rules are
replaced later on.

* `stringRule?_afterAll`, `numberRule?_afterAll` — what is registered behind many requests
* `Shape.isServed` — every format that a shape names has a rule
* `Record.isServed_of_compile`, `isServed_of_makes` — what is built is served at once
* `isServed_afterAll` — and at any later time
* `registered_after` — a whole session
-/

namespace ShapeGraph

namespace Formats

variable {f f' : Formats}

/-! ## One request after the other -/

-- Proofs run side by side; the equations are worked out here, before any of them waits for them.
attribute [local simp] step registerPattern Request.stringRule? Request.numberRule? afterAll

/-- A text that is no pattern to the engine changes nothing. -/
theorem step_registerPattern_of_none {name text : String} (h : f.patterns text = none) :
    f.step (.registerPattern name text) =
      (.refused (.invalidPattern text ("format `" ++ name ++ "`")), f) := by
  rw [step, registerPattern, h]

theorem step_registerPattern_of_some {name text : String} {matched : String → Bool}
    (h : f.patterns text = some matched) :
    f.step (.registerPattern name text) = (.registered, f.registerString name matched) := by
  rw [step, registerPattern, h]

/-- **What is refused changes nothing**, and it would have registered nothing. -/
theorem step_of_refused {request : Request} {e : BuildError}
    (h : f.step request = (.refused e, f')) :
    f' = f ∧ ∀ name,
      request.stringRule? f.patterns name = none ∧ request.numberRule? name = none := by
  cases request with
  | registerPattern name text =>
    cases hp : f.patterns text with
    | none =>
      rw [step_registerPattern_of_none hp] at h
      obtain ⟨-, rfl⟩ := Prod.mk.inj h
      refine ⟨rfl, fun other => ⟨?_, rfl⟩⟩
      rw [Request.stringRule?, hp]
      split <;> rfl
    | some matched =>
      rw [step_registerPattern_of_some hp] at h
      cases h
  | registerString name rule | registerNumber name rule | decode c options v => cases h
  | build d | buildTree j | buildText t => exact ⟨(Prod.mk.inj h).2.symm, fun _ => ⟨rfl, rfl⟩⟩
  | compile g r =>
    rw [step] at h
    cases hs : g.compile f r <;> rw [hs] at h <;> cases h
    exact ⟨rfl, fun _ => ⟨rfl, rfl⟩⟩

/-- Compiling a record changes nothing. -/
theorem step_compile (f : Formats) (g : Graph) (r : Record) :
    (f.step (.compile g r)).2 = f := by
  rw [step]
  cases g.compile f r <;> rfl

/-- No request changes the engine. -/
theorem patterns_step (f : Formats) (request : Request) :
    (f.step request).2.patterns = f.patterns := by
  cases request with
  | registerPattern name text =>
    cases h : f.patterns text with
    | none => rw [step_registerPattern_of_none h]
    | some matched => rw [step_registerPattern_of_some h]; rfl
  | compile g r => rw [step_compile]
  | _ => rfl

/-- The rule of a string format is the one that the request registers, or the one of before. -/
theorem stringRule?_step (f : Formats) (request : Request) (name : String) :
    (f.step request).2.stringRule? name =
      (request.stringRule? f.patterns name).or (f.stringRule? name) := by
  cases request with
  | registerString name' rule =>
    rw [step, stringRule?_registerString, Request.stringRule?]
    split <;> rfl
  | registerPattern name' text =>
    cases h : f.patterns text with
    | none =>
      rw [step_registerPattern_of_none h, Request.stringRule?, h]
      split <;> rfl
    | some matched =>
      rw [step_registerPattern_of_some h, stringRule?_registerString, Request.stringRule?, h]
      split <;> rfl
  | registerNumber name' rule => exact stringRule?_registerNumber ..
  | compile g r => rw [step_compile]; rfl
  | _ => rfl

/-- The rule of a number format is the one that the request registers, or the one of before. -/
theorem numberRule?_step (f : Formats) (request : Request) (name : String) :
    (f.step request).2.numberRule? name = (request.numberRule? name).or (f.numberRule? name) := by
  cases request with
  | registerNumber name' rule =>
    rw [step, numberRule?_registerNumber, Request.numberRule?]
    split <;> rfl
  | registerPattern name' text =>
    cases h : f.patterns text with
    | none => rw [step_registerPattern_of_none h]; rfl
    | some matched => rw [step_registerPattern_of_some h, numberRule?_registerString]; rfl
  | compile g r => rw [step_compile]; rfl
  | _ => rfl

/-! ## Many requests -/

theorem patterns_afterAll (f : Formats) (requests : List Request) :
    (f.afterAll requests).patterns = f.patterns := by
  induction requests generalizing f with
  | nil => rfl
  | cons request requests ih => exact (ih _).trans (patterns_step f request)

/-- What is looked up behind many requests, where each request replaces some of the rules: the
last of them counts. The rule that a request makes may depend on the engine. -/
theorem lookup_afterAll {α : Type} (rule? : Formats → Option α)
    (new? : Pattern.Engine → Request → Option α)
    (hstep : ∀ f request, rule? (step f request).2 = (new? f.patterns request).or (rule? f))
    (f : Formats) (requests : List Request) :
    rule? (f.afterAll requests) =
      (requests.reverse.findSome? (new? f.patterns)).or (rule? f) := by
  induction requests generalizing f with
  | nil => rfl
  | cons request requests ih =>
    rw [afterAll, List.foldl_cons, ← afterAll, ih, patterns_step, hstep, List.reverse_cons,
      List.findSome?_append, List.findSome?_singleton, Option.or_assoc]

theorem stringRule?_afterAll (f : Formats) (requests : List Request) (name : String) :
    (f.afterAll requests).stringRule? name =
      (requests.reverse.findSome? (·.stringRule? f.patterns name)).or (f.stringRule? name) :=
  lookup_afterAll (·.stringRule? name) (fun patterns request => request.stringRule? patterns name)
    (fun f request => stringRule?_step f request name) f requests

theorem numberRule?_afterAll (f : Formats) (requests : List Request) (name : String) :
    (f.afterAll requests).numberRule? name =
      (requests.reverse.findSome? (·.numberRule? name)).or (f.numberRule? name) :=
  lookup_afterAll (·.numberRule? name) (fun _ request => request.numberRule? name)
    (fun f request => numberRule?_step f request name) f requests

theorem after_append (patterns : Pattern.Engine) (before later : List Request) :
    after patterns (before ++ later) = (after patterns before).afterAll later :=
  List.foldl_append ..

end Formats

/-! ## Formats that are named -/

/-- Every format that a shape names has a rule. -/
def Shape.isServed (f : Formats) : Shape → Bool
  | .stringFormats names => names.all fun name => (f.stringRule? name).isSome
  | .numberFormats names => names.all fun name => (f.numberRule? name).isSome
  | _ => true

namespace Record

variable {formats : Formats} {place? : String → Option Nat} {path : Path} {r : Record} {s : Shape}

theorem registered_of_checkFormats {type : BaseType} {isKnown : String → Bool}
    {names : List String} {u : Unit} (h : checkFormats type isKnown path names = .ok u) :
    ∀ name ∈ names, isKnown name = true := by
  have hnone : formatsFault? type isKnown path names = none := by
    rw [← failure?_checkFormats, h]
    rfl
  exact (formatsFault?_eq_none_iff.mp hnone).2

/-- A record is compiled only if all formats that it names are registered. -/
theorem isServed_of_compile (h : r.compile formats place? path = .ok s) :
    s.isServed formats = true := by
  cases r with
  | stringWithFormats names | numberWithFormats names =>
    simp only [compile, bind_eq_ok, pure_eq_ok] at h
    obtain ⟨_, hknown, rfl⟩ := h
    exact List.all_eq_true.mpr (registered_of_checkFormats hknown)
  | anyOfDiscriminated members tag branches =>
    rw [compile] at h
    split at h
    · cases h
    · simp only [bind_eq_ok, pure_eq_ok] at h
      obtain ⟨_, -, _, -, rfl⟩ := h
      rfl
  | tuple slots rest =>
    cases rest with
    | none =>
      simp only [compile, bind_eq_ok, pure_eq_ok] at h
      obtain ⟨_, -, rfl⟩ := h
      rfl
    | some rest =>
      simp only [compile, bind_eq_ok, pure_eq_ok] at h
      obtain ⟨_, -, _, -, rfl⟩ := h
      rfl
  | object properties signatures =>
    simp only [compile, bind_eq_ok, pure_eq_ok] at h
    obtain ⟨_, -, _, -, rfl⟩ := h
    rfl
  | regex text label | ref name =>
    rw [compile] at h
    split at h <;> cases h
    rfl
  | const value | anyOfConsts values | allOf members | anyOf members | array item
  | optionalField inner =>
    simp only [compile, bind_eq_ok, pure_eq_ok] at h
    obtain ⟨_, -, rfl⟩ := h
    rfl
  | _ =>
    cases h
    rfl

/-- So are all records inside it. -/
theorem isServed_of_contains (h : r.compile formats place? path = .ok s) {t : Shape}
    (ht : s.Contains t) : t.isServed formats = true :=
  Shape.of_contains
    (all_of_compile (Q := fun _ => True) (fun _ _ _ _ => trivial)
      (fun _ _ _ _ h => isServed_of_compile h) trivial h) ht

end Record

namespace Answer

variable {f : Formats} {t : Shape}

theorem makes_ofBuild {result : Except BuildError Graph} (h : (ofBuild result).Makes t) :
    ∃ g, result = .ok g ∧ ∃ d ∈ g.definitions, d.2.Contains t := by
  cases result with
  | ok g => exact ⟨g, rfl, h⟩
  | error e => exact h.elim

end Answer

namespace Formats

variable {f : Formats} {t : Shape}

/-- What stands in a built graph is served by the formats of then. -/
theorem isServed_of_build {d : Document} {g : Graph} (h : d.build f = .ok g)
    (ht : ∃ d ∈ g.definitions, d.2.Contains t) : t.isServed f = true := by
  obtain ⟨e, he, ht⟩ := ht
  obtain ⟨r, -, hcompile⟩ := (Graph.definitions_of_ofRecords h).2 e he
  exact Record.isServed_of_contains hcompile ht

/-- **What is built in a session is served by the formats of then.** -/
theorem isServed_of_makes {request : Request} (h : (f.step request).1.Makes t) :
    t.isServed f = true := by
  cases request with
  | build d =>
    obtain ⟨g, hg, ht⟩ := Answer.makes_ofBuild h
    exact isServed_of_build hg ht
  | buildTree j =>
    obtain ⟨g, hg, ht⟩ := Answer.makes_ofBuild h
    obtain ⟨d, -, hg⟩ := bind_eq_ok.mp hg
    exact isServed_of_build hg ht
  | buildText text =>
    obtain ⟨g, hg, ht⟩ := Answer.makes_ofBuild h
    obtain ⟨d, -, hg⟩ := bind_eq_ok.mp hg
    exact isServed_of_build hg ht
  | compile g r =>
    rw [step] at h
    cases hs : g.compile f r with
    | ok s =>
      rw [hs] at h
      exact Record.isServed_of_contains hs h
    | error e =>
      rw [hs] at h
      exact h.elim
  | registerPattern name text =>
    rw [step] at h
    cases hf : f.registerPattern name text <;> rw [hf] at h <;> exact h.elim
  | _ => exact h.elim

/-- **A shape that is served once is served from then on**, whatever is registered. -/
theorem isServed_afterAll (h : t.isServed f = true) (requests : List Request) :
    t.isServed (f.afterAll requests) = true := by
  cases t with
  | stringFormats names =>
    refine List.all_eq_true.mpr fun name hname => ?_
    rw [stringRule?_afterAll, Option.isSome_or, Bool.or_eq_true]
    exact .inr (List.all_eq_true.mp h name hname)
  | numberFormats names =>
    refine List.all_eq_true.mpr fun name hname => ?_
    rw [numberRule?_afterAll, Option.isSome_or, Bool.or_eq_true]
    exact .inr (List.all_eq_true.mp h name hname)
  | _ => rfl

/-! ## Formats at work -/

theorem allowsString_iff {names : List String} {text : String} :
    f.allowsString names text = true ↔
      ∀ name ∈ names, ∃ rule, f.stringRule? name = some rule ∧ rule text = true := by
  rw [allowsString, List.all_eq_true]
  refine forall₂_congr fun name _ => ?_
  cases f.stringRule? name <;> simp

theorem allowsNumber_iff {names : List String} {x : Number} :
    f.allowsNumber names x = true ↔
      ∀ name ∈ names, ∃ rule, f.numberRule? name = some rule ∧ rule x = true := by
  rw [allowsNumber, List.all_eq_true]
  refine forall₂_congr fun name _ => ?_
  cases f.numberRule? name <;> simp

end Formats

namespace Graph

variable {g : Graph} {p : Policy} {names : List String} {v : Value}

theorem accepts_stringFormats_iff :
    g.accepts p (.stringFormats names) v = true ↔
      ∃ text, v = .string text ∧
        ∀ name ∈ names, ∃ rule, p.formats.stringRule? name = some rule ∧ rule text = true := by
  rw [accepts, Shape.accepts, Option.any_eq_true]
  refine exists_congr fun text => and_congr ?_ Formats.allowsString_iff
  cases v <;> simp [Value.string?]

theorem accepts_numberFormats_iff :
    g.accepts p (.numberFormats names) v = true ↔
      ∃ x, v = .number x ∧
        ∀ name ∈ names, ∃ rule, p.formats.numberRule? name = some rule ∧ rule x = true := by
  rw [accepts, Shape.accepts, Option.any_eq_true]
  refine exists_congr fun x => and_congr ?_ Formats.allowsNumber_iff
  cases v <;> simp [Value.number?]

end Graph

/-! ## A whole session -/

namespace Formats

/-- **In a session the last registration of a name counts, in its own table; what is refused
changes nothing; and whatever was built at some time, its formats have rules from then on**: one of
its format nodes accepts what is of its type and meets the present rule of every format. Which
patterns can be registered, and what they match, is for the engine to say, and any engine will
do. -/
theorem registered_after (patterns : Pattern.Engine) (requests : List Request) :
    let now := after patterns requests
    (∀ name,
        now.stringRule? name = requests.reverse.findSome? (·.stringRule? patterns name) ∧
        now.numberRule? name = requests.reverse.findSome? (·.numberRule? name)) ∧
      (∀ request e f, now.step request = (.refused e, f) → f = now ∧
        ∀ name, request.stringRule? patterns name = none ∧ request.numberRule? name = none) ∧
      ∀ before request later, requests = before ++ request :: later →
        ∀ t, ((after patterns before).step request).1.Makes t →
        ∀ (g : Graph) (strict : Bool) (v : Value),
          (∀ names, t = .stringFormats names →
            (∀ name ∈ names, ∃ rule, now.stringRule? name = some rule) ∧
            (g.accepts ⟨now, strict⟩ t v = true ↔ ∃ text, v = .string text ∧
              ∀ name ∈ names, ∃ rule, now.stringRule? name = some rule ∧ rule text = true)) ∧
          ∀ names, t = .numberFormats names →
            (∀ name ∈ names, ∃ rule, now.numberRule? name = some rule) ∧
            (g.accepts ⟨now, strict⟩ t v = true ↔ ∃ x, v = .number x ∧
              ∀ name ∈ names, ∃ rule, now.numberRule? name = some rule ∧ rule x = true) := by
  intro now
  have hpatterns : now.patterns = patterns := patterns_afterAll _ requests
  refine ⟨fun name => ⟨?_, ?_⟩, fun request e f h => ?_, ?_⟩
  · exact (stringRule?_afterAll _ requests name).trans Option.or_none
  · exact (numberRule?_afterAll _ requests name).trans Option.or_none
  · rw [← hpatterns]
    exact step_of_refused h
  intro before request later hrequests t ht g strict v
  -- the node is served when it is made, and so at the end
  have hserved : t.isServed now = true := by
    rw [show now = after patterns (before ++ request :: later) from hrequests ▸ rfl, after_append]
    exact isServed_afterAll (isServed_of_makes ht) (request :: later)
  refine ⟨fun names hnames => ?_, fun names hnames => ?_⟩
  · subst hnames
    refine ⟨fun name hname => ?_, Graph.accepts_stringFormats_iff⟩
    exact Option.isSome_iff_exists.mp (List.all_eq_true.mp hserved name hname)
  · subst hnames
    refine ⟨fun name hname => ?_, Graph.accepts_numberFormats_iff⟩
    exact Option.isSome_iff_exists.mp (List.all_eq_true.mp hserved name hname)

/-- A graph is built while a format admits nothing; its rule is replaced by a pattern, and then by
a text that is no pattern. -/
def slugSession : List Request :=
  [.registerString "slug" fun _ => false,
    .build ⟨[("Slug", .array (.stringWithFormats ["slug"]))]⟩,
    .registerPattern "slug" "^[a-z]+$",
    .registerNumber "slug" Number.isIntegral,
    .registerPattern "slug" "("]

theorem registered_after_slugSession :
    ((after Pattern.engine slugSession).stringRule? "slug").any
        (fun rule => rule "draft" && !rule "Draft") = true ∧
      ∀ g : Graph, g.accepts ⟨after Pattern.engine slugSession, false⟩ (.stringFormats ["slug"])
        (.string "draft") = true := by
  obtain ⟨hlookup, -, hmade⟩ := registered_after Pattern.engine slugSession
  have hslug : ((after Pattern.engine slugSession).stringRule? "slug").any
      (fun rule => rule "draft" && !rule "Draft") = true := by
    rw [(hlookup "slug").1]
    decide +kernel
  have hnode : ((after Pattern.engine (slugSession.take 1)).step slugSession[1]).1.Makes
      (.stringFormats ["slug"]) :=
    ⟨_, List.mem_singleton_self _, .head List.mem_cons_self .refl⟩
  refine ⟨hslug, fun g => ?_⟩
  obtain ⟨rule, hrule, hdraft⟩ := (Option.any_eq_true ..).mp hslug
  refine ((hmade _ _ _ rfl _ hnode g false _).1 _ rfl).2.mpr ⟨_, rfl, fun name hname => ?_⟩
  rw [List.mem_singleton.mp hname]
  exact ⟨rule, hrule, (Bool.and_eq_true_iff.mp hdraft).1⟩

end Formats

end ShapeGraph
