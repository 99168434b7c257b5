import ShapeGraph.Codec
import ShapeGraph.Document
import ShapeGraph.Shape.Parts

/-!
# Sessions

While a program runs, formats are registered, graphs are built and values are decoded, in any
order. All of it works on the same registered formats, and registrations are all that changes
them.

* `Request`, `Answer` — what is asked for, and what comes of it
* `Formats.step`, `Formats.after` — the registered formats behind one request, and behind many
* `Request.stringRule?`, `Request.numberRule?` — the rule that a request registers
* `Answer.Makes` — the shapes that come into being with an answer
-/

namespace ShapeGraph

inductive Request
  | registerString (name : String) (rule : String → Bool)
  | registerNumber (name : String) (rule : Number → Bool)
  /-- Register the rule of a pattern; its text may be no pattern. -/
  | registerPattern (name text : String)
  | build (d : Document)
  | buildTree (j : Json)
  | buildText (t : Text)
  /-- Compile one more record against a graph. -/
  | compile (g : Graph) (r : Record)
  | decode (c : Codec) (options : DecodeOptions) (v : Value)

inductive Answer
  | registered
  | refused (e : BuildError)
  | built (g : Graph)
  | compiled (s : Shape)
  | decoded (result : Except (List DecodeError) Value)

namespace Answer

/-- The answer to a request for a graph. -/
def ofBuild : Except BuildError Graph → Answer
  | .ok g => .built g
  | .error e => .refused e

/-- **A shape stands in what was built**, at any depth. -/
def Makes : Answer → Shape → Prop
  | .built g, t => ∃ d ∈ g.definitions, d.2.Contains t
  | .compiled s, t => s.Contains t
  | _, _ => False

end Answer

namespace Request

/-- The rule for strings that a request registers under a name, if it succeeds. -/
def stringRule? (patterns : Pattern.Engine) : Request → String → Option (String → Bool)
  | .registerString name rule, other => if other = name then some rule else none
  | .registerPattern name text, other => if other = name then patterns text else none
  | _, _ => none

/-- The rule for numbers that a request registers under a name. -/
def numberRule? : Request → String → Option (Number → Bool)
  | .registerNumber name rule, other => if other = name then some rule else none
  | _, _ => none

end Request

namespace Formats

/-- **The answer to a request, and what is registered behind it.** -/
def step (f : Formats) : Request → Answer × Formats
  | .registerString name rule => (.registered, f.registerString name rule)
  | .registerNumber name rule => (.registered, f.registerNumber name rule)
  | .registerPattern name text =>
    match f.registerPattern name text with
    | .ok f => (.registered, f)
    | .error e => (.refused e, f)
  | .build d => (.ofBuild (d.build f), f)
  | .buildTree j => (.ofBuild (Graph.ofTree f j), f)
  | .buildText t => (.ofBuild (Graph.ofText f t), f)
  | .compile g r =>
    match g.compile f r with
    | .ok s => (.compiled s, f)
    | .error e => (.refused e, f)
  | .decode c options v => (.decoded (c.decode ⟨f, options.disallowExtraProperties⟩ v), f)

/-- What is registered behind many requests. -/
def afterAll (f : Formats) (requests : List Request) : Formats :=
  requests.foldl (fun f request => (f.step request).2) f

/-- What is registered in a session, which begins without any formats and leaves its patterns to
one engine. -/
def after (patterns : Pattern.Engine) (requests : List Request) : Formats :=
  afterAll { patterns := patterns } requests

end Formats

end ShapeGraph
