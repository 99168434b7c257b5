import ShapeGraph.Decode.Parse
import ShapeGraph.Decode.Report
import ShapeGraph.Description
import ShapeGraph.Fingerprint
import ShapeGraph.JsonSchema

/-!
# Codecs

A codec is a named shape with the graph that its references lead into. Decoding a value gives
its parsed form or the first few errors.

* `Codec.decode` — the parsed form or the errors
* `Graph.codec?`, `Graph.codecs` — the codecs of the definitions
-/

namespace ShapeGraph

structure Codec where
  name : String
  graph : Graph
  root : Shape

namespace Codec

/-- How many errors are reported. -/
def maxErrors : Nat := 10

def accepts (c : Codec) (p : Policy) (v : Value) : Bool := c.graph.accepts p c.root v

/-- All errors of a value. -/
def report (c : Codec) (p : Policy) (v : Value) : List DecodeError := c.graph.report p c.root [] v

/-- **The parsed form of a value, or at least one error.** -/
def decode (c : Codec) (p : Policy) (v : Value) : Except (List DecodeError) Value :=
  if c.accepts p v then
    (c.graph.parse p c.root v).mapError fun f => [.mismatch f.message [] v]
  else
    match (c.report p v).take maxErrors with
    | [] => .error [.mismatch "invalid input" [] v]
    | errors => .error errors

/-- What decoding gave, as data. -/
def outcomeJson : Except (List DecodeError) Value → Json
  | .ok v => .obj [("success", .bool true), ("data", v.toJson)]
  | .error errors =>
    .obj [("success", .bool false), ("errors", .arr (DecodeError.toJsonAll errors))]

def schema (c : Codec) : Except SchemaFault Json := c.graph.schema c.root

def describe (c : Codec) : String := c.graph.describe c.name c.root

def fingerprint (c : Codec) : Int32 := c.graph.fingerprint c.root

end Codec

namespace Graph

/-- What is said when no definition has a name. -/
def unknownCodec (name : String) : String := "no definition named `" ++ name ++ "`"

/-- The codec of the definition with a name. -/
def codec? (g : Graph) (name : String) : Option Codec :=
  (g.place? name).map fun place => ⟨name, g, .ref place name⟩

/-- The codecs of all definitions, in order. -/
def codecs (g : Graph) : List Codec :=
  g.names.zipIdx.map fun (name, place) => ⟨name, g, .ref place name⟩

end Graph

end ShapeGraph
