import ShapeGraph.Files.Tree
import ShapeGraph.Main
import ShapeGraph.Proofs.Guarded
import ShapeGraph.Proofs.Acceptance
import ShapeGraph.Proofs.Parsing
import ShapeGraph.Proofs.Reporting
import ShapeGraph.Proofs.Diagnosis
import ShapeGraph.Proofs.Decoding
import ShapeGraph.Proofs.Tidy
import ShapeGraph.Proofs.Pruning
import ShapeGraph.Proofs.Location
import ShapeGraph.Proofs.Reachable
import ShapeGraph.Proofs.Lossless
import ShapeGraph.Proofs.Distinct
import ShapeGraph.Proofs.Union
import ShapeGraph.Proofs.Canonical
import ShapeGraph.Proofs.Tagging
import ShapeGraph.Proofs.Compiling
import ShapeGraph.Record.Parts
import ShapeGraph.Proofs.Description.Parts
import ShapeGraph.Proofs.Description.Counting
import ShapeGraph.Proofs.Description.Rendering
import ShapeGraph.Proofs.Building
import ShapeGraph.Proofs.Definitions
import ShapeGraph.Proofs.Rearranging
import ShapeGraph.Proofs.Fingerprinting
import ShapeGraph.Proofs.Alike
import ShapeGraph.Proofs.Reordering
import ShapeGraph.Proofs.Description.Writing
import ShapeGraph.Proofs.Description.Declarations
import ShapeGraph.Proofs.Composition
import ShapeGraph.Shape.Substitution
import ShapeGraph.Proofs.Substitution
import ShapeGraph.Proofs.Renaming
import ShapeGraph.Proofs.Expansion
import ShapeGraph.Proofs.Bounded
import ShapeGraph.Proofs.Answering
import ShapeGraph.Proofs.Termination
import ShapeGraph.Proofs.Halting
import ShapeGraph.Proofs.Derivation
import ShapeGraph.Proofs.Places
import ShapeGraph.Proofs.Json.Trees
import ShapeGraph.Proofs.Json.Numerals
import ShapeGraph.Proofs.Json.Reading
import ShapeGraph.Proofs.Json.TooDeep
import ShapeGraph.Proofs.Records.RoundTrip
import ShapeGraph.Proofs.Records.Documents
import ShapeGraph.Proofs.Succeeding
import ShapeGraph.Proofs.Integers
import ShapeGraph.Proofs.Plain
import ShapeGraph.Proofs.Zeros
import ShapeGraph.Proofs.Json.Lines
import ShapeGraph.Proofs.Command.Loading
import ShapeGraph.Proofs.Command.Agreement
import ShapeGraph.Proofs.Command.Writing
import ShapeGraph.Proofs.Command.Repeating
import ShapeGraph.Proofs.Flattening
import ShapeGraph.Proofs.Unwritable
import ShapeGraph.Proofs.Raising
import ShapeGraph.Proofs.Strictness
import ShapeGraph.Proofs.Blaming
import ShapeGraph.Proofs.Lenience
import ShapeGraph.Proofs.Portable
import ShapeGraph.Proofs.KeyOrder
import ShapeGraph.Proofs.KeyOrderReports
import ShapeGraph.Record.Substitution
import ShapeGraph.Proofs.Records.Substituting
import ShapeGraph.Proofs.Inlining
import ShapeGraph.Proofs.Accounting
import ShapeGraph.Proofs.Merging
import ShapeGraph.Proofs.Registering
import ShapeGraph.Session
import ShapeGraph.Command.Events
import ShapeGraph.Proofs.Command.Failing
import ShapeGraph.Proofs.Rolling
import ShapeGraph.Proofs.Wrapping
import ShapeGraph.Proofs.Description.Blocks
import ShapeGraph.Proofs.PathText
import ShapeGraph.Proofs.Relocating
