/-
  Snapshots: a graph as a JSON text, and its fingerprint.

  A snapshot lists the shapes by identifier.  It is saved with indentation; the fingerprint is the
  SHA-256 digest of the same value without blanks, so graphs with the same shapes have the same
  fingerprint.
-/
import SchemaSymbols.Digest.Sha256
import SchemaSymbols.Graph.Basic
import SchemaSymbols.Json.Parser
import SchemaSymbols.Json.Printer
import SchemaSymbols.Shape.Json

namespace SchemaSymbols.Graph

/-- The JSON form of a graph. -/
def toJson (g : Graph) : Json := .object [("shapes", .array (g.nodes.toList.map Node.toJson))]

/-- The text in which a graph is saved. -/
def snapshot (g : Graph) : String := g.toJson.indented

/-- The digest of a graph's compact text. -/
def fingerprint (g : Graph) : String := Sha256.hexDigest g.toJson.compact

/-- Reads the shapes of a snapshot. -/
def nodesOfJson? (v : Json) : Option (List Node) := do
  let [shapes] ← v.record? ["shapes"] | none
  Json.required? (Json.list? (Node.ofJson? .snapshot 2)) shapes

/-- Builds the graph of a JSON value. -/
def ofJson (v : Json) : Except Fault Graph :=
  match nodesOfJson? v with
  | some nodes => ofNodes nodes
  | none => .error .json

/-- Builds the graph of a snapshot text. -/
def ofSnapshot (s : String) : Except Fault Graph :=
  match Json.parse? s with
  | some v => ofJson v
  | none => .error .json

end SchemaSymbols.Graph
