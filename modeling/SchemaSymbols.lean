import SchemaSymbols.Build
import SchemaSymbols.Graph.Snapshot
import SchemaSymbols.Proofs.Build.Clones
import SchemaSymbols.Proofs.Build.Declarations
import SchemaSymbols.Proofs.Build.Idempotence
import SchemaSymbols.Proofs.Build.Indirection
import SchemaSymbols.Proofs.Build.LanguageIndependence
import SchemaSymbols.Proofs.Build.MethodNames
import SchemaSymbols.Proofs.Graph.Construction
import SchemaSymbols.Proofs.Graph.Editing
import SchemaSymbols.Proofs.Graph.EqualityClosure
import SchemaSymbols.Proofs.Graph.Printable
import SchemaSymbols.Proofs.Graph.Snapshot
import SchemaSymbols.Proofs.Json.RoundTrip
import SchemaSymbols.Proofs.Naming.Escaping
import SchemaSymbols.Proofs.Naming.Identifiers
import SchemaSymbols.Proofs.Naming.Splitting
import SchemaSymbols.Proofs.Naming.TypeNames
import SchemaSymbols.Proofs.Normalization.Failures
import SchemaSymbols.Proofs.Normalization.Idempotence
import SchemaSymbols.Proofs.Normalization.Ownership
import SchemaSymbols.Proofs.Normalization.Result
import SchemaSymbols.Proofs.Normalization.Surface
import SchemaSymbols.Proofs.Resolution.Bindings
import SchemaSymbols.Proofs.Resolution.Canonical
import SchemaSymbols.Proofs.Resolution.CycleBoxes
import SchemaSymbols.Proofs.Resolution.EmittedNames
import SchemaSymbols.Proofs.Resolution.Files
import SchemaSymbols.Proofs.Resolution.Independence
import SchemaSymbols.Proofs.Resolution.OpenWalks
import SchemaSymbols.Proofs.Resolution.Policies
import SchemaSymbols.Proofs.Resolution.References
import SchemaSymbols.Proofs.Resolution.Remarks
import SchemaSymbols.Proofs.Resolution.RemarksByShape
import SchemaSymbols.Proofs.Resolution.Termination
import SchemaSymbols.Proofs.Resolution.VariantNames
import SchemaSymbols.Proofs.Shape.Codec
import SchemaSymbols.Proofs.ShapeId
import SchemaSymbols.Settings.Json
import SchemaSymbols.Settings.Saving
import SchemaSymbols.Symbol.Json
