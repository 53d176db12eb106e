/-
  Builds: from a schema to everything that is needed to declare its types.

  A build normalizes the operations, closes the equality requirement, resolves all symbols, and
  checks that every inline cycle has a boxed member.  Its declarations can then be listed so that a
  type comes after the types it depends on.
-/
import SchemaSymbols.EqualityClosure
import SchemaSymbols.InlineCycle
import SchemaSymbols.Resolution.Walk
import SchemaSymbols.Settings.Basic

namespace SchemaSymbols

/-- The result of a build. -/
structure Build where
  /-- The graph after normalization and closure. -/
  graph : Graph
  profile : Profile
  table : SymbolTable
  /-- The inline cycles of the graph. -/
  cycles : List InlineCycle
  normalization : Normalization.Report
  closure : EqualityClosure.Report
  diagnostics : List Diagnostic
deriving DecidableEq, Repr, Inhabited

/-- A declared type, with what its declaration needs. -/
structure Declaration where
  symbol : Symbol
  members : List Binding
  dependencies : List SymbolRef
  /-- The inline cycle that the type belongs to. -/
  cycle : Option Nat
deriving DecidableEq, Repr, Inhabited

/-- Whether a member of a declared type is boxed. -/
def Declaration.needsBoxing (d : Declaration) (wireName : String) : Bool :=
  d.members.any fun b => b.wireName == wireName && b.symbol.boxed

namespace Build

/-! ## The pipeline -/

/-- The operations that use a record as input or output. -/
def usersOf (g : Graph) (record : ShapeId) : SortedSet ShapeId :=
  Sorted.ofList (g.sources record .input ++ g.sources record .output)

/-- The remark on a copy of a record that several operations use. -/
def cloneRemarks (before after : Graph) (copy : ShapeId) : List Diagnostic :=
  match after.get? copy with
  | none => []
  | some n =>
    match TagSet.cloneOf? n.tags with
    | none => []
    | some source =>
      let users := (usersOf before source).size
      if users > 1 then [.sharedRecordCloned copy source users] else []

/-- The remarks on a normalization. -/
def normalizationRemarks (before after : Graph) (report : Normalization.Report) :
    List Diagnostic :=
  report.cloned.flatMap (cloneRemarks before after) ++ report.created.map .recordSynthesized

/-- Whether a member counts as boxed: it is, or its owner takes no part in the build. -/
def isBroken (t : SymbolTable) (memberId : ShapeId) : Bool :=
  t.isBoxed memberId || !t.isBound memberId.root

/-- Resolves all symbols of a graph. -/
def resolveGraph (r : Resolver) : Except Fault Session :=
  match r.resolveAll {} with
  | .ok _ s => .ok s
  | .error e _ => .error e

/-- Builds a schema. -/
def run (g : Graph) (settings : Settings) : Except Fault Build := do
  let (normalized, normalization) ← g.normalize settings.synthetic
  let remarks := normalizationRemarks g normalized normalization
  let (graph, closure) ← normalized.closeEquality
  let session ← resolveGraph (settings.resolver graph)
  match InlineCycle.unbroken graph (isBroken session.table) with
  | group :: _ => .error (.missingIndirection group.members)
  | [] =>
    return {
      graph, profile := settings.profile, table := session.table
      cycles := InlineCycle.all graph, normalization, closure
      diagnostics := remarks ++ session.diagnostics }

/-! ## Declarations -/

/-- The declaration of a shape, if it has one. -/
def declaration? (b : Build) (id : ShapeId) : Option Declaration := do
  let symbol ← b.table.get? id
  if symbol.isDeclared then
    return {
      symbol, members := (b.table.members? id).getD []
      dependencies := symbol.dependencies.toList
      cycle := (InlineCycle.of? b.cycles id).map InlineCycle.index }
  else none

/-- The declared shapes that a declared shape depends on. -/
def dependenciesIn (t : SymbolTable) (id : ShapeId) : List ShapeId :=
  match t.get? id with
  | none => []
  | some s =>
    (s.dependencies.toList.map SymbolRef.shape).filter fun id =>
      (t.get? id).any Symbol.isDeclared

/-- The declared shapes, each after those it depends on; shapes that depend on each other stand
together, in order. -/
def declarationOrder (t : SymbolTable) : List ShapeId :=
  let declared := t.declared.map Symbol.key
  (Components.components declared (dependenciesIn t)).flatMap ShapeId.sort

/-- The declarations, each after those it depends on. -/
def declarations (b : Build) : List Declaration :=
  (declarationOrder b.table).filterMap b.declaration?

/-- The records that are copies of a record. -/
def clonesOf (b : Build) (source : ShapeId) : List ShapeId :=
  (b.graph.nodes.toList.filter fun n => TagSet.cloneOf? n.tags = some source).map Node.id

end Build

end SchemaSymbols
