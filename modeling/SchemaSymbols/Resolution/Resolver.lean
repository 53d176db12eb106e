/-
  Resolvers: a graph seen through a target language.

  A resolver knows how shapes are named and where their declarations go.  Everything here is a
  function of the graph and the settings; what changes during a resolution is kept elsewhere.
-/
import SchemaSymbols.Diagnostic
import SchemaSymbols.Graph.Reachability
import SchemaSymbols.Naming.Assignment
import SchemaSymbols.Nullability
import SchemaSymbols.Symbol.Basic

namespace SchemaSymbols

/-- Where types are declared, and how names are chosen. -/
structure ResolverOptions where
  /-- The namespace of all symbols, its parts divided by points. -/
  rootNamespace : String := "Models"
  /-- The directory of all files. -/
  modelsDir : String := "Sources/Models"
  /-- Words to escape besides those that the language reserves. -/
  reservedWords : List String := []
  /-- The fallback variant, if it is not that of the profile. -/
  fallbackVariant : Option String := none
  naming : NamingOptions := {}
deriving DecidableEq, Repr, Inhabited

/-- A graph seen through a target language. -/
structure Resolver where
  graph : Graph
  profile : Profile
  policy : NullabilityPolicy
  namer : Namer
  root : List String
  modelsDir : List Char
  fallbackVariant : String

namespace Resolver

/-- A text without the characters `c` at its end. -/
def trimEnd (c : Char) (s : List Char) : List Char := (s.reverse.dropWhile (· = c)).reverse

/-- A text without the characters `c` at both ends. -/
def trimBoth (c : Char) (s : List Char) : List Char := trimEnd c (s.dropWhile (· = c))

/-- A text without any `r#` it starts with. -/
def trimRaw : List Char → List Char
  | 'r' :: '#' :: rest => trimRaw rest
  | s => s

/-- The resolver of a graph. -/
def new (graph : Graph) (profile : Profile) (policy : NullabilityPolicy) (o : ResolverOptions) :
    Resolver where
  graph
  profile
  policy
  namer := ⟨profile.escaper o.reservedWords, o.naming⟩
  root := ((Text.pieces '.' o.rootNamespace.toList).filter (· ≠ [])).map String.ofList
  modelsDir := trimEnd '/' o.modelsDir.toList
  fallbackVariant := o.fallbackVariant.getD profile.fallbackVariant

/-! ## Names and places -/

/-- The name of a shape's symbol. -/
def symbolName (r : Resolver) (n : Node) : String :=
  if n.shape.isOperation then
    r.namer.escaper.escape (r.namer.options.apply r.profile.operationCasing n.id.name)
  else r.namer.typeName n.id.name

/-- The remark that a type name had to be escaped. -/
def nameRemarks (r : Resolver) (n : Node) : List Diagnostic :=
  let raw := r.namer.options.typeName n.id.name
  let name := r.namer.typeName n.id.name
  if name ≠ raw then [.escaped n.id raw name] else []

/-- The namespace below the root that a shape belongs into. -/
def nesting (r : Resolver) (n : Node) : List String :=
  (TagSet.nestedUnder? n.tags).toList.map fun service => r.namer.typeName service.name

/-- The namespace of a shape. -/
def scopeOf (r : Resolver) (n : Node) : List String := r.root ++ r.nesting n

/-- A reference to the symbol of a shape. -/
def reference (r : Resolver) (n : Node) : SymbolRef := ⟨n.id, r.scopeOf n, r.symbolName n⟩

/-- The backtick, which does not go into file names. -/
def backtick : Char := Char.ofNat 96

/-- The file that declares a shape, below the directory for its namespace. -/
def fileOf (r : Resolver) (n : Node) : String :=
  let directory := if r.modelsDir = [] then [] else [r.modelsDir]
  let nested := (r.nesting n).map fun s => trimBoth backtick s.toList
  let stem := trimRaw (trimBoth backtick (r.namer.typeName n.id.name).toList)
  let file := stem ++ '.' :: r.profile.fileExtension.toList
  String.ofList (List.intercalate ['/'] (directory ++ nested ++ [file]))

/-! ## Dependencies -/

/-- What a collection consists of; other shapes are not looked into. -/
def elementTargets (g : Graph) (id : ShapeId) : List ShapeId :=
  match g.get? id with
  | some n => n.shape.elements.map Member.target
  | none => []

/-- The shapes that the members of a record or union lead to, through collections. -/
def memberReach (g : Graph) (n : Node) : List ShapeId :=
  let seeds : SortedSet ShapeId := Sorted.ofList (n.shape.members.map Member.target)
  (g.levels (elementTargets g) seeds).flatMap Sorted.toList

/-- The other declared types that the members of a record or union lead to. -/
def dependencies (r : Resolver) (n : Node) : SortedSet SymbolRef :=
  let reached := (memberReach r.graph n).filterMap r.graph.get?
  Sorted.ofList <|
    (reached.filter fun t => t.shape.isDeclared && t.id != n.id).map r.reference

/-- The target of a member, which must not be an operation or a service. -/
def valueTarget (r : Resolver) (memberId target : ShapeId) : Except Fault Node := do
  let n ← r.graph.require target
  if n.shape.isOperation || n.shape.isService then
    .error (.unsupportedMemberTarget memberId target n.shape.word)
  else .ok n

/-! ## The order of resolution -/

/-- The shapes to resolve: services, then what they reach, each in order.  Without services,
everything. -/
def roots (r : Resolver) : List ShapeId :=
  let services := r.graph.services.map Node.id
  if services.isEmpty then r.graph.nodes.keys
  else services ++ r.graph.surface.toList.filter fun id => !services.contains id

end Resolver

end SchemaSymbols
