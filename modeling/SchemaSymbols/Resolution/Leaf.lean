/-
  Leaf symbols: the symbols of all shapes but collections.

  A leaf looks at no other symbol.  Besides the symbol itself it gives the remarks on its names and
  the shapes it leads to, which are resolved later.
-/
import SchemaSymbols.Resolution.Resolver

namespace SchemaSymbols

/-- A symbol with what comes along with it. -/
structure Leaf where
  symbol : Symbol
  remarks : List Diagnostic := []
  /-- Shapes to resolve later. -/
  queued : List ShapeId := []
deriving DecidableEq, Repr, Inhabited

namespace AssignedName

/-- The remarks on an assigned name of a member or variant. -/
def remarks (owner : ShapeId) (a : AssignedName) : List Diagnostic :=
  let id := owner.withMember a.wire
  (if a.candidate ≠ a.cased then [.nameCollision id a.cased a.candidate] else [])
    ++ if a.name ≠ a.candidate then [.escaped id a.candidate a.name] else []

end AssignedName

namespace Resolver

/-- The names of members or variants. -/
def memberNames (r : Resolver) (n : Node) : List AssignedName :=
  let casing := if n.shape.isUnion then r.profile.variantCasing else r.profile.memberCasing
  r.namer.assign casing (n.shape.members.map Member.name)

/-- The remarks on the fallback variant. -/
def fallbackRemarks (r : Resolver) (n : Node) (fallback : String) : List Diagnostic :=
  let wanted := r.namer.escaper.escape r.fallbackVariant
  if fallback ≠ wanted then [.fallbackRenamed n.id wanted fallback] else []

/-- What a declared type must support. -/
def conformances (n : Node) : List Conformance :=
  (if n.tags.contains .equality || n.shape.isEnum then [.equatable, .hashable] else [])
    ++ if (TagSet.blame? n.tags).isSome then [.error] else []

/-- The symbol of a record, union or enumeration. -/
def declaredSymbol (r : Resolver) (n : Node) (kind : SymbolKind) : Symbol where
  shape := n.id
  displayName := r.namer.typeName n.id.name
  scope := r.scopeOf n
  nullable := true
  file? := some (r.fileOf n)
  dependencies := r.dependencies n
  conformances := conformances n
  kind

/-- The symbol of an operation or service. -/
def plainSymbol (r : Resolver) (n : Node) (kind : SymbolKind) : Symbol where
  shape := n.id
  displayName := r.symbolName n
  scope := r.scopeOf n
  nullable := false
  kind

/-- The symbol of a primitive. -/
def primitiveSymbol (r : Resolver) (n : Node) (kind : PrimitiveKind) : Except Fault Symbol :=
  match r.profile.primitiveType? kind with
  | none => .error (.unmappedPrimitive n.id kind r.profile.language)
  | some type =>
    let zero := r.profile.zeroLiteral? kind
    .ok {
      shape := n.id, displayName := type, nullable := zero.isNone, default? := zero
      kind := .builtin kind }

/-- A reference to a shape that an operation or service leads to. -/
def linked (r : Resolver) (id : ShapeId) : Except Fault SymbolRef := do
  return r.reference (← r.graph.require id)

/-- The symbol of a shape that is not a collection. -/
def leaf (r : Resolver) (n : Node) : Except Fault Leaf :=
  match n.shape with
  | .primitive kind => do return { symbol := ← r.primitiveSymbol n kind }
  | .record _ => .ok { symbol := r.declaredSymbol n .record, remarks := r.nameRemarks n }
  | .union _ =>
    let variants := r.memberNames n
    let fallback := r.namer.fallback r.fallbackVariant (variants.map AssignedName.name)
    .ok {
      symbol := r.declaredSymbol n (.union fallback)
      remarks := r.fallbackRemarks n fallback ++ r.nameRemarks n }
  | .enum values =>
    let names := r.namer.assign r.profile.variantCasing (values.map EnumValue.name)
    let fallback := r.namer.fallback r.fallbackVariant (names.map AssignedName.name)
    let variants := List.zipWith (fun (a : AssignedName) (v : EnumValue) => ⟨a.name, v.value⟩)
      names values
    .ok {
      symbol := r.declaredSymbol n (.enum variants fallback)
      remarks := names.flatMap (AssignedName.remarks n.id) ++ r.fallbackRemarks n fallback
        ++ r.nameRemarks n }
  | .operation input output errors => do
    let inputRef ← input.mapM r.linked
    let outputRef ← output.mapM r.linked
    let errorRefs ← errors.mapM r.linked
    return {
      symbol := r.plainSymbol n (.operation inputRef outputRef errorRefs)
      queued := input.toList ++ output.toList ++ errors }
  | .service operations => do
    let refs ← operations.mapM r.linked
    return {
      symbol := r.plainSymbol n (.service refs), remarks := r.nameRemarks n
      queued := operations }
  | other => .error (.unsupportedMemberTarget n.id n.id other.word)

end Resolver

end SchemaSymbols
