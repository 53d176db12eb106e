/-
  Collection symbols: a list, set or map is made from the symbols of its elements.
-/
import SchemaSymbols.Resolution.Resolver
import SchemaSymbols.Symbol.Table

namespace SchemaSymbols.Resolver

/-- The symbol of an element of a collection, and the shapes to resolve later: a record or union
that is reached through a collection starts a walk of its own. -/
def element (r : Resolver) (t : SymbolTable) (container : Node) (m : Member) (nullable : Bool) :
    Except Fault (Symbol × List ShapeId) := do
  let target ← r.valueTarget (container.memberId m) m.target
  match t.get? target.id with
  | none => .error (.missingShape target.id)
  | some s =>
    return (s.atUse nullable none false, if target.shape.isAggregate then [target.id] else [])

/-- The symbol of a collection with the given type. -/
def containerSymbol (n : Node) (type : String) (kind : SymbolKind) : Symbol where
  shape := n.id
  displayName := type
  nullable := true
  kind

/-- Whether the elements of a collection may be null. -/
def isSparse (n : Node) (m : Member) : Bool :=
  m.tags.contains .elementNullable || n.tags.contains .elementNullable

/-- The symbol of a collection all of whose elements have symbols, and the shapes to resolve
later. -/
def collection (r : Resolver) (t : SymbolTable) (n : Node) :
    Except Fault (Symbol × List ShapeId) :=
  let l := r.profile.language
  match n.shape with
  | .list m => do
    let sparse := isSparse n m
    let (s, queued) ← r.element t n m sparse
    let kind := .list s.toSymbolFacts s.kind sparse
    return (containerSymbol n (l.listOf (s.typeExpr l)) kind, queued)
  | .set m => do
    let sparse := isSparse n m
    let (s, queued) ← r.element t n m sparse
    let kind := .set s.toSymbolFacts s.kind sparse
    return (containerSymbol n (l.setOf (s.typeExpr l)) kind, queued)
  | .map key value => do
    let sparse := isSparse n value
    let (k, queuedKey) ← r.element t n key false
    let (v, queuedValue) ← r.element t n value sparse
    let kind := .map k.toSymbolFacts k.kind v.toSymbolFacts v.kind sparse
    let type := l.mapOf (k.typeExpr l) (v.typeExpr l)
    return (containerSymbol n type kind, queuedKey ++ queuedValue)
  | other => .error (.unsupportedMemberTarget n.id n.id other.word)

end SchemaSymbols.Resolver
