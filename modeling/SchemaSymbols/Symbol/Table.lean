/-
  Symbol tables: the symbols of shapes, and the bound members of records and unions.
-/
import SchemaSymbols.Fault
import SchemaSymbols.Symbol.Basic

namespace SchemaSymbols

/-- Symbols by shape, and bound members by owner. -/
structure SymbolTable where
  symbols : Sorted Symbol.key := .empty
  bindings : Sorted Bindings.owner := .empty
deriving DecidableEq, Repr, Inhabited

namespace SymbolTable

/-- The symbol of a shape. -/
def get? (t : SymbolTable) (id : ShapeId) : Option Symbol := t.symbols.find? id

/-- Whether a shape has a symbol. -/
def contains (t : SymbolTable) (id : ShapeId) : Bool := t.symbols.contains id

/-- The number of symbols. -/
def size (t : SymbolTable) : Nat := t.symbols.size

/-- Whether there are no symbols. -/
def isEmpty (t : SymbolTable) : Bool := t.symbols.isEmpty

/-- The bound members of a record or union. -/
def members? (t : SymbolTable) (id : ShapeId) : Option (List Binding) :=
  (t.bindings.find? id).map Bindings.members

/-- Whether the members of a record or union are bound. -/
def isBound (t : SymbolTable) (id : ShapeId) : Bool := t.bindings.contains id

/-- The binding of a member. -/
def member? (t : SymbolTable) (memberId : ShapeId) : Option Binding := do
  let wireName ← memberId.member
  let members ← t.members? memberId.root
  members.find? fun b => b.wireName == wireName

/-- Whether a member is boxed. -/
def isBoxed (t : SymbolTable) (memberId : ShapeId) : Bool :=
  (t.member? memberId).any fun b => b.symbol.boxed

/-- All boxed members. -/
def boxedMembers (t : SymbolTable) : SortedSet ShapeId :=
  let bindings := t.bindings.toList.flatMap Bindings.members
  Sorted.ofList ((bindings.filter fun b => b.symbol.boxed).map Binding.id)

/-- The declared types that a record or union refers to. -/
def dependencies? (t : SymbolTable) (id : ShapeId) : Option (SortedSet SymbolRef) := do
  let s ← t.get? id
  match s.kind with
  | .record => some s.dependencies
  | .union _ => some s.dependencies
  | _ => none

/-- The symbols with a declaration of their own, by shape. -/
def declared (t : SymbolTable) : List Symbol := t.symbols.toList.filter Symbol.isDeclared

/-- Files a symbol under its shape. -/
def addSymbol (t : SymbolTable) (s : Symbol) : SymbolTable :=
  { t with symbols := t.symbols.insert s }

/-- Files the bound members of a record or union. -/
def bind (t : SymbolTable) (owner : ShapeId) (members : List Binding) : SymbolTable :=
  { t with bindings := t.bindings.insert ⟨owner, members⟩ }

/-- Whether two symbols have one qualified name. -/
def sameName (a b : Symbol) : Bool := a.scope = b.scope && a.displayName = b.displayName

/-- The first symbol with the name of one before it, after that one. -/
def collisionIn? (seen : List Symbol) : List Symbol → Option (Symbol × Symbol)
  | [] => none
  | s :: rest =>
    match seen.find? (sameName s) with
    | some earlier => some (earlier, s)
    | none => collisionIn? (s :: seen) rest

/-- Refuses two declared types with one qualified name. -/
def checkNames (t : SymbolTable) : Except Fault Unit :=
  match collisionIn? [] t.declared with
  | some (first, second) =>
    .error (.declarationCollision second.displayName first.shape second.shape)
  | none => .ok ()

end SymbolTable

end SchemaSymbols
