/-
  Sessions: what a resolution has found so far, and what it is busy with.

  Steps of a resolution change the session even when they fail: symbols that were found stay, and
  so do the shapes queued for later.  Only the walks that were under way are given up.
-/
import SchemaSymbols.Diagnostic
import SchemaSymbols.Resolution.Leaf
import SchemaSymbols.Symbol.Table

namespace SchemaSymbols

/-- A record or union whose members are being bound. -/
structure Frame where
  owner : Node
  /-- The members to come, with their names. -/
  todo : List (Member × String)
  /-- The members bound, in declaration order. -/
  bound : List Binding := []
deriving DecidableEq, Repr, Inhabited

/-- The state of a resolution. -/
structure Session where
  table : SymbolTable := {}
  /-- The records and unions being walked, the innermost first. -/
  frames : List Frame := []
  /-- The collections being built, the innermost first. -/
  containers : List ShapeId := []
  /-- The shapes to resolve when the current walk ends, the next one first. -/
  pending : List ShapeId := []
  /-- The deepest nesting of walks so far. -/
  maxDepth : Nat := 0
  diagnostics : List Diagnostic := []
deriving DecidableEq, Repr, Inhabited

namespace Session

/-- Whether the members of a shape are being bound. -/
def isResolving (s : Session) (id : ShapeId) : Bool := s.frames.any fun f => f.owner.id == id

/-- Takes in a leaf. -/
def addLeaf (s : Session) (leaf : Leaf) : Session :=
  { s with
    table := s.table.addSymbol leaf.symbol
    pending := s.pending ++ leaf.queued
    diagnostics := s.diagnostics ++ leaf.remarks }

/-- Starts to build a collection. -/
def openContainer (s : Session) (id : ShapeId) : Session :=
  { s with containers := id :: s.containers }

/-- Takes in the symbol of the innermost collection. -/
def closeContainer (s : Session) (symbol : Symbol) (queued : List ShapeId) : Session :=
  { s with
    table := s.table.addSymbol symbol
    containers := s.containers.tail
    pending := s.pending ++ queued }

/-- Starts to bind the members of a record or union. -/
def enter (s : Session) (owner : Node) (names : List AssignedName) : Session :=
  { s with
    frames := ⟨owner, owner.shape.members.zip (names.map AssignedName.name), []⟩ :: s.frames
    maxDepth := max s.maxDepth (s.frames.length + 1)
    diagnostics := s.diagnostics ++ names.flatMap (AssignedName.remarks owner.id) }

/-- Adds a binding to the innermost frame, which is done with its next member. -/
def bindNext (s : Session) (b : Binding) : Session :=
  match s.frames with
  | [] => s
  | f :: rest =>
    { s with frames := { f with todo := f.todo.tail, bound := f.bound ++ [b] } :: rest }

/-- Files the members of the innermost frame. -/
def leave (s : Session) : Session :=
  match s.frames with
  | [] => s
  | f :: rest => { s with frames := rest, table := s.table.bind f.owner.id f.bound }

/-- Gives up all walks. -/
def abandon (s : Session) : Session := { s with frames := [], containers := [] }

end Session

/-- A step of a resolution: it changes the session, and it may fail. -/
abbrev ResolveM := EStateM Fault Session

namespace ResolveM

/-- A step that does not change the session. -/
def lift {α : Type} : Except Fault α → ResolveM α
  | .ok a => pure a
  | .error e => throw e

/-- A step after whose failure all walks are given up. -/
def orAbandon {α : Type} (x : ResolveM α) : ResolveM α := fun s =>
  match x s with
  | .ok a s => .ok a s
  | .error e s => .error e s.abandon

end ResolveM

end SchemaSymbols
