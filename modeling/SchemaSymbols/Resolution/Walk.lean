/-
  Walks: how a resolution gets from one shape to all that it needs.

  Two stacks drive it.  The stack of collections makes sure that a collection is built after the
  collections inside it; meeting one that is still open means that nothing but collections lie on a
  cycle.  The stack of frames walks records and unions depth first; a member whose target is still
  open closes a cycle and is boxed.  Shapes behind collections, operations and services wait in a
  queue until the walk is over.

  Each loop has a budget that it cannot exhaust: a collection is opened and closed once, a member
  is bound once, and a shape queues others once, when it gets its symbol.
-/
import SchemaSymbols.Resolution.Collection
import SchemaSymbols.Resolution.Session

namespace SchemaSymbols.Resolver

open ResolveM

/-! ## Symbols -/

/-- Looks at the elements of a collection in turn and gives symbols to those that are no
collections; stops at the first collection without a symbol. -/
def prepare (r : Resolver) (n : Node) : List Member → ResolveM (Option ShapeId)
  | [] => return none
  | m :: rest => do
    let target ← lift (r.valueTarget (n.memberId m) m.target)
    if (← get).table.contains target.id then prepare r n rest
    else if target.shape.isContainer then
      if (← get).containers.contains target.id then throw (.containerCycle target.id)
      else return some target.id
    else
      let leaf ← lift (r.leaf target)
      modify (·.addLeaf leaf)
      prepare r n rest

/-- One step with the innermost open collection: opens a collection inside it, or closes it. -/
def containerStep (r : Resolver) (top : ShapeId) : ResolveM Unit := do
  let n ← lift (r.graph.require top)
  match ← r.prepare n n.shape.elements with
  | some inner => modify (·.openContainer inner)
  | none =>
    let (symbol, queued) ← lift (r.collection (← get).table n)
    modify (·.closeContainer symbol queued)

/-- Builds the open collections, the innermost first. -/
def buildContainers (r : Resolver) : Nat → ResolveM Unit
  | 0 => return ()
  | fuel + 1 => do
    match (← get).containers with
    | [] => return ()
    | top :: _ =>
      r.containerStep top
      r.buildContainers fuel

/-- Enough steps to open and close every collection. -/
def containerBudget (r : Resolver) : Nat := 2 * r.graph.size

/-- The symbol of a shape, which is made if there is none. -/
def symbol (r : Resolver) (id : ShapeId) : ResolveM Symbol := do
  match (← get).table.get? id with
  | some s => return s
  | none =>
    let n ← lift (r.graph.require id)
    if n.shape.isContainer then
      modify (·.openContainer id)
      r.buildContainers r.containerBudget
    else
      let leaf ← lift (r.leaf n)
      modify (·.addLeaf leaf)
    match (← get).table.get? id with
    | some s => return s
    | none => throw (.missingShape id)

/-! ## Members -/

/-- The default of a record member: its own, or, unless it may be null, that of its target. -/
def memberDefault? (m : Member) (target : Symbol) (nullable : Bool) : Option String :=
  match TagSet.default? m.tags with
  | some literal => some literal
  | none => if nullable then none else target.default?

/-- The symbol of a member: that of its target, adjusted to this use. -/
def memberSymbol (r : Resolver) (owner : Node) (m : Member) (target : Symbol) (boxed : Bool) :
    Symbol :=
  if owner.shape.isUnion then target.atUse false none boxed
  else
    let nullable := r.policy.makesNullable owner m
    target.atUse nullable (memberDefault? m target nullable) boxed

/-- A member, bound to the symbol of its target. -/
def memberBinding (r : Resolver) (owner : Node) (m : Member) (name : String) (target : Symbol)
    (boxed : Bool) : Binding where
  id := owner.memberId m
  name
  wireName := m.name
  sensitive := m.tags.contains .sensitive
  symbol := r.memberSymbol owner m target boxed

/-- Starts to bind the members of a record or union. -/
def enter (r : Resolver) (n : Node) : ResolveM Unit := modify (·.enter n (r.memberNames n))

/-- Binds the next member of the innermost frame, and enters its target if that is a record or
union not met before. -/
def bindMember (r : Resolver) (owner : Node) (m : Member) (name : String) : ResolveM Unit := do
  let target ← lift (r.valueTarget (owner.memberId m) m.target)
  let targetSymbol ← r.symbol target.id
  let closesCycle := (← get).isResolving target.id
  let boxed := closesCycle || m.tags.contains .recursive
  modify (·.bindNext (r.memberBinding owner m name targetSymbol boxed))
  if !closesCycle && target.shape.isAggregate && !(← get).table.isBound target.id then
    r.enter target

/-- One step of the innermost walk: binds a member, or leaves. -/
def walkStep (r : Resolver) (f : Frame) : ResolveM Unit :=
  match f.todo with
  | [] => modify Session.leave
  | (m, name) :: _ => r.bindMember f.owner m name

/-- Walks until all open records and unions are bound. -/
def walk (r : Resolver) : Nat → ResolveM Unit
  | 0 => return ()
  | fuel + 1 => do
    match (← get).frames with
    | [] => return ()
    | f :: _ =>
      r.walkStep f
      r.walk fuel

/-- Enough steps to bind every member and to leave every record and union. -/
def walkBudget (r : Resolver) : Nat :=
  r.graph.nodes.toList.foldl (fun steps n => steps + n.shape.members.length + 1) 0

/-! ## Shapes -/

/-- Gives a shape its symbol and, if it is a record or union, binds its members and those of all
records and unions inside it. -/
def visit (r : Resolver) (id : ShapeId) : ResolveM Symbol := orAbandon do
  let symbol ← r.symbol id
  let n ← lift (r.graph.require id)
  let s ← get
  if n.shape.isAggregate && !s.table.isBound id && !s.isResolving id then
    r.enter n
    r.walk r.walkBudget
  return symbol

/-- Visits the shapes in the queue. -/
def drain (r : Resolver) : Nat → ResolveM Unit
  | 0 => return ()
  | fuel + 1 => do
    match (← get).pending with
    | [] => return ()
    | next :: rest =>
      modify ({ · with pending := rest })
      let _ ← r.visit next
      r.drain fuel

/-- Enough visits to empty the queue: each shape without a symbol can queue what it refers to. -/
def drainBudget (r : Resolver) (s : Session) : Nat :=
  let unknown := r.graph.nodes.toList.filter fun n => !s.table.contains n.id
  unknown.foldl (fun visits n => visits + n.shape.references.length) s.pending.length

/-- Resolves a shape and everything it needs. -/
def resolve (r : Resolver) (id : ShapeId) : ResolveM Symbol := do
  let symbol ← r.visit id
  r.drain (r.drainBudget (← get))
  return symbol

/-- Resolves shapes one after the other. -/
def resolveEach (r : Resolver) : List ShapeId → ResolveM Unit
  | [] => return ()
  | id :: rest => do
    let _ ← r.resolve id
    r.resolveEach rest

/-- Resolves all roots, and checks that no two declared types have one name. -/
def resolveAll (r : Resolver) : ResolveM Unit := do
  r.resolveEach r.roots
  lift (← get).table.checkNames

end SchemaSymbols.Resolver
