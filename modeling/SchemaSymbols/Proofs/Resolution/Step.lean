/-
  The steps of a resolution, and what every session satisfies.

  A run is a chain of few kinds of step, and this module says once what each of them can do and when
  it happens.  A `SymbolStep` gives a shape its symbol, or opens or closes a collection; it does not
  touch the walks.  A `Step` is one of these, or it moves the walks on: it enters a record or union,
  binds a member, binds a member and enters its target, or leaves.  Binding a member and entering
  its target is one step, because in between the member has a target that nothing accounts for.
  A `Move` is a step, or takes a shape out of the queue, or gives up all walks.

  All shapes that take part belong to a set `R` that references do not lead out of.  `Sound` is what
  the steps keep: the symbols are those that leaves and collections give, bound members follow the
  declared ones one by one, and the two stacks hold distinct shapes that are not finished yet.
-/
import Mathlib.Data.List.Chain
import Mathlib.Data.List.Forall2
import SchemaSymbols.Proofs.Resolution.Parts
import SchemaSymbols.Resolution.Walk

namespace SchemaSymbols

open Relation

/-- The collection `outer` holds `inner` as element, key or value. -/
def Graph.Holds (g : Graph) (outer inner : ShapeId) : Prop :=
  ∃ n, g.get? outer = some n ∧ ∃ m ∈ n.shape.elements, m.target = inner

/-- No reference leads out of a set of shapes. -/
def Graph.Closed (g : Graph) (R : ShapeId → Prop) : Prop := ∀ x y, R x → g.Refers x y → R y

/-- References do not lead out of a closed set, however many are followed. -/
theorem Graph.Closed.of_reaches {g : Graph} {R : ShapeId → Prop} {x y : ShapeId} (h : g.Closed R)
    (hxy : g.Reaches x y) (hx : R x) : R y := by
  induction hxy with
  | refl => exact hx
  | tail _ hyz ih => exact h _ _ ih hyz

theorem Graph.Holds.refers {g : Graph} {x y : ShapeId} (h : g.Holds x y) : g.Refers x y := by
  obtain ⟨n, hn, m, hm, rfl⟩ := h
  exact Graph.refers_of_mem_elements hn hm

/-! ## The steps -/

section Steps

variable (r : Resolver) (R : ShapeId → Prop)

/-- A step that gives a symbol, or opens or closes a collection. -/
inductive SymbolStep : Session → Session → Prop
  /-- A shape other than a collection gets its symbol. -/
  | leaf {s : Session} {n : Node} {leaf : Leaf} (within : R n.id)
      (node : r.graph.get? n.id = some n) (fresh : s.table.contains n.id = false)
      (made : r.leaf n = .ok leaf) : SymbolStep s (s.addLeaf leaf)
  /-- A collection is opened, inside the innermost open one. -/
  | opened {s : Session} {n : Node} (within : R n.id) (node : r.graph.get? n.id = some n)
      (container : n.shape.isContainer = true) (fresh : s.table.contains n.id = false)
      (closed : n.id ∉ s.containers)
      (inside : ∀ top ∈ s.containers.head?, r.graph.Holds top n.id) :
      SymbolStep s (s.openContainer n.id)
  /-- The innermost open collection gets its symbol. -/
  | closed {s : Session} {n : Node} {rest queued : List ShapeId} {symbol : Symbol}
      (node : r.graph.get? n.id = some n) (top : s.containers = n.id :: rest)
      (built : r.collection s.table n = .ok (symbol, queued)) :
      SymbolStep s (s.closeContainer symbol queued)

/-- The innermost walk binds its next member to the symbol of a value. -/
structure Binds (s : Session) (f : Frame) (rest : List Frame) (m : Member) (name : String)
    (target : Node) (symbol : Symbol) : Prop where
  top : s.frames = f :: rest
  next : ∃ todo, f.todo = (m, name) :: todo
  idle : s.containers = []
  node : r.graph.get? m.target = some target
  value : target.shape.isValue = true
  known : s.table.get? m.target = some symbol

/-- The binding of the next member: it is boxed if its target is being walked or it is tagged. -/
def nextBinding (s : Session) (f : Frame) (m : Member) (name : String) (symbol : Symbol) :
    Binding :=
  r.memberBinding f.owner m name symbol (s.isResolving m.target || m.tags.contains .recursive)

/-- A step of a resolution. -/
inductive Step : Session → Session → Prop
  | symbol {s s' : Session} (step : SymbolStep r R s s') : Step s s'
  /-- A record or union is entered while no walk is under way. -/
  | enter {s : Session} {n : Node} (within : R n.id) (node : r.graph.get? n.id = some n)
      (aggregate : n.shape.isAggregate = true) (known : s.table.contains n.id = true)
      (unbound : s.table.isBound n.id = false) (noWalk : s.frames = []) (idle : s.containers = []) :
      Step s (s.enter n (r.memberNames n))
  /-- A member is bound whose target needs no walk: it is no record or union, or is bound, or is
  being walked. -/
  | bind {s : Session} {f : Frame} {rest : List Frame} {m : Member} {name : String}
      {target : Node} {symbol : Symbol} (binds : Binds r s f rest m name target symbol)
      (stays : s.isResolving m.target = true ∨ target.shape.isAggregate = false ∨
        s.table.isBound m.target = true) :
      Step s (s.bindNext (nextBinding r s f m name symbol))
  /-- A member is bound and its target is entered. -/
  | descend {s : Session} {f : Frame} {rest : List Frame} {m : Member} {name : String}
      {target : Node} {symbol : Symbol} (binds : Binds r s f rest m name target symbol)
      (apart : s.isResolving m.target = false) (aggregate : target.shape.isAggregate = true)
      (unbound : s.table.isBound m.target = false) :
      Step s ((s.bindNext (nextBinding r s f m name symbol)).enter target (r.memberNames target))
  /-- The innermost walk has bound all members. -/
  | leave {s : Session} {f : Frame} {rest : List Frame} (top : s.frames = f :: rest)
      (done : f.todo = []) (idle : s.containers = []) : Step s s.leave

/-- A step, or a change between the steps. -/
inductive Move : Session → Session → Prop
  | step {s s' : Session} (step : Step r R s s') : Move s s'
  /-- The next shape of the queue is taken out. -/
  | dequeue {s : Session} {id : ShapeId} {rest : List ShapeId} (queue : s.pending = id :: rest) :
      Move s { s with pending := rest }
  /-- All walks are given up. -/
  | abandon {s : Session} : Move s s.abandon

end Steps

/-! ## What every session satisfies -/

namespace Resolver

variable (r : Resolver)

/-- The symbol under `id` is the one that the leaf or the collection of its node gives. -/
def Explains (t : SymbolTable) (id : ShapeId) (symbol : Symbol) : Prop :=
  ∃ n, r.graph.get? id = some n ∧
    ((∃ leaf, r.leaf n = .ok leaf ∧ leaf.symbol = symbol) ∨
      ∃ queued, r.collection t n = .ok (symbol, queued))

/-- A binding is that of a declared member with its name; tagged members are boxed. -/
def BoundTo (t : SymbolTable) (owner : Node) (declared : Member × String) (b : Binding) : Prop :=
  ∃ target symbol boxed, r.graph.get? declared.1.target = some target ∧
    target.shape.isValue = true ∧ t.get? declared.1.target = some symbol ∧
    (declared.1.tags.contains .recursive = true → boxed = true) ∧
    b = r.memberBinding owner declared.1 declared.2 symbol boxed

/-- Bound members are those of a record or union with a symbol, in the order of declaration. -/
def BoundAll (t : SymbolTable) (id : ShapeId) (members : List Binding) : Prop :=
  ∃ owner, r.graph.get? id = some owner ∧ owner.shape.isAggregate = true ∧
    t.contains id = true ∧ List.Forall₂ (r.BoundTo t owner) (r.namedMembers owner) members

end Resolver

section Sound

variable (r : Resolver) (R : ShapeId → Prop)

/-- The symbols and bound members of a table are those of shapes in `R`. -/
structure TableSound (t : SymbolTable) : Prop where
  symbols : ∀ id symbol, t.get? id = some symbol → R id ∧ r.Explains t id symbol
  members : ∀ id members, t.members? id = some members → R id ∧ r.BoundAll t id members

/-- A walk is that of a record or union that is not bound yet, and has bound the first of its
members. -/
structure FrameSound (t : SymbolTable) (f : Frame) : Prop where
  within : R f.owner.id
  node : r.graph.get? f.owner.id = some f.owner
  aggregate : f.owner.shape.isAggregate = true
  known : t.contains f.owner.id = true
  unbound : t.isBound f.owner.id = false
  progress : ∃ done, r.namedMembers f.owner = done ++ f.todo ∧
    List.Forall₂ (r.BoundTo t f.owner) done f.bound

/-- An open collection is one of the graph that has no symbol yet. -/
structure OpenSound (t : SymbolTable) (id : ShapeId) : Prop where
  within : R id
  node : ∃ n, r.graph.get? id = some n ∧ n.shape.isContainer = true
  fresh : t.contains id = false

/-- What every session satisfies, also in the middle of a run. -/
structure Sound (s : Session) : Prop where
  table : TableSound r R s.table
  frames : ∀ f ∈ s.frames, FrameSound r R s.table f
  owners : (s.frames.map fun f => f.owner.id).Nodup
  containers : ∀ id ∈ s.containers, OpenSound r R s.table id
  distinct : s.containers.Nodup
  nested : s.containers.IsChain fun inner outer => r.graph.Holds outer inner
  pending : ∀ id ∈ s.pending, R id

end Sound

end SchemaSymbols
