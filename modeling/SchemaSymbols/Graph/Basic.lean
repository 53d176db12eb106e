/-
  Schema graphs: shapes by identifier, and an index of the references between them.

  The index holds one edge for each reference that a shape makes, repetitions included, and the
  queries about edges read the index alone.  `Graph.ofNodes` and `Graph.insert` refuse a repeated
  identifier and a reference to a shape that is not there.  `Graph.WellFormed` says what they
  promise: every reference leads to a shape of the graph, and the index lists exactly the
  references of the shapes.
-/
import SchemaSymbols.Fault

namespace SchemaSymbols

/-- A reference from one shape to another. -/
structure Edge where
  source : ShapeId
  kind : EdgeKind
  target : ShapeId
deriving DecidableEq, Repr, Inhabited

/-- The references that a node makes, as edges. -/
def Node.edges (n : Node) : List Edge :=
  n.shape.references.map fun r => ⟨n.id, r.1, r.2⟩

/-- Shapes by identifier, and the edges between them. -/
structure Graph where
  nodes : Sorted Node.id := .empty
  edges : List Edge := []
deriving DecidableEq, Repr, Inhabited

namespace Graph

/-! ## Queries -/

/-- The node of an identifier. -/
def get? (g : Graph) (id : ShapeId) : Option Node := g.nodes.find? id

/-- Whether a shape is there. -/
def contains (g : Graph) (id : ShapeId) : Bool := g.nodes.contains id

/-- The node of an identifier, which has to be there. -/
def require (g : Graph) (id : ShapeId) : Except Fault Node :=
  match g.get? id with
  | some n => .ok n
  | none => .error (.missingShape id)

/-- The number of shapes. -/
def size (g : Graph) : Nat := g.nodes.size

/-- The number of edges. -/
def edgeCount (g : Graph) : Nat := g.edges.length

/-- The shapes that are operations, by identifier. -/
def operations (g : Graph) : List Node := g.nodes.toList.filter fun n => n.shape.isOperation

/-- The shapes that are services, by identifier. -/
def services (g : Graph) : List Node := g.nodes.toList.filter fun n => n.shape.isService

/-- The owner of a member and the member itself. -/
def member? (g : Graph) (memberId : ShapeId) : Option (Node × Member) := do
  let owner ← g.get? memberId.root
  let member ← owner.member? (← memberId.member)
  return (owner, member)

/-- The shapes that edges of a kind lead to from `id`, each once, in order. -/
def targets (g : Graph) (id : ShapeId) (kind : EdgeKind) : List ShapeId :=
  (Sorted.ofList ((g.edges.filter fun e => e.source = id ∧ e.kind = kind).map Edge.target) :
    SortedSet ShapeId).toList

/-- The shapes from which edges of a kind lead to `id`, each once, in order. -/
def sources (g : Graph) (id : ShapeId) (kind : EdgeKind) : List ShapeId :=
  (Sorted.ofList ((g.edges.filter fun e => e.target = id ∧ e.kind = kind).map Edge.source) :
    SortedSet ShapeId).toList

/-- Whether an identifier belongs to a record. -/
def isRecord (g : Graph) (id : ShapeId) : Bool :=
  match g.get? id with
  | some n => n.shape.isRecord
  | none => false

/-- Whether an identifier belongs to a record or union. -/
def isAggregate (g : Graph) (id : ShapeId) : Bool :=
  match g.get? id with
  | some n => n.shape.isAggregate
  | none => false

/-! ## Construction -/

/-- Adds a node without its edges. -/
def add (g : Graph) (n : Node) : Except Fault Graph :=
  if g.contains n.id then .error (.duplicateShape n.id)
  else .ok { g with nodes := g.nodes.insert n }

/-- Adds the edges of a node. -/
def link (g : Graph) (n : Node) : Except Fault Graph :=
  match n.shape.references.find? fun r => !g.contains r.2 with
  | some r => .error (.danglingReference n.id r.2)
  | none => .ok { g with edges := g.edges ++ n.edges }

/-- The graph of a list of nodes.  Repeated identifiers are found first, in the order of the list;
then dangling references, in the order of identifiers. -/
def ofNodes (nodes : List Node) : Except Fault Graph := do
  let g ← nodes.foldlM add {}
  g.nodes.toList.foldlM link g

/-- Adds a node that refers to shapes of the graph or to itself. -/
def insert (g : Graph) (n : Node) : Except Fault Graph :=
  match n.shape.references.find? fun r => !g.contains r.2 && r.2 != n.id with
  | some r => .error (.danglingReference n.id r.2)
  | none => do (← g.add n).link n

/-! ## Changes -/

/-- Tags a node, and says whether the tag is new. -/
def addTag (g : Graph) (id : ShapeId) (t : Tag) : Except Fault (Bool × Graph) := do
  let n ← g.require id
  return (!n.tags.contains t, { g with nodes := g.nodes.insert (n.withTag t) })

/-- Whether an edge leads from an operation to one of its sides. -/
def isSideOf (operation : ShapeId) (e : Edge) : Bool :=
  e.source = operation && (e.kind = .input || e.kind = .output)

/-- The positions at which an index has edges to the sides of an operation, the last one first. -/
def sidePositions (operation : ShapeId) (edges : List Edge) : List Nat :=
  ((edges.zipIdx.filter fun e => isSideOf operation e.1).map Prod.snd).reverse

/-- Takes out the edge at a position.  The last edge of the index moves to its place. -/
def removeEdge (edges : List Edge) (position : Nat) : List Edge :=
  match edges.getLast? with
  | some last => if position < edges.length then (edges.set position last).dropLast else edges
  | none => edges

/-- Gives an operation new records for its two sides.  The edges to its old sides are taken out from
the last one down, so that no edge that has still to go is moved. -/
def setSides (g : Graph) (operation input output : ShapeId) : Except Fault Graph :=
  match [input, output].find? fun id => !g.contains id with
  | some id => .error (.danglingReference operation id)
  | none =>
    match g.get? operation with
    | some ⟨id, .operation _ _ errors, tags⟩ =>
      .ok {
        nodes := g.nodes.insert ⟨id, .operation (some input) (some output) errors, tags⟩
        edges := (sidePositions operation g.edges).foldl removeEdge g.edges
          ++ [⟨operation, .input, input⟩, ⟨operation, .output, output⟩] }
    | _ => .error (.missingShape operation)

/-! ## Well-formed graphs -/

/-- Every reference leads to a shape of the graph, and the index lists the references. -/
structure WellFormed (g : Graph) : Prop where
  /-- No reference dangles. -/
  closed : ∀ n ∈ g.nodes, ∀ r ∈ n.shape.references, g.contains r.2 = true
  /-- The index holds each reference as often as it is made. -/
  indexed : g.edges.Perm (g.nodes.toList.flatMap Node.edges)

end Graph

end SchemaSymbols
