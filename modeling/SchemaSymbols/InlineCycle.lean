/-
  Inline cycles: records and unions that contain each other.

  A member whose target is a record or union is stored inside its owner, so a cycle of such members
  describes a value of infinite size unless one of them is boxed.  Collections keep their elements
  elsewhere and take no part.
-/
import SchemaSymbols.Components
import SchemaSymbols.Graph.Basic

namespace SchemaSymbols

/-- A member that is stored inside its owner. -/
structure InlineEdge where
  owner : ShapeId
  member : ShapeId
  target : ShapeId
deriving DecidableEq, Repr, Inhabited

/-- Shapes that all contain each other, or one shape that contains itself. -/
structure InlineCycle where
  /-- The position of the group among all groups. -/
  index : Nat
  /-- The shapes of the group, in order. -/
  members : List ShapeId
  /-- The members that stay inside the group, in order. -/
  internal : List ShapeId
  /-- Whether the group is one shape. -/
  selfReferential : Bool
deriving DecidableEq, Repr, Inhabited

namespace InlineCycle

/-- The inline members of a graph that are not `boxed`. -/
def edges (g : Graph) (boxed : ShapeId → Bool) : List InlineEdge :=
  let aggregates := g.nodes.toList.filter fun n => n.shape.isAggregate
  aggregates.flatMap fun n =>
    (n.shape.members.filter fun m => g.isAggregate m.target && !boxed (n.memberId m)).map
      fun m => ⟨n.id, n.memberId m, m.target⟩

/-- The targets of a shape's edges. -/
def targetsIn (edges : List InlineEdge) (id : ShapeId) : List ShapeId :=
  (edges.filter fun e => e.owner = id).map InlineEdge.target

/-- The group of a component, unless it is a shape that does not contain itself. -/
def ofComponent? (edges : List InlineEdge) (component : List ShapeId) : Option InlineCycle :=
  let internal := edges.filter fun e => e.owner ∈ component && e.target ∈ component
  let single := component.length = 1
  if single ∧ internal = [] then none
  else some {
    index := 0
    members := ShapeId.sort component
    internal := ShapeId.sort (internal.map InlineEdge.member)
    selfReferential := single }

/-- Whether a group does not come after another one. -/
def le (a b : InlineCycle) : Bool := (compare a.members b.members).isLE

/-- The groups of a graph in which the members that are `boxed` do not count. -/
def unbroken (g : Graph) (boxed : ShapeId → Bool) : List InlineCycle :=
  let edges := edges g boxed
  let nodes := (g.nodes.toList.filter fun n => n.shape.isAggregate).map Node.id
  let groups := (Components.components nodes (targetsIn edges)).filterMap (ofComponent? edges)
  (groups.mergeSort le).mapIdx fun i group => { group with index := i }

/-- All groups of a graph. -/
def all (g : Graph) : List InlineCycle := unbroken g fun _ => false

/-- The group that a shape belongs to. -/
def of? (groups : List InlineCycle) (id : ShapeId) : Option InlineCycle :=
  groups.find? fun group => id ∈ group.members

/-- Whether a shape belongs to a group. -/
def isCyclic (groups : List InlineCycle) (id : ShapeId) : Bool := (of? groups id).isSome

end InlineCycle

end SchemaSymbols
