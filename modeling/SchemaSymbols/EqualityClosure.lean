/-
  The equality closure: which records must support equality.

  The elements of a set are compared, and comparing two records compares their members.  So the
  requirement starts at the records that are elements of sets and spreads along members from record
  to record.  It does not pass through unions or collections.
-/
import SchemaSymbols.Graph.Reachability

namespace SchemaSymbols

namespace EqualityClosure

/-- What a run did. -/
structure Report where
  /-- All records that require equality after the run. -/
  tagged : List ShapeId
  /-- The records that did not require it before. -/
  newlyTagged : List ShapeId
  /-- The rounds it took to find them; the first one takes the elements of sets. -/
  rounds : Nat
deriving DecidableEq, Repr, Inhabited

/-- The records that are elements of sets. -/
def seeds (g : Graph) : SortedSet ShapeId :=
  let sets := g.nodes.toList.filter fun n => n.shape.isSet
  Sorted.ofList ((sets.flatMap fun n => g.targets n.id .element).filter g.isRecord)

/-- The records among the member targets of a record. -/
def step (g : Graph) (id : ShapeId) : List ShapeId := (g.targets id .member).filter g.isRecord

/-- The records that the requirement reaches, round by round. -/
def levels (g : Graph) : List (SortedSet ShapeId) := g.levels (step g) (seeds g)

/-- Whether a node requires equality. -/
def isTagged (n : Node) : Bool := n.tags.contains .equality

/-- Tags shapes one after the other. -/
def tagAll (g : Graph) (ids : List ShapeId) : Except Fault Graph :=
  ids.foldlM (fun g id => return (← g.addTag id .equality).2) g

end EqualityClosure

open EqualityClosure in
/-- Tags every record that must support equality. -/
def Graph.closeEquality (g : Graph) : Except Fault (Graph × Report) := do
  let levels := EqualityClosure.levels g
  let reached := levels.flatMap Sorted.toList
  let closed ← tagAll g reached
  let fresh := reached.filter fun id => !(g.get? id).any isTagged
  return (closed, {
    tagged := (closed.nodes.toList.filter fun n => n.shape.isRecord && isTagged n).map Node.id
    newlyTagged := (Sorted.ofList fresh : SortedSet ShapeId).toList
    rounds := levels.length })

end SchemaSymbols
