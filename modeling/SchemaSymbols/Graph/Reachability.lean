/-
  Reachability, level by level.

  From a set of seeds, `levels` lists the seeds, then what one step reaches from them, then what a
  second step reaches, and so on, each element once and at the first level that has it.  The number
  of levels is the number of rounds a search takes, and their union is what can be reached.
-/
import SchemaSymbols.Graph.Basic

namespace SchemaSymbols

open Std

/-- The levels of a search that has `seen` some elements and stands at `frontier`, as far as `fuel`
allows. -/
def levelsFrom {α : Type} [Ord α] [TransOrd α] (step : α → List α) :
    Nat → SortedSet α → SortedSet α → List (SortedSet α)
  | 0, _, _ => []
  | fuel + 1, seen, frontier =>
    if frontier.isEmpty then []
    else
      let next : SortedSet α :=
        (Sorted.ofList (frontier.toList.flatMap step)).filter fun a => !seen.contains a
      frontier :: levelsFrom step fuel (seen.insertAll next.toList) next

namespace Graph

/-- The levels of a search among the shapes of a graph: every level has a shape that the levels
before it do not have, so there are at most as many as shapes. -/
def levels (g : Graph) (step : ShapeId → List ShapeId) (seeds : SortedSet ShapeId) :
    List (SortedSet ShapeId) :=
  levelsFrom step (g.size + 1) seeds seeds

/-- All shapes that an edge leads to from `id`. -/
def successors (g : Graph) (id : ShapeId) : List ShapeId :=
  (g.edges.filter fun e => e.source = id).map Edge.target

/-- The shapes that can be reached from a service, services included. -/
def surface (g : Graph) : SortedSet ShapeId :=
  let seeds : SortedSet ShapeId := Sorted.ofList (g.services.map Node.id)
  Sorted.ofList ((g.levels g.successors seeds).flatMap Sorted.toList)

end Graph

end SchemaSymbols
