/-
  Strongly connected components, in the order of dependence.

  Two depth-first searches: the first goes against the edges and notes the order in which nodes are
  finished; the second goes along the edges, starting at the node finished last, and each of its
  trees is one component.  A component is listed after every component that an edge leads to from
  it.
-/

namespace SchemaSymbols.Components

variable {α : Type} [DecidableEq α]

/-- The state of a depth-first search: the nodes seen, and those left behind, the latest first. -/
structure Search (α : Type) where
  discovered : List α := []
  finished : List α := []
deriving Repr, Inhabited

/-- Searches from a node, at most `depth` nodes deep, unless it has been seen. -/
def visit (next : α → List α) : Nat → Search α → α → Search α
  | 0, s, _ => s
  | depth + 1, s, x =>
    if x ∈ s.discovered then s
    else
      let s := (next x).foldl (visit next depth) { s with discovered := x :: s.discovered }
      { s with finished := x :: s.finished }

/-- The nodes in the order in which a search of all of them leaves them, the latest first. -/
def finishOrder (nodes : List α) (next : α → List α) : List α :=
  (nodes.foldl (visit next nodes.length) {}).finished

/-- The trees of a search from the given nodes, one after the other; `seen` nodes belong to
earlier trees. -/
def trees (next : α → List α) (depth : Nat) (seen : List α) : List α → List (List α)
  | [] => []
  | x :: rest =>
    let s := visit next depth { discovered := seen } x
    if s.finished.isEmpty then trees next depth seen rest
    else s.finished :: trees next depth s.discovered rest

/-- The nodes from which an edge leads to `x`, given all nodes with the targets of their edges. -/
def predecessors (edges : List (α × List α)) (x : α) : List α :=
  (edges.filter fun e => x ∈ e.2).map Prod.fst

theorem mem_predecessors {nodes : List α} {next : α → List α} {x y : α} :
    y ∈ predecessors (nodes.map fun z => (z, next z)) x ↔ y ∈ nodes ∧ x ∈ next y := by
  simp only [predecessors, List.mem_map, List.mem_filter, decide_eq_true_eq]
  grind

/-- The strongly connected components of a graph, each after those it depends on. -/
def components (nodes : List α) (next : α → List α) : List (List α) :=
  let edges := nodes.map fun x => (x, next x)
  trees next nodes.length [] (finishOrder nodes (predecessors edges))

end SchemaSymbols.Components
