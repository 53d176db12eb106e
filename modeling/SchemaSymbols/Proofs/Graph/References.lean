/-
  References between the shapes of a graph.

  `Refers` reads the references off the shapes themselves, and `Reaches` follows them; `Exposed` are
  the shapes that services reach, or all shapes of a graph without services.  None of the three
  mentions the index of a graph.

  The index is a copy of the same references, by source and kind, and `WellFormed` says that it is a
  true copy and that no reference dangles.  So in a well-formed graph what the index leads to is
  what the shapes refer to (`mem_edges`, `mem_successors`), and whatever is reached is there
  (`contains_of_reaches`).

  A graph is built from a list of nodes in two passes: the first files the nodes, the second links
  each of them to its targets and fails on a target that was not filed.  The second pass is an
  induction on the list (`of_foldlM_link`): the links of the nodes behind are those of their shapes,
  and there are none of the nodes ahead.  `wellFormed_of_ofNodes` puts the passes together, so every
  graph built from a list of nodes is well formed.
-/
import Mathlib.Logic.Relation
import SchemaSymbols.Graph.Reachability
import SchemaSymbols.Proofs.Sorted

namespace SchemaSymbols

open Relation

/-- Where every descent ends, there is no cycle. -/
theorem not_transGen_self_of_acc {α : Type} {leads : α → α → Prop} {x : α}
    (h : Acc (fun y x => leads x y) x) : ¬ TransGen leads x x := by
  induction h with
  | intro x _ ih =>
    -- a cycle through `x` is also one through the next element after `x`
    intro cycle
    obtain ⟨y, hxy, hyx⟩ := TransGen.head'_iff.1 cycle
    exact ih y hxy (TransGen.tail' hyx hxy)

/-! ## What a shape refers to -/

namespace Shape

theorem mem_references_of_mem_members {s : Shape} {m : Member} (h : m ∈ s.members) :
    (.member, m.target) ∈ s.references := by
  cases s <;> simp_all [members, references] <;> exact ⟨m, h, rfl⟩

/-- A shape refers to the targets of its elements. -/
theorem mem_references_of_mem_elements {s : Shape} {m : Member} (h : m ∈ s.elements) :
    ∃ r ∈ s.references, r.2 = m.target := by
  cases s with
  | list e => exact ⟨_, List.mem_singleton.2 rfl, by rw [List.mem_singleton.1 h]⟩
  | set e => exact ⟨_, List.mem_singleton.2 rfl, by rw [List.mem_singleton.1 h]⟩
  | map k v =>
    rcases List.mem_cons.1 h with rfl | h
    · exact ⟨(.mapKey, m.target), List.mem_cons_self, rfl⟩
    · rcases List.mem_singleton.1 h with rfl
      exact ⟨(.mapValue, m.target), List.mem_cons_of_mem _ (List.mem_singleton.2 rfl), rfl⟩
  | _ => exact absurd h List.not_mem_nil

/-- Only records and unions have members. -/
theorem isAggregate_of_mem_members {s : Shape} {m : Member} (h : m ∈ s.members) :
    s.isAggregate = true := by
  cases s <;> first | rfl | exact absurd h List.not_mem_nil

/-- Only collections have elements. -/
theorem isContainer_of_mem_elements {s : Shape} {m : Member} (h : m ∈ s.elements) :
    s.isContainer = true := by
  cases s <;> first | rfl | exact absurd h List.not_mem_nil

end Shape

namespace Graph

variable {g : Graph} {n : Node} {id x y : ShapeId}

/-! ## Lookups -/

theorem get?_id (h : g.get? id = some n) : n.id = id := Sorted.key_of_find? h

theorem mem_nodes (h : g.get? id = some n) : n ∈ g.nodes := Sorted.mem_of_find? h

theorem get?_of_mem (h : n ∈ g.nodes) : g.get? n.id = some n := Sorted.find?_of_mem h

theorem contains_iff : g.contains id = true ↔ ∃ n, g.get? id = some n :=
  Sorted.contains_iff_find?

theorem contains_of_get? (h : g.get? id = some n) : g.contains id = true := contains_iff.2 ⟨n, h⟩

theorem contains_eq_false_iff : g.contains id = false ↔ g.get? id = none :=
  Sorted.contains_eq_false_iff

theorem require_of_get? (h : g.get? id = some n) : g.require id = .ok n := by
  rw [require, h]

theorem get?_of_require (h : g.require id = .ok n) : g.get? id = some n := by
  rw [require] at h
  split at h
  · rename_i hget
    cases h
    exact hget
  · cases h

theorem isAggregate_of_get? (h : g.get? id = some n) : g.isAggregate id = n.shape.isAggregate := by
  rw [isAggregate, h]

/-! ## References -/

/-- The shape `x` refers to `y`, in whatever role. -/
def Refers (g : Graph) (x y : ShapeId) : Prop :=
  ∃ n, g.get? x = some n ∧ ∃ r ∈ n.shape.references, r.2 = y

/-- References lead from `x` to `y`, in any number of steps. -/
def Reaches (g : Graph) : ShapeId → ShapeId → Prop := ReflTransGen g.Refers

/-- The shapes that a generator is after: what a service reaches, or all shapes if there is no
service. -/
def Exposed (g : Graph) (id : ShapeId) : Prop :=
  (g.services = [] ∧ g.contains id = true) ∨ ∃ service ∈ g.services, g.Reaches service.id id

theorem refers_of_mem_members {m : Member} (hn : g.get? x = some n) (h : m ∈ n.shape.members) :
    g.Refers x m.target :=
  ⟨n, hn, _, Shape.mem_references_of_mem_members h, rfl⟩

theorem refers_of_mem_elements {m : Member} (hn : g.get? x = some n) (h : m ∈ n.shape.elements) :
    g.Refers x m.target :=
  ⟨n, hn, Shape.mem_references_of_mem_elements h⟩

/-- In a well-formed graph no reference dangles. -/
theorem WellFormed.contains_of_refers (wf : g.WellFormed) (h : g.Refers x y) :
    g.contains y = true := by
  obtain ⟨n, hn, r, hr, rfl⟩ := h
  exact wf.closed n (mem_nodes hn) r hr

/-- Nor does a path lead out of the graph. -/
theorem WellFormed.contains_of_reaches (wf : g.WellFormed) (hx : g.contains x = true)
    (h : g.Reaches x y) : g.contains y = true := by
  rcases ReflTransGen.cases_tail h with rfl | ⟨_, _, hrefers⟩
  · exact hx
  · exact wf.contains_of_refers hrefers

theorem WellFormed.get?_of_refers (wf : g.WellFormed) (h : g.Refers x y) :
    ∃ n, g.get? y = some n :=
  contains_iff.1 (wf.contains_of_refers h)

/-- The edges of a node are the references of its shape. -/
theorem mem_edges_iff {e : Edge} :
    e ∈ n.edges ↔ e.source = n.id ∧ (e.kind, e.target) ∈ n.shape.references := by
  rw [Node.edges, List.mem_map]
  constructor
  · rintro ⟨r, hr, rfl⟩
    exact ⟨rfl, hr⟩
  · rintro ⟨hs, hr⟩
    exact ⟨_, hr, by cases e; cases hs; rfl⟩

/-- The edges of the index are the references of the shapes. -/
theorem WellFormed.mem_edges (wf : g.WellFormed) {kind : EdgeKind} :
    ⟨x, kind, y⟩ ∈ g.edges ↔ ∃ n, g.get? x = some n ∧ (kind, y) ∈ n.shape.references := by
  simp only [wf.indexed.mem_iff, List.mem_flatMap, mem_edges_iff]
  constructor
  · rintro ⟨n, hn, rfl, hr⟩
    exact ⟨n, get?_of_mem hn, hr⟩
  · rintro ⟨n, hn, hr⟩
    exact ⟨n, mem_nodes hn, (get?_id hn).symm, hr⟩

/-- What the index leads to is what the shape refers to. -/
theorem WellFormed.mem_successors (wf : g.WellFormed) : y ∈ g.successors x ↔ g.Refers x y := by
  simp only [successors, List.mem_map, List.mem_filter, decide_eq_true_eq]
  constructor
  · rintro ⟨⟨_, kind, _⟩, ⟨he, rfl⟩, rfl⟩
    obtain ⟨n, hn, hr⟩ := wf.mem_edges.1 he
    exact ⟨n, hn, _, hr, rfl⟩
  · rintro ⟨n, hn, r, hr, rfl⟩
    exact ⟨⟨x, r.1, r.2⟩, ⟨wf.mem_edges.2 ⟨n, hn, hr⟩, rfl⟩, rfl⟩

/-! ## Graphs built from nodes are well formed -/

/-- Filing nodes links nothing. -/
theorem edges_of_foldlM_add {l : List Node} {g g' : Graph} (h : l.foldlM add g = .ok g') :
    g'.edges = g.edges := by
  induction l generalizing g with
  | nil => cases h; rfl
  | cons n l ih =>
    rw [List.foldlM_cons, add] at h
    split at h
    · cases h
    · have hrest := ih h
      exact hrest

/-- Linking nodes adds their edges one after the other, and only if none of them dangles. -/
theorem of_foldlM_link {l : List Node} {g g' : Graph} (h : l.foldlM link g = .ok g') :
    g'.nodes = g.nodes ∧ g'.edges = g.edges ++ l.flatMap Node.edges ∧
      ∀ n ∈ l, ∀ r ∈ n.shape.references, g.contains r.2 = true := by
  induction l generalizing g with
  | nil => cases h; simp
  | cons n l ih =>
    rw [List.foldlM_cons, link] at h
    split at h
    · cases h
    · rename_i hnone
      obtain ⟨hnodes, hedges, hclosed⟩ := ih h
      refine ⟨hnodes, by rw [hedges, List.flatMap_cons, List.append_assoc], fun k hk r hr => ?_⟩
      rcases List.mem_cons.1 hk with rfl | hk
      · simpa using List.find?_eq_none.1 hnone r hr
      · exact hclosed k hk r hr

/-- A graph built from a list of nodes is well formed. -/
theorem wellFormed_of_ofNodes {l : List Node} (h : ofNodes l = .ok g) : g.WellFormed := by
  rw [ofNodes] at h
  cases hadd : l.foldlM add {} with
  | error e => rw [hadd] at h; cases h
  | ok g₀ =>
    rw [hadd] at h
    obtain ⟨hnodes, hedges, hclosed⟩ := of_foldlM_link h
    have hbare : g₀.edges = [] := edges_of_foldlM_add hadd
    refine ⟨fun n hn r hr => ?_, ?_⟩
    · rw [contains, hnodes]
      rw [hnodes] at hn
      exact hclosed n hn r hr
    · rw [hedges, hbare, List.nil_append, hnodes]

/-- The graph of a list of nodes, or the empty one if the nodes are refused. -/
def ofNodesD (l : List Node) : Graph :=
  match ofNodes l with
  | .ok g => g
  | .error _ => {}

theorem wellFormed_ofNodesD (l : List Node) : (ofNodesD l).WellFormed := by
  rw [ofNodesD]
  split
  · rename_i hbuilt
    exact wellFormed_of_ofNodes hbuilt
  · exact ⟨fun n hn => absurd hn List.not_mem_nil, .nil⟩

end Graph

end SchemaSymbols
