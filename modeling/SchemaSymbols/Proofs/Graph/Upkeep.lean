/-
  Changes keep a graph well formed.

  A change files one node, in place of the node of its identifier if there is one.  The index of a
  well-formed graph is, up to order, the edges of that node followed by the edges of all `others`
  (`WellFormed.perm_edges`), so it is enough to say what becomes of the first part
  (`WellFormed.file`).

  - A new node adds its edges at the end (`WellFormed.insert`).
  - A new tag changes no reference, so the index stays as it is (`WellFormed.tag`).
  - New sides take out the edges to the old ones.  They are found by their positions, and each
    removal puts the last edge in the place of the one removed, so the positions are gone through
    from the last one down; what is left is a permutation of the edges that are no sides
    (`perm_removeEdges`, by induction on the edges from the end).
-/
import Mathlib.Data.List.Induction
import Mathlib.Data.List.Nodup
import SchemaSymbols.Proofs.Graph.Changes

namespace SchemaSymbols

open Std

/-! ## Collections -/

namespace Sorted

variable {α κ : Type} [Ord κ] [TransOrd κ] [LawfulEqOrd κ] [DecidableEq κ] {key : α → κ}

omit [TransOrd κ] [DecidableEq κ] in
theorem nodup_toList (s : Sorted key) : s.toList.Nodup := List.Nodup.of_map key (nodup_keys s)

omit [DecidableEq κ] in
/-- Elements with one key are one element. -/
theorem eq_of_key_eq {s : Sorted key} {a b : α} (ha : a ∈ s) (hb : b ∈ s) (h : key a = key b) :
    a = b := by
  have hfind := find?_of_mem ha
  rw [h, find?_of_mem hb] at hfind
  exact (Option.some.inj hfind).symm

/-- The elements of a collection are one of them and those with another key. -/
theorem perm_of_mem {s : Sorted key} {a : α} (ha : a ∈ s) :
    s.toList.Perm (a :: s.toList.filter fun b => key b ≠ key a) := by
  refine (List.perm_ext_iff_of_nodup s.nodup_toList ?_).2 fun x => ?_
  · exact List.nodup_cons.2 ⟨by simp, s.nodup_toList.filter _⟩
  · rw [List.mem_cons, List.mem_filter, decide_eq_true_iff]
    constructor
    · intro hx
      by_cases hkey : key x = key a
      · exact Or.inl (eq_of_key_eq hx ha hkey)
      · exact Or.inr ⟨hx, hkey⟩
    · rintro (rfl | ⟨hx, -⟩)
      · exact ha
      · exact hx

/-- An insertion puts the new element in the place of those with its key. -/
theorem perm_insert (s : Sorted key) (a : α) :
    (s.insert a).toList.Perm (a :: s.toList.filter fun b => key b ≠ key a) := by
  refine (perm_of_mem (mem_insert_self s a)).trans (.cons a ?_)
  refine (List.perm_ext_iff_of_nodup ((nodup_toList _).filter _)
    (s.nodup_toList.filter _)).2 fun x => ?_
  rw [List.mem_filter, List.mem_filter, decide_eq_true_iff, ← mem_def, mem_insert]
  constructor
  · rintro ⟨rfl | ⟨hx, -⟩, hkey⟩
    · exact absurd rfl hkey
    · exact ⟨hx, hkey⟩
  · exact fun ⟨hx, hkey⟩ => ⟨Or.inr ⟨hx, fun he => hkey he.symm⟩, hkey⟩

end Sorted

/-! ## Graphs -/

namespace Graph

variable {g g' : Graph} {n : Node} {id : ShapeId}

/-- The nodes under all other identifiers. -/
def others (g : Graph) (id : ShapeId) : List Node := g.nodes.toList.filter fun n => n.id ≠ id

/-- The index: the edges of one node, and those of the others. -/
theorem WellFormed.perm_edges (wf : g.WellFormed) (hn : g.get? id = some n) :
    g.edges.Perm (n.edges ++ (g.others id).flatMap Node.edges) := by
  obtain rfl := get?_id hn
  exact wf.indexed.trans ((Sorted.perm_of_mem (mem_nodes hn)).flatMap_right Node.edges)

/-- A graph into which a node was filed is well formed if its index has the edges of that node and
    of the others, and the node refers to shapes of the graph or to itself. -/
theorem WellFormed.file {edges : List Edge} (wf : g.WellFormed)
    (closed : ∀ r ∈ n.shape.references, r.2 = n.id ∨ g.contains r.2 = true)
    (indexed : edges.Perm (n.edges ++ (g.others n.id).flatMap Node.edges)) :
    WellFormed { nodes := g.nodes.insert n, edges } := by
  refine ⟨fun k hk r hr => Sorted.contains_insert.2 ?_, ?_⟩
  · rcases Sorted.mem_insert.1 hk with rfl | ⟨hk, -⟩
    · exact (closed r hr).imp_left Eq.symm
    · exact Or.inr (wf.closed k hk r hr)
  · exact indexed.trans ((Sorted.perm_insert g.nodes n).flatMap_right Node.edges).symm

/-! ## New nodes -/

/-- What a graph is after an insertion, and what was checked for it. -/
theorem edges_of_insert (h : g.insert n = .ok g') :
    g' = { nodes := g.nodes.insert n, edges := g.edges ++ n.edges } ∧
      ∀ r ∈ n.shape.references, r.2 = n.id ∨ g.contains r.2 = true := by
  rw [insert] at h
  split at h
  · cases h
  · rename_i hnone
    obtain ⟨middle, hadd, hlink⟩ := bind_eq_ok.1 h
    rw [add] at hadd
    split at hadd
    · cases hadd
    · cases hadd
      rw [link] at hlink
      split at hlink
      · cases hlink
      · cases hlink
        refine ⟨rfl, fun r hr => ?_⟩
        have hpresent := List.find?_eq_none.1 hnone r hr
        by_cases hself : r.2 = n.id
        · exact Or.inl hself
        · exact Or.inr (by simpa [hself] using hpresent)

/-- Inserting a node keeps a graph well formed. -/
theorem WellFormed.insert (wf : g.WellFormed) (h : g.insert n = .ok g') : g'.WellFormed := by
  obtain ⟨rfl, hclosed⟩ := edges_of_insert h
  refine wf.file hclosed ?_
  -- nothing gives way to a new node
  have hfresh : g.others n.id = g.nodes.toList := by
    refine List.filter_eq_self.2 fun k hk => decide_eq_true fun he => ?_
    have habsent := (of_insert h).1
    rw [← he, contains_of_get? (get?_of_mem hk)] at habsent
    cases habsent
  rw [hfresh]
  exact List.perm_append_comm.trans (.append_left _ wf.indexed)

/-- So does inserting nodes one after the other. -/
theorem WellFormed.inserts {nodes : List Node} (wf : g.WellFormed)
    (h : nodes.foldlM Graph.insert g = .ok g') : g'.WellFormed := by
  induction nodes generalizing g with
  | nil => cases h; exact wf
  | cons n nodes ih =>
    rw [List.foldlM_cons] at h
    obtain ⟨middle, hinsert, hrest⟩ := bind_eq_ok.1 h
    exact ih (wf.insert hinsert) hrest

/-! ## New tags -/

/-- A tag changes no edge. -/
theorem WellFormed.tag (wf : g.WellFormed) (hn : g.get? n.id = some n) (t : Tag) :
    WellFormed { g with nodes := g.nodes.insert (n.withTag t) } := by
  have hindexed : g.edges.Perm (n.edges ++ (g.others n.id).flatMap Node.edges) := wf.perm_edges hn
  exact wf.file (fun r hr => Or.inr (wf.closed n (mem_nodes hn) r hr)) hindexed

/-! ## New sides -/

/-- The place of the edge that goes is taken by the last edge after it; what is before it stays. -/
theorem exists_removeEdge (before : List Edge) (e : Edge) (after : List Edge) :
    ∃ rest, removeEdge (before ++ e :: after) before.length = before ++ rest ∧ rest.Perm after := by
  rcases List.eq_nil_or_concat' after with rfl | ⟨middle, last, rfl⟩
  · exact ⟨[], by simp [removeEdge], .nil⟩
  · have hlast : (before ++ e :: (middle ++ [last])).getLast? = some last := by
      rw [← List.cons_append, ← List.append_assoc, List.getLast?_concat]
    refine ⟨last :: middle, ?_, (List.perm_append_singleton last middle).symm⟩
    rw [removeEdge, hlast]
    simp [List.dropLast_append_of_ne_nil, List.dropLast_cons_of_ne_nil]

theorem sidePositions_concat (operation : ShapeId) (edges : List Edge) (e : Edge) :
    sidePositions operation (edges ++ [e]) =
      if isSideOf operation e then edges.length :: sidePositions operation edges
      else sidePositions operation edges := by
  rw [sidePositions, sidePositions, List.zipIdx_append, List.filter_append]
  split <;> simp [*]

/-- Taken out from the last one down, the edges to the sides go and the others stay.  The induction
    is on the part of the index that has still to be gone through; `rest` is what is behind it. -/
theorem perm_removeEdges (operation : ShapeId) (edges rest : List Edge) :
    ((sidePositions operation edges).foldl removeEdge (edges ++ rest)).Perm
      (edges.filter (fun e => !isSideOf operation e) ++ rest) := by
  induction edges using List.reverseRecOn generalizing rest with
  | nil => exact .refl _
  | append_singleton edges e ih =>
    rw [sidePositions_concat, List.append_assoc, List.filter_append]
    split
    · rename_i hside
      obtain ⟨rest', hremoved, hperm⟩ := exists_removeEdge edges e rest
      rw [List.foldl_cons, List.singleton_append, hremoved]
      simpa [hside] using (ih rest').trans (.append_left _ hperm)
    · rename_i hside
      simpa [hside] using ih ([e] ++ rest)

-- From the first one up, a removal would move an edge that has still to go.
example :
    let op : ShapeId := ⟨"a", "op", none⟩
    let edges : List Edge := [⟨op, .input, op⟩, ⟨op, .error, op⟩, ⟨op, .output, op⟩]
    sidePositions op edges = [2, 0] ∧ [2, 0].foldl removeEdge edges = [⟨op, .error, op⟩] ∧
      [0, 2].foldl removeEdge edges = [⟨op, .output, op⟩, ⟨op, .error, op⟩] := by
  decide

/-- The edges of an operation other than those to its sides are the edges to its errors. -/
theorem filter_edges_operation {input output : Option ShapeId} {errors : List ShapeId}
    {tags : TagSet} :
    (Node.edges ⟨id, .operation input output errors, tags⟩).filter (fun e => !isSideOf id e) =
      errors.map fun error => ⟨id, .error, error⟩ := by
  cases input <;> cases output <;>
    simp [Node.edges, Shape.references, isSideOf, List.filter_map, Function.comp_def]

/-- Edges of other nodes lead to no side of the operation. -/
theorem filter_edges_others :
    ((g.others id).flatMap Node.edges).filter (fun e => !isSideOf id e) =
      (g.others id).flatMap Node.edges := by
  refine List.filter_eq_self.2 fun e he => ?_
  obtain ⟨k, hk, hek⟩ := List.mem_flatMap.1 he
  have hsource : e.source ≠ id := by
    rw [(mem_edges_iff.1 hek).1]
    exact of_decide_eq_true (List.mem_filter.1 hk).2
  simp [isSideOf, hsource]

/-- Giving an operation new sides keeps a graph well formed. -/
theorem WellFormed.setSides {operation input output : ShapeId} (wf : g.WellFormed)
    (h : g.setSides operation input output = .ok g') : g'.WellFormed := by
  rw [Graph.setSides] at h
  split at h
  · cases h
  · rename_i hpresent
    split at h
    · rename_i k oldInput oldOutput errors tags hget
      cases h
      obtain rfl : k = operation := get?_id hget
      have hsides := List.find?_eq_none.1 hpresent
      refine wf.file (n := ⟨k, .operation (some input) (some output) errors, tags⟩) ?_ ?_
      · intro r hr
        refine Or.inr ?_
        rcases List.mem_append.1 hr with hr | hr
        · -- the new sides were looked up
          simp only [Option.toList_some, List.map_cons, List.map_nil, List.singleton_append,
            List.mem_cons, List.not_mem_nil, or_false] at hr
          rcases hr with rfl | rfl
          · simpa using hsides input (by simp)
          · simpa using hsides output (by simp)
        · exact wf.closed _ (mem_nodes hget) r (List.mem_append_right _ hr)
      · have hkept := (wf.perm_edges hget).filter fun e => !isSideOf k e
        rw [List.filter_append, filter_edges_operation, filter_edges_others] at hkept
        -- the new sides stand before the errors, and the errors before the other nodes
        have hnew : Node.edges ⟨k, .operation (some input) (some output) errors, tags⟩ =
            [⟨k, .input, input⟩, ⟨k, .output, output⟩] ++
              errors.map fun error => ⟨k, .error, error⟩ := by
          simp [Node.edges, Shape.references, Function.comp_def]
        have hremoved : ((sidePositions k g.edges).foldl removeEdge g.edges).Perm
            (g.edges.filter fun e => !isSideOf k e) := by
          simpa only [List.append_nil] using perm_removeEdges k g.edges []
        rw [hnew, List.append_assoc]
        exact ((hremoved.trans hkept).append_right _).trans List.perm_append_comm
    · cases h

end Graph

end SchemaSymbols
