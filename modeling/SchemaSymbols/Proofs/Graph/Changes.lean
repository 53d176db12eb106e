/-
  What a graph looks like after a change.

  Nodes are added one by one, and an addition that succeeds replaces nothing.  New sides replace one
  node, and that node is an operation before and after.
-/
import SchemaSymbols.Proofs.Graph.References
import SchemaSymbols.Proofs.Outcome

namespace SchemaSymbols.Graph

variable {g g' : Graph} {n : Node} {id : ShapeId}

/-- A node that is added was not there before. -/
theorem of_insert (h : g.insert n = .ok g') :
    g.contains n.id = false ∧ g'.nodes = g.nodes.insert n := by
  rw [insert] at h
  split at h
  · cases h
  · obtain ⟨middle, hadd, hlink⟩ := bind_eq_ok.1 h
    rw [add] at hadd
    split at hadd
    · cases hadd
    · rename_i hfresh
      cases hadd
      rw [link] at hlink
      split at hlink
      · cases hlink
      · cases hlink
        exact ⟨Bool.eq_false_iff.2 hfresh, rfl⟩

/-- After an insertion, the new node is found under its identifier, and others as before. -/
theorem get?_insert (h : g.insert n = .ok g') :
    g'.get? id = if n.id = id then some n else g.get? id := by
  rw [get?, (of_insert h).2]
  exact Sorted.find?_insert _ _ _

/-- An insertion replaces no node. -/
theorem get?_insert_of_get? {k : Node} (h : g.insert n = .ok g') (hk : g.get? id = some k) :
    g'.get? id = some k := by
  rw [get?_insert h]
  split
  · rename_i he
    rw [← he] at hk
    have hfresh := (of_insert h).1
    rw [contains_of_get? hk] at hfresh
    cases hfresh
  · exact hk

/-- Additions keep what is there. -/
theorem get?_inserts_of_get? {nodes : List Node} {k : Node} (h : nodes.foldlM insert g = .ok g')
    (hk : g.get? id = some k) : g'.get? id = some k := by
  induction nodes generalizing g with
  | nil => cases h; exact hk
  | cons n nodes ih =>
    rw [List.foldlM_cons] at h
    obtain ⟨middle, hinsert, hrest⟩ := bind_eq_ok.1 h
    exact ih hrest (get?_insert_of_get? hinsert hk)

/-- What was added is there. -/
theorem get?_inserts_of_mem {nodes : List Node} (h : nodes.foldlM insert g = .ok g')
    (hn : n ∈ nodes) : g'.get? n.id = some n := by
  induction nodes generalizing g with
  | nil => cases hn
  | cons k nodes ih =>
    rw [List.foldlM_cons] at h
    obtain ⟨middle, hinsert, hrest⟩ := bind_eq_ok.1 h
    rcases List.mem_cons.1 hn with rfl | hn
    · refine get?_inserts_of_get? hrest ?_
      rw [get?_insert hinsert, if_pos rfl]
    · exact ih hrest hn

/-- Nothing else is there. -/
theorem get?_of_get?_inserts {nodes : List Node} {k : Node} (h : nodes.foldlM insert g = .ok g')
    (hk : g'.get? id = some k) : g.get? id = some k ∨ k ∈ nodes := by
  induction nodes generalizing g with
  | nil => cases h; exact Or.inl hk
  | cons n nodes ih =>
    rw [List.foldlM_cons] at h
    obtain ⟨middle, hinsert, hrest⟩ := bind_eq_ok.1 h
    rcases ih hrest with hmiddle | hmem
    · rw [get?_insert hinsert] at hmiddle
      split at hmiddle
      · cases hmiddle
        exact Or.inr List.mem_cons_self
      · exact Or.inl hmiddle
    · exact Or.inr (List.mem_cons_of_mem _ hmem)

/-- New sides replace those of an operation, and change nothing else. -/
theorem of_setSides {operation input output : ShapeId}
    (h : g.setSides operation input output = .ok g') :
    ∃ oldInput oldOutput errors tags,
      g.get? operation = some ⟨operation, .operation oldInput oldOutput errors, tags⟩ ∧
        ∀ id, g'.get? id = if operation = id then
          some ⟨operation, .operation (some input) (some output) errors, tags⟩ else g.get? id := by
  rw [setSides] at h
  split at h
  · cases h
  · split at h
    · rename_i k oldInput oldOutput errors tags hget
      cases h
      obtain rfl : k = operation := get?_id hget
      exact ⟨oldInput, oldOutput, errors, tags, hget, fun id => Sorted.find?_insert _ _ _⟩
    · cases h

end SchemaSymbols.Graph
