/-
  After a normalization every operation owns its records.

  The records of all plans are added first, and then the operations are pointed at them one by one.

  1. **Pointing operations at their records.**  A change of sides touches one operation, that of its
     plan, and gives it the records of the plan (`Rewired`, `of_rewire`).  The operations of the
     plans differ, so after all changes each has what its own plan says (`of_rewires`, by induction
     on the plans).

  2. **Whole normalizations.**  `Normalized` names what lies between the old graph and the new one:
     the plans, and the graph with all records added.  An addition keeps all nodes, so a node of the
     new graph is an old one, rewired if it is an operation, or an added record (`old_or_added`).

  3. **Normalization keeps graphs well formed**, as it is made of insertions and changes of sides.

  4. **Records of their own.**  What is planned for an operation is what it has in the end: it has
     both records, they were made for it, and no other side of any operation has them
     (`normalize_operations_own_records`).
-/
import SchemaSymbols.Proofs.Graph.Upkeep
import SchemaSymbols.Proofs.Normalization.Planning

namespace SchemaSymbols

open Normalization

variable {g g' middle : Graph} {naming : SyntheticNaming} {plans : List Plan} {n : Node}

namespace Normalization

/-! ## Pointing operations at their records -/

/-- What becomes of the operation of a plan: it stays, or it gets both records of the plan. -/
def Rewired (p : Plan) (before after : Option Node) : Prop :=
  (p.keepsAll = true ∧ after = before) ∨
    (p.keepsAll = false ∧ ∃ oldInput oldOutput errors tags,
      before = some ⟨p.operation, .operation oldInput oldOutput errors, tags⟩ ∧
        after = some ⟨p.operation, .operation (some p.input) (some p.output) errors, tags⟩)

/-- Pointing an operation at its records touches that operation and no other node. -/
theorem of_rewire {p : Plan} (h : rewire g p = .ok g') :
    (∀ id, p.operation ≠ id → g'.get? id = g.get? id) ∧
      Rewired p (g.get? p.operation) (g'.get? p.operation) := by
  rw [rewire] at h
  split at h
  · rename_i hkeeps
    cases h
    exact ⟨fun _ _ => rfl, Or.inl ⟨hkeeps, rfl⟩⟩
  · rename_i hkeeps
    obtain ⟨oldInput, oldOutput, errors, tags, hbefore, hafter⟩ := Graph.of_setSides h
    refine ⟨fun id hne => (hafter id).trans (if_neg hne), Or.inr ⟨?_, ?_⟩⟩
    · exact Bool.eq_false_iff.2 hkeeps
    · exact ⟨oldInput, oldOutput, errors, tags, hbefore, (hafter _).trans (if_pos rfl)⟩

/-- Plans of different operations do not get in each other's way. -/
theorem of_rewires (distinct : (plans.map Plan.operation).Nodup)
    (h : plans.foldlM rewire g = .ok g') :
    (∀ id, id ∉ plans.map Plan.operation → g'.get? id = g.get? id) ∧
      ∀ p ∈ plans, Rewired p (g.get? p.operation) (g'.get? p.operation) := by
  induction plans generalizing g with
  | nil =>
    cases h
    exact ⟨fun _ _ => rfl, fun p hp => absurd hp List.not_mem_nil⟩
  | cons p plans ih =>
    rw [List.foldlM_cons] at h
    obtain ⟨middle, hfirst, hrest⟩ := bind_eq_ok.1 h
    obtain ⟨hother, hrewired⟩ := of_rewire hfirst
    rw [List.map_cons, List.nodup_cons] at distinct
    obtain ⟨hrestOther, hrestRewired⟩ := ih distinct.2 hrest
    -- the first plan touches its operation only, and no later plan touches that one
    refine ⟨fun id hid => ?_, List.forall_mem_cons.2 ⟨?_, fun q hq => ?_⟩⟩
    · rw [List.map_cons, List.mem_cons, not_or] at hid
      rw [hrestOther id hid.2, hother id fun he => hid.1 he.symm]
    · rw [hrestOther _ distinct.1]
      exact hrewired
    · have hne : p.operation ≠ q.operation := fun he =>
        distinct.1 (he ▸ List.mem_map.2 ⟨q, hq, rfl⟩)
      rw [← hother _ hne]
      exact hrestRewired q hq

/-- Only operations change. -/
theorem get?_rewires_of_get? {id : ShapeId} (distinct : (plans.map Plan.operation).Nodup)
    (h : plans.foldlM rewire g = .ok g') (hn : g.get? id = some n)
    (hoperation : n.shape.isOperation = false) : g'.get? id = some n := by
  obtain ⟨hother, hrewired⟩ := of_rewires distinct h
  by_cases hid : id ∈ plans.map Plan.operation
  · obtain ⟨p, hp, rfl⟩ := List.mem_map.1 hid
    rcases hrewired p hp with ⟨-, hsame⟩ | ⟨-, oldInput, oldOutput, errors, tags, hbefore, -⟩
    · rw [hsame, hn]
    · rw [hn] at hbefore
      cases hbefore
      cases hoperation
  · rw [hother id hid, hn]

/-! ## Whole normalizations -/

/-- A normalization that succeeded: what was planned, and the graph in between. -/
structure Normalized (g : Graph) (naming : SyntheticNaming) (g' : Graph) (plans : List Plan)
    (middle : Graph) : Prop where
  planned : planAll g naming = .ok plans
  added : (addedNodes plans).foldlM Graph.insert g = .ok middle
  rewired : plans.foldlM rewire middle = .ok g'

/-- A normalization that succeeds reports what it planned. -/
theorem exists_normalized_reportOf {report : Report} (h : g.normalize naming = .ok (g', report)) :
    ∃ plans middle, Normalized g naming g' plans middle ∧ report = reportOf plans := by
  rw [Graph.normalize] at h
  split at h
  · cases h
  · obtain ⟨plans, hplans, h⟩ := bind_eq_ok.1 h
    obtain ⟨result, hcarried, h⟩ := bind_eq_ok.1 h
    cases h
    obtain ⟨middle, hadded, hrewired⟩ := bind_eq_ok.1 hcarried
    exact ⟨plans, middle, ⟨hplans, hadded, hrewired⟩, rfl⟩

/-- A normalization that ends well went through plans and a graph with their records. -/
theorem exists_normalized {report : Report} (h : g.normalize naming = .ok (g', report)) :
    ∃ plans middle, Normalized g naming g' plans middle := by
  obtain ⟨plans, middle, normalized, -⟩ := exists_normalized_reportOf h
  exact ⟨plans, middle, normalized⟩

theorem mem_operations : n ∈ g.operations ↔ g.get? n.id = some n ∧ n.shape.isOperation = true := by
  rw [Graph.operations, List.mem_filter]
  exact and_congr_left fun _ => ⟨Graph.get?_of_mem, Graph.mem_nodes⟩

/-- An operation is known by its identifier. -/
theorem eq_of_mem_operations {m : Node} (hm : m ∈ g.operations) (hn : n ∈ g.operations)
    (h : m.id = n.id) : m = n := by
  have hget := (mem_operations.1 hm).1
  rw [h, (mem_operations.1 hn).1] at hget
  exact (Option.some.inj hget).symm

/-- Where planning succeeds, sides that are named alike are one side of one operation. -/
theorem eq_of_recordFor_eq (h : planAll g naming = .ok plans) {m : Node} (hm : m ∈ g.operations)
    (hn : n ∈ g.operations) {side side' : Side}
    (he : naming.recordFor m.id side = naming.recordFor n.id side') : m = n ∧ side = side' := by
  obtain ⟨p, hp, planned⟩ := exists_plan h hm
  obtain ⟨q, hq, planned'⟩ := exists_plan h hn
  rw [← planned.record, ← planned'.record] at he
  obtain ⟨rfl, hside⟩ := apart_of_planAll h hp hq side side' he
  have hid : m.id = n.id := planned.owner.symm.trans planned'.owner
  exact ⟨eq_of_mem_operations hm hn hid, hside⟩

theorem IsMade.isOperation (h : IsMade n) : n.shape.isOperation = false := by
  have hrecord := h.1
  revert hrecord
  cases n.shape <;> intro hrecord <;> first | rfl | cases hrecord

namespace Normalized

/-- Every operation of the new graph comes from one of the old graph, by its plan. -/
theorem exists_rewired (h : Normalized g naming g' plans middle) (hn : n ∈ g'.operations) :
    ∃ operation p, operation ∈ g.operations ∧ p ∈ plans ∧ Planned g naming operation p ∧
      operation.id = n.id ∧ Rewired p (some operation) (some n) := by
  obtain ⟨hget, hoperation⟩ := mem_operations.1 hn
  have distinct := nodup_planAll h.planned
  by_cases hid : n.id ∈ plans.map Plan.operation
  · obtain ⟨p, hp, hpid⟩ := List.mem_map.1 hid
    obtain ⟨operation, ho, planned⟩ := exists_operation h.planned hp
    have hoid : operation.id = n.id := planned.owner.symm.trans hpid
    have hrewired := (of_rewires distinct h.rewired).2 p hp
    rw [hpid, hget, Graph.get?_inserts_of_get? h.added (hoid ▸ (mem_operations.1 ho).1)] at hrewired
    exact ⟨operation, p, ho, hp, planned, hoid, hrewired⟩
  · -- a node without a plan was not changed, so it is an old operation or a new record
    rw [(of_rewires distinct h.rewired).1 _ hid] at hget
    rcases Graph.get?_of_get?_inserts h.added hget with hold | hnew
    · obtain ⟨p, hp, planned⟩ := exists_plan h.planned (mem_operations.2 ⟨hold, hoperation⟩)
      exact absurd (List.mem_map.2 ⟨p, hp, planned.owner⟩) hid
    · rw [(isMade_of_mem_addedNodes h.planned hnew).isOperation] at hoperation
      cases hoperation

/-- A shape other than an operation is one of the old graph, or a record that was added. -/
theorem old_or_added (h : Normalized g naming g' plans middle)
    (hn : g'.get? n.id = some n) (hoperation : n.shape.isOperation = false) :
    g.get? n.id = some n ∨ n ∈ addedNodes plans := by
  obtain ⟨hother, hrewired⟩ := of_rewires (nodup_planAll h.planned) h.rewired
  have hmiddle : middle.get? n.id = some n := by
    by_cases hid : n.id ∈ plans.map Plan.operation
    · obtain ⟨p, hp, hpid⟩ := List.mem_map.1 hid
      have hp := hrewired p hp
      rw [hpid, hn] at hp
      rcases hp with ⟨-, hsame⟩ | ⟨-, _, _, _, _, -, hafter⟩
      · exact hsame.symm
      · cases hafter
        cases hoperation
    · rw [← hother _ hid, hn]
  exact Graph.get?_of_get?_inserts h.added hmiddle

/-- Every operation of the old graph is one of the new graph. -/
theorem mem_operations_of_mem (h : Normalized g naming g' plans middle) {operation : Node}
    (ho : operation ∈ g.operations) : ∃ n ∈ g'.operations, n.id = operation.id := by
  obtain ⟨p, hp, planned⟩ := exists_plan h.planned ho
  obtain ⟨hget, hoperation⟩ := mem_operations.1 ho
  have hrewired := (of_rewires (nodup_planAll h.planned) h.rewired).2 p hp
  rw [planned.owner, Graph.get?_inserts_of_get? h.added hget] at hrewired
  rcases hrewired with ⟨-, hafter⟩ | ⟨-, oldInput, oldOutput, errors, tags, -, hafter⟩
  · exact ⟨operation, mem_operations.2 ⟨hafter, hoperation⟩, rfl⟩
  · rw [planned.owner] at hafter
    exact ⟨⟨operation.id, .operation (some p.input) (some p.output) errors, tags⟩,
      mem_operations.2 ⟨hafter, rfl⟩, rfl⟩

/-- A shape other than an operation stays as it is. -/
theorem get?_of_get? (h : Normalized g naming g' plans middle) {id : ShapeId}
    (hn : g.get? id = some n) (hoperation : n.shape.isOperation = false) : g'.get? id = some n :=
  get?_rewires_of_get? (nodup_planAll h.planned) h.rewired
    (Graph.get?_inserts_of_get? h.added hn) hoperation

/-- A record that is added is there in the end. -/
theorem get?_of_added (h : Normalized g naming g' plans middle) (hn : n ∈ addedNodes plans) :
    g'.get? n.id = some n :=
  get?_rewires_of_get? (nodup_planAll h.planned) h.rewired
    (Graph.get?_inserts_of_mem h.added hn) (isMade_of_mem_addedNodes h.planned hn).isOperation

/-- The record that is planned for a side is there in the end. -/
theorem exists_record (h : Normalized g naming g' plans middle) {operation : Node} {p : Plan}
    (hp : p ∈ plans) (planned : Planned g naming operation p) (side : Side) :
    ∃ k, g'.get? (naming.recordFor operation.id side) = some k ∧ IsMade k := by
  rcases of_planSide (planned.action side) with ⟨-, -, hmade⟩ | ⟨k, hnode, hid, hmade⟩
  · obtain ⟨k, hk, hmade⟩ := exists_of_isMadeRecord hmade
    exact ⟨k, h.get?_of_get? hk hmade.isOperation, hmade⟩
  · have hmem : k ∈ addedNodes plans := mem_addedNodes.2 ⟨p, hp, side, hnode⟩
    exact ⟨k, hid ▸ h.get?_of_added hmem, hmade⟩

/-- After a normalization, the record that is named for a side was made. -/
theorem isMadeRecord (h : Normalized g naming g' plans middle) {operation : Node}
    (ho : operation ∈ g.operations) (side : Side) :
    Normalization.isMadeRecord g' (naming.recordFor operation.id side) = true := by
  obtain ⟨p, hp, planned⟩ := exists_plan h.planned ho
  obtain ⟨k, hget, made⟩ := h.exists_record hp planned side
  exact isMadeRecord_of_get? hget made

end Normalized

/-- An operation that went through its plan declares what is planned for it. -/
theorem declared?_of_rewired {operation : Node} {p : Plan} (planned : Planned g naming operation p)
    (h : Rewired p (some operation) (some n)) (side : Side) :
    n.declared? side = some (naming.recordFor operation.id side) := by
  rcases h with ⟨hkeeps, hsame⟩ | ⟨-, oldInput, oldOutput, errors, tags, -, hafter⟩
  · cases hsame
    have hkeep := Plan.keepsAll_iff.1 hkeeps side
    rcases of_planSide (planned.action side) with ⟨-, hdeclared, -⟩ | ⟨k, hnode, -⟩
    · exact hdeclared
    · rw [hkeep] at hnode
      cases hnode
  · cases hafter
    rw [← planned.record side]
    cases side <;> rfl

end Normalization

/-! ## Normalization keeps graphs well formed -/

/-- Pointing operations at their records keeps a graph well formed. -/
theorem Graph.WellFormed.rewires (wf : g.WellFormed)
    (h : plans.foldlM rewire g = .ok g') : g'.WellFormed := by
  induction plans generalizing g with
  | nil => cases h; exact wf
  | cons p plans ih =>
    rw [List.foldlM_cons] at h
    obtain ⟨middle, hfirst, hrest⟩ := bind_eq_ok.1 h
    refine ih ?_ hrest
    rw [rewire] at hfirst
    split at hfirst
    · cases hfirst
      exact wf
    · exact wf.setSides hfirst

theorem Graph.WellFormed.normalize {report : Report} (wf : g.WellFormed)
    (h : g.normalize naming = .ok (g', report)) : g'.WellFormed := by
  obtain ⟨plans, middle, normalized⟩ := exists_normalized h
  exact (wf.inserts normalized.added).rewires normalized.rewired

/-! ## Records of their own -/

/-- After a normalization the operations are the same ones; each of them declares, on either side,
    the record that is named for that side, which is there and was made for an operation; and
    no two sides, of one operation or of two, declare one record. -/
theorem normalize_operations_own_records {report : Report}
    (h : g.normalize naming = .ok (g', report)) :
    (∀ id, (∃ n ∈ g'.operations, n.id = id) ↔ ∃ n ∈ g.operations, n.id = id) ∧
      (∀ n ∈ g'.operations, ∀ side,
        n.declared? side = some (naming.idFor n.id (naming.suffixFor side)) ∧
          ∃ k, g'.get? (naming.idFor n.id (naming.suffixFor side)) = some k ∧
            k.shape.isRecord = true ∧ k.tags.contains .synthetic = true) ∧
      ∀ m ∈ g'.operations, ∀ n ∈ g'.operations, ∀ side side',
        m.declared? side = n.declared? side' → m = n ∧ side = side' := by
  obtain ⟨plans, middle, normalized⟩ := exists_normalized h
  refine ⟨fun id => ⟨?_, ?_⟩, fun n hn side => ?_, fun m hm n hn side side' he => ?_⟩
  · rintro ⟨n, hn, rfl⟩
    obtain ⟨operation, p, ho, -, -, hid, -⟩ := normalized.exists_rewired hn
    exact ⟨operation, ho, hid⟩
  · rintro ⟨operation, ho, rfl⟩
    exact normalized.mem_operations_of_mem ho
  · obtain ⟨operation, p, -, hp, planned, hid, hrewired⟩ := normalized.exists_rewired hn
    rw [← hid]
    exact ⟨declared?_of_rewired planned hrewired side, normalized.exists_record hp planned side⟩
  · obtain ⟨operation, p, -, hp, planned, hid, hrewired⟩ := normalized.exists_rewired hm
    obtain ⟨operation', q, -, hq, planned', hid', hrewired'⟩ := normalized.exists_rewired hn
    rw [declared?_of_rewired planned hrewired, declared?_of_rewired planned' hrewired',
      ← planned.record, ← planned'.record] at he
    -- one record belongs to one side of one plan, and a plan to one operation
    obtain ⟨rfl, rfl⟩ := apart_of_planAll normalized.planned hp hq side side' (Option.some.inj he)
    have hids : m.id = n.id := by
      rw [← hid, ← hid', ← planned.owner, ← planned'.owner]
    have hgetM := (mem_operations.1 hm).1
    have hgetN := (mem_operations.1 hn).1
    rw [hids, hgetN] at hgetM
    exact ⟨(Option.some.inj hgetM).symm, rfl⟩

/-! ## A desk -/

namespace Desk

/-- The identifier of a shape of the desk. -/
def shape (name : String) : ShapeId := ⟨"desk", name, none⟩

/-- Two operations that share a record, one of them on both sides, and one without records. -/
def nodes : List Node :=
  [ ⟨shape "Note", .record [], .empty⟩,
    ⟨shape "file", .operation (some (shape "Note")) (some (shape "Note")) [], .empty⟩,
    ⟨shape "Find", .operation none (some (shape "Note")) [], .empty⟩,
    ⟨shape "Clear", .operation none none [], .empty⟩ ]

/-- The graph of the desk. -/
def graph : Graph := .ofNodesD nodes

/-- The desk after a normalization. -/
def normalized : Graph × Report :=
  match graph.normalize {} with
  | .ok result => result
  | .error _ => ({}, {})

end Desk

/-- Three operations, which shared records before, share none after. -/
theorem desk_operations_own_records :
    Desk.graph.normalize {} = .ok (Desk.normalized.1, Desk.normalized.2) ∧
      Desk.normalized.1.operations.length = 3 ∧
      ∀ m ∈ Desk.normalized.1.operations, ∀ n ∈ Desk.normalized.1.operations, ∀ side side',
        m.declared? side = n.declared? side' → m = n ∧ side = side' := by
  have hrun : Desk.graph.normalize {} = .ok (Desk.normalized.1, Desk.normalized.2) := by
    decide +kernel
  exact ⟨hrun, by decide +kernel, (normalize_operations_own_records hrun).2.2⟩

end SchemaSymbols
