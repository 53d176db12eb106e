/-
  Building the graph of a build again.

  Both phases that change the graph leave it in a form on which they change nothing.

  1. **The closure of a normal graph** is normal: the closure adds tags, and what a normal graph
     asks of tags is that some are there (`Closes.normal`).  A normalization ends in a normal graph,
     so the graph of a build is normal and closed.

  2. **The second build** keeps every side, tags nothing, and resolves the graph of the first with
     the same settings.  `Build.repeated` says what it is, and `Phases.repeated` that its phases end
     there.

  3. **The remarks** are what is left to compare: those of a normalization are on made records,
     those of a resolution are not (`isOnMadeRecord_of_mem_remarks`,
     `Concluded.filter_diagnostics`).  The second build makes those of the resolution only.
-/
import SchemaSymbols.Graph.Snapshot
import SchemaSymbols.Proofs.Build.Phases
import SchemaSymbols.Proofs.Normalization.Idempotence
import SchemaSymbols.Proofs.Resolution.Remarks

namespace SchemaSymbols

open Normalization

variable {g g' normalized : Graph} {naming : SyntheticNaming} {settings : Settings} {b : Build}
  {session : Session} {n : Node}

/-! ## The closure of a normal graph -/

namespace Closes

variable {report : EqualityClosure.Report}

/-- A node of the closed graph was there before, with the same shape and no tag more. -/
theorem exists_before (h : Closes g g' report) {id : ShapeId} (hn : g'.get? id = some n) :
    ∃ old, g.get? id = some old ∧ n.id = old.id ∧ n.shape = old.shape ∧
      ∀ t ∈ old.tags, t ∈ n.tags := by
  obtain ⟨old, hold, hshape⟩ : ∃ old, g.get? id = some old ∧ old.shape = n.shape := by
    simpa [hn] using (h.shapes id).symm
  refine ⟨old, hold, ?_, hshape.symm, fun t ht => (h.tags id old n hold hn t).2 (Or.inl ht)⟩
  rw [Graph.get?_id hn, Graph.get?_id hold]

/-- An operation of the closed graph was one before, and declared the same. -/
theorem exists_operation_before (h : Closes g g' report) (hn : n ∈ g'.operations) :
    ∃ old ∈ g.operations, n.id = old.id ∧ n.declared? = old.declared? := by
  obtain ⟨hget, hoperation⟩ := mem_operations.1 hn
  obtain ⟨old, hold, hid, hshape, -⟩ := h.exists_before hget
  refine ⟨old, mem_operations.2 ⟨hid ▸ hold, hshape ▸ hoperation⟩, hid, ?_⟩
  funext side
  simp only [Node.declared?, hshape]

/-- The closure makes no record, and unmakes none. -/
theorem isMadeRecord (h : Closes g g' report) {id : ShapeId}
    (made : isMadeRecord g id = true) : Normalization.isMadeRecord g' id = true := by
  rw [Normalization.isMadeRecord] at made ⊢
  cases hold : g.get? id with
  | none => simp [hold] at made
  | some old =>
    obtain ⟨n, hn, hshape⟩ : ∃ n, g'.get? id = some n ∧ n.shape = old.shape := by
      simpa [hold] using h.shapes id
    rw [hold, Bool.and_eq_true, Sorted.contains_set_iff] at made
    rw [hn, Bool.and_eq_true, Sorted.contains_set_iff, hshape]
    exact ⟨made.1, (h.tags id old n hold hn _).2 (Or.inl made.2)⟩

/-- The closure keeps a graph normal. -/
theorem normal (h : Closes g g' report) (normal : g.Normal naming) : g'.Normal naming where
  reserved := by
    intro n hn
    obtain ⟨old, hold, hid, -, htags⟩ := h.exists_before (Graph.get?_of_mem hn)
    have hclear := normal.reserved old (Graph.mem_nodes hold)
    rw [intrudes, Bool.and_eq_false_iff, Bool.not_eq_false', Sorted.contains_set_iff] at hclear ⊢
    rw [hid]
    exact hclear.imp_right (htags _)
  declared := by
    intro n hn side
    obtain ⟨old, hold, hid, hdeclared⟩ := h.exists_operation_before hn
    rw [hid, hdeclared]
    exact normal.declared old hold side
  made := by
    intro n hn side
    obtain ⟨old, hold, hid, -⟩ := h.exists_operation_before hn
    rw [hid]
    exact h.isMadeRecord (normal.made old hold side)
  apart := by
    intro m hm n hn side side' he
    obtain ⟨oldM, holdM, hidM, -⟩ := h.exists_operation_before hm
    obtain ⟨oldN, holdN, hidN, -⟩ := h.exists_operation_before hn
    rw [hidM, hidN] at he
    obtain ⟨hsame, hside⟩ := normal.apart oldM holdM oldN holdN side side' he
    exact ⟨eq_of_mem_operations hm hn (by rw [hidM, hsame, hidN]), hside⟩

end Closes

namespace Build

/-! ## The remarks of a normalization -/

/-- What is said about a normalization is said about made records. -/
theorem isOnMadeRecord_of_mem_remarks {report : Report} {d : Diagnostic}
    (hd : d ∈ normalizationRemarks g g' report) : d.isOnMadeRecord = true := by
  rw [normalizationRemarks, List.mem_append, List.mem_flatMap, List.mem_map] at hd
  rcases hd with ⟨copy, -, hd⟩ | ⟨record, -, rfl⟩
  · rw [cloneRemarks] at hd
    split at hd
    · cases hd
    · split at hd
      · cases hd
      · dsimp only at hd
        split at hd
        · cases List.mem_singleton.1 hd
          rfl
        · cases hd
  · rfl

/-- Without the remarks on made records, those of the resolution are left. -/
theorem Concluded.filter_diagnostics (concluded : Concluded g settings b normalized session)
    (onNames : OnNames session.diagnostics) :
    (b.diagnostics.filter fun d => !d.isOnMadeRecord) = session.diagnostics := by
  have hnone : ((normalizationRemarks g normalized b.normalization).filter fun d =>
      !d.isOnMadeRecord) = [] :=
    List.filter_eq_nil_iff.2 fun d hd => by simp [isOnMadeRecord_of_mem_remarks hd]
  have hall : (session.diagnostics.filter fun d => !d.isOnMadeRecord) = session.diagnostics :=
    List.filter_eq_self.2 fun d hd => by simp [onNames d hd]
  rw [concluded.diagnostics, List.filter_append, hnone, hall, List.nil_append]

/-! ## The second build -/

/-- What is left of a build when its graph is built again: nothing is made, nothing is tagged, and
nothing is said about made records. -/
def repeated (b : Build) : Build :=
  { b with
    normalization := { untouched := b.graph.operations.map Node.id }
    closure := { b.closure with newlyTagged := [] }
    diagnostics := b.diagnostics.filter fun d => !d.isOnMadeRecord }

/-- The second build goes through the graph of the first. -/
theorem Phases.repeated (phases : Phases g settings b normalized session) (wf : g.WellFormed) :
    Phases b.graph settings b.repeated b.graph session := by
  obtain ⟨closed, report, hclose, wf', closes⟩ := (wf.normalize phases.normalization).exists_closes
  obtain ⟨closed', report', hagain, -, closes'⟩ := wf'.exists_closes
  obtain ⟨rfl, rfl⟩ := closes.again closes'
  cases hclose.symm.trans phases.closure
  have normal := closes.normal (Graph.normal_of_normalize phases.normalization)
  exact ⟨normal.normalize, hagain, phases.resolution, phases.table⟩

/-- The second build ends well, with the graph, the table and the remarks of `repeated`. -/
theorem run_graph (wf : g.WellFormed) (h : run g settings = .ok b) :
    run b.graph settings = .ok b.repeated := by
  obtain ⟨normalized, session, phases, concluded⟩ := run_eq_ok.1 h
  have onNames : OnNames session.diagnostics :=
    onNames_resolveAll (phases.wellFormed wf) phases.resolution
  exact run_eq_ok.2 ⟨b.graph, session, phases.repeated wf, concluded.unbroken, concluded.profile,
    concluded.cycles, concluded.filter_diagnostics onNames⟩

/-- Building the graph of a build again, with the same settings, ends well.  The graph, the table,
the cycles and the order of declarations are those from before; no record is made, none is newly
tagged, and the remarks are those from before without the ones on made records. -/
theorem run_idempotent (wf : g.WellFormed) (h : run g settings = .ok b) :
    ∃ again, run b.graph settings = .ok again ∧
      again.graph = b.graph ∧ again.graph.fingerprint = b.graph.fingerprint ∧
      again.table = b.table ∧ again.cycles = b.cycles ∧
      declarationOrder again.table = declarationOrder b.table ∧
      again.normalization.cloned = [] ∧ again.normalization.created = [] ∧
      again.closure.newlyTagged = [] ∧
      again.diagnostics = b.diagnostics.filter fun d =>
        d.code ≠ .sharedRecordCloned ∧ d.code ≠ .recordSynthesized := by
  refine ⟨b.repeated, run_graph wf h, rfl, rfl, rfl, rfl, rfl, rfl, rfl, rfl, ?_⟩
  refine List.filter_congr fun d _ => ?_
  rw [Diagnostic.isOnMadeRecord, Bool.not_or, ← decide_not, ← decide_not, Bool.decide_and]

end Build

/-! ## A quay -/

namespace Quay

/-- The identifier of a shape of the quay. -/
def shape (name : String) : ShapeId := ⟨"quay", name, none⟩

/-- Two operations share a crate, which can hold another one and has a set of labels; a label has a
member whose name is reserved. -/
def nodes : List Node :=
  [ ⟨shape "Crate", .record [⟨"inner", shape "Crate", .empty⟩, ⟨"labels", shape "Labels", .empty⟩],
      .empty⟩,
    ⟨shape "Labels", .set ⟨"member", shape "Label", .empty⟩, .empty⟩,
    ⟨shape "Label", .record [⟨"type", shape "Text", .empty⟩], .empty⟩,
    ⟨shape "Text", .primitive .string, .empty⟩,
    ⟨shape "Load", .operation (some (shape "Crate")) none [], .empty⟩,
    ⟨shape "Haul", .operation (some (shape "Crate")) (some (shape "Label")) [], .empty⟩ ]

/-- The graph of the quay. -/
def graph : Graph := .ofNodesD nodes

/-- The quay is built for Rust. -/
def chosen : Settings := { target := { language := .rust } }

/-- The quay, built. -/
def build : Build :=
  match Build.run graph chosen with
  | .ok b => b
  | .error _ => default

end Quay

/-- A quay in which the first build copies, boxes and escapes; the second one finds nothing to
change. -/
theorem quay_run_idempotent :
    Build.run Quay.graph Quay.chosen = .ok Quay.build ∧
      Quay.build.diagnostics.map Diagnostic.code =
        [.sharedRecordCloned, .sharedRecordCloned, .recordSynthesized, .escapedIdentifier,
          .escapedIdentifier] ∧
      Quay.build.table.boxedMembers.toList = [(Quay.shape "Crate").withMember "inner"] ∧
      ∃ again, Build.run Quay.build.graph Quay.chosen = .ok again ∧
        again.graph = Quay.build.graph ∧
        again.graph.fingerprint = Quay.build.graph.fingerprint ∧
        again.table = Quay.build.table ∧ again.cycles = Quay.build.cycles ∧
        Build.declarationOrder again.table = Build.declarationOrder Quay.build.table ∧
        again.normalization.cloned = [] ∧ again.normalization.created = [] ∧
        again.closure.newlyTagged = [] ∧
        again.diagnostics = Quay.build.diagnostics.filter fun d =>
          d.code ≠ .sharedRecordCloned ∧ d.code ≠ .recordSynthesized := by
  have hrun : Build.run Quay.graph Quay.chosen = .ok Quay.build ∧
      Quay.build.diagnostics.map Diagnostic.code =
        [.sharedRecordCloned, .sharedRecordCloned, .recordSynthesized, .escapedIdentifier,
          .escapedIdentifier] ∧
      Quay.build.table.boxedMembers.toList = [(Quay.shape "Crate").withMember "inner"] := by
    decide +kernel
  exact ⟨hrun.1, hrun.2.1, hrun.2.2,
    Build.run_idempotent (Graph.wellFormed_ofNodesD Quay.nodes) hrun.1⟩

end SchemaSymbols
