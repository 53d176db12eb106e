/-
  What services reach before and after a normalization.

  Only the steps from an operation to its sides change.

  1. **What operations refer to.**  An operation refers to its sides and its errors, and the errors
     stay.  `SideRecord` lists what the record of a side is after a normalization: the one it
     declared, a copy of it, or an empty one.

  2. **Paths of the old graph.**  A step from an operation to a declared record is rerouted to the
     record that was made for the side; if that is a copy, it refers to what the declared record
     refers to, so the path goes on from the copy (`StandsFor`).  Hence what was reached, or
     something that stands for it, is reached (`Normalized.exists_reaches`), and only what an
     operation declared needs a stand-in.

  3. **Paths of the new graph.**  A step to a made record is not one of the old graph, but what the
     record refers to was reached there through the declared one (`Traces`).  Hence whatever is
     reached was reached, or was made (`Normalized.traces_of_reaches`).

  `normalize_keeps_surface` is both inclusions, for the services, which are the same.
-/
import SchemaSymbols.Proofs.Graph.Levels
import SchemaSymbols.Proofs.Normalization.Ownership

namespace SchemaSymbols

open Normalization Relation

variable {g g' middle : Graph} {naming : SyntheticNaming} {plans : List Plan} {n operation : Node}
  {side : Side} {x y z start : ShapeId}

/-! ## What operations refer to -/

/-- The shapes that an operation names as its errors. -/
def Shape.errors : Shape → List ShapeId
  | .operation _ _ errors => errors
  | _ => []

/-- An operation refers to what its sides declare, and to its errors. -/
theorem Graph.refers_operation_iff (hn : g.get? x = some n)
    (hoperation : n.shape.isOperation = true) :
    g.Refers x y ↔ (∃ side, n.declared? side = some y) ∨ y ∈ n.shape.errors := by
  obtain ⟨id, shape, tags⟩ := n
  cases shape with
  | operation input output errors =>
    have hsides :
        (∃ side, Node.declared? ⟨id, .operation input output errors, tags⟩ side = some y) ↔
          input = some y ∨ output = some y :=
      ⟨fun ⟨side, h⟩ => by cases side; exacts [Or.inl h, Or.inr h],
        fun h => h.elim (fun h => ⟨.input, h⟩) fun h => ⟨.output, h⟩⟩
    rw [hsides, Graph.Refers]
    simp only [hn, Option.some.injEq, exists_eq_left', Shape.references, Shape.errors,
      List.mem_append, List.mem_map, Option.mem_toList, Prod.exists, Prod.mk.injEq]
    grind
  | _ => cases hoperation

namespace Normalization

/-- Pointing an operation at its records leaves its errors alone. -/
theorem Rewired.errors {p : Plan} (h : Rewired p (some operation) (some n)) :
    n.shape.errors = operation.shape.errors := by
  rcases h with ⟨-, hsame⟩ | ⟨-, oldInput, oldOutput, errors, tags, hbefore, hafter⟩
  · cases hsame
    rfl
  · cases hbefore
    cases hafter
    rfl

/-- Where the record of a side comes from. -/
inductive SideRecord (g g' : Graph) (naming : SyntheticNaming) (operation : Node) (side : Side) :
    Prop
  /-- The side declares it. -/
  | kept (declared : operation.declared? side = some (naming.recordFor operation.id side))
  /-- The side declares nothing, and the record is new and empty. -/
  | empty {record : Node} (fresh : g.contains (naming.recordFor operation.id side) = false)
      (node : g'.get? (naming.recordFor operation.id side) = some record)
      (absent : operation.declared? side = none) (references : record.shape.references = [])
  /-- The record is new, and refers to what the declared record refers to. -/
  | copy {source record : Node}
      (fresh : g.contains (naming.recordFor operation.id side) = false)
      (node : g'.get? (naming.recordFor operation.id side) = some record)
      (declared : operation.declared? side = some source.id)
      (sourceNode : g.get? source.id = some source) (shape : record.shape = source.shape)

namespace Normalized

/-- After a normalization, each side has its record in one of the three ways. -/
theorem sideRecord (h : Normalized g naming g' plans middle) (ho : operation ∈ g.operations)
    (side : Side) : SideRecord g g' naming operation side := by
  obtain ⟨p, hp, planned⟩ := exists_plan h.planned ho
  have hadded : ∀ k, (p.action side).node? = some k → g'.get? k.id = some k := fun k hk =>
    h.get?_of_added (mem_addedNodes.2 ⟨p, hp, side, hk⟩)
  have plan := sidePlan_of_planSide (planned.action side)
  generalize p.action side = action at plan hadded
  cases plan with
  | keep declared => exact .kept declared
  | create fresh absent =>
    have node := hadded (emptyFor (naming.recordFor operation.id side) side) rfl
    exact .empty fresh node absent rfl
  | @clone source members fresh declared sourceNode record =>
    have node := hadded (cloneFor (naming.recordFor operation.id side) side source members) rfl
    exact .copy fresh node declared sourceNode record.symm

/-- An operation stays one, with the records that are named for its sides and the same errors. -/
theorem refers_of_mem_operations (h : Normalized g naming g' plans middle)
    (ho : operation ∈ g.operations) :
    g'.Refers operation.id y ↔
      (∃ side, y = naming.recordFor operation.id side) ∨ y ∈ operation.shape.errors := by
  obtain ⟨n, hn, hid⟩ := h.mem_operations_of_mem ho
  obtain ⟨hget, hoperation⟩ := mem_operations.1 hn
  obtain ⟨operation', p, ho', -, planned, hid', hrewired⟩ := h.exists_rewired hn
  have hsame : operation' = operation := by
    have hget' := (mem_operations.1 ho').1
    rw [hid', hid, (mem_operations.1 ho).1] at hget'
    exact (Option.some.inj hget').symm
  subst hsame
  rw [hid] at hget
  rw [Graph.refers_operation_iff hget hoperation, hrewired.errors]
  refine or_congr_left (exists_congr fun side => ?_)
  rw [declared?_of_rewired planned hrewired side, Option.some.injEq, eq_comm]

/-- All other shapes refer to what they referred to. -/
theorem refers_of_get? (h : Normalized g naming g' plans middle) (hn : g.get? x = some n)
    (hoperation : n.shape.isOperation = false) : g'.Refers x y ↔ g.Refers x y := by
  rw [Graph.Refers, Graph.Refers, hn, h.get?_of_get? hn hoperation]

end Normalized

/-! ## Paths of the old graph -/

/-- The shape `y` of the new graph stands for `x`: it is `x`, or refers to what `x` refers to, where
some side of an operation declares `x`. -/
inductive StandsFor (g g' : Graph) (x : ShapeId) : ShapeId → Prop
  | same : StandsFor g g' x x
  | copy {y : ShapeId} {operation : Node} {side : Side} (owner : operation ∈ g.operations)
      (declared : operation.declared? side = some x)
      (refers : ∀ z, g.Refers x z → g'.Refers y z) : StandsFor g g' x y

/-- A step of the old graph is one of the new graph, to what stands for its target. -/
theorem Normalized.exists_refers (h : Normalized g naming g' plans middle)
    (stands : StandsFor g g' x y) (hxz : g.Refers x z) :
    ∃ w, g'.Refers y w ∧ StandsFor g g' z w := by
  cases stands with
  | copy owner declared refers => exact ⟨z, refers z hxz, .same⟩
  | same =>
    have ⟨n, hn, _⟩ := hxz
    cases hoperation : n.shape.isOperation with
    | false => exact ⟨z, (h.refers_of_get? hn hoperation).2 hxz, .same⟩
    | true =>
      obtain rfl := Graph.get?_id hn
      have ho : n ∈ g.operations := mem_operations.2 ⟨hn, hoperation⟩
      rcases (Graph.refers_operation_iff hn hoperation).1 hxz with ⟨side, hside⟩ | herror
      · have hrecord := (h.refers_of_mem_operations ho).2 (Or.inl ⟨side, rfl⟩)
        refine ⟨_, hrecord, ?_⟩
        cases h.sideRecord ho side with
        | kept declared =>
          rw [hside] at declared
          cases declared
          exact .same
        | empty fresh node absent =>
          rw [hside] at absent
          cases absent
        | copy fresh node declared sourceNode shape =>
          rw [hside] at declared
          cases declared
          refine .copy ho hside fun w hw => ?_
          obtain ⟨k, hk, hrefers⟩ := hw
          rw [sourceNode] at hk
          cases hk
          exact ⟨_, node, shape ▸ hrefers⟩
      · exact ⟨z, (h.refers_of_mem_operations ho).2 (Or.inr herror), .same⟩

/-- What the old graph reaches, or something that stands for it, is reached in the new graph. -/
theorem Normalized.exists_reaches (h : Normalized g naming g' plans middle)
    (reaches : g.Reaches start x) : ∃ y, g'.Reaches start y ∧ StandsFor g g' x y := by
  induction reaches with
  | refl => exact ⟨start, .refl, .same⟩
  | tail _ hyz ih =>
    obtain ⟨y, hreaches, stands⟩ := ih
    obtain ⟨w, hrefers, stands'⟩ := h.exists_refers stands hyz
    exact ⟨w, hreaches.tail hrefers, stands'⟩

/-! ## Paths of the new graph -/

/-- How a shape that is reached in the new graph traces back to the old one: it was reached there,
or it is a record made for an operation that was, and refers only to what was. -/
inductive Traces (g g' : Graph) (naming : SyntheticNaming) (start : ShapeId) : ShapeId → Prop
  | old {x : ShapeId} (reaches : g.Reaches start x) : Traces g g' naming start x
  | made {operation : Node} {side : Side} (owner : operation ∈ g.operations)
      (reaches : g.Reaches start operation.id)
      (fresh : g.contains (naming.recordFor operation.id side) = false)
      (refers : ∀ z, g'.Refers (naming.recordFor operation.id side) z → g.Reaches start z) :
      Traces g g' naming start (naming.recordFor operation.id side)

/-- From an operation that was reached, the record of a side traces back. -/
theorem Normalized.traces_record (h : Normalized g naming g' plans middle)
    (ho : operation ∈ g.operations) (reaches : g.Reaches start operation.id) (side : Side) :
    Traces g g' naming start (naming.recordFor operation.id side) := by
  obtain ⟨hget, hoperation⟩ := mem_operations.1 ho
  have hdeclared : ∀ {z}, operation.declared? side = some z → g.Reaches start z := fun hz =>
    reaches.tail ((Graph.refers_operation_iff hget hoperation).2 (Or.inl ⟨side, hz⟩))
  cases h.sideRecord ho side with
  | kept declared => exact .old (hdeclared declared)
  | empty fresh node absent references =>
    refine .made ho reaches fresh fun z hz => ?_
    obtain ⟨k, hk, r, hr, -⟩ := hz
    rw [node] at hk
    cases hk
    rw [references] at hr
    cases hr
  | copy fresh node declared sourceNode shape =>
    refine .made ho reaches fresh fun z hz => ?_
    obtain ⟨k, hk, hrefers⟩ := hz
    rw [node] at hk
    cases hk
    exact (hdeclared declared).tail ⟨_, sourceNode, shape ▸ hrefers⟩

/-- A step of the new graph leads to something that traces back, if it starts from such a shape. -/
theorem Normalized.traces_refers (wf : g.WellFormed) (h : Normalized g naming g' plans middle)
    (hstart : g.contains start = true) (traces : Traces g g' naming start x)
    (hxz : g'.Refers x z) : Traces g g' naming start z := by
  cases traces with
  | made owner reaches fresh refers => exact .old (refers z hxz)
  | old reaches =>
    obtain ⟨n, hn⟩ := Graph.contains_iff.1 (wf.contains_of_reaches hstart reaches)
    cases hoperation : n.shape.isOperation with
    | false => exact .old (reaches.tail ((h.refers_of_get? hn hoperation).1 hxz))
    | true =>
      obtain rfl := Graph.get?_id hn
      have ho : n ∈ g.operations := mem_operations.2 ⟨hn, hoperation⟩
      rcases (h.refers_of_mem_operations ho).1 hxz with ⟨side, rfl⟩ | herror
      · exact h.traces_record ho reaches side
      · exact .old (reaches.tail ((Graph.refers_operation_iff hn hoperation).2 (Or.inr herror)))

theorem Normalized.traces_of_reaches (wf : g.WellFormed) (h : Normalized g naming g' plans middle)
    (hstart : g.contains start = true) (reaches : g'.Reaches start x) :
    Traces g g' naming start x := by
  induction reaches with
  | refl => exact .old .refl
  | tail _ hyz ih => exact h.traces_refers wf hstart ih hyz

/-- The services stay as they are, and there are no others. -/
theorem Normalized.mem_services (h : Normalized g naming g' plans middle) :
    n ∈ g'.services ↔ n ∈ g.services := by
  rw [Graph.mem_services, Graph.mem_services]
  refine and_congr_left fun hservice => ?_
  have hoperation : n.shape.isOperation = false := by
    revert hservice
    cases n.shape <;> simp [Shape.isService, Shape.isOperation]
  refine ⟨fun hget => ?_, fun hget => h.get?_of_get? hget hoperation⟩
  refine (h.old_or_added hget hoperation).resolve_right fun hadded => ?_
  have hrecord := (isMade_of_mem_addedNodes h.planned hadded).1
  revert hrecord hservice
  cases n.shape <;> simp [Shape.isService, Shape.isRecord]

end Normalization

theorem contains_of_mem_services (hn : n ∈ g.services) : g.contains n.id = true :=
  Graph.contains_of_get? (Graph.mem_services.1 hn).1

/-- A normalization loses nothing that services reach, except for records that are declared as a
    side of an operation, and adds nothing but the records it makes for operations that services
    reach. -/
theorem normalize_keeps_surface {report : Report} (wf : g.WellFormed)
    (h : g.normalize naming = .ok (g', report)) :
    (∀ id ∈ g.surface, (∀ n ∈ g.operations, ∀ side, n.declared? side ≠ some id) →
      id ∈ g'.surface) ∧
      (∀ id ∈ g'.surface, g.contains id = true → id ∈ g.surface) ∧
      ∀ id ∈ g'.surface, g.contains id = false →
        isMadeRecord g' id = true ∧ ∃ n ∈ g.operations, n.id ∈ g.surface ∧
          ∃ side, id = naming.idFor n.id (naming.suffixFor side) := by
  obtain ⟨plans, middle, normalized⟩ := exists_normalized h
  have wf' := wf.normalize h
  refine ⟨fun id hid hside => ?_, fun id hid hold => ?_, fun id hid hnew => ?_⟩
  · obtain ⟨service, hservice, reaches⟩ := wf.mem_surface.1 hid
    obtain ⟨y, reaches', stands⟩ := normalized.exists_reaches reaches
    cases stands with
    | same => exact wf'.mem_surface.2 ⟨service, normalized.mem_services.2 hservice, reaches'⟩
    | copy owner declared => exact absurd declared (hside _ owner _)
  · obtain ⟨service, hservice, reaches⟩ := wf'.mem_surface.1 hid
    have hservice := normalized.mem_services.1 hservice
    cases normalized.traces_of_reaches wf (contains_of_mem_services hservice) reaches with
    | old reaches => exact wf.mem_surface.2 ⟨service, hservice, reaches⟩
    | made owner reaches fresh =>
      rw [fresh] at hold
      cases hold
  · obtain ⟨service, hservice, reaches⟩ := wf'.mem_surface.1 hid
    have hservice := normalized.mem_services.1 hservice
    have hstart := contains_of_mem_services hservice
    cases normalized.traces_of_reaches wf hstart reaches with
    | old reaches =>
      rw [wf.contains_of_reaches hstart reaches] at hnew
      cases hnew
    | made owner reachesOwner =>
      exact ⟨normalized.isMadeRecord owner _, _, owner,
        wf.mem_surface.2 ⟨service, hservice, reachesOwner⟩, _, rfl⟩

/-! ## A harbour -/

namespace Harbour

/-- The identifier of a shape of the harbour. -/
def shape (name : String) : ShapeId := ⟨"harbour", name, none⟩

/-- A service with one operation.  The record of its input is reached by a member too, that of its
output by nothing else; another operation is reached by no service. -/
def nodes : List Node :=
  [ ⟨shape "Harbour", .service [shape "Dock"], .empty⟩,
    ⟨shape "Dock", .operation (some (shape "Ship")) (some (shape "Pass")) [shape "Storm"], .empty⟩,
    ⟨shape "Ship", .record [⟨"crew", shape "Crew", .empty⟩], .empty⟩,
    ⟨shape "Crew", .record [⟨"ship", shape "Ship", .empty⟩], .empty⟩,
    ⟨shape "Pass", .record [⟨"stamp", shape "Stamp", .empty⟩], .empty⟩,
    ⟨shape "Stamp", .enum [], .empty⟩,
    ⟨shape "Storm", .record [], .empty⟩,
    ⟨shape "Tow", .operation (some (shape "Ship")) none [], .empty⟩ ]

/-- The graph of the harbour. -/
def graph : Graph := .ofNodesD nodes

/-- The harbour after a normalization. -/
def normalized : Graph × Report :=
  match graph.normalize {} with
  | .ok result => result
  | .error _ => ({}, {})

end Harbour

/-- The harbour's pass was declared by operations only, and is reached no more; the records made for
the dock are. -/
theorem harbour_keeps_surface :
    Harbour.graph.WellFormed ∧
      Harbour.graph.normalize {} = .ok (Harbour.normalized.1, Harbour.normalized.2) ∧
      Harbour.graph.surface.toList = ["Crew", "Dock", "Harbour", "Pass", "Ship", "Stamp",
        "Storm"].map Harbour.shape ∧
      Harbour.normalized.1.surface.toList = ["DockInput", "DockOutput"].map
        (⟨"familiar.synthetic", ·, none⟩) ++ ["Crew", "Dock", "Harbour", "Ship", "Stamp",
        "Storm"].map Harbour.shape ∧
      ∀ id ∈ Harbour.graph.surface,
        (∀ n ∈ Harbour.graph.operations, ∀ side, n.declared? side ≠ some id) →
          id ∈ Harbour.normalized.1.surface := by
  have wf : Harbour.graph.WellFormed := Graph.wellFormed_ofNodesD Harbour.nodes
  have hrun : Harbour.graph.normalize {} = .ok (Harbour.normalized.1, Harbour.normalized.2) := by
    decide +kernel
  exact ⟨wf, hrun, by decide +kernel, by decide +kernel, (normalize_keeps_surface wf hrun).1⟩

end SchemaSymbols
