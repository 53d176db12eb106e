/-
  Plans for operations: what is planned for each side, and that no record is planned twice.

  1. **One side.**  A side keeps its record only if it declares that record itself and it was made
     earlier; in any other case a new record is planned, under the identifier that belongs to the
     side (`SyntheticNaming.recordFor`): a copy of the declared record, or an empty one if nothing
     is declared.  `SidePlan` has one constructor for each of the three.

  2. **One operation.**  Both sides are planned, and their identifiers are reserved: neither is
     taken already, and they differ (`of_planOperation`, `Planned`).

  3. **All operations.**  Each is planned with the identifiers reserved by those before it, so the
     identifiers of all plans differ, on whichever sides (`of_planFrom`, `Apart`).  There is a plan
     for each operation and no other (`exists_plan`, `exists_operation`), in order.

  Hence the records to be added are new in the graph and differ from each other
  (`fresh_of_mem_addedNodes`, `pairwise_addedNodes`), and all of them are marked as made.
-/
import SchemaSymbols.Normalization
import SchemaSymbols.Proofs.Graph.References
import SchemaSymbols.Proofs.Outcome

namespace SchemaSymbols

variable {g : Graph} {naming : SyntheticNaming} {operation : Node} {side : Side}

/-- The identifier of the record for one side of an operation. -/
def SyntheticNaming.recordFor (naming : SyntheticNaming) (operation : ShapeId) (side : Side) :
    ShapeId :=
  naming.idFor operation (naming.suffixFor side)

namespace Normalization

/-- A node is a record that was made for an operation. -/
def IsMade (n : Node) : Prop := n.shape.isRecord = true ∧ n.tags.contains .synthetic = true

/-- A made record of a graph is one of its nodes. -/
theorem exists_of_isMadeRecord {id : ShapeId} (h : isMadeRecord g id = true) :
    ∃ n, g.get? id = some n ∧ IsMade n := by
  rw [isMadeRecord] at h
  cases hget : g.get? id with
  | none => rw [hget] at h; cases h
  | some n =>
    rw [hget] at h
    exact ⟨n, rfl, Bool.and_eq_true_iff.1 h⟩

theorem isMadeRecord_of_get? {id : ShapeId} (hget : g.get? id = some n) (made : IsMade n) :
    isMadeRecord g id = true := by
  rw [isMadeRecord, hget]
  exact Bool.and_eq_true_iff.2 made

/-- A record with the tags of a side is a made one. -/
theorem isMade_withTags (n : Node) (h : n.shape.isRecord = true) (side : Side) :
    IsMade ((n.withTag .synthetic).withTag side.tag) := by
  refine ⟨h, Sorted.contains_insert.2 (Or.inr ?_)⟩
  exact Sorted.contains_insert.2 (Or.inl rfl)

/-! ## One side -/

/-- The identifier that a plan has for a side. -/
def Plan.record (p : Plan) : Side → ShapeId
  | .input => p.input
  | .output => p.output

/-- What a plan does for a side. -/
def Plan.action (p : Plan) : Side → Action
  | .input => p.inputAction
  | .output => p.outputAction

/-- A plan keeps everything if it keeps both sides. -/
theorem Plan.keepsAll_iff {p : Plan} : p.keepsAll = true ↔ ∀ side, p.action side = .keep := by
  rw [keepsAll, Bool.and_eq_true, decide_eq_true_iff, decide_eq_true_iff]
  constructor
  · rintro ⟨hinput, houtput⟩ side
    cases side with
    | input => exact hinput
    | output => exact houtput
  · exact fun h => ⟨h .input, h .output⟩

/-- The ways in which a side comes by its record. -/
inductive SidePlan (g : Graph) (naming : SyntheticNaming) (operation : Node) (side : Side) :
    Action → Prop
  /-- The side declares the record that is named for it, and that record was made earlier. -/
  | keep (declared : operation.declared? side = some (naming.recordFor operation.id side))
      (made : isMadeRecord g (naming.recordFor operation.id side) = true) :
      SidePlan g naming operation side .keep
  /-- The side declares nothing and gets an empty record. -/
  | create (fresh : g.contains (naming.recordFor operation.id side) = false)
      (absent : operation.declared? side = none) :
      SidePlan g naming operation side
        (.create (emptyFor (naming.recordFor operation.id side) side))
  /-- The side declares another record and gets a copy of it. -/
  | clone {source : Node} {members : List Member}
      (fresh : g.contains (naming.recordFor operation.id side) = false)
      (declared : operation.declared? side = some source.id)
      (node : g.get? source.id = some source) (record : source.shape = .record members) :
      SidePlan g naming operation side
        (.clone (cloneFor (naming.recordFor operation.id side) side source members))

/-- What is planned for a side is one of the three. -/
theorem sidePlan_of_planSide {action : Action}
    (h : planSide g naming operation side = .ok action) :
    SidePlan g naming operation side action := by
  rw [planSide] at h
  split at h
  · rename_i hkeep
    cases h
    exact .keep hkeep.1 hkeep.2
  · split at h
    · cases h
    · rename_i hfresh
      have fresh : g.contains (naming.recordFor operation.id side) = false :=
        Bool.eq_false_iff.2 hfresh
      split at h
      · rename_i habsent
        cases h
        exact .create fresh habsent
      · rename_i target hdeclared
        obtain ⟨source, hsource, h⟩ := bind_eq_ok.1 h
        have node := Graph.get?_of_require hsource
        obtain rfl := Graph.get?_id node
        split at h
        · rename_i members hshape
          cases h
          exact .clone fresh hdeclared node hshape
        · cases h

/-- A side keeps the record that it has, or a new record is made under the same identifier. -/
theorem of_planSide {action : Action} (h : planSide g naming operation side = .ok action) :
    (action = .keep ∧ operation.declared? side = some (naming.recordFor operation.id side) ∧
        isMadeRecord g (naming.recordFor operation.id side) = true) ∨
      ∃ n, action.node? = some n ∧ n.id = naming.recordFor operation.id side ∧ IsMade n := by
  cases sidePlan_of_planSide h with
  | keep declared made => exact Or.inl ⟨rfl, declared, made⟩
  | create => exact Or.inr ⟨_, rfl, rfl, isMade_withTags _ rfl side⟩
  | clone => exact Or.inr ⟨_, rfl, rfl, isMade_withTags _ rfl side⟩

/-- The records that plans add. -/
def addedNodes (plans : List Plan) : List Node :=
  plans.flatMap fun p => p.actions.filterMap Action.node?

/-- The actions of a plan are those for its sides. -/
theorem Plan.mem_actions {p : Plan} {action : Action} :
    action ∈ p.actions ↔ ∃ side, p.action side = action := by
  rw [actions, List.mem_pair]
  constructor
  · rintro (rfl | rfl)
    · exact ⟨.input, rfl⟩
    · exact ⟨.output, rfl⟩
  · rintro ⟨_ | _, rfl⟩
    · exact Or.inl rfl
    · exact Or.inr rfl

/-- What is selected from all actions is selected from a side of a plan. -/
theorem mem_selected {β : Type} {select : Action → Option β} {plans : List Plan} {b : β} :
    b ∈ plans.flatMap (fun p => p.actions.filterMap select) ↔
      ∃ p ∈ plans, ∃ side, select (p.action side) = some b := by
  simp only [List.mem_flatMap, List.mem_filterMap, Plan.mem_actions]
  refine exists_congr fun p => and_congr_right fun _ => ?_
  constructor
  · rintro ⟨action, ⟨side, rfl⟩, hselect⟩
    exact ⟨side, hselect⟩
  · rintro ⟨side, hselect⟩
    exact ⟨p.action side, ⟨side, rfl⟩, hselect⟩

/-- A record is added if it is planned for some side of some operation. -/
theorem mem_addedNodes {plans : List Plan} {n : Node} :
    n ∈ addedNodes plans ↔ ∃ p ∈ plans, ∃ side, (p.action side).node? = some n :=
  mem_selected

/-! ## All operations -/

/-- The plan is one for the given operation. -/
structure Planned (g : Graph) (naming : SyntheticNaming) (operation : Node) (p : Plan) : Prop where
  owner : p.operation = operation.id
  record : ∀ side, p.record side = naming.recordFor operation.id side
  action : ∀ side, planSide g naming operation side = .ok (p.action side)

theorem of_reserve {id : ShapeId} {taken : List ShapeId} {owner : ShapeId}
    (h : reserve owner taken id = .ok ()) : id ∉ taken := by
  rw [reserve] at h
  split at h
  · cases h
  · rename_i hfree
    exact hfree

/-- An operation that is planned has its two records, which differ and were not taken. -/
theorem of_planOperation {taken : List ShapeId} {p : Plan}
    (h : planOperation g naming taken operation = .ok p) :
    Planned g naming operation p ∧ (∀ side, p.record side ∉ taken) ∧ p.input ≠ p.output := by
  rw [planOperation] at h
  obtain ⟨inputAction, hinput, h⟩ := bind_eq_ok.1 h
  obtain ⟨_, hfreeInput, h⟩ := bind_eq_ok.1 h
  obtain ⟨outputAction, houtput, h⟩ := bind_eq_ok.1 h
  obtain ⟨_, hfreeOutput, h⟩ := bind_eq_ok.1 h
  cases h
  have hfreeInput := of_reserve hfreeInput
  have hfreeOutput := of_reserve hfreeOutput
  rw [List.mem_append, not_or, List.mem_singleton] at hfreeOutput
  refine ⟨⟨rfl, ?_, ?_⟩, ?_, fun he => hfreeOutput.2 he.symm⟩ <;> rintro (_ | _)
  · rfl
  · rfl
  · exact hinput
  · exact houtput
  · exact hfreeInput
  · exact hfreeOutput.1

/-- No record is planned for two sides. -/
def Apart (p q : Plan) : Prop :=
  ∀ side side', p.record side = q.record side' → p = q ∧ side = side'

theorem apart_self {p : Plan} (h : p.input ≠ p.output) : Apart p p := by
  rintro (_ | _) (_ | _) he
  · exact ⟨rfl, rfl⟩
  · exact absurd he h
  · exact absurd he.symm h
  · exact ⟨rfl, rfl⟩

/-- The plans are those of the operations one by one, and no record is planned twice. -/
theorem of_planFrom {operations : List Node} {taken : List ShapeId} {plans : List Plan}
    (h : planFrom g naming taken operations = .ok plans) :
    List.Forall₂ (Planned g naming) operations plans ∧
      (∀ p ∈ plans, ∀ side, p.record side ∉ taken) ∧ (∀ p ∈ plans, p.input ≠ p.output) ∧
      plans.Pairwise fun p q => ∀ side side', p.record side ≠ q.record side' := by
  induction operations generalizing taken plans with
  | nil =>
    cases h
    exact ⟨.nil, fun p hp => absurd hp List.not_mem_nil, fun p hp => absurd hp List.not_mem_nil,
      .nil⟩
  | cons operation operations ih =>
    rw [planFrom] at h
    obtain ⟨p, hp, h⟩ := bind_eq_ok.1 h
    obtain ⟨rest, hrest, h⟩ := bind_eq_ok.1 h
    cases h
    obtain ⟨planned, hfree, hsides⟩ := of_planOperation hp
    obtain ⟨hall, hfreeRest, hsidesRest, hpairs⟩ := ih hrest
    -- both records of the first plan are taken when the others are planned
    have hmem : ∀ side, p.record side ∈ taken ++ [p.input, p.output] := by
      rintro (_ | _) <;> simp [Plan.record]
    refine ⟨.cons planned hall, List.forall_mem_cons.2 ⟨hfree, fun q hq side ht => ?_⟩,
      List.forall_mem_cons.2 ⟨hsides, hsidesRest⟩, List.pairwise_cons.2 ⟨?_, hpairs⟩⟩
    · exact hfreeRest q hq side (List.mem_append_left _ ht)
    · intro q hq side side' he
      exact hfreeRest q hq side' (he ▸ hmem side)

/-- Every operation has a plan. -/
theorem exists_plan {plans : List Plan} (h : planAll g naming = .ok plans)
    (ho : operation ∈ g.operations) : ∃ p ∈ plans, Planned g naming operation p :=
  exists_of_forall₂ (of_planFrom h).1 ho

/-- Every plan is one for an operation. -/
theorem exists_operation {plans : List Plan} (h : planAll g naming = .ok plans) {p : Plan}
    (hp : p ∈ plans) : ∃ operation ∈ g.operations, Planned g naming operation p :=
  exists_of_forall₂ (of_planFrom h).1.flip hp

/-- A record that is added is an empty one, or a copy of a record that was there. -/
theorem exists_of_mem_addedNodes {plans : List Plan} {n : Node}
    (h : planAll g naming = .ok plans) (hn : n ∈ addedNodes plans) :
    ∃ operation ∈ g.operations, ∃ side,
      n = emptyFor (naming.recordFor operation.id side) side ∨
        ∃ source ∈ g.nodes, ∃ members, source.shape = .record members ∧
          n = cloneFor (naming.recordFor operation.id side) side source members := by
  obtain ⟨p, hp, side, hnode⟩ := mem_addedNodes.1 hn
  obtain ⟨operation, hoperation, planned⟩ := exists_operation h hp
  refine ⟨operation, hoperation, side, ?_⟩
  have plan := sidePlan_of_planSide (planned.action side)
  generalize p.action side = action at plan hnode
  cases plan with
  | keep => cases hnode
  | create =>
    cases hnode
    exact Or.inl rfl
  | clone fresh declared node record =>
    cases hnode
    exact Or.inr ⟨_, Graph.mem_nodes node, _, record, rfl⟩

/-- All that is added are made records. -/
theorem isMade_of_mem_addedNodes {plans : List Plan} {n : Node}
    (h : planAll g naming = .ok plans) (hn : n ∈ addedNodes plans) : IsMade n := by
  obtain ⟨operation, -, side, rfl | ⟨source, -, members, -, rfl⟩⟩ := exists_of_mem_addedNodes h hn
  · exact isMade_withTags _ rfl side
  · exact isMade_withTags _ rfl side

/-- A plan adds nothing under another identifier than that of the side. -/
theorem Planned.id_of_node? {p : Plan} {n : Node} (planned : Planned g naming operation p)
    (h : (p.action side).node? = some n) : n.id = p.record side := by
  rw [planned.record side]
  rcases of_planSide (planned.action side) with ⟨hkeep, -⟩ | ⟨k, hnode, hid, -⟩
  · rw [hkeep] at h
    cases h
  · rw [hnode] at h
    cases h
    exact hid

/-- No two records that are added have one identifier. -/
theorem pairwise_addedNodes {plans : List Plan} (h : planAll g naming = .ok plans) :
    (addedNodes plans).Pairwise fun m n => m.id ≠ n.id := by
  obtain ⟨-, -, hsides, hpairs⟩ := of_planFrom h
  have hid : ∀ p ∈ plans, ∀ side n, (p.action side).node? = some n → n.id = p.record side := by
    intro p hp side n hnode
    obtain ⟨operation, -, planned⟩ := exists_operation h hp
    exact planned.id_of_node? hnode
  rw [addedNodes, List.pairwise_flatMap]
  refine ⟨fun p hp => ?_, hpairs.imp_of_mem fun {p q} hp hq hne m hm n hn => ?_⟩
  · rw [List.pairwise_filterMap]
    refine List.pairwise_pair.2 fun m hm n hn => ?_
    rw [hid p hp .input m hm, hid p hp .output n hn]
    exact hsides p hp
  · obtain ⟨action, haction, hm⟩ := List.mem_filterMap.1 hm
    obtain ⟨action', haction', hn⟩ := List.mem_filterMap.1 hn
    obtain ⟨side, rfl⟩ := Plan.mem_actions.1 haction
    obtain ⟨side', rfl⟩ := Plan.mem_actions.1 haction'
    rw [hid p hp side m hm, hid q hq side' n hn]
    exact hne side side'

/-- What is added was not there. -/
theorem fresh_of_mem_addedNodes {plans : List Plan} {n : Node}
    (h : planAll g naming = .ok plans) (hn : n ∈ addedNodes plans) : g.contains n.id = false := by
  obtain ⟨p, hp, side, hnode⟩ := mem_addedNodes.1 hn
  obtain ⟨operation, -, planned⟩ := exists_operation h hp
  have plan := sidePlan_of_planSide (planned.action side)
  generalize p.action side = action at plan hnode
  cases plan with
  | keep => cases hnode
  | create fresh => cases hnode; exact fresh
  | clone fresh => cases hnode; exact fresh

/-- There is one plan for each operation, in order. -/
theorem map_operation_of_planAll {plans : List Plan} (h : planAll g naming = .ok plans) :
    plans.map Plan.operation = g.operations.map Node.id := by
  have hall := (of_planFrom h).1
  rw [← List.forall₂_eq_eq_eq, List.forall₂_map_left_iff, List.forall₂_map_right_iff]
  exact hall.flip.imp fun _ _ planned => planned.owner

/-- No operation has two plans. -/
theorem nodup_planAll {plans : List Plan} (h : planAll g naming = .ok plans) :
    (plans.map Plan.operation).Nodup := by
  have hkeys := g.nodes.nodup_keys
  rw [map_operation_of_planAll h]
  exact hkeys.sublist (List.filter_sublist.map _)

/-- In the plans of a graph, each record belongs to one side of one plan. -/
theorem apart_of_planAll {plans : List Plan} (h : planAll g naming = .ok plans) {p q : Plan}
    (hp : p ∈ plans) (hq : q ∈ plans) : Apart p q := by
  obtain ⟨-, -, hsides, hpairs⟩ := of_planFrom h
  refine List.Pairwise.forall_of_forall_of_flip (R := Apart) (fun p hp => ?_) ?_ ?_ hp hq
  · exact apart_self (hsides p hp)
  · exact hpairs.imp fun hne side side' he => absurd he (hne side side')
  · exact hpairs.imp fun hne side side' he => absurd he.symm (hne side' side)

end Normalization

end SchemaSymbols
