/-
  What a normalized graph consists of.

  1. **Nodes.**  A normalization adds records and changes the sides of operations.  The tags of what
     is added are spelled out: a copy has the tags of its source, the one that names the source, the
     one for made records, and the mark of its side; an empty record has the latter two
     (`mem_tags_cloneFor`, `mem_tags_emptyFor`, with `Marks` for the mark of each side).

  2. **Reports.**  The records that a report lists are those that were added, each of them once
     (`perm_report`), so the nodes of the new graph are those of the old one and the reported ones
     (`new_iff`).

  3. **Sides.**  How a reported record looks is read off the plan of the side it was made for: a
     copy has the members of the declared record and its tags (`ClonedFor`), an empty record has
     neither (`CreatedFor`), and a side that is not reported had its own record before
     (`OwnRecord`).  The three exclude each other, so each list of the report is characterised by
     its own case (`mem_cloned`, `mem_created`, `mem_untouched`).

  `normalize_result` puts these together.  `Greenhouse` has an operation of each kind: one that
  shares a declared record, one that declares nothing, and one that has its own records.
-/
import SchemaSymbols.Proofs.Normalization.Idempotence
import SchemaSymbols.Proofs.Normalization.Surface

namespace SchemaSymbols

open Normalization

variable {g g' middle : Graph} {naming : SyntheticNaming} {plans : List Plan} {n operation : Node}
  {side : Side} {id : ShapeId} {t : Tag}

/-! ## Nodes -/

/-- A record is given by its members. -/
theorem Shape.exists_eq_record {shape : Shape} (h : shape.isRecord = true) :
    ∃ members, shape = .record members := by
  cases shape with
  | record members => exact ⟨members, rfl⟩
  | _ => cases h

/-- An operation is made up of its two sides, its errors and its tags. -/
theorem Node.eq_operation {input output : ShapeId} (hoperation : n.shape.isOperation = true)
    (hinput : n.declared? .input = some input) (houtput : n.declared? .output = some output) :
    n = ⟨n.id, .operation (some input) (some output) n.shape.errors, n.tags⟩ := by
  obtain ⟨id, shape, tags⟩ := n
  cases shape with
  | operation i o errors =>
    cases hinput
    cases houtput
    rfl
  | _ => cases hoperation

namespace Normalization

/-- The tag that says for which side a record was made: `input` for an input, `output` for an
output. -/
inductive Marks : Side → Tag → Prop where
  | input : Marks .input .input
  | output : Marks .output .output

/-- The tag that a made record gets for its side is the one that marks it. -/
theorem eq_tag_iff : t = side.tag ↔ Marks side t := by
  constructor
  · rintro rfl
    cases side with
    | input => exact .input
    | output => exact .output
  · rintro (_ | _) <;> rfl

/-- A copy has the tags of its source, the tag that names the source, and those of a made record. -/
theorem mem_tags_cloneFor {source : Node} {members : List Member} :
    t ∈ (cloneFor id side source members).tags ↔
      t ∈ source.tags ∨ t = .cloneOf source.id ∨ t = .synthetic ∨ Marks side t := by
  show t ∈ ((source.tags.insert (.cloneOf source.id)).insert .synthetic).insert side.tag ↔ _
  rw [Sorted.mem_insert_set, Sorted.mem_insert_set, Sorted.mem_insert_set, eq_tag_iff]
  tauto

/-- An empty record has the tags of a made record, and no others. -/
theorem mem_tags_emptyFor :
    t ∈ (emptyFor id side).tags ↔ t = .synthetic ∨ Marks side t := by
  have hempty : ¬ t ∈ (Sorted.empty : TagSet) := List.not_mem_nil
  show t ∈ ((Sorted.empty : TagSet).insert .synthetic).insert side.tag ↔ _
  rw [Sorted.mem_insert_set, Sorted.mem_insert_set, eq_tag_iff]
  tauto

/-! ## Reports -/

/-- What is reported as copied or created is what is added, record by record. -/
theorem perm_report (plans : List Plan) :
    ((reportOf plans).cloned ++ (reportOf plans).created).Perm
      ((addedNodes plans).map Node.id) := by
  rw [reportOf, addedNodes, ← List.filterMap_flatMap, ← List.filterMap_flatMap,
    ← List.filterMap_flatMap]
  induction plans.flatMap Plan.actions with
  | nil => exact .nil
  | cons action actions ih =>
    cases action with
    | keep => exact ih
    | clone copy => exact ih.cons copy.id
    | create empty => exact List.perm_middle.trans (ih.cons empty.id)

/-- A side of an operation has a record of its own: the operation declares the record that is named
for the side, and that record was made, not declared. -/
structure OwnRecord (g : Graph) (naming : SyntheticNaming) (operation : Node) (side : Side) :
    Prop where
  /-- The side points at the record that is named for it. -/
  declared : operation.declared? side = some (naming.recordFor operation.id side)
  /-- The record is there, and it is tagged as a made one. -/
  made : ∃ n members, g.get? (naming.recordFor operation.id side) = some n ∧
    n.shape = .record members ∧ .synthetic ∈ n.tags

/-- The program's test for a made record says what an own record is. -/
theorem exists_made_iff : isMadeRecord g id = true ↔
    ∃ n members, g.get? id = some n ∧ n.shape = .record members ∧ .synthetic ∈ n.tags := by
  constructor
  · intro made
    obtain ⟨n, hget, hrecord, hmade⟩ := exists_of_isMadeRecord made
    obtain ⟨members, hshape⟩ := Shape.exists_eq_record hrecord
    exact ⟨n, members, hget, hshape, Sorted.contains_set_iff.1 hmade⟩
  · rintro ⟨n, members, hget, hshape, hmade⟩
    exact isMadeRecord_of_get? hget ⟨by rw [hshape]; rfl, Sorted.contains_set_iff.2 hmade⟩

/-- A side keeps its record just when it is its own. -/
theorem Planned.action_eq_keep_iff {p : Plan} (planned : Planned g naming operation p) :
    p.action side = .keep ↔ OwnRecord g naming operation side := by
  constructor
  · intro hkeep
    rcases of_planSide (planned.action side) with ⟨-, declared, made⟩ | ⟨k, hnode, -⟩
    · exact ⟨declared, exists_made_iff.1 made⟩
    · rw [hkeep] at hnode
      cases hnode
  · rintro ⟨declared, made⟩
    have haction := planned.action side
    rw [planSide_eq_keep declared (exists_made_iff.2 made)] at haction
    exact (Except.ok.inj haction).symm

/-- The record `id` is a copy of the one that an operation declared for a side. -/
structure ClonedFor (g g' : Graph) (naming : SyntheticNaming) (operation : Node) (side : Side)
    (id : ShapeId) : Prop where
  /-- It has the name of the side's record. -/
  named : id = naming.recordFor operation.id side
  /-- It was not there. -/
  fresh : g.contains id = false
  /-- Its members are those of the declared record, and so are its tags, but for those of a copy. -/
  copied : ∃ source members tags, operation.declared? side = some source.id ∧
    g.get? source.id = some source ∧ source.shape = .record members ∧
      g'.get? id = some ⟨id, .record members, tags⟩ ∧
        ∀ t, t ∈ tags ↔
          t ∈ source.tags ∨ t = .cloneOf source.id ∨ t = .synthetic ∨ Marks side t

/-- The record `id` is an empty one, for a side for which an operation declared nothing. -/
structure CreatedFor (g g' : Graph) (naming : SyntheticNaming) (operation : Node) (side : Side)
    (id : ShapeId) : Prop where
  /-- It has the name of the side's record. -/
  named : id = naming.recordFor operation.id side
  /-- It was not there. -/
  fresh : g.contains id = false
  /-- Nothing was declared. -/
  absent : operation.declared? side = none
  /-- It has no members, and only the tags of a made record. -/
  empty : ∃ tags, g'.get? id = some ⟨id, .record [], tags⟩ ∧
    ∀ t, t ∈ tags ↔ t = .synthetic ∨ Marks side t

/-- What became of a side, by the action that was planned for it. -/
inductive SideResult (g g' : Graph) (naming : SyntheticNaming) (operation : Node) (side : Side) :
    Action → Prop
  /-- The side had its own record. -/
  | kept (own : OwnRecord g naming operation side) : SideResult g g' naming operation side .keep
  /-- The declared record was copied. -/
  | cloned {copy : Node} (cloned : ClonedFor g g' naming operation side copy.id) :
      SideResult g g' naming operation side (.clone copy)
  /-- An empty record was made. -/
  | created {empty : Node} (created : CreatedFor g g' naming operation side empty.id) :
      SideResult g g' naming operation side (.create empty)

namespace Normalized

/-- What was planned for a side is what it has in the new graph. -/
theorem sideResult (h : Normalized g naming g' plans middle) {p : Plan} (hp : p ∈ plans)
    (planned : Planned g naming operation p) (side : Side) :
    SideResult g g' naming operation side (p.action side) := by
  have hadded : ∀ k, (p.action side).node? = some k → g'.get? k.id = some k := fun k hk =>
    h.get?_of_added (mem_addedNodes.2 ⟨p, hp, side, hk⟩)
  have plan := sidePlan_of_planSide (planned.action side)
  generalize p.action side = action at plan hadded
  cases plan with
  | keep declared made => exact .kept ⟨declared, exists_made_iff.1 made⟩
  | @clone source members fresh declared node record =>
    have hcopy := hadded (cloneFor (naming.recordFor operation.id side) side source members) rfl
    refine .cloned ⟨rfl, fresh, source, members, _, declared, node, record, hcopy, fun t => ?_⟩
    exact mem_tags_cloneFor
  | create fresh absent =>
    have hempty := hadded (emptyFor (naming.recordFor operation.id side) side) rfl
    exact .created ⟨rfl, fresh, absent, _, hempty, fun t => mem_tags_emptyFor⟩

/-- What is selected from the actions of all plans is what became of the operations' sides. -/
theorem mem_selected_iff (h : Normalized g naming g' plans middle)
    {select : Action → Option ShapeId} {Made : Node → Side → Prop}
    (hselect : ∀ operation side action, SideResult g g' naming operation side action →
      (select action = some id ↔ Made operation side)) :
    id ∈ plans.flatMap (fun p => p.actions.filterMap select) ↔
      ∃ operation ∈ g.operations, ∃ side, Made operation side := by
  rw [mem_selected]
  constructor
  · rintro ⟨p, hp, side, hid⟩
    obtain ⟨operation, ho, planned⟩ := exists_operation h.planned hp
    have result := h.sideResult hp planned side
    exact ⟨operation, ho, side, (hselect operation side _ result).1 hid⟩
  · rintro ⟨operation, ho, side, hmade⟩
    obtain ⟨p, hp, planned⟩ := exists_plan h.planned ho
    have result := h.sideResult hp planned side
    exact ⟨p, hp, side, (hselect operation side _ result).2 hmade⟩

/-- The reported copies are those of declared records. -/
theorem mem_cloned (h : Normalized g naming g' plans middle) :
    id ∈ (reportOf plans).cloned ↔
      ∃ operation ∈ g.operations, ∃ side, ClonedFor g g' naming operation side id := by
  refine h.mem_selected_iff fun operation side action result => ⟨fun hid => ?_, fun cloned => ?_⟩
  · cases result with
    | kept => cases hid
    | cloned cloned => cases hid; exact cloned
    | created => cases hid
  · cases result with
    | kept own =>
      obtain ⟨k, _, hk, -⟩ := own.made
      have fresh := cloned.fresh
      rw [cloned.named, Graph.contains_of_get? hk] at fresh
      cases fresh
    | cloned cloned' => exact congrArg some (cloned'.named.trans cloned.named.symm)
    | created created =>
      obtain ⟨source, _, _, declared, -⟩ := cloned.copied
      rw [created.absent] at declared
      cases declared

/-- The reported empty records are those of sides for which nothing was declared. -/
theorem mem_created (h : Normalized g naming g' plans middle) :
    id ∈ (reportOf plans).created ↔
      ∃ operation ∈ g.operations, ∃ side, CreatedFor g g' naming operation side id := by
  refine h.mem_selected_iff fun operation side action result => ⟨fun hid => ?_, fun created => ?_⟩
  · cases result with
    | kept => cases hid
    | cloned => cases hid
    | created created => cases hid; exact created
  · have absent := created.absent
    cases result with
    | kept own =>
      rw [own.declared] at absent
      cases absent
    | cloned cloned =>
      obtain ⟨source, _, _, declared, -⟩ := cloned.copied
      rw [declared] at absent
      cases absent
    | created created' => exact congrArg some (created'.named.trans created.named.symm)

/-- The operations reported as untouched are those with records of their own. -/
theorem mem_untouched (h : Normalized g naming g' plans middle) :
    id ∈ (reportOf plans).untouched ↔
      ∃ operation ∈ g.operations, operation.id = id ∧
        ∀ side, OwnRecord g naming operation side := by
  rw [reportOf, List.mem_map]
  constructor
  · rintro ⟨p, hp, rfl⟩
    obtain ⟨hp, hkeeps⟩ := List.mem_filter.1 hp
    obtain ⟨operation, ho, planned⟩ := exists_operation h.planned hp
    refine ⟨operation, ho, planned.owner.symm, fun side => ?_⟩
    exact planned.action_eq_keep_iff.1 (Plan.keepsAll_iff.1 hkeeps side)
  · rintro ⟨operation, ho, rfl, own⟩
    obtain ⟨p, hp, planned⟩ := exists_plan h.planned ho
    refine ⟨p, List.mem_filter.2 ⟨hp, ?_⟩, planned.owner⟩
    exact Plan.keepsAll_iff.2 fun side => planned.action_eq_keep_iff.2 (own side)

/-- Untouched operations are reported in the order of their identifiers. -/
theorem pairwise_untouched (h : Normalized g naming g' plans middle) :
    (reportOf plans).untouched.Pairwise fun x y => compare x y = .lt := by
  have hsorted : (plans.map Plan.operation).Pairwise fun x y => compare x y = .lt := by
    rw [map_operation_of_planAll h.planned, List.pairwise_map]
    exact g.nodes.sorted.filter _
  exact hsorted.sublist (List.filter_sublist.map _)

/-- An operation keeps its errors and its tags, and has its own records on both sides. -/
theorem get?_operation (h : Normalized g naming g' plans middle) (ho : operation ∈ g.operations) :
    g'.get? operation.id = some ⟨operation.id,
      .operation (some (naming.recordFor operation.id .input))
        (some (naming.recordFor operation.id .output)) operation.shape.errors,
      operation.tags⟩ := by
  obtain ⟨n, hn, hid⟩ := h.mem_operations_of_mem ho
  obtain ⟨hget, hoperation⟩ := mem_operations.1 hn
  obtain ⟨operation', p, ho', -, planned, hid', hrewired⟩ := h.exists_rewired hn
  obtain rfl := eq_of_mem_operations ho' ho (hid'.trans hid)
  have hnode := Node.eq_operation hoperation (declared?_of_rewired planned hrewired .input)
    (declared?_of_rewired planned hrewired .output)
  rw [hrewired.errors, hrewired.kept.1, hrewired.kept.2] at hnode
  rw [hid] at hget
  exact hget.trans (congrArg some hnode)

/-- The shapes that are new are the reported records. -/
theorem new_iff (h : Normalized g naming g' plans middle) :
    g'.contains id = true ∧ g.contains id = false ↔
      id ∈ (reportOf plans).cloned ++ (reportOf plans).created := by
  rw [(perm_report plans).mem_iff, List.mem_map]
  constructor
  · rintro ⟨hnew, hold⟩
    obtain ⟨n, hget⟩ := Graph.contains_iff.1 hnew
    obtain rfl := Graph.get?_id hget
    cases hoperation : n.shape.isOperation with
    | true =>
      obtain ⟨operation, p, ho, -, -, hid, -⟩ :=
        h.exists_rewired (mem_operations.2 ⟨hget, hoperation⟩)
      rw [← hid, Graph.contains_of_get? (mem_operations.1 ho).1] at hold
      cases hold
    | false =>
      rcases h.old_or_added hget hoperation with hget | hadded
      · rw [Graph.contains_of_get? hget] at hold
        cases hold
      · exact ⟨n, hadded, rfl⟩
  · rintro ⟨n, hadded, rfl⟩
    exact ⟨Graph.contains_of_get? (h.get?_of_added hadded),
      fresh_of_mem_addedNodes h.planned hadded⟩

/-- No record is reported twice. -/
theorem nodup_report (h : Normalized g naming g' plans middle) :
    ((reportOf plans).cloned ++ (reportOf plans).created).Nodup := by
  rw [(perm_report plans).nodup_iff, List.nodup_iff_pairwise_ne, List.pairwise_map]
  exact pairwise_addedNodes h.planned

end Normalized

end Normalization

/-- A normalization leaves all shapes but the operations as they are; an operation keeps its errors
    and its tags, and is pointed at its own records.  What else there is are the reported records,
    each of which is reported once: the copies have the members of the declared records, and their
    tags with those of a copy; the others are empty.  The operations reported as untouched, in
    order, are those that had their own records already, and they stay as they are. -/
theorem normalize_result {report : Report} (h : g.normalize naming = .ok (g', report)) :
    (∀ n ∈ g.nodes, n.shape.isOperation = false → g'.get? n.id = some n) ∧
      (∀ operation ∈ g.operations, g'.get? operation.id = some ⟨operation.id,
        .operation (some (naming.recordFor operation.id .input))
          (some (naming.recordFor operation.id .output)) operation.shape.errors,
        operation.tags⟩) ∧
      (∀ id, g'.contains id = true ∧ g.contains id = false ↔
        id ∈ report.cloned ++ report.created) ∧
      (report.cloned ++ report.created).Nodup ∧
      (∀ id, id ∈ report.cloned ↔
        ∃ operation ∈ g.operations, ∃ side, ClonedFor g g' naming operation side id) ∧
      (∀ id, id ∈ report.created ↔
        ∃ operation ∈ g.operations, ∃ side, CreatedFor g g' naming operation side id) ∧
      (∀ id, id ∈ report.untouched ↔
        ∃ operation ∈ g.operations, operation.id = id ∧
          ∀ side, OwnRecord g naming operation side) ∧
      report.untouched.Pairwise (fun x y => compare x y = .lt) ∧
      ∀ operation ∈ g.operations, operation.id ∈ report.untouched →
        g'.get? operation.id = some operation := by
  obtain ⟨plans, middle, normalized, rfl⟩ := exists_normalized_reportOf h
  refine ⟨fun n hn hoperation => normalized.get?_of_get? (Graph.get?_of_mem hn) hoperation,
    fun operation ho => normalized.get?_operation ho, fun id => normalized.new_iff,
    normalized.nodup_report, fun id => normalized.mem_cloned, fun id => normalized.mem_created,
    fun id => normalized.mem_untouched, normalized.pairwise_untouched, ?_⟩
  intro operation ho huntouched
  obtain ⟨operation', ho', hid, own⟩ := normalized.mem_untouched.1 huntouched
  obtain rfl := eq_of_mem_operations ho' ho hid
  -- an operation with its own records already looks like one that was pointed at them
  rw [normalized.get?_operation ho,
    ← Node.eq_operation (mem_operations.1 ho).2 (own .input).declared (own .output).declared]

/-! ## A greenhouse -/

namespace Greenhouse

/-- The identifier of a shape of the greenhouse. -/
def shape (name : String) : ShapeId := ⟨"greenhouse", name, none⟩

/-- The identifier of a record made for the greenhouse. -/
def made (name : String) : ShapeId := ⟨"made", name, none⟩

/-- Made records have a short namespace. -/
def style : SyntheticNaming := { scope := "made" }

/-- An empty record made for a side. -/
def ready (name : String) (side : Side) : Node := emptyFor (made name) side

/-- An operation that shares a record on both sides, one that lacks an input, one that declares
nothing, one that has both of its records already and one that has one of them. -/
def nodes : List Node :=
  [ ⟨shape "Row", .enum [], .empty⟩,
    ⟨shape "Seed", .record [⟨"row", shape "Row", Sorted.empty.insert .required⟩,
      ⟨"depth", shape "Row", .empty⟩], Sorted.empty.insert .equality⟩,
    ⟨shape "Frost", .record [], .empty⟩,
    ⟨shape "plant", .operation (some (shape "Seed")) (some (shape "Seed")) [shape "Frost"], .empty⟩,
    ⟨shape "Water", .operation none (some (shape "Seed")) [],
      Sorted.empty.insert (.custom "idempotent" none)⟩,
    ⟨shape "Air", .operation none none [], .empty⟩,
    ready "PruneInput" .input, ready "PruneOutput" .output,
    ⟨shape "Prune", .operation (some (made "PruneInput")) (some (made "PruneOutput"))
      [shape "Frost"], .empty⟩,
    ready "WeedInput" .input,
    ⟨shape "Weed", .operation (some (made "WeedInput")) (some (shape "Frost")) [], .empty⟩ ]

/-- The graph of the greenhouse. -/
def graph : Graph := .ofNodesD nodes

/-- The greenhouse after a normalization. -/
def normalized : Graph × Report :=
  match graph.normalize style with
  | .ok result => result
  | .error _ => ({}, {})

/-- The tags of a record made for the greenhouse. -/
def tagsOf (name : String) : Option (List Tag) :=
  (normalized.1.get? (made name)).map fun n => n.tags.toList

end Greenhouse

/-- In the greenhouse both sides of an operation get copies of one record, which carry its tag, its
name and the tags of made records; the records for what was not declared carry only the latter, and
the mark differs from side to side. -/
theorem greenhouse_normalize_result :
    Greenhouse.graph.normalize Greenhouse.style =
        .ok (Greenhouse.normalized.1, Greenhouse.normalized.2) ∧
      Greenhouse.normalized.2 = {
        cloned := ["WaterOutput", "WeedOutput", "PlantInput", "PlantOutput"].map Greenhouse.made
        created := ["AirInput", "AirOutput", "WaterInput"].map Greenhouse.made
        untouched := [Greenhouse.shape "Prune"] } ∧
      ["PlantInput", "PlantOutput", "AirInput", "AirOutput"].map Greenhouse.tagsOf =
        [some [.equality, .cloneOf (Greenhouse.shape "Seed"), .synthetic, .input],
          some [.equality, .cloneOf (Greenhouse.shape "Seed"), .synthetic, .output],
          some [.synthetic, .input], some [.synthetic, .output]] ∧
      (∀ id ∈ Greenhouse.normalized.2.cloned, ∃ operation ∈ Greenhouse.graph.operations, ∃ side,
        ClonedFor Greenhouse.graph Greenhouse.normalized.1 Greenhouse.style operation side id) ∧
      (∀ id ∈ Greenhouse.normalized.2.created, ∃ operation ∈ Greenhouse.graph.operations, ∃ side,
        CreatedFor Greenhouse.graph Greenhouse.normalized.1 Greenhouse.style operation side id) ∧
      ∀ operation ∈ Greenhouse.graph.operations,
        operation.id ∈ Greenhouse.normalized.2.untouched →
          Greenhouse.normalized.1.get? operation.id = some operation := by
  have evaluated : Greenhouse.graph.normalize Greenhouse.style =
        .ok (Greenhouse.normalized.1, Greenhouse.normalized.2) ∧
      Greenhouse.normalized.2 = {
        cloned := ["WaterOutput", "WeedOutput", "PlantInput", "PlantOutput"].map Greenhouse.made
        created := ["AirInput", "AirOutput", "WaterInput"].map Greenhouse.made
        untouched := [Greenhouse.shape "Prune"] } ∧
      ["PlantInput", "PlantOutput", "AirInput", "AirOutput"].map Greenhouse.tagsOf =
        [some [.equality, .cloneOf (Greenhouse.shape "Seed"), .synthetic, .input],
          some [.equality, .cloneOf (Greenhouse.shape "Seed"), .synthetic, .output],
          some [.synthetic, .input], some [.synthetic, .output]] := by
    decide +kernel
  obtain ⟨hrun, report, tags⟩ := evaluated
  obtain ⟨-, -, -, -, hcloned, hcreated, -, -, huntouched⟩ := normalize_result hrun
  exact ⟨hrun, report, tags, fun id hid => (hcloned id).1 hid, fun id hid => (hcreated id).1 hid,
    huntouched⟩

end SchemaSymbols
