/-
  Normal graphs, and why a second normalization changes nothing.

  A graph is `Normal` if no shape stands where only made records belong, either side of every
  operation declares the record that is named for it, and no two sides have one name.  Both halves
  of the argument are about this form alone.

  1. **Of a normal graph every side is kept.**  The record that a side declares is its own, so it is
     planned to be kept (`planSide_eq_keep`), and no identifier is taken when its turn comes
     (`planOperation_eq_keeping`, `planFrom_eq_keeping` by induction on the operations).  So nothing
     is added and nothing is rewired (`Normal.normalize`).

  2. **A normalization that succeeds ends in a normal graph** (`normal_of_normalize`).  Its
     operations are those of the old graph, with the sides of their plans (`Rewired.kept`); the
     plans reserved what they name, so no two sides have one name; and what was added is marked as
     made.

  `normalize_idempotent` is the second after the first.
-/
import SchemaSymbols.Proofs.Normalization.Ownership

namespace SchemaSymbols

open Normalization

variable {g g' middle : Graph} {naming : SyntheticNaming} {plans : List Plan} {n : Node}

/-- Every operation has records of its own, and nothing else stands in their namespace. -/
structure Graph.Normal (g : Graph) (naming : SyntheticNaming) : Prop where
  /-- No shape is declared where only made records belong. -/
  reserved : ∀ n ∈ g.nodes, intrudes naming n = false
  /-- Either side of an operation declares the record that is named for it. -/
  declared : ∀ n ∈ g.operations, ∀ side, n.declared? side = some (naming.recordFor n.id side)
  /-- That record is there, and was made for an operation. -/
  made : ∀ n ∈ g.operations, ∀ side, isMadeRecord g (naming.recordFor n.id side) = true
  /-- No two sides have one record. -/
  apart : ∀ m ∈ g.operations, ∀ n ∈ g.operations, ∀ side side',
    naming.recordFor m.id side = naming.recordFor n.id side' → m = n ∧ side = side'

namespace Normalization

/-! ## Operations that keep their records -/

/-- The plan that keeps both records of an operation. -/
def Plan.keeping (naming : SyntheticNaming) (operation : Node) : Plan where
  operation := operation.id
  input := naming.recordFor operation.id .input
  inputAction := .keep
  output := naming.recordFor operation.id .output
  outputAction := .keep

theorem reserve_of_not_mem {owner id : ShapeId} {taken : List ShapeId} (h : id ∉ taken) :
    reserve owner taken id = .ok () :=
  if_neg h

theorem planSide_eq_keep {operation : Node} {side : Side}
    (declared : operation.declared? side = some (naming.recordFor operation.id side))
    (made : isMadeRecord g (naming.recordFor operation.id side) = true) :
    planSide g naming operation side = .ok .keep :=
  if_pos ⟨declared, made⟩

/-- An operation keeps both of its records, if they are not taken and differ. -/
theorem planOperation_eq_keeping {operation : Node} {taken : List ShapeId}
    (declared : ∀ side, operation.declared? side = some (naming.recordFor operation.id side))
    (made : ∀ side, isMadeRecord g (naming.recordFor operation.id side) = true)
    (free : ∀ side, naming.recordFor operation.id side ∉ taken)
    (differ : naming.recordFor operation.id .input ≠ naming.recordFor operation.id .output) :
    planOperation g naming taken operation = .ok (.keeping naming operation) := by
  have houtput : naming.recordFor operation.id .output ∉
      taken ++ [naming.recordFor operation.id .input] := by
    rw [List.mem_append, List.mem_singleton]
    rintro (htaken | hsame)
    · exact free .output htaken
    · exact differ hsame.symm
  rw [planOperation]
  refine bind_eq_ok.2 ⟨.keep, planSide_eq_keep (declared .input) (made .input), ?_⟩
  refine bind_eq_ok.2 ⟨(), reserve_of_not_mem (free .input), ?_⟩
  refine bind_eq_ok.2 ⟨.keep, planSide_eq_keep (declared .output) (made .output), ?_⟩
  exact bind_eq_ok.2 ⟨(), reserve_of_not_mem houtput, rfl⟩

/-- Operations of a normal graph keep their records, whichever of them are planned first: what is
    taken belongs to operations that come earlier. -/
theorem planFrom_eq_keeping (normal : g.Normal naming) {operations : List Node}
    {taken : List ShapeId} (within : ∀ n ∈ operations, n ∈ g.operations)
    (distinct : operations.Nodup)
    (free : ∀ n ∈ operations, ∀ side, naming.recordFor n.id side ∉ taken) :
    planFrom g naming taken operations = .ok (operations.map (Plan.keeping naming)) := by
  induction operations generalizing taken with
  | nil => rfl
  | cons operation rest ih =>
    obtain ⟨hwithin, hrest⟩ := List.forall_mem_cons.1 within
    obtain ⟨hfree, hfreeRest⟩ := List.forall_mem_cons.1 free
    obtain ⟨hnew, hdistinct⟩ := List.nodup_cons.1 distinct
    have differ : naming.recordFor operation.id .input ≠ naming.recordFor operation.id .output :=
      fun he => nomatch (normal.apart _ hwithin _ hwithin .input .output he).2
    have hplan := planOperation_eq_keeping (normal.declared _ hwithin) (normal.made _ hwithin)
      hfree differ
    -- the records of the first operation are none of the others'
    have hothers : ∀ n ∈ rest, ∀ side, naming.recordFor n.id side ∉
        taken ++ [naming.recordFor operation.id .input, naming.recordFor operation.id .output] := by
      intro n hn side hmem
      have hne : n ≠ operation := fun he => hnew (he ▸ hn)
      rw [List.mem_append, List.mem_pair] at hmem
      rcases hmem with htaken | hsame | hsame
      · exact hfreeRest n hn side htaken
      · exact hne (normal.apart n (hrest n hn) _ hwithin side .input hsame).1
      · exact hne (normal.apart n (hrest n hn) _ hwithin side .output hsame).1
    rw [planFrom]
    refine bind_eq_ok.2 ⟨_, hplan, ?_⟩
    exact bind_eq_ok.2 ⟨_, ih hrest hdistinct hothers, rfl⟩

/-- Plans that keep everything rewire nothing. -/
theorem foldlM_rewire_of_keepsAll (h : ∀ p ∈ plans, p.keepsAll = true) :
    plans.foldlM rewire g = .ok g := by
  induction plans with
  | nil => rfl
  | cons p plans ih =>
    obtain ⟨hfirst, hrest⟩ := List.forall_mem_cons.1 h
    rw [List.foldlM_cons]
    exact bind_eq_ok.2 ⟨g, if_pos hfirst, ih hrest⟩

/-- Plans that keep all records change nothing, and are reported as such. -/
theorem carryOut_keeping (g : Graph) (naming : SyntheticNaming) (operations : List Node) :
    carryOut g (operations.map (Plan.keeping naming)) = .ok g ∧
      reportOf (operations.map (Plan.keeping naming)) =
        { untouched := operations.map Node.id } := by
  have hkeeps : ∀ p ∈ operations.map (Plan.keeping naming), p.keepsAll = true := by
    intro p hp
    obtain ⟨operation, -, rfl⟩ := List.mem_map.1 hp
    rfl
  -- a plan that keeps both records contributes nothing to the lists of new ones
  have hnone : ∀ {β : Type} (select : Action → Option β), select .keep = none →
      (operations.map (Plan.keeping naming)).flatMap (fun p => p.actions.filterMap select) =
        [] := by
    intro β select hselect
    refine List.flatMap_eq_nil_iff.2 fun p hp => ?_
    obtain ⟨operation, -, rfl⟩ := List.mem_map.1 hp
    simp [Plan.actions, Plan.keeping, hselect]
  constructor
  · rw [carryOut, hnone Action.node? rfl]
    exact bind_eq_ok.2 ⟨g, rfl, foldlM_rewire_of_keepsAll hkeeps⟩
  · rw [reportOf, hnone Action.cloned? rfl, hnone Action.created? rfl,
      List.filter_eq_self.2 hkeeps, List.map_map]
    rfl

end Normalization

theorem Graph.nodup_operations (g : Graph) : g.operations.Nodup := g.nodes.nodup_toList.filter _

/-- A normal graph is left as it is. -/
theorem Graph.Normal.normalize (normal : g.Normal naming) :
    g.normalize naming = .ok (g, { untouched := g.operations.map Node.id }) := by
  have hclear : g.nodes.toList.find? (intrudes naming) = none :=
    List.find?_eq_none.2 fun n hn => Bool.eq_false_iff.1 (normal.reserved n hn)
  have hplans : planAll g naming = .ok (g.operations.map (Plan.keeping naming)) :=
    planFrom_eq_keeping normal (fun _ hn => hn) g.nodup_operations
      fun _ _ _ htaken => absurd htaken List.not_mem_nil
  obtain ⟨hcarried, hreport⟩ := carryOut_keeping g naming g.operations
  rw [Graph.normalize, hclear]
  refine bind_eq_ok.2 ⟨_, hplans, bind_eq_ok.2 ⟨g, hcarried, ?_⟩⟩
  rw [hreport]
  rfl

/-! ## A normalization ends in a normal graph -/

namespace Normalization

/-- A graph that can be normalized has no shape where only made records belong. -/
theorem reserved_of_normalize {result : Graph × Report} (h : g.normalize naming = .ok result) :
    ∀ n ∈ g.nodes, intrudes naming n = false := by
  rw [Graph.normalize] at h
  split at h
  · cases h
  · rename_i hclear
    exact fun n hn => Bool.eq_false_iff.2 (List.find?_eq_none.1 hclear n hn)

/-- Pointing an operation at its records changes neither its identifier nor its tags. -/
theorem Rewired.kept {p : Plan} {operation : Node} (h : Rewired p (some operation) (some n)) :
    n.id = operation.id ∧ n.tags = operation.tags := by
  rcases h with ⟨-, hsame⟩ | ⟨-, oldInput, oldOutput, errors, tags, hbefore, hafter⟩
  · cases hsame
    exact ⟨rfl, rfl⟩
  · cases hbefore
    cases hafter
    exact ⟨rfl, rfl⟩

/-- A made record is no intruder. -/
theorem IsMade.intrudes (h : IsMade n) : intrudes naming n = false := by
  rw [Normalization.intrudes, h.2, Bool.not_true, Bool.and_false]

/-- Nothing comes to stand where only made records belong. -/
theorem Normalized.reserved (h : Normalized g naming g' plans middle)
    (clear : ∀ n ∈ g.nodes, intrudes naming n = false) (hn : n ∈ g'.nodes) :
    intrudes naming n = false := by
  have hget := Graph.get?_of_mem hn
  cases hoperation : n.shape.isOperation with
  | true =>
    obtain ⟨operation, p, ho, -, -, -, hrewired⟩ :=
      h.exists_rewired (mem_operations.2 ⟨hget, hoperation⟩)
    have hold := clear operation (Graph.mem_nodes (mem_operations.1 ho).1)
    rw [intrudes] at hold ⊢
    rw [hrewired.kept.1, hrewired.kept.2]
    exact hold
  | false =>
    rcases h.old_or_added hget hoperation with hold | hadded
    · exact clear n (Graph.mem_nodes hold)
    · exact (isMade_of_mem_addedNodes h.planned hadded).intrudes

/-- Sides that are named alike are one side of one operation, since no record is planned twice. -/
theorem Normalized.apart (h : Normalized g naming g' plans middle) {m : Node}
    (hm : m ∈ g'.operations) (hn : n ∈ g'.operations) {side side' : Side}
    (he : naming.recordFor m.id side = naming.recordFor n.id side') : m = n ∧ side = side' := by
  obtain ⟨_, p, -, hp, planned, hid, -⟩ := h.exists_rewired hm
  obtain ⟨_, q, -, hq, planned', hid', -⟩ := h.exists_rewired hn
  rw [← hid, ← hid', ← planned.record, ← planned'.record] at he
  obtain ⟨rfl, rfl⟩ := apart_of_planAll h.planned hp hq side side' he
  have hids : m.id = n.id := by
    rw [← hid, ← hid', ← planned.owner, ← planned'.owner]
  exact ⟨eq_of_mem_operations hm hn hids, rfl⟩

end Normalization

/-- A normalization ends in a normal graph. -/
theorem Graph.normal_of_normalize {report : Report} (h : g.normalize naming = .ok (g', report)) :
    g'.Normal naming := by
  obtain ⟨plans, middle, normalized⟩ := exists_normalized h
  have clear := reserved_of_normalize h
  refine ⟨fun n hn => normalized.reserved clear hn, fun n hn side => ?_, fun n hn side => ?_,
    fun m hm n hn side side' => normalized.apart hm hn⟩
  · obtain ⟨_, p, -, -, planned, hid, hrewired⟩ := normalized.exists_rewired hn
    rw [← hid]
    exact declared?_of_rewired planned hrewired side
  · obtain ⟨_, p, ho, -, -, hid, -⟩ := normalized.exists_rewired hn
    rw [← hid]
    exact normalized.isMadeRecord ho side

/-- A second normalization succeeds, changes nothing and makes nothing; it reports all operations as
    untouched, in the order of their identifiers. -/
theorem normalize_idempotent {report : Report} (h : g.normalize naming = .ok (g', report)) :
    ∃ untouched : List ShapeId,
      g'.normalize naming = .ok (g', { cloned := [], created := [], untouched }) ∧
        (∀ id, id ∈ untouched ↔ ∃ n, g'.get? id = some n ∧ n.shape.isOperation = true) ∧
        untouched.Pairwise fun x y => compare x y = .lt := by
  refine ⟨g'.operations.map Node.id, (Graph.normal_of_normalize h).normalize, fun id => ?_, ?_⟩
  · rw [List.mem_map]
    constructor
    · rintro ⟨n, hn, rfl⟩
      exact ⟨n, mem_operations.1 hn⟩
    · rintro ⟨n, hget, hoperation⟩
      obtain rfl := Graph.get?_id hget
      exact ⟨n, mem_operations.2 ⟨hget, hoperation⟩, rfl⟩
  · rw [List.pairwise_map]
    exact g'.nodes.sorted.filter _

/-! ## A kiosk -/

namespace Kiosk

/-- Made records have a namespace of the kiosk, and those for outputs have no ending. -/
def style : SyntheticNaming := { scope := "kiosk.made", inputSuffix := "In", outputSuffix := "" }

/-- The identifier of a shape of the kiosk. -/
def shape (name : String) : ShapeId := ⟨"kiosk", name, none⟩

/-- The identifier of a record made for the kiosk. -/
def made (name : String) : ShapeId := ⟨"kiosk.made", name, none⟩

/-- An operation whose first letter has two letters in upper case, one whose input was made earlier,
and one without records. -/
def nodes : List Node :=
  [ ⟨shape "Slip", .record [], .empty⟩,
    ⟨made "RefundIn", .record [⟨"slip", shape "Slip", .empty⟩], Sorted.empty.insert .synthetic⟩,
    ⟨shape "ßell", .operation (some (shape "Slip")) (some (shape "Slip")) [], .empty⟩,
    ⟨shape "Refund", .operation (some (made "RefundIn")) (some (shape "Slip")) [], .empty⟩,
    ⟨shape "void", .operation none none [], .empty⟩ ]

/-- The graph of the kiosk. -/
def graph : Graph := .ofNodesD nodes

/-- The kiosk after a normalization. -/
def normalized : Graph × Report :=
  match graph.normalize style with
  | .ok result => result
  | .error _ => ({}, {})

end Kiosk

/-- The kiosk under a style of its own: the first normalization copies, the second one keeps every
side. -/
theorem kiosk_normalize_idempotent :
    Kiosk.graph.normalize Kiosk.style = .ok (Kiosk.normalized.1, Kiosk.normalized.2) ∧
      Kiosk.normalized.2 = {
        cloned := [Kiosk.made "Refund", Kiosk.made "SSellIn", Kiosk.made "SSell"]
        created := [Kiosk.made "VoidIn", Kiosk.made "Void"], untouched := [] } ∧
      ∃ untouched : List ShapeId,
        Kiosk.normalized.1.normalize Kiosk.style =
            .ok (Kiosk.normalized.1, { cloned := [], created := [], untouched }) ∧
          (∀ id, id ∈ untouched ↔
            ∃ n, Kiosk.normalized.1.get? id = some n ∧ n.shape.isOperation = true) ∧
          untouched.Pairwise fun x y => compare x y = .lt := by
  have hrun : Kiosk.graph.normalize Kiosk.style =
      .ok (Kiosk.normalized.1, Kiosk.normalized.2) := by
    decide +kernel
  exact ⟨hrun, by decide +kernel, normalize_idempotent hrun⟩

end SchemaSymbols
