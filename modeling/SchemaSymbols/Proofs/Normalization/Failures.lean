/-
  When a normalization fails, and with which fault.

  `Graph.Normalizable` says what is asked of a graph, with no word about plans: nothing else stands
  where made records belong, no two sides are named alike, and every side has its own record already
  or can be given one.  `Unplannable` says what a fault other than the first has to be about.

  1. **Operations that cannot be planned** break the second or the third condition.  Operations are
     planned in order, each with the identifiers taken by those before it, and what is taken belongs
     to one of them (`TakenBy`).  So an identifier that is taken twice is the name of two sides
     (`unplannable_of_planOperation`), and from one operation to a list of them it goes by induction
     (`unplannable_of_planFrom`).  A normalizable graph has none of these faults
     (`Graph.Normalizable.not_unplannable`).

  2. **What was planned can be carried out.**  The records to be added have new identifiers that all
     differ, so they can be inserted one after the other (`exists_inserts`), and an operation is
     pointed at records that were there or were added, so it can be rewired (`Rewirable`), also when
     others were rewired before (`Rewirable.step`).  No fault is left for the second half
     (`exists_carryOut`).

  3. **Whole normalizations** check for intruders first, in the order of identifiers, then plan,
     then carry out.  `normalize_succeeds_iff` puts the cases together.

  `Pantry` is a graph that can be normalized; with two other shapes in the reserved namespace, or
  with a second operation whose name differs in the first letter only, it cannot.
-/
import SchemaSymbols.Proofs.Normalization.Idempotence
import SchemaSymbols.Proofs.Normalization.Surface

namespace SchemaSymbols

open Normalization

variable {g g' : Graph} {naming : SyntheticNaming} {plans : List Plan} {n operation : Node}
  {side : Side} {e : Fault}

namespace Normalization

/-- A side has its own record already, or can be given a new one. -/
def SideReady (g : Graph) (naming : SyntheticNaming) (operation : Node) (side : Side) : Prop :=
  (operation.declared? side = some (naming.recordFor operation.id side) ∧
      isMadeRecord g (naming.recordFor operation.id side) = true) ∨
    (g.contains (naming.recordFor operation.id side) = false ∧
      ∀ target, operation.declared? side = some target → g.isRecord target = true)

/-- The faults of operations that cannot be planned. -/
inductive Unplannable (g : Graph) (naming : SyntheticNaming) : Fault → Prop
  /-- Another side has a record of the same name. -/
  | shared {operation other : Node} {side side' : Side} (owner : operation ∈ g.operations)
      (otherOwner : other ∈ g.operations)
      (same : naming.recordFor operation.id side = naming.recordFor other.id side')
      (differ : ¬ (operation = other ∧ side = side')) :
      Unplannable g naming
        (.syntheticCollision operation.id (naming.recordFor operation.id side))
  /-- The record's identifier belongs to a shape that is not the side's own record. -/
  | taken {operation : Node} {side : Side} (owner : operation ∈ g.operations)
      (present : g.contains (naming.recordFor operation.id side) = true)
      (foreign : ¬ (operation.declared? side = some (naming.recordFor operation.id side) ∧
        isMadeRecord g (naming.recordFor operation.id side) = true)) :
      Unplannable g naming
        (.syntheticCollision operation.id (naming.recordFor operation.id side))
  /-- The side declares a shape that is not a record. -/
  | notRecord {operation target : Node} {side : Side} (owner : operation ∈ g.operations)
      (fresh : g.contains (naming.recordFor operation.id side) = false)
      (declared : operation.declared? side = some target.id)
      (node : g.get? target.id = some target) (kind : target.shape.isRecord = false) :
      Unplannable g naming
        (.operationTargetNotRecord operation.id target.id side target.shape.word)

end Normalization

/-- A graph that can be normalized. -/
structure Graph.Normalizable (g : Graph) (naming : SyntheticNaming) : Prop where
  /-- All that stands where made records belong is made. -/
  reserved : ∀ n ∈ g.nodes, n.id.scope = naming.scope → n.tags.contains .synthetic = true
  /-- No two sides are named alike. -/
  apart : ∀ m ∈ g.operations, ∀ n ∈ g.operations, ∀ side side',
    naming.recordFor m.id side = naming.recordFor n.id side' → m = n ∧ side = side'
  /-- Every side has its own record, or can be given one. -/
  ready : ∀ n ∈ g.operations, ∀ side, SideReady g naming n side

theorem Graph.isRecord_of_get? (h : g.get? n.id = some n) :
    g.isRecord n.id = n.shape.isRecord := by
  rw [Graph.isRecord, h]

/-- What a side declares is referred to. -/
theorem Graph.contains_of_declared? {target : ShapeId}
    (closed : ∀ n ∈ g.nodes, ∀ r ∈ n.shape.references, g.contains r.2 = true)
    (ho : operation ∈ g.operations) (h : operation.declared? side = some target) :
    g.contains target = true := by
  obtain ⟨hget, hoperation⟩ := mem_operations.1 ho
  obtain ⟨n, hn, r, hr, rfl⟩ := (Graph.refers_operation_iff hget hoperation).2 (Or.inl ⟨side, h⟩)
  exact closed n (mem_nodes hn) r hr

namespace Normalization

/-- An intruder stands in the reserved namespace and is not marked as made. -/
theorem intrudes_iff :
    intrudes naming n = true ↔
      n.id.scope = naming.scope ∧ n.tags.contains .synthetic = false := by
  rw [intrudes, Bool.and_eq_true_iff, decide_eq_true_iff, Bool.not_eq_true']

/-- What stands in the reserved namespace and does not intrude is marked as made. -/
theorem intrudes_eq_false_iff :
    intrudes naming n = false ↔
      (n.id.scope = naming.scope → n.tags.contains .synthetic = true) := by
  rw [← Bool.not_eq_true, intrudes_iff, not_and, Bool.not_eq_false]

/-! ## Operations that cannot be planned -/

/-- A side that cannot be planned shows what is wrong with the graph. -/
theorem unplannable_of_planSide
    (closed : ∀ n ∈ g.nodes, ∀ r ∈ n.shape.references, g.contains r.2 = true)
    (ho : operation ∈ g.operations) (h : planSide g naming operation side = .error e) :
    Unplannable g naming e := by
  rw [planSide] at h
  split at h
  · cases h
  · rename_i hforeign
    split at h
    · rename_i hpresent
      cases h
      exact .taken ho hpresent hforeign
    · rename_i hfresh
      have fresh : g.contains (naming.recordFor operation.id side) = false :=
        Bool.eq_false_iff.2 hfresh
      split at h
      · cases h
      · rename_i target hdeclared
        obtain ⟨source, node⟩ := Graph.contains_iff.1
          (Graph.contains_of_declared? closed ho hdeclared)
        obtain rfl := Graph.get?_id node
        rw [Graph.require_of_get? node] at h
        rcases bind_eq_error.1 h with h | ⟨_, hsource, h⟩
        · cases h
        cases hsource
        split at h
        · cases h
        · rename_i hkind
          cases h
          refine .notRecord ho fresh hdeclared node ?_
          revert hkind
          cases source.shape <;> intro hkind <;> first | rfl | exact absurd rfl (hkind _)

/-- An identifier cannot be reserved if it is taken. -/
theorem of_reserve_eq_error {owner id : ShapeId} {taken : List ShapeId}
    (h : reserve owner taken id = .error e) : id ∈ taken ∧ e = .syntheticCollision owner id := by
  rw [reserve] at h
  split at h
  · rename_i htaken
    cases h
    exact ⟨htaken, rfl⟩
  · cases h

/-- All that is taken is named for sides of other operations. -/
def TakenBy (g : Graph) (naming : SyntheticNaming) (operations : List Node)
    (taken : List ShapeId) : Prop :=
  ∀ id ∈ taken, ∃ other ∈ g.operations, other ∉ operations ∧
    ∃ side, id = naming.recordFor other.id side

/-- An operation that cannot be planned shows it, whether it is one of its sides or an identifier
that was taken before. -/
theorem unplannable_of_planOperation {taken : List ShapeId} {rest : List Node}
    (closed : ∀ n ∈ g.nodes, ∀ r ∈ n.shape.references, g.contains r.2 = true)
    (ho : operation ∈ g.operations) (others : TakenBy g naming (operation :: rest) taken)
    (h : planOperation g naming taken operation = .error e) : Unplannable g naming e := by
  -- what is taken belongs to another operation
  have hshared : ∀ side, naming.recordFor operation.id side ∈ taken → Unplannable g naming
      (.syntheticCollision operation.id (naming.recordFor operation.id side)) := by
    intro side htaken
    obtain ⟨other, hother, hne, side', hsame⟩ := others _ htaken
    exact .shared ho hother hsame fun he => hne (he.1 ▸ List.mem_cons_self)
  rw [planOperation] at h
  rcases bind_eq_error.1 h with h | ⟨inputAction, -, h⟩
  · exact unplannable_of_planSide closed ho h
  rcases bind_eq_error.1 h with h | ⟨-, -, h⟩
  · obtain ⟨htaken, rfl⟩ := of_reserve_eq_error h
    exact hshared .input htaken
  rcases bind_eq_error.1 h with h | ⟨outputAction, -, h⟩
  · exact unplannable_of_planSide closed ho h
  rcases bind_eq_error.1 h with h | ⟨-, -, h⟩
  · obtain ⟨htaken, rfl⟩ := of_reserve_eq_error h
    rcases List.mem_append.1 htaken with htaken | hown
    · exact hshared .output htaken
    · -- the two sides of one operation are named alike
      have hsame : naming.recordFor operation.id .output = naming.recordFor operation.id .input :=
        List.mem_singleton.1 hown
      refine .shared ho ho hsame fun he => ?_
      cases he.2
  · cases h

/-- So does a list of operations, by induction on the list. -/
theorem unplannable_of_planFrom {operations : List Node} {taken : List ShapeId}
    (closed : ∀ n ∈ g.nodes, ∀ r ∈ n.shape.references, g.contains r.2 = true)
    (within : ∀ n ∈ operations, n ∈ g.operations) (distinct : operations.Nodup)
    (others : TakenBy g naming operations taken)
    (h : planFrom g naming taken operations = .error e) : Unplannable g naming e := by
  induction operations generalizing taken with
  | nil => cases h
  | cons operation rest ih =>
    obtain ⟨ho, hrest⟩ := List.forall_mem_cons.1 within
    obtain ⟨hnew, hdistinct⟩ := List.nodup_cons.1 distinct
    rw [planFrom] at h
    rcases bind_eq_error.1 h with h | ⟨p, hp, h⟩
    · exact unplannable_of_planOperation closed ho others h
    rcases bind_eq_error.1 h with h | ⟨_, -, h⟩
    · obtain ⟨planned, -, -⟩ := of_planOperation hp
      refine ih hrest hdistinct (fun id hid => ?_) h
      rcases List.mem_append.1 hid with hold | hown
      · obtain ⟨other, hother, hne, hside⟩ := others id hold
        exact ⟨other, hother, fun hmem => hne (List.mem_cons_of_mem _ hmem), hside⟩
      · refine ⟨operation, ho, hnew, ?_⟩
        rcases List.mem_pair.1 hown with rfl | rfl
        · exact ⟨.input, planned.record .input⟩
        · exact ⟨.output, planned.record .output⟩
    · cases h

theorem unplannable_of_planAll
    (closed : ∀ n ∈ g.nodes, ∀ r ∈ n.shape.references, g.contains r.2 = true)
    (h : planAll g naming = .error e) : Unplannable g naming e := by
  have others : TakenBy g naming g.operations [] := fun _ hid => absurd hid List.not_mem_nil
  exact unplannable_of_planFrom closed (fun _ hn => hn) g.nodup_operations others h

end Normalization

/-- In a graph that can be normalized every operation can be planned. -/
theorem Graph.Normalizable.not_unplannable (h : g.Normalizable naming) :
    ¬ Unplannable g naming e := by
  intro unplannable
  cases unplannable with
  | shared owner otherOwner same differ => exact differ (h.apart _ owner _ otherOwner _ _ same)
  | taken owner present foreign =>
    rcases h.ready _ owner _ with hown | ⟨hfresh, -⟩
    · exact foreign hown
    · rw [hfresh] at present
      cases present
  | notRecord owner fresh declared node kind =>
    rcases h.ready _ owner _ with ⟨-, hmade⟩ | ⟨-, hrecord⟩
    · obtain ⟨record, hget, -⟩ := exists_of_isMadeRecord hmade
      rw [Graph.contains_of_get? hget] at fresh
      cases fresh
    · have hrecord := hrecord _ declared
      rw [Graph.isRecord_of_get? node, kind] at hrecord
      cases hrecord

/-! ## Changes that cannot fail -/

namespace Graph

/-- A node with a new identifier and no dangling reference can be inserted. -/
theorem exists_insert (fresh : g.contains n.id = false)
    (present : ∀ r ∈ n.shape.references, g.contains r.2 = true) : ∃ g', g.insert n = .ok g' := by
  have hbefore : (n.shape.references.find? fun r => !g.contains r.2 && r.2 != n.id) = none := by
    refine List.find?_eq_none.2 fun r hr => ?_
    rw [present r hr, Bool.not_true, Bool.false_and]
    decide
  have hafter : (n.shape.references.find? fun r =>
      !Graph.contains { g with nodes := g.nodes.insert n } r.2) = none := by
    refine List.find?_eq_none.2 fun r hr => ?_
    have hkept : Graph.contains { g with nodes := g.nodes.insert n } r.2 = true :=
      Sorted.contains_insert.2 (Or.inr (present r hr))
    rw [hkept]
    decide
  have hadd : g.add n = .ok { g with nodes := g.nodes.insert n } := by
    rw [add, fresh]
    rfl
  rw [insert, hbefore]
  refine ⟨{ nodes := g.nodes.insert n, edges := g.edges ++ n.edges }, ?_⟩
  refine bind_eq_ok.2 ⟨_, hadd, ?_⟩
  rw [link, hafter]

/-- Nodes under new identifiers that differ can be added, one after the other. -/
theorem exists_inserts {nodes : List Node} (fresh : ∀ n ∈ nodes, g.contains n.id = false)
    (distinct : nodes.Pairwise fun m n => m.id ≠ n.id)
    (present : ∀ n ∈ nodes, ∀ r ∈ n.shape.references, g.contains r.2 = true) :
    ∃ g', nodes.foldlM insert g = .ok g' := by
  induction nodes generalizing g with
  | nil => exact ⟨g, rfl⟩
  | cons n nodes ih =>
    obtain ⟨hfresh, hfreshRest⟩ := List.forall_mem_cons.1 fresh
    obtain ⟨hpresent, hpresentRest⟩ := List.forall_mem_cons.1 present
    obtain ⟨hdiffer, hdistinct⟩ := List.pairwise_cons.1 distinct
    obtain ⟨middle, hinsert⟩ := exists_insert hfresh hpresent
    have hcontains : ∀ {id}, middle.contains id = true ↔ n.id = id ∨ g.contains id = true := by
      intro id
      rw [contains, (of_insert hinsert).2]
      exact Sorted.contains_insert
    have hfreshAfter : ∀ k ∈ nodes, middle.contains k.id = false := by
      intro k hk
      refine Bool.eq_false_iff.2 fun hmem => ?_
      rcases hcontains.1 hmem with hsame | hold
      · exact hdiffer k hk hsame
      · rw [hfreshRest k hk] at hold
        cases hold
    obtain ⟨g', hrest⟩ := ih hfreshAfter hdistinct fun k hk r hr =>
      hcontains.2 (Or.inr (hpresentRest k hk r hr))
    rw [List.foldlM_cons]
    exact ⟨g', bind_eq_ok.2 ⟨middle, hinsert, hrest⟩⟩

/-- An operation can be given any two shapes of the graph. -/
theorem exists_setSides {input output : ShapeId} (hn : g.get? operation.id = some operation)
    (hoperation : operation.shape.isOperation = true) (hinput : g.contains input = true)
    (houtput : g.contains output = true) :
    ∃ g', g.setSides operation.id input output = .ok g' := by
  have hpresent : ([input, output].find? fun id => !g.contains id) = none := by
    refine List.find?_eq_none.2 fun id hid => ?_
    rcases List.mem_pair.1 hid with rfl | rfl
    · rw [hinput]
      decide
    · rw [houtput]
      decide
  obtain ⟨id, shape, tags⟩ := operation
  cases shape with
  | operation oldInput oldOutput errors =>
    rw [setSides, hpresent, hn]
    exact ⟨_, rfl⟩
  | _ => cases hoperation

end Graph

namespace Normalization

/-- The operation of a plan is there, and so are the records it is to be pointed at. -/
def Rewirable (g : Graph) (p : Plan) : Prop :=
  (∃ n, g.get? p.operation = some n ∧ n.shape.isOperation = true) ∧
    ∀ side, g.contains (p.record side) = true

/-- An operation can be rewired to records of the graph. -/
theorem exists_rewire {p : Plan} (ready : Rewirable g p) : ∃ g', rewire g p = .ok g' := by
  obtain ⟨⟨n, hn, hoperation⟩, hrecords⟩ := ready
  rw [rewire]
  split
  · exact ⟨g, rfl⟩
  · have hid := Graph.get?_id hn
    rw [← hid] at hn ⊢
    exact Graph.exists_setSides hn hoperation (hrecords .input) (hrecords .output)

/-- A shape that is pointed at other records stays, and stays an operation. -/
theorem Rewirable.step {p q : Plan} (ready : Rewirable g q) (h : rewire g p = .ok g') :
    Rewirable g' q := by
  obtain ⟨hother, hrewired⟩ := of_rewire h
  obtain ⟨⟨n, hn, hoperation⟩, hrecords⟩ := ready
  have hkept : ∀ id k, g.get? id = some k →
      ∃ k', g'.get? id = some k' ∧ k'.shape.isOperation = k.shape.isOperation := by
    intro id k hk
    by_cases hid : p.operation = id
    · subst hid
      rcases hrewired with ⟨-, hsame⟩ | ⟨-, oldInput, oldOutput, errors, tags, hbefore, hafter⟩
      · exact ⟨k, hsame.trans hk, rfl⟩
      · rw [hk] at hbefore
        cases hbefore
        exact ⟨_, hafter, rfl⟩
    · exact ⟨k, (hother id hid).trans hk, rfl⟩
  constructor
  · obtain ⟨n', hn', hsame⟩ := hkept _ n hn
    exact ⟨n', hn', hsame.trans hoperation⟩
  · intro side
    obtain ⟨k, hk⟩ := Graph.contains_iff.1 (hrecords side)
    obtain ⟨k', hk', -⟩ := hkept _ k hk
    exact Graph.contains_of_get? hk'

/-- Operations can be rewired one after the other, by induction on their plans. -/
theorem exists_rewires (ready : ∀ p ∈ plans, Rewirable g p) :
    ∃ g', plans.foldlM rewire g = .ok g' := by
  induction plans generalizing g with
  | nil => exact ⟨g, rfl⟩
  | cons p plans ih =>
    obtain ⟨hfirst, hrest⟩ := List.forall_mem_cons.1 ready
    obtain ⟨middle, hrewire⟩ := exists_rewire hfirst
    obtain ⟨g', hrewires⟩ := ih fun q hq => (hrest q hq).step hrewire
    rw [List.foldlM_cons]
    exact ⟨g', bind_eq_ok.2 ⟨middle, hrewire, hrewires⟩⟩

/-- What is added refers to shapes of the graph, as what it is a copy of does. -/
theorem present_of_mem_addedNodes
    (closed : ∀ n ∈ g.nodes, ∀ r ∈ n.shape.references, g.contains r.2 = true)
    (h : planAll g naming = .ok plans) (hn : n ∈ addedNodes plans) :
    ∀ r ∈ n.shape.references, g.contains r.2 = true := by
  intro r hr
  obtain ⟨operation, -, side, rfl | ⟨source, hsource, members, record, rfl⟩⟩ :=
    exists_of_mem_addedNodes h hn
  · cases hr
  · refine closed source hsource r ?_
    rw [record]
    exact hr

/-- Whatever was planned can be carried out. -/
theorem exists_carryOut
    (closed : ∀ n ∈ g.nodes, ∀ r ∈ n.shape.references, g.contains r.2 = true)
    (h : planAll g naming = .ok plans) : ∃ g', carryOut g plans = .ok g' := by
  obtain ⟨middle, hadded⟩ := Graph.exists_inserts
    (fun n hn => fresh_of_mem_addedNodes h hn) (pairwise_addedNodes h)
    fun n hn => present_of_mem_addedNodes closed h hn
  have ready : ∀ p ∈ plans, Rewirable middle p := by
    intro p hp
    obtain ⟨operation, ho, planned⟩ := exists_operation h hp
    obtain ⟨hget, hoperation⟩ := mem_operations.1 ho
    refine ⟨⟨operation, ?_, hoperation⟩, fun side => ?_⟩
    · rw [planned.owner]
      exact Graph.get?_inserts_of_get? hadded hget
    · rw [planned.record side]
      rcases of_planSide (planned.action side) with ⟨-, -, hmade⟩ | ⟨k, hnode, hid, -⟩
      · obtain ⟨k, hk, -⟩ := exists_of_isMadeRecord hmade
        exact Graph.contains_of_get? (Graph.get?_inserts_of_get? hadded hk)
      · have hmem : k ∈ addedNodes plans := mem_addedNodes.2 ⟨p, hp, side, hnode⟩
        rw [← hid]
        exact Graph.contains_of_get? (Graph.get?_inserts_of_mem hadded hmem)
  obtain ⟨g', hrewired⟩ := exists_rewires ready
  exact ⟨g', bind_eq_ok.2 ⟨middle, hadded, hrewired⟩⟩

/-! ## Whole normalizations -/

/-- Where nothing is in the way, a normalization is planning and carrying out. -/
theorem normalize_of_reserved (reserved : ∀ n ∈ g.nodes, intrudes naming n = false) :
    g.normalize naming = (do
      let plans ← planAll g naming
      return (← carryOut g plans, reportOf plans)) := by
  have hclear : g.nodes.toList.find? (intrudes naming) = none :=
    List.find?_eq_none.2 fun n hn => Bool.eq_false_iff.1 (reserved n hn)
  rw [Graph.normalize, hclear]

/-- A shape that stands where made records belong is refused, the least one first. -/
theorem exists_reservedNamespace (hn : n ∈ g.nodes) (h : intrudes naming n = true) :
    ∃ first ∈ g.nodes, intrudes naming first = true ∧
      (∀ k ∈ g.nodes, intrudes naming k = true → first.id.le k.id = true) ∧
        g.normalize naming = .error (.reservedNamespace first.id) := by
  obtain ⟨first, hfirst⟩ : ∃ first, g.nodes.toList.find? (intrudes naming) = some first :=
    Option.isSome_iff_exists.1 (List.find?_isSome.2 ⟨n, hn, h⟩)
  obtain ⟨hintrudes, before, after, hsplit, hbefore⟩ := List.find?_eq_some_iff_append.1 hfirst
  refine ⟨first, List.mem_of_find?_eq_some hfirst, hintrudes, fun k hk hkIntrudes => ?_, ?_⟩
  · refine Sorted.isLE_of_not_mem_before hsplit hk fun hkBefore => ?_
    have hclear := hbefore k hkBefore
    rw [hkIntrudes] at hclear
    cases hclear
  · rw [Graph.normalize, hfirst]

/-- A side that was planned has its own record or can be given one. -/
theorem sideReady_of_planSide {action : Action}
    (h : planSide g naming operation side = .ok action) : SideReady g naming operation side := by
  cases sidePlan_of_planSide h with
  | keep declared made => exact Or.inl ⟨declared, made⟩
  | create fresh absent =>
    refine Or.inr ⟨fresh, fun target htarget => ?_⟩
    rw [absent] at htarget
    cases htarget
  | clone fresh declared node record =>
    refine Or.inr ⟨fresh, fun target htarget => ?_⟩
    rw [declared] at htarget
    cases htarget
    rw [Graph.isRecord_of_get? node, record]
    rfl

/-- Planning succeeds only if no two sides are named alike and every side is ready. -/
theorem normalizable_of_planAll (reserved : ∀ n ∈ g.nodes, intrudes naming n = false)
    (h : planAll g naming = .ok plans) : g.Normalizable naming := by
  refine ⟨fun n hn => intrudes_eq_false_iff.1 (reserved n hn),
    fun m hm n hn side side' => eq_of_recordFor_eq h hm hn, fun n hn side => ?_⟩
  obtain ⟨p, -, planned⟩ := exists_plan h hn
  exact sideReady_of_planSide (planned.action side)

end Normalization

/-- A graph without dangling references can be normalized if and only if all that stands where made
    records belong is made, no two sides are named alike, and every side has its own record or can
    be given one.  If something stands there that is not made, the least such shape is refused;
    otherwise the fault is that of an operation that breaks one of the other two conditions.  What
    was planned is carried out without a fault. -/
theorem normalize_succeeds_iff
    (closed : ∀ n ∈ g.nodes, ∀ r ∈ n.shape.references, g.contains r.2 = true) :
    ((∃ g' report, g.normalize naming = .ok (g', report)) ↔ g.Normalizable naming) ∧
      (∀ n ∈ g.nodes, n.id.scope = naming.scope → n.tags.contains .synthetic = false →
        ∃ first ∈ g.nodes, first.id.scope = naming.scope ∧
          first.tags.contains .synthetic = false ∧
          (∀ k ∈ g.nodes, k.id.scope = naming.scope → k.tags.contains .synthetic = false →
            first.id.le k.id = true) ∧
          g.normalize naming = .error (.reservedNamespace first.id)) ∧
      (∀ e, (∀ n ∈ g.nodes, n.id.scope = naming.scope → n.tags.contains .synthetic = true) →
        g.normalize naming = .error e → Unplannable g naming e) ∧
      ∀ plans, planAll g naming = .ok plans → ∃ g', carryOut g plans = .ok g' := by
  refine ⟨⟨fun ⟨g', report, h⟩ => ?_, fun normalizable => ?_⟩, ?_, ?_, ?_⟩
  · have reserved := reserved_of_normalize h
    rw [normalize_of_reserved reserved] at h
    obtain ⟨plans, hplans, -⟩ := bind_eq_ok.1 h
    exact normalizable_of_planAll reserved hplans
  · have reserved : ∀ n ∈ g.nodes, intrudes naming n = false := fun n hn =>
      intrudes_eq_false_iff.2 (normalizable.reserved n hn)
    rw [normalize_of_reserved reserved]
    cases hplans : planAll g naming with
    | error e => exact absurd (unplannable_of_planAll closed hplans) normalizable.not_unplannable
    | ok plans =>
      obtain ⟨g', hcarried⟩ := exists_carryOut closed hplans
      exact ⟨g', reportOf plans, bind_eq_ok.2 ⟨plans, rfl, bind_eq_ok.2 ⟨g', hcarried, rfl⟩⟩⟩
  · intro n hn hscope htags
    obtain ⟨first, hfirst, hfirstIntrudes, hleast, hfault⟩ :=
      exists_reservedNamespace hn (intrudes_iff.2 ⟨hscope, htags⟩)
    obtain ⟨hfirstScope, hfirstTags⟩ := intrudes_iff.1 hfirstIntrudes
    refine ⟨first, hfirst, hfirstScope, hfirstTags, fun k hk hkScope hkTags => ?_, hfault⟩
    exact hleast k hk (intrudes_iff.2 ⟨hkScope, hkTags⟩)
  · intro e reserved h
    rw [normalize_of_reserved fun n hn => intrudes_eq_false_iff.2 (reserved n hn)] at h
    rcases bind_eq_error.1 h with h | ⟨plans, hplans, h⟩
    · exact unplannable_of_planAll closed h
    obtain ⟨g', hcarried⟩ := exists_carryOut closed hplans
    rw [hcarried] at h
    cases h
  · exact fun plans hplans => exists_carryOut closed hplans

/-! ## A pantry -/

namespace Pantry

/-- The identifier of a shape of the pantry. -/
def shape (name : String) : ShapeId := ⟨"pantry", name, none⟩

/-- The identifier of a record made for the pantry. -/
def made (name : String) : ShapeId := ⟨"familiar.synthetic", name, none⟩

/-- An operation with a declared record, and one that has its own input already. -/
def nodes : List Node :=
  [ ⟨shape "Jar", .record [], .empty⟩,
    ⟨made "CloseInput", .record [⟨"jar", shape "Jar", .empty⟩], Sorted.empty.insert .synthetic⟩,
    ⟨shape "open", .operation (some (shape "Jar")) none [], .empty⟩,
    ⟨shape "Close", .operation (some (made "CloseInput")) (some (shape "Jar")) [], .empty⟩ ]

/-- The graph of the pantry. -/
def graph : Graph := .ofNodesD nodes

/-- A declared record that stands where only made ones belong. -/
def bowl : Node := ⟨made "Bowl", .record [], .empty⟩

/-- The pantry with two shapes that stand where only made records belong. -/
def crowded : Graph := .ofNodesD (⟨made "Lid", .enum [], .empty⟩ :: bowl :: nodes)

/-- The pantry with an operation whose records are named like those of another one. -/
def twins : Graph := .ofNodesD (⟨shape "Open", .operation none none [], .empty⟩ :: nodes)

/-- The records of the operation whose name begins with a small letter are taken. -/
def clash : Fault := .syntheticCollision (shape "open") (made "OpenInput")

end Pantry

/-- The pantry is normalized; with intruders the first of them is blamed; with a second operation of
that name the clash is. -/
theorem pantry_normalize_succeeds_iff :
    Pantry.graph.size = 4 ∧ (∃ g' report, Pantry.graph.normalize {} = .ok (g', report)) ∧
      Pantry.graph.Normalizable {} ∧
      (∃ first ∈ Pantry.crowded.nodes, first.id.le (Pantry.made "Bowl") = true ∧
        Pantry.crowded.normalize {} = .error (.reservedNamespace first.id)) ∧
      Pantry.twins.normalize {} = .error Pantry.clash ∧
      Unplannable Pantry.twins {} Pantry.clash := by
  have graph : Pantry.graph.WellFormed := Graph.wellFormed_ofNodesD _
  have crowded : Pantry.crowded.WellFormed := Graph.wellFormed_ofNodesD _
  have twins : Pantry.twins.WellFormed := Graph.wellFormed_ofNodesD _
  have hruns : ∃ g' report, Pantry.graph.normalize {} = .ok (g', report) := by
    have hok : (Pantry.graph.normalize {}).isOk = true := by decide +kernel
    cases hrun : Pantry.graph.normalize {} with
    | ok result => exact ⟨result.1, result.2, rfl⟩
    | error e =>
      rw [hrun] at hok
      cases hok
  have hbowl : Pantry.crowded.get? (Pantry.made "Bowl") = some Pantry.bowl := by decide +kernel
  have hscope : Pantry.bowl.id.scope = SyntheticNaming.scope {} := rfl
  have htags : Pantry.bowl.tags.contains .synthetic = false := rfl
  have hreserved : ∀ n ∈ Pantry.twins.nodes, n.id.scope = SyntheticNaming.scope {} →
      n.tags.contains .synthetic = true := by
    decide +kernel
  have hclash : Pantry.twins.normalize {} = .error Pantry.clash := by decide +kernel
  obtain ⟨first, hfirst, -, -, hleast, hfault⟩ :=
    (normalize_succeeds_iff crowded.closed).2.1 _ (Graph.mem_nodes hbowl) hscope htags
  refine ⟨by decide +kernel, hruns, (normalize_succeeds_iff graph.closed).1.1 hruns, ?_, hclash,
    ?_⟩
  · exact ⟨first, hfirst, hleast Pantry.bowl (Graph.mem_nodes hbowl) hscope htags, hfault⟩
  · exact (normalize_succeeds_iff twins.closed).2.2.1 _ hreserved hclash

end SchemaSymbols
