/-
  The walks under way are in order at every point of every call, and none is left behind.

  1. **The walks.**  `Orderly` is the invariant, kept by every step of the machine; here it is read
     off in full (`WalksInOrder`).  What it says of the innermost walk depends on whether a member
     is being bound: from the moment at which the walk goes on to its next member up to the one at
     which the binding is filed, the walk is one member ahead (`exists_ahead`).

  2. **The end of a call.**  A call is over when the machine has no tasks, and `Orderly` then leaves
     nothing on the stacks (`cleanedUp`).

  3. **The queue** is empty after a call that ended well, because each resolution empties it
     (`ResolvedEach.drained`); a graph without shapes has no roots to resolve, but nothing can ever
     have been queued there (`Move.pending_of_empty`).

  `walks_in_order` states all three for a call after any calls, from the first state of the machine
  to the last one, which is what the program ends with.
-/
import SchemaSymbols.Proofs.Resolution.Adequacy

namespace SchemaSymbols

open Relation ResolveM

variable {r : Resolver} {R : ShapeId → Prop} {s s' : Session} {c : Context}

/-! ## The walks -/

/-- The walks under way are those of different records and unions, none of which is bound, and the
set of shapes being walked is theirs.  Each has a name for every declared member, and is as far as
the members it has bound; while a member is being bound, the innermost one is ahead by that
member. -/
structure Context.WalksInOrder (r : Resolver) (c : Context) (binding : Bool) : Prop where
  distinct : (c.walks.map OpenWalk.id).Nodup
  unbound : ∀ w ∈ c.walks, c.table.isBound w.id = false
  onStack : ∀ id, id ∈ c.onStack ↔ ∃ w ∈ c.walks, w.id = id
  named : ∀ w ∈ c.walks, ∃ owner, r.graph.get? w.id = some owner ∧
    owner.shape.isAggregate = true ∧ w.names.length = owner.shape.members.length
  bound : ∀ w ∈ c.walks, w.bound.length ≤ w.next ∧ w.next ≤ w.names.length
  outer : ∀ w ∈ c.walks.tail, w.next = w.bound.length
  inner : binding = false → ∀ w ∈ c.walks, w.next = w.bound.length
  ahead : binding = true → ∃ w ∈ c.walks.head?, w.next = w.bound.length + 1
  depth : c.maxDepth ≤ r.graph.aggregates.length

/-- Nothing is under way. -/
structure Context.CleanedUp (c : Context) : Prop where
  walks : c.walks = []
  onStack : c.onStack = ∅
  containers : c.containers = []
  isResolving : ∀ id, c.isResolving id = false

namespace Orderly

variable {a : Machine}

/-- While a member is being bound, the innermost walk is ahead by that member, which has a name. -/
theorem exists_ahead (h : Orderly r a) (hbinding : a.tasks.any Task.isBinding = true) :
    ∃ w rest, a.context.walks = w :: rest ∧ w.next = w.bound.length + 1 ∧
      w.next ≤ w.names.length := by
  obtain ⟨t, ht, hbinding⟩ := List.any_eq_true.1 hbinding
  have hmember : ∃ owner m name, a.context.AtMember r owner m name := by
    have hfit := h.fits t ht
    cases t with
    | member owner m name => exact ⟨owner, m, name, hfit⟩
    | bind owner m name target => exact ⟨owner, m, name, hfit.1⟩
    | _ => cases hbinding
  obtain ⟨owner, m, name, w, rest, top, -, hnext, -, hname⟩ := hmember
  obtain ⟨hlt, -⟩ := List.getElem?_eq_some_iff.1 hname
  exact ⟨w, rest, top, hnext, hnext ▸ hlt⟩

/-- A walk has bound no more members than there are names. -/
theorem length_bound_le (h : Orderly r a) {w : OpenWalk} (hw : w ∈ a.context.walks) :
    w.bound.length ≤ w.names.length := by
  obtain ⟨owner, node, hnames⟩ := h.books.named w hw
  obtain ⟨done, hdone, hall⟩ := (h.books.sound.frames _ (List.mem_map_of_mem hw)).progress
  rw [Resolver.frameOf_eq node] at hdone hall
  have hlen := congrArg (fun l => (l.map Prod.fst).length) hdone
  simp only [r.map_fst_namedMembers, List.length_map, List.length_append] at hlen
  rw [hnames, List.length_map, r.length_memberNames, hlen, hall.length_eq]
  exact Nat.le_add_right _ _

/-- A walk goes from the members that are bound to the next one, which is there. -/
theorem next_between (h : Orderly r a) {w : OpenWalk} (hw : w ∈ a.context.walks) :
    w.bound.length ≤ w.next ∧ w.next ≤ w.names.length := by
  have level (hnext : w.next = w.bound.length) :
      w.bound.length ≤ w.next ∧ w.next ≤ w.names.length :=
    ⟨hnext.ge, hnext ▸ h.length_bound_le hw⟩
  cases hbinding : a.tasks.any Task.isBinding with
  | false => exact level (h.level_all hbinding w hw)
  | true =>
    obtain ⟨first, rest, top, hnext, hle⟩ := h.exists_ahead hbinding
    have houter := h.books.outer
    rw [top] at hw houter
    rcases List.mem_cons.1 hw with rfl | hw
    · exact ⟨by omega, hle⟩
    · exact level (houter w hw)

/-- At every state of the machine, the walks are in order. -/
theorem walksInOrder (h : Orderly r a) :
    a.context.WalksInOrder r (a.tasks.any Task.isBinding) where
  distinct := h.books.distinct
  unbound := fun w hw => h.books.unbound hw
  onStack := fun id => by rw [h.books.mem_onStack, List.mem_map]
  named := fun w hw => by
    obtain ⟨owner, node, hnames⟩ := h.books.named w hw
    have haggregate := (h.books.sound.frames _ (List.mem_map_of_mem hw)).aggregate
    rw [Resolver.frameOf_eq node] at haggregate
    exact ⟨owner, node, haggregate, by rw [hnames, List.length_map, r.length_memberNames]⟩
  bound := fun w hw => h.next_between hw
  outer := h.books.outer
  inner := h.level_all
  ahead := fun hbinding => by
    obtain ⟨w, rest, top, hnext, -⟩ := h.exists_ahead hbinding
    exact ⟨w, by rw [top]; rfl, hnext⟩
  depth := h.books.depth

/-- A machine that has stopped has cleaned up. -/
theorem cleanedUp (h : Orderly r a) (stopped : a.step r = none) : a.context.CleanedUp := by
  obtain ⟨tasks, c, f?⟩ := a
  obtain rfl : tasks = [] := Machine.step_eq_none.1 stopped
  rw [h.eq_ofIdle.2]
  exact ⟨rfl, rfl, rfl, fun _ => rfl⟩

end Orderly

/-! ## The queue -/

/-- In a graph without shapes nothing is ever queued. -/
theorem Move.pending_of_empty (hempty : ∀ id, r.graph.get? id = none) (move : Move r R s s')
    (h : s.pending = []) : s'.pending = [] := by
  have absent {id : ShapeId} {n : Node} (node : r.graph.get? id = some n) : False := by
    rw [hempty] at node
    cases node
  cases move with
  | step step =>
    cases step with
    | symbol step =>
      cases step with
      | leaf within node => exact (absent node).elim
      | opened within node => exact (absent node).elim
      | closed node => exact (absent node).elim
    | enter within node => exact (absent node).elim
    | bind binds => exact (absent binds.node).elim
    | descend binds => exact (absent binds.node).elim
    | leave top => rw [Session.leave_of_frames top]; exact h
  | dequeue queue => rw [h] at queue; cases queue
  | abandon => exact h

/-- Without roots there are no shapes: a graph without services starts everywhere. -/
theorem get?_of_roots_eq_nil (wf : r.graph.WellFormed) (h : r.roots = []) (id : ShapeId) :
    r.graph.get? id = none := by
  have none_exposed (k : ShapeId) : ¬ r.graph.Exposed k := by
    rw [← Resolver.mem_roots wf, h]
    exact List.not_mem_nil
  rw [← Graph.contains_eq_false_iff, ← Bool.not_eq_true]
  intro hcontains
  cases hservices : r.graph.services with
  | nil => exact none_exposed id (Or.inl ⟨hservices, hcontains⟩)
  | cons n rest =>
    exact none_exposed n.id (Or.inr ⟨n, hservices ▸ List.mem_cons_self, .refl⟩)

/-- Resolutions leave an empty queue, if there is any of them or the queue was empty. -/
theorem ResolvedEach.drained {ids : List ShapeId} (h : ResolvedEach r R ids s s')
    (hids : ids = [] → s.pending = []) : s'.pending = [] := by
  induction h with
  | nil => exact hids rfl
  | cons first _ ih => exact ih fun _ => first.drained

/-- A call that ends well has emptied the queue. -/
theorem call_drained (wf : r.graph.WellFormed) (calls : List Call) {call : Call}
    (hrun : r.call call (r.after calls) = .ok () s) : s.pending = [] := by
  have closed := r.graph.closed_true
  obtain ⟨moves, idle⟩ := after_moves wf calls
  obtain ⟨resolved, -⟩ :=
    call_resolved wf closed (moves.sound closed .new) idle (fun _ _ => trivial) hrun
  refine resolved.drained fun hasked => ?_
  cases call with
  | shape id => cases hasked
  | all =>
    exact moves.keep closed .new
      (fun _ _ _ move => move.pending_of_empty (get?_of_roots_eq_nil wf hasked)) rfl

/-! ## Calls -/

/-- Whatever was called before, the walks are in order in every state that a call goes through.  The
call comes to an end, in the one state that the program leaves behind, and there everything is
cleaned up; if the call ended well, the queue is empty too. -/
theorem walks_in_order (wf : r.graph.WellFormed) (calls : List Call) (call : Call) :
    let first := Machine.start r (.ofIdle (r.after calls)) call
    let last := Machine.ended (r.call call (r.after calls))
    (∀ a, Machine.Reaches r first a → a.context.WalksInOrder r (a.tasks.any Task.isBinding)) ∧
      (Machine.Reaches r first last ∧ last.step r = none ∧
        last.context = .ofIdle (r.after (calls ++ [call]))) ∧
      ∀ a, Machine.Reaches r first a → a.step r = none →
        a = last ∧ a.context.CleanedUp ∧ (a.fault? = none → a.context.pending = []) := by
  intro first last
  have h := orderly_start wf calls call
  have hlast : Machine.Reaches r first last := reaches_ended wf calls call
  have hafter : r.after (calls ++ [call]) = (r.call call).leaves (r.after calls) := by
    rw [Resolver.after, List.foldl_append]
    rfl
  have hstopped : last.step r = none := Machine.step_eq_none.2 (Machine.tasks_ended _)
  refine ⟨fun a run => (h.reaches run).walksInOrder, ⟨hlast, hstopped, ?_⟩, fun a run ha => ?_⟩
  · rw [hafter, ResolveM.leaves]
    show (Machine.ended _).context = _
    cases r.call call (r.after calls) <;> rfl
  · obtain rfl : a = last := hlast.eq_last hstopped run ha
    refine ⟨rfl, (h.reaches run).cleanedUp ha, ?_⟩
    show (Machine.ended _).fault? = none → (Machine.ended _).context.pending = []
    cases hrun : r.call call (r.after calls) with
    | ok v s => exact fun _ => call_drained wf calls hrun
    | error e s => exact fun hnone => absurd hnone (Option.some_ne_none e)

namespace Windmill

/-- The identifier of a shape of the windmill. -/
def shape (name : String) : ShapeId := ⟨"windmill", name, none⟩

/-- Records and unions that contain each other, also through a list, and two lists that hold nothing
but each other. -/
def nodes : List Node :=
  [ ⟨shape "Sail", .record [⟨"mill", shape "Mill", .empty⟩], .empty⟩,
    ⟨shape "Mill", .record [⟨"sails", shape "Sails", .empty⟩, ⟨"keeper", shape "Keeper", .empty⟩],
      .empty⟩,
    ⟨shape "Sails", .list ⟨"member", shape "Sail", .empty⟩, .empty⟩,
    ⟨shape "Keeper", .union [⟨"mill", shape "Mill", .empty⟩, ⟨"log", shape "Log", .empty⟩], .empty⟩,
    ⟨shape "Log", .list ⟨"member", shape "Page", .empty⟩, .empty⟩,
    ⟨shape "Page", .list ⟨"member", shape "Log", .empty⟩, .empty⟩ ]

/-- The windmill seen through a target language. -/
def resolver : Resolver :=
  .new (.ofNodesD nodes) .rust (NullabilityMode.policy .structural) {}

/-- A call for one of the two lists, which fails, and then one for the sail. -/
def first : Machine :=
  .start resolver (.ofIdle (resolver.after [.shape (shape "Log")])) (.shape (shape "Sail"))

end Windmill

/-- The call for the sail has three walks under way, the innermost one ahead, and two lists open
when it fails.  All are given up. -/
theorem windmill_walks_in_order :
    Windmill.resolver.graph.WellFormed ∧
    ∃ a last, Machine.Reaches Windmill.resolver Windmill.first a ∧
      a.context.walks.map OpenWalk.id = ["Keeper", "Mill", "Sail"].map Windmill.shape ∧
      a.context.containers = ["Page", "Log"].map Windmill.shape ∧
      a.context.WalksInOrder Windmill.resolver true ∧
      Machine.Reaches Windmill.resolver Windmill.first last ∧
      last.fault? = some (.containerCycle (Windmill.shape "Log")) ∧ last.context.CleanedUp := by
  have wf : Windmill.resolver.graph.WellFormed := Graph.wellFormed_ofNodesD Windmill.nodes
  obtain ⟨order, -, cleaned⟩ :=
    walks_in_order wf [.shape (Windmill.shape "Log")] (.shape (Windmill.shape "Sail"))
  have run (k : Nat) : Machine.Reaches Windmill.resolver Windmill.first _ :=
    Machine.reaches_run Windmill.resolver k Windmill.first
  have binding : (Windmill.first.run Windmill.resolver 32).tasks.any Task.isBinding = true := by
    decide +kernel
  have stopped : (Windmill.first.run Windmill.resolver 34).step Windmill.resolver = none :=
    Machine.step_eq_none.2 (by decide +kernel)
  refine ⟨wf, _, _, run 32, by decide +kernel, by decide +kernel, binding ▸ order _ (run 32),
    run 34, by decide +kernel, (cleaned _ (run 34) stopped).2.1⟩

end SchemaSymbols
