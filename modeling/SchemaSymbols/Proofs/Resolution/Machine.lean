/-
  A resolution, one step at a time.

  The programs of a resolution say what it ends with.  The machine says how it gets there, so that
  claims about every moment of a resolution can be stated at all.

  1. **Contexts** keep more books than a session does.  A walk has the names of all its members and
     the position of the next one, and the shapes that are being walked are in a set besides, which
     is all that a member looks at to find out whether it closes a cycle.

  2. **Tasks.**  The machine has a list of tasks; a step performs the first one, which changes the
     context and may put further tasks in front of the others (`Resolver.perform`).  A loop is a
     task that puts itself back, so no loop has a budget, and every context between two changes
     belongs to some state of the machine.  A task puts nothing above its own rank in front of the
     others (`Task.rank`), which is what keeps the list in order.

  3. **Faults** end a run: all tasks are dropped, and all walks are given up if a loop that walks or
     builds was among them.

  4. **Runs.**  The machine is deterministic, so of a state from which it can stop it is enough to
     know the last one: every state on the way leads there (`Reaches.to_last`), no other state is a
     last one (`Reaches.eq_last`), and it is there after finitely many steps (`Reaches.exists_run`).

  5. **The ways a task can go** are listed once, with what the task made sure of on each way
     (`Performs`), and whatever the machine performs is one of them (`performs_of_perform`).  The
     invariants are proved from this list, without opening `perform` again.
-/
import Mathlib.Data.Finset.Basic
import Mathlib.Data.Finset.Dedup
import SchemaSymbols.Proofs.Resolution.Calls

namespace SchemaSymbols

open Relation

/-! ## Contexts -/

/-- A record or union whose members are being bound. -/
structure OpenWalk where
  id : ShapeId
  /-- The names of all members. -/
  names : List String
  /-- The position of the next member. -/
  next : Nat := 0
  /-- The members bound, in declaration order. -/
  bound : List Binding := []
deriving DecidableEq

/-- The state of a resolution with all its books. -/
structure Context where
  table : SymbolTable := {}
  /-- The records and unions being walked, the innermost first. -/
  walks : List OpenWalk := []
  /-- Their identifiers. -/
  onStack : Finset ShapeId := ∅
  /-- The collections being built, the innermost first. -/
  containers : List ShapeId := []
  /-- The shapes to resolve when the current walk ends, the next one first. -/
  pending : List ShapeId := []
  /-- The deepest nesting of walks so far. -/
  maxDepth : Nat := 0
  diagnostics : List Diagnostic := []
deriving DecidableEq

namespace Context

/-- Whether the members of a shape are being bound. -/
def isResolving (c : Context) (id : ShapeId) : Bool := decide (id ∈ c.onStack)

/-- Takes in a leaf. -/
def addLeaf (c : Context) (leaf : Leaf) : Context :=
  { c with
    table := c.table.addSymbol leaf.symbol
    pending := c.pending ++ leaf.queued
    diagnostics := c.diagnostics ++ leaf.remarks }

/-- Starts to build a collection. -/
def openContainer (c : Context) (id : ShapeId) : Context :=
  { c with containers := id :: c.containers }

/-- Takes in the symbol of the innermost collection. -/
def closeContainer (c : Context) (symbol : Symbol) (queued : List ShapeId) : Context :=
  { c with
    table := c.table.addSymbol symbol
    containers := c.containers.tail
    pending := c.pending ++ queued }

/-- Starts to bind the members of a record or union. -/
def enter (c : Context) (owner : Node) (names : List AssignedName) : Context :=
  { c with
    walks := ⟨owner.id, names.map AssignedName.name, 0, []⟩ :: c.walks
    onStack := insert owner.id c.onStack
    maxDepth := max c.maxDepth (c.walks.length + 1)
    diagnostics := c.diagnostics ++ names.flatMap (AssignedName.remarks owner.id) }

/-- The innermost walk goes on to its next member. -/
def advance (c : Context) : Context :=
  match c.walks with
  | [] => c
  | w :: rest => { c with walks := { w with next := w.next + 1 } :: rest }

/-- The innermost walk has bound a member. -/
def push (c : Context) (b : Binding) : Context :=
  match c.walks with
  | [] => c
  | w :: rest => { c with walks := { w with bound := w.bound ++ [b] } :: rest }

/-- Files the members of the innermost walk. -/
def leave (c : Context) : Context :=
  match c.walks with
  | [] => c
  | w :: rest =>
    { c with walks := rest, onStack := c.onStack.erase w.id, table := c.table.bind w.id w.bound }

/-- Takes the next shape out of the queue. -/
def dequeue (c : Context) : Context := { c with pending := c.pending.tail }

/-- Gives up all walks. -/
def abandon (c : Context) : Context := { c with walks := [], onStack := ∅, containers := [] }

/-- The context in which a session without walks goes on. -/
def ofIdle (s : Session) : Context where
  table := s.table
  pending := s.pending
  maxDepth := s.maxDepth
  diagnostics := s.diagnostics

/-! What does not belong to the walks stays when a walk goes on. -/

section Fields

variable (c : Context) (b : Binding)

@[simp] theorem table_advance : c.advance.table = c.table := by rw [advance]; split <;> rfl

@[simp] theorem containers_advance : c.advance.containers = c.containers := by
  rw [advance]; split <;> rfl

@[simp] theorem pending_advance : c.advance.pending = c.pending := by rw [advance]; split <;> rfl

@[simp] theorem table_push : (c.push b).table = c.table := by rw [push]; split <;> rfl

@[simp] theorem containers_push : (c.push b).containers = c.containers := by
  rw [push]; split <;> rfl

@[simp] theorem pending_push : (c.push b).pending = c.pending := by rw [push]; split <;> rfl

@[simp] theorem isResolving_push (id : ShapeId) :
    (c.push b).isResolving id = c.isResolving id := by
  rw [push]; split <;> rfl

@[simp] theorem containers_leave : c.leave.containers = c.containers := by
  rw [leave]; split <;> rfl

@[simp] theorem pending_leave : c.leave.pending = c.pending := by rw [leave]; split <;> rfl

variable {c} {w : OpenWalk} {rest : List OpenWalk}

/-- Advancing moves the innermost walk to its next member. -/
theorem walks_advance (top : c.walks = w :: rest) :
    c.advance.walks = { w with next := w.next + 1 } :: rest := by rw [advance, top]

/-- A binding is added to the innermost walk. -/
theorem walks_push (top : c.walks = w :: rest) :
    (c.push b).walks = { w with bound := w.bound ++ [b] } :: rest := by rw [push, top]

theorem walks_leave (top : c.walks = w :: rest) : c.leave.walks = rest := by rw [leave, top]

end Fields

end Context

/-! ## Tasks -/

/-- What there is to do. -/
inductive Task where
  /-- Give a shape its symbol, and walk it. -/
  | visit (id : ShapeId)
  /-- Give a shape its symbol, unless it has one. -/
  | symbol (id : ShapeId)
  /-- Build the open collections, the innermost first. -/
  | build
  /-- Look at further elements of the innermost collection; without any, close it. -/
  | prepare (n : Node) (elements : List Member)
  /-- Walk a shape that has got its symbol, if it is a record or union that was not walked yet. -/
  | aggregate (id : ShapeId)
  /-- Walk until all open records and unions are bound. -/
  | walk
  /-- Give the target of a member its symbol, and bind the member. -/
  | member (owner : Node) (m : Member) (name : String)
  /-- Bind a member whose target has got its symbol. -/
  | bind (owner : Node) (m : Member) (name : String) (target : Node)
  /-- Enter the target of a member, if it is a record or union not met before. -/
  | meet (target : Node)
  /-- Visit the shapes in the queue. -/
  | drain
  /-- Resolve shapes one after the other. -/
  | each (ids : List ShapeId)
  /-- Check that no two declared types have one name. -/
  | checkNames
deriving DecidableEq

namespace Task

/-- Whether the task belongs to the binding of a member, which has begun and is not done. -/
def isBinding : Task → Bool
  | member _ _ _ => true
  | bind _ _ _ _ => true
  | _ => false

/-- Whether walks are given up when a fault meets this task. -/
def isLoop : Task → Bool
  | build => true
  | walk => true
  | _ => false

/-- A task puts in front of others only tasks that do not rank above it. -/
def rank : Task → Nat
  | prepare _ _ => 0
  | build => 1
  | symbol _ => 2
  | member _ _ _ => 3
  | bind _ _ _ _ => 3
  | meet _ => 3
  | aggregate _ => 4
  | walk => 4
  | visit _ => 5
  | drain => 6
  | each _ => 7
  | checkNames => 8

end Task

namespace Resolver

/-- Performs a task: the tasks that it leaves, which come next, and the context it makes. -/
def perform (r : Resolver) (c : Context) : Task → Except Fault (List Task × Context)
  | .visit id => return ([.symbol id, .aggregate id], c)
  | .symbol id =>
    if c.table.contains id then return ([], c)
    else do
      let n ← r.graph.require id
      if n.shape.isContainer then return ([.build], c.openContainer id)
      else
        let leaf ← r.leaf n
        return ([], c.addLeaf leaf)
  | .build =>
    match c.containers with
    | [] => return ([], c)
    | top :: _ => do
      let n ← r.graph.require top
      return ([.prepare n n.shape.elements, .build], c)
  | .prepare n [] => do
    let (symbol, queued) ← r.collection c.table n
    return ([], c.closeContainer symbol queued)
  | .prepare n (m :: rest) => do
    let target ← r.valueTarget (n.memberId m) m.target
    if c.table.contains target.id then return ([.prepare n rest], c)
    else if target.shape.isContainer then
      if c.containers.contains target.id then .error (.containerCycle target.id)
      else return ([], c.openContainer target.id)
    else
      let leaf ← r.leaf target
      return ([.prepare n rest], c.addLeaf leaf)
  | .aggregate id =>
    match c.table.get? id with
    | none => .error (.missingShape id)
    | some _ => do
      let n ← r.graph.require id
      if n.shape.isAggregate && !c.table.isBound id && !c.isResolving id then
        return ([.walk], c.enter n (r.memberNames n))
      else return ([], c)
  | .walk =>
    match c.walks with
    | [] => return ([], c)
    | w :: _ => do
      let owner ← r.graph.require w.id
      match owner.shape.members[w.next]? with
      | none => return ([.walk], c.leave)
      | some m => return ([.member owner m (w.names.getD w.next ""), .walk], c.advance)
  | .member owner m name => do
    let target ← r.valueTarget (owner.memberId m) m.target
    return ([.symbol target.id, .bind owner m name target], c)
  | .bind owner m name target =>
    match c.table.get? target.id with
    | none => .error (.missingShape target.id)
    | some symbol =>
      let boxed := c.isResolving target.id || m.tags.contains .recursive
      return ([.meet target], c.push (r.memberBinding owner m name symbol boxed))
  | .meet target =>
    if !c.isResolving target.id && target.shape.isAggregate && !c.table.isBound target.id then
      return ([], c.enter target (r.memberNames target))
    else return ([], c)
  | .drain =>
    match c.pending with
    | [] => return ([], c)
    | next :: _ => return ([.visit next, .drain], c.dequeue)
  | .each [] => return ([], c)
  | .each (id :: rest) => return ([.visit id, .drain, .each rest], c)
  | .checkNames => do
    c.table.checkNames
    return ([], c)

/-- The tasks of a call. -/
def tasksOf (r : Resolver) : Call → List Task
  | .shape id => [.visit id, .drain]
  | .all => [.each r.roots, .checkNames]

end Resolver

/-! ## The machine -/

/-- A state of the machine.  Without tasks the run is over, with or without a fault. -/
structure Machine where
  tasks : List Task
  context : Context
  fault? : Option Fault := none
deriving DecidableEq

namespace Machine

/-- One step: performs the first task, or ends the run with its fault. -/
def step (r : Resolver) (a : Machine) : Option Machine :=
  match a.tasks with
  | [] => none
  | t :: rest =>
    match r.perform a.context t with
    | .ok (tasks, c) => some ⟨tasks ++ rest, c, none⟩
    | .error e =>
      some ⟨[], if a.tasks.any Task.isLoop then a.context.abandon else a.context, some e⟩

/-- The machine when a call begins. -/
def start (r : Resolver) (c : Context) (call : Call) : Machine := ⟨r.tasksOf call, c, none⟩

/-- The machine when a call is over. -/
def ended : EStateM.Result Fault Session Unit → Machine
  | .ok _ s => ⟨[], .ofIdle s, none⟩
  | .error e s => ⟨[], .ofIdle s, some e⟩

/-- The machine is in state `b` at some time after it was in state `a`. -/
def Reaches (r : Resolver) : Machine → Machine → Prop :=
  ReflTransGen fun a b => a.step r = some b

/-- The machine after a number of steps, or where it stopped before. -/
def run (r : Resolver) : Nat → Machine → Machine
  | 0, a => a
  | k + 1, a =>
    match a.step r with
    | none => a
    | some b => run r k b

/-- A task that is performed leaves its tasks in front of the others. -/
theorem step_of_ok {r : Resolver} {t : Task} {rest tasks : List Task} {c c' : Context}
    {f? : Option Fault} (h : r.perform c t = .ok (tasks, c')) :
    step r ⟨t :: rest, c, f?⟩ = some ⟨tasks ++ rest, c', none⟩ := by
  simp only [step, h]

/-- A fault drops all tasks, and gives up the walks if it happened inside a loop. -/
theorem step_of_error {r : Resolver} {t : Task} {rest : List Task} {c : Context} {e : Fault}
    {f? : Option Fault} (h : r.perform c t = .error e) :
    step r ⟨t :: rest, c, f?⟩ =
      some ⟨[], if (t :: rest).any Task.isLoop then c.abandon else c, some e⟩ := by
  simp only [step, h]

/-- The machine stops when it has no tasks. -/
theorem step_eq_none {r : Resolver} {a : Machine} : a.step r = none ↔ a.tasks = [] := by
  obtain ⟨_ | ⟨t, rest⟩, c, f?⟩ := a
  · exact ⟨fun _ => rfl, fun _ => rfl⟩
  · cases hperform : r.perform c t with
    | error e =>
      rw [step_of_error hperform]
      exact iff_of_false (Option.some_ne_none _) (List.cons_ne_nil _ _)
    | ok result =>
      rw [step_of_ok hperform]
      exact iff_of_false (Option.some_ne_none _) (List.cons_ne_nil _ _)

theorem tasks_ended (x : EStateM.Result Fault Session Unit) : (ended x).tasks = [] := by
  cases x <;> rfl

/-- Running for a number of steps reaches a state. -/
theorem reaches_run (r : Resolver) (k : Nat) (a : Machine) : Reaches r a (a.run r k) := by
  induction k generalizing a with
  | zero => exact .refl
  | succ k ih =>
    rw [run]
    split
    · exact .refl
    · rename_i b hstep
      exact .head hstep (ih b)

/-- Whatever state the machine is in, it goes on to the state in which it stops. -/
theorem Reaches.to_last {r : Resolver} {a b last : Machine} (h : Reaches r a last)
    (stopped : last.step r = none) (run : Reaches r a b) : Reaches r b last := by
  induction run with
  | refl => exact h
  | @tail b b' _ hstep ih =>
    rcases ReflTransGen.cases_head ih with rfl | ⟨k, hk, rest⟩
    · rw [stopped] at hstep
      cases hstep
    · obtain rfl : b' = k := Option.some.inj (hstep.symm.trans hk)
      exact rest

/-- It stops in one state only. -/
theorem Reaches.eq_last {r : Resolver} {a b last : Machine} (h : Reaches r a last)
    (stopped : last.step r = none) (run : Reaches r a b) (hb : b.step r = none) : b = last := by
  rcases ReflTransGen.cases_head (h.to_last stopped run) with rfl | ⟨k, hk, -⟩
  · rfl
  · rw [hb] at hk
    cases hk

/-- A run that can stop does so after finitely many steps. -/
theorem Reaches.exists_run {r : Resolver} {a last : Machine} (h : Reaches r a last)
    (stopped : last.step r = none) : ∃ k, ∀ n, k ≤ n → a.run r n = last := by
  induction h using ReflTransGen.head_induction_on with
  | refl =>
    refine ⟨0, fun n _ => ?_⟩
    cases n with
    | zero => rfl
    | succ n => rw [run, stopped]
  | @head a b hstep _ ih =>
    obtain ⟨k, hk⟩ := ih
    refine ⟨k + 1, fun n hn => ?_⟩
    obtain ⟨n, rfl⟩ : ∃ j, n = j + 1 := ⟨n - 1, by omega⟩
    rw [run, hstep]
    exact hk n (by omega)

end Machine

/-! ## The ways a task can go -/

/-- The ways in which a task is performed, each with what the task made sure of. -/
inductive Performs (r : Resolver) (c : Context) : Task → List Task → Context → Prop
  | visit (id : ShapeId) : Performs r c (.visit id) [.symbol id, .aggregate id] c
  | known {id : ShapeId} (known : c.table.contains id = true) : Performs r c (.symbol id) [] c
  | opened {n : Node} (node : r.graph.get? n.id = some n) (container : n.shape.isContainer = true)
      (fresh : c.table.contains n.id = false) :
      Performs r c (.symbol n.id) [.build] (c.openContainer n.id)
  | leaf {n : Node} {leaf : Leaf} (node : r.graph.get? n.id = some n)
      (fresh : c.table.contains n.id = false) (made : r.leaf n = .ok leaf) :
      Performs r c (.symbol n.id) [] (c.addLeaf leaf)
  | built (idle : c.containers = []) : Performs r c .build [] c
  | look {n : Node} {rest : List ShapeId} (node : r.graph.get? n.id = some n)
      (top : c.containers = n.id :: rest) :
      Performs r c .build [.prepare n n.shape.elements, .build] c
  | closed {n : Node} {symbol : Symbol} {queued : List ShapeId}
      (built : r.collection c.table n = .ok (symbol, queued)) :
      Performs r c (.prepare n []) [] (c.closeContainer symbol queued)
  | ready {n : Node} {m : Member} (rest : List Member) (known : c.table.contains m.target = true) :
      Performs r c (.prepare n (m :: rest)) [.prepare n rest] c
  | inner {n target : Node} {m : Member} (rest : List Member)
      (node : r.graph.get? m.target = some target) (container : target.shape.isContainer = true)
      (fresh : c.table.contains m.target = false) (notOpen : m.target ∉ c.containers) :
      Performs r c (.prepare n (m :: rest)) [] (c.openContainer m.target)
  | element {n target : Node} {m : Member} {leaf : Leaf} (rest : List Member)
      (node : r.graph.get? m.target = some target) (fresh : c.table.contains m.target = false)
      (made : r.leaf target = .ok leaf) :
      Performs r c (.prepare n (m :: rest)) [.prepare n rest] (c.addLeaf leaf)
  | entered {n : Node} (node : r.graph.get? n.id = some n) (aggregate : n.shape.isAggregate = true)
      (known : c.table.contains n.id = true) (unbound : c.table.isBound n.id = false)
      (apart : c.isResolving n.id = false) :
      Performs r c (.aggregate n.id) [.walk] (c.enter n (r.memberNames n))
  | passed (id : ShapeId) : Performs r c (.aggregate id) [] c
  | walked (idle : c.walks = []) : Performs r c .walk [] c
  | left {w : OpenWalk} {rest : List OpenWalk} {owner : Node} (top : c.walks = w :: rest)
      (node : r.graph.get? w.id = some owner) (done : owner.shape.members[w.next]? = none) :
      Performs r c .walk [.walk] c.leave
  | next {w : OpenWalk} {rest : List OpenWalk} {owner : Node} {m : Member}
      (top : c.walks = w :: rest) (node : r.graph.get? w.id = some owner)
      (next : owner.shape.members[w.next]? = some m) :
      Performs r c .walk [.member owner m (w.names.getD w.next ""), .walk] c.advance
  | target {owner target : Node} {m : Member} (name : String)
      (node : r.graph.get? m.target = some target) (value : target.shape.isValue = true) :
      Performs r c (.member owner m name) [.symbol target.id, .bind owner m name target] c
  | bound {owner target : Node} {m : Member} {symbol : Symbol} (name : String)
      (known : c.table.get? target.id = some symbol) :
      Performs r c (.bind owner m name target) [.meet target] (c.push (r.memberBinding owner m name
        symbol (c.isResolving target.id || m.tags.contains .recursive)))
  | met {target : Node} (apart : c.isResolving target.id = false)
      (aggregate : target.shape.isAggregate = true)
      (unbound : c.table.isBound target.id = false) :
      Performs r c (.meet target) [] (c.enter target (r.memberNames target))
  | stayed (target : Node) : Performs r c (.meet target) [] c
  | drained : Performs r c .drain [] c
  | dequeued {next : ShapeId} {rest : List ShapeId} (queue : c.pending = next :: rest) :
      Performs r c .drain [.visit next, .drain] c.dequeue
  | eachNil : Performs r c (.each []) [] c
  | eachCons (id : ShapeId) (rest : List ShapeId) :
      Performs r c (.each (id :: rest)) [.visit id, .drain, .each rest] c
  | checked : Performs r c .checkNames [] c

variable {r : Resolver} {c c' : Context} {t : Task} {tasks : List Task}

/-- A shape has its symbol already, is opened as a collection, or gets one as a leaf. -/
theorem performs_symbol {id : ShapeId} (h : r.perform c (.symbol id) = .ok (tasks, c')) :
    Performs r c (.symbol id) tasks c' := by
  rw [Resolver.perform] at h
  split at h
  · rename_i hknown
    cases h
    exact .known hknown
  rename_i hfresh
  rw [Bool.not_eq_true] at hfresh
  obtain ⟨n, hn, h⟩ := bind_eq_ok.1 h
  have hget := Graph.get?_of_require hn
  obtain rfl := Graph.get?_id hget
  split at h
  · rename_i hcontainer
    cases h
    exact .opened hget hcontainer hfresh
  · obtain ⟨leaf, hmade, h⟩ := bind_eq_ok.1 h
    cases h
    exact .leaf hget hfresh hmade

/-- Either no collection is open, or the elements of the innermost one are next. -/
theorem performs_build (h : r.perform c .build = .ok (tasks, c')) :
    Performs r c .build tasks c' := by
  rw [Resolver.perform] at h
  cases htop : c.containers with
  | nil =>
    rw [htop] at h
    cases h
    exact .built htop
  | cons top rest =>
    rw [htop] at h
    obtain ⟨n, hn, hdone⟩ := bind_eq_ok.1 h
    have hget := Graph.get?_of_require hn
    obtain rfl := Graph.get?_id hget
    cases hdone
    exact .look hget htop

/-- A collection without further elements is closed; otherwise its next element has a symbol, is
opened, or gets its symbol as a leaf. -/
theorem performs_prepare {n : Node} {elements : List Member}
    (h : r.perform c (.prepare n elements) = .ok (tasks, c')) :
    Performs r c (.prepare n elements) tasks c' := by
  cases elements with
  | nil =>
    obtain ⟨⟨symbol, queued⟩, hbuilt, h⟩ := bind_eq_ok.1 h
    cases h
    exact .closed hbuilt
  | cons m rest =>
    obtain ⟨target, htarget, h⟩ := bind_eq_ok.1 h
    have hget := (Resolver.valueTarget_eq_ok.1 htarget).1
    have hid : target.id = m.target := Graph.get?_id hget
    rw [hid] at h
    split at h
    · rename_i hknown
      cases h
      exact .ready rest hknown
    rename_i hfresh
    rw [Bool.not_eq_true] at hfresh
    split at h
    · rename_i hcontainer
      split at h
      · cases h
      · rename_i hclosed
        cases h
        exact .inner rest hget hcontainer hfresh fun hmem => hclosed (List.contains_iff_mem.2 hmem)
    · obtain ⟨leaf, hmade, h⟩ := bind_eq_ok.1 h
      cases h
      exact .element rest hget hfresh hmade

/-- A shape with a symbol is walked, or needs no walk. -/
theorem performs_aggregate {id : ShapeId} (h : r.perform c (.aggregate id) = .ok (tasks, c')) :
    Performs r c (.aggregate id) tasks c' := by
  rw [Resolver.perform] at h
  cases hknown : c.table.get? id with
  | none => rw [hknown] at h; cases h
  | some symbol =>
    rw [hknown] at h
    obtain ⟨n, hn, h⟩ := bind_eq_ok.1 h
    have hget := Graph.get?_of_require hn
    obtain rfl := Graph.get?_id hget
    split at h
    · rename_i henter
      simp only [Bool.and_eq_true, Bool.not_eq_true'] at henter
      cases h
      exact .entered hget henter.1.1 (SymbolTable.contains_of_get? hknown) henter.1.2 henter.2
    · cases h
      exact .passed _

/-- Either there is no walk, or the innermost one is left, or its next member is due. -/
theorem performs_walk (h : r.perform c .walk = .ok (tasks, c')) : Performs r c .walk tasks c' := by
  rw [Resolver.perform] at h
  cases htop : c.walks with
  | nil =>
    rw [htop] at h
    cases h
    exact .walked htop
  | cons w rest =>
    rw [htop] at h
    obtain ⟨owner, howner, h⟩ := bind_eq_ok.1 h
    have hget := Graph.get?_of_require howner
    cases hnext : owner.shape.members[w.next]? with
    | none =>
      rw [hnext] at h
      cases h
      exact .left htop hget hnext
    | some m =>
      rw [hnext] at h
      cases h
      exact .next htop hget hnext

/-- The target of a member has its symbol when the member is bound. -/
theorem performs_bind {owner target : Node} {m : Member} {name : String}
    (h : r.perform c (.bind owner m name target) = .ok (tasks, c')) :
    Performs r c (.bind owner m name target) tasks c' := by
  rw [Resolver.perform] at h
  cases hknown : c.table.get? target.id with
  | none => rw [hknown] at h; cases h
  | some symbol =>
    rw [hknown] at h
    cases h
    exact .bound name hknown

/-- The target of a member is entered, or needs no walk of its own. -/
theorem performs_meet {target : Node} (h : r.perform c (.meet target) = .ok (tasks, c')) :
    Performs r c (.meet target) tasks c' := by
  rw [Resolver.perform] at h
  split at h
  · rename_i henter
    simp only [Bool.and_eq_true, Bool.not_eq_true'] at henter
    cases h
    exact .met henter.1.1 henter.1.2 henter.2
  · cases h
    exact .stayed target

/-- A task that is performed goes in one of the ways. -/
theorem performs_of_perform (h : r.perform c t = .ok (tasks, c')) : Performs r c t tasks c' := by
  cases t with
  | visit id => cases h; exact .visit id
  | symbol id => exact performs_symbol h
  | build => exact performs_build h
  | prepare n elements => exact performs_prepare h
  | aggregate id => exact performs_aggregate h
  | walk => exact performs_walk h
  | member owner m name =>
    obtain ⟨target, htarget, h⟩ := bind_eq_ok.1 h
    obtain ⟨hget, hvalue⟩ := Resolver.valueTarget_eq_ok.1 htarget
    cases h
    exact .target name hget hvalue
  | bind owner m name target => exact performs_bind h
  | meet target => exact performs_meet h
  | drain =>
    rw [Resolver.perform] at h
    cases hqueue : c.pending with
    | nil => rw [hqueue] at h; cases h; exact .drained
    | cons next rest => rw [hqueue] at h; cases h; exact .dequeued hqueue
  | each ids =>
    cases ids with
    | nil => cases h; exact .eachNil
    | cons id rest => cases h; exact .eachCons id rest
  | checkNames =>
    obtain ⟨-, -, h⟩ := bind_eq_ok.1 h
    cases h
    exact .checked

end SchemaSymbols
