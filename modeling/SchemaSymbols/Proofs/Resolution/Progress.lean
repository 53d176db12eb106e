/-
  Every step makes progress, and none undoes what was done.

  1. **What stays.**  Symbols stay, bound members stay, an open collection gets its symbol before it
     is dropped, and a record or union that is being walked ends up bound.  These are facts of one
     step (`SymbolStep.extends`, `Step.extends`, `Move.extends`, `Step.resolving`), and chains of
     steps inherit them (`keep_along`).  There are three kinds of chains, as there are three kinds
     of steps: those that make symbols, those that also walk, and those that also queue.

  2. **What is left to do** is counted by three measures: `containersLeft` for the stack of
     collections, `walkLeft` for the stack of walks, and the budget of the queue itself.

     - A collection is opened once and closed once, so `containersLeft` counts two steps for each
       shape without a symbol, less one for each collection that is open already.
     - A record or union that is neither bound nor being walked counts for itself and all its
       members, and a walk for its end and the members that are left (`walkLeft`).
     - The budget of the queue counts what is queued, and for each shape without a symbol what its
       symbol may still queue (`drainBudget_eq`).

  3. **The loops run as long as their measures.**  Each step of the collections and of the walks
     makes its measure smaller, and no measure exceeds the fuel that the program grants
     (`containersLeft_le`, `walkLeft_le`).  When the measure is zero the stack is empty
     (`Sound.containers_eq_nil`, `frames_eq_nil`), so no loop runs out of fuel with work left.
-/
import Mathlib.Data.List.Perm.Subperm
import SchemaSymbols.Proofs.Resolution.Soundness

namespace SchemaSymbols

open Relation

variable {r : Resolver} {R : ShapeId → Prop} {s s' : Session}

/-! ## Chains of steps -/

/-- What sound sessions keep from step to step holds at the end of a chain of steps. -/
theorem keep_along {T : Session → Session → Prop} {P : Session → Prop}
    (sound : ∀ a b, Sound r R a → T a b → Sound r R b)
    (keep : ∀ a b, Sound r R a → T a b → P a → P b)
    (steps : ReflTransGen T s s') (h : Sound r R s) (hP : P s) : Sound r R s' ∧ P s' := by
  induction steps with
  | refl => exact ⟨h, hP⟩
  | tail _ step ih => exact ⟨sound _ _ ih.1 step, keep _ _ ih.1 step ih.2⟩

/-- Symbols are made and collections opened and closed. -/
abbrev SymbolSteps (r : Resolver) (R : ShapeId → Prop) : Session → Session → Prop :=
  ReflTransGen (SymbolStep r R)

/-- Any number of steps. -/
abbrev Steps (r : Resolver) (R : ShapeId → Prop) : Session → Session → Prop :=
  ReflTransGen (Step r R)

/-- Any number of moves. -/
abbrev Moves (r : Resolver) (R : ShapeId → Prop) : Session → Session → Prop :=
  ReflTransGen (Move r R)

/-- Making symbols is a part of walking. -/
theorem SymbolSteps.steps (h : SymbolSteps r R s s') : Steps r R s s' :=
  ReflTransGen.mono (fun _ _ step => .symbol step) _ _ h

/-- Walking is a part of resolving. -/
theorem Steps.moves (h : Steps r R s s') : Moves r R s s' :=
  ReflTransGen.mono (fun _ _ step => .step step) _ _ h

/-- What every move keeps, a chain of moves keeps. -/
theorem Moves.keep {P : Session → Prop} (closed : r.graph.Closed R) (h : Sound r R s)
    (moves : Moves r R s s') (keep : ∀ a b, Sound r R a → Move r R a b → P a → P b) (hP : P s) :
    P s' :=
  (keep_along (fun _ _ h move => move.sound closed h) keep moves h hP).2

/-- What every step keeps, a chain of steps keeps. -/
theorem Steps.keep {P : Session → Prop} (closed : r.graph.Closed R) (h : Sound r R s)
    (steps : Steps r R s s') (keep : ∀ a b, Sound r R a → Step r R a b → P a → P b) (hP : P s) :
    P s' :=
  (keep_along (fun _ _ h step => step.sound closed h) keep steps h hP).2

/-- What making one symbol keeps, making several keeps. -/
theorem SymbolSteps.keep {P : Session → Prop} (closed : r.graph.Closed R) (h : Sound r R s)
    (steps : SymbolSteps r R s s')
    (keep : ∀ a b, Sound r R a → SymbolStep r R a b → P a → P b) (hP : P s) : P s' :=
  (keep_along (fun _ _ h step => step.sound closed h) keep steps h hP).2

theorem Moves.sound (closed : r.graph.Closed R) (h : Sound r R s) (moves : Moves r R s s') :
    Sound r R s' :=
  moves.keep closed h (fun _ _ h move _ => move.sound closed h) h

theorem Steps.sound (closed : r.graph.Closed R) (h : Sound r R s) (steps : Steps r R s s') :
    Sound r R s' :=
  steps.moves.sound closed h

theorem SymbolSteps.sound (closed : r.graph.Closed R) (h : Sound r R s)
    (steps : SymbolSteps r R s s') : Sound r R s' :=
  steps.steps.sound closed h

/-! ## What stays -/

theorem SymbolStep.frames (step : SymbolStep r R s s') : s'.frames = s.frames := by
  cases step <;> rfl

theorem SymbolStep.bindings (step : SymbolStep r R s s') :
    s'.table.bindings = s.table.bindings := by
  cases step <;> rfl

/-- Symbols that were made stay: a symbol is only added for a shape without one. -/
theorem SymbolStep.extends (h : Sound r R s) (step : SymbolStep r R s s') :
    s'.table.Extends s.table := by
  cases step with
  | leaf within node fresh made =>
    refine SymbolTable.extends_addSymbol ?_
    rw [(Resolver.made_of_leaf made).shape]
    exact fresh
  | opened => exact SymbolTable.Extends.rfl
  | closed node top built =>
    refine SymbolTable.extends_addSymbol ?_
    rw [(Resolver.built_of_collection built).shape]
    exact (h.containers _ (top ▸ List.mem_cons_self)).fresh

/-- An open collection stays open or gets its symbol. -/
theorem SymbolStep.containers (h : Sound r R s) (step : SymbolStep r R s s') {id : ShapeId}
    (hid : id ∈ s.containers ∨ s.table.contains id = true) :
    id ∈ s'.containers ∨ s'.table.contains id = true := by
  rcases hid with hid | hid
  · cases step with
    | leaf within node fresh made => exact Or.inl hid
    | opened => exact Or.inl (List.mem_cons_of_mem _ hid)
    | closed node top built =>
      rw [top] at hid
      rcases List.mem_cons.1 hid with rfl | hid
      · refine Or.inr (SymbolTable.contains_addSymbol.2 (Or.inl ?_))
        exact (Resolver.built_of_collection built).shape
      · refine Or.inl ?_
        show id ∈ s.containers.tail
        rw [top]
        exact hid
  · exact Or.inr ((step.extends h).contains hid)

/-- A step replaces no symbol. -/
theorem Step.extends (h : Sound r R s) (step : Step r R s s') : s'.table.Extends s.table := by
  cases step with
  | symbol step => exact step.extends h
  | enter => exact SymbolTable.Extends.rfl
  | bind binds => rw [Session.bindNext_of_frames binds.top]; exact SymbolTable.Extends.rfl
  | descend binds =>
    rw [Session.bindNext_of_frames binds.top]
    exact SymbolTable.Extends.rfl
  | leave top => rw [Session.leave_of_frames top]; exact SymbolTable.Extends.rfl

theorem SymbolSteps.extends (closed : r.graph.Closed R) (h : Sound r R s)
    (steps : SymbolSteps r R s s') : s'.table.Extends s.table :=
  steps.keep closed h (fun _ _ h step hext => (step.extends h).trans hext) SymbolTable.Extends.rfl

/-- A move replaces no symbol. -/
theorem Move.extends (h : Sound r R s) (move : Move r R s s') : s'.table.Extends s.table := by
  cases move with
  | step step => exact step.extends h
  | dequeue => exact SymbolTable.Extends.rfl
  | abandon => exact SymbolTable.Extends.rfl

theorem Moves.extends (closed : r.graph.Closed R) (h : Sound r R s) (moves : Moves r R s s') :
    s'.table.Extends s.table :=
  moves.keep closed h (fun _ _ h move hext => (move.extends h).trans hext) SymbolTable.Extends.rfl

/-- What is being walked or is bound stays so. -/
theorem Step.resolving (step : Step r R s s') {id : ShapeId}
    (hid : s.isResolving id = true ∨ s.table.isBound id = true) :
    s'.isResolving id = true ∨ s'.table.isBound id = true := by
  cases step with
  | symbol step =>
    rw [Session.isResolving, SymbolTable.isBound, step.frames, step.bindings]
    exact hid
  | enter =>
    refine hid.imp_left fun h => ?_
    exact Session.isResolving_iff.2 (List.mem_cons_of_mem _ (Session.isResolving_iff.1 h))
  | bind binds =>
    rw [Session.isResolving_bindNext binds.top, Session.bindNext_of_frames binds.top]
    exact hid
  | descend binds =>
    rw [← Session.isResolving_bindNext binds.top] at hid
    rw [Session.bindNext_of_frames binds.top] at hid ⊢
    refine hid.imp_left fun h => ?_
    exact Session.isResolving_iff.2 (List.mem_cons_of_mem _ (Session.isResolving_iff.1 h))
  | leave top =>
    -- the walk that is left is that of a record or union that is bound now
    rw [Session.isResolving_iff, top, List.map_cons, List.mem_cons] at hid
    rw [Session.leave_of_frames top, Session.isResolving_iff, SymbolTable.isBound_bind]
    rcases hid with (rfl | hid) | hid
    · exact Or.inr (Or.inl rfl)
    · exact Or.inl hid
    · exact Or.inr (Or.inr hid)

/-! ## The stack of collections -/

/-- The nodes without a symbol. -/
def unknown (r : Resolver) (s : Session) : List Node :=
  r.graph.nodes.toList.filter fun n => !s.table.contains n.id

/-- The steps that the stack of collections can still take: each collection is opened and closed
    once. -/
def containersLeft (r : Resolver) (s : Session) : Nat :=
  2 * (unknown r s).length - s.containers.length

/-- Nodes with a symbol keep it. -/
theorem not_contains_of_extends (hext : s'.table.Extends s.table) {n : Node}
    (h : (!s'.table.contains n.id) = true) : (!s.table.contains n.id) = true := by
  rw [Bool.not_eq_true', ← Bool.not_eq_true] at h ⊢
  exact fun hc => h (hext.contains hc)

/-- A symbol for a node that had none leaves its weight less to do. -/
theorem unknown_addSymbol (weight : Node → Nat) {n : Node} {symbol : Symbol}
    (node : r.graph.get? n.id = some n) (shape : symbol.shape = n.id)
    (fresh : s.table.contains n.id = false) (hs' : s'.table = s.table.addSymbol symbol) :
    ((unknown r s').map weight).sum + weight n ≤ ((unknown r s).map weight).sum := by
  have hext : s'.table.Extends s.table := hs' ▸ SymbolTable.extends_addSymbol (shape ▸ fresh)
  refine sum_filter_add_le weight (fun k _ hk => not_contains_of_extends hext hk)
    (Graph.mem_nodes node) (by rw [fresh]; rfl) ?_
  rw [Bool.not_eq_false', hs', SymbolTable.contains_addSymbol]
  exact Or.inl shape

theorem length_unknown_addSymbol {n : Node} {symbol : Symbol}
    (node : r.graph.get? n.id = some n) (shape : symbol.shape = n.id)
    (fresh : s.table.contains n.id = false) (hs' : s'.table = s.table.addSymbol symbol) :
    (unknown r s').length < (unknown r s).length := by
  have h := unknown_addSymbol (fun _ => 1) node shape fresh hs'
  simp only [List.map_const', List.sum_replicate_nat, Nat.mul_one] at h
  omega

/-- The open collections are some of the nodes without a symbol. -/
theorem Sound.length_containers_le (h : Sound r R s) :
    s.containers.length ≤ (unknown r s).length := by
  have hsub : s.containers ⊆ (unknown r s).map Node.id := by
    intro id hid
    obtain ⟨-, ⟨n, hn, -⟩, hfresh⟩ := h.containers id hid
    have hnid := Graph.get?_id hn
    refine List.mem_map.2 ⟨n, List.mem_filter.2 ⟨Graph.mem_nodes hn, ?_⟩, hnid⟩
    rw [hnid, hfresh]
    rfl
  have hle := (h.distinct.subperm hsub).length_le
  rwa [List.length_map] at hle

/-- Every step of the collections leaves less to do: it opens one, closes one or makes a symbol at
once. -/
theorem SymbolStep.containersLeft_lt (closed : r.graph.Closed R) (h : Sound r R s)
    (step : SymbolStep r R s s') : containersLeft r s' < containersLeft r s := by
  -- no more collections are open than nodes have no symbol, so nothing is cut off at zero
  have hle := h.length_containers_le
  have hle' := (step.sound closed h).length_containers_le
  rw [containersLeft, containersLeft]
  cases step with
  | @leaf n leaf within node fresh made =>
    have hlt : (unknown r (s.addLeaf leaf)).length < (unknown r s).length :=
      length_unknown_addSymbol node (Resolver.made_of_leaf made).shape fresh rfl
    have hsame : (s.addLeaf leaf).containers.length = s.containers.length := rfl
    omega
  | @opened n =>
    have hmore : (s.openContainer n.id).containers.length = s.containers.length + 1 := rfl
    have hsame : (unknown r (s.openContainer n.id)).length = (unknown r s).length := rfl
    omega
  | @closed n rest queued symbol node top built =>
    have fresh := (h.containers n.id (top ▸ List.mem_cons_self)).fresh
    have hlt : (unknown r (s.closeContainer symbol queued)).length < (unknown r s).length :=
      length_unknown_addSymbol node (Resolver.built_of_collection built).shape fresh rfl
    have hfewer : (s.closeContainer symbol queued).containers.length = rest.length := by
      show s.containers.tail.length = rest.length
      rw [top]
      rfl
    have hcount : s.containers.length = rest.length + 1 := by rw [top]; rfl
    omega

/-- There is never more to do than the fuel of the collections allows. -/
theorem containersLeft_le (r : Resolver) (s : Session) :
    containersLeft r s ≤ r.containerBudget := by
  have hle : (unknown r s).length ≤ r.graph.size := List.length_filter_le _ _
  rw [containersLeft, Resolver.containerBudget]
  omega

/-- When no step is left, no collection is open. -/
theorem Sound.containers_eq_nil (h : Sound r R s) (hleft : containersLeft r s = 0) :
    s.containers = [] := by
  have hle := h.length_containers_le
  rw [containersLeft] at hleft
  exact List.eq_nil_of_length_eq_zero (by omega)

/-! ## The stack of walks -/

/-- Whether a node is neither bound nor being walked. -/
def isFree (s : Session) (n : Node) : Bool := !s.table.isBound n.id && !s.isResolving n.id

/-- The steps that the stack of walks can still take: each member is bound once, and each record or
    union is left once. -/
def walkLeft (r : Resolver) (s : Session) : Nat :=
  ((r.graph.nodes.toList.filter (isFree s)).map fun n => n.shape.members.length + 1).sum
    + (s.frames.map fun f => f.todo.length + 1).sum

/-- What is left of the walks depends on the bound members and the walks only. -/
theorem walkLeft_congr (hb : s'.table.bindings = s.table.bindings) (hf : s'.frames = s.frames) :
    walkLeft r s' = walkLeft r s := by
  have hfree : isFree s' = isFree s := by
    funext n
    rw [isFree, isFree, SymbolTable.isBound, SymbolTable.isBound, Session.isResolving,
      Session.isResolving, hb, hf]
  rw [walkLeft, walkLeft, hfree, hf]

/-- Entering a record or union is paid for by what it counted before. -/
theorem walkLeft_enter {n : Node} (node : r.graph.get? n.id = some n)
    (unbound : s.table.isBound n.id = false) (apart : s.isResolving n.id = false) :
    walkLeft r (s.enter n (r.memberNames n)) ≤ walkLeft r s := by
  have hsaved := sum_filter_add_le (l := r.graph.nodes.toList) (p := isFree s)
    (q := isFree (s.enter n (r.memberNames n))) (fun n => n.shape.members.length + 1) (a := n)
    (fun k _ hk => by
      simp only [isFree, Bool.and_eq_true, Bool.not_eq_true'] at hk ⊢
      refine ⟨hk.1, Session.isResolving_eq_false.2 fun hmem => ?_⟩
      exact Session.isResolving_eq_false.1 hk.2 (List.mem_cons_of_mem _ hmem))
    (Graph.mem_nodes node) (by rw [isFree, unbound, apart]; rfl)
    (by
      have hentered : (s.enter n (r.memberNames n)).isResolving n.id = true :=
        Session.isResolving_iff.2 List.mem_cons_self
      rw [isFree, hentered, Bool.not_true, Bool.and_false])
  -- the weight of the node goes from the free nodes to the stack
  have hlen : (r.namedMembers n).length = n.shape.members.length := by
    rw [← r.map_fst_namedMembers n, List.length_map]
  have hstack : ((s.enter n (r.memberNames n)).frames.map fun f => f.todo.length + 1).sum =
      (r.namedMembers n).length + 1 + (s.frames.map fun f => f.todo.length + 1).sum := rfl
  rw [walkLeft, walkLeft, hstack]
  omega

/-- Binding a member leaves one thing less to do. -/
theorem walkLeft_bindNext {f : Frame} {rest : List Frame} {next : Member × String}
    {todo : List (Member × String)} (top : s.frames = f :: rest) (hnext : f.todo = next :: todo)
    (b : Binding) : walkLeft r (s.bindNext b) + 1 = walkLeft r s := by
  have hfree : isFree (s.bindNext b) = isFree s := by
    funext n
    rw [isFree, isFree, Session.isResolving_bindNext top, Session.bindNext_of_frames top]
  have hstack : ((s.bindNext b).frames.map fun f => f.todo.length + 1).sum + 1 =
      (s.frames.map fun f => f.todo.length + 1).sum := by
    rw [Session.bindNext_of_frames top, top]
    simp only [Frame.advance, List.map_cons, List.sum_cons, hnext, List.tail_cons,
      List.length_cons]
    omega
  rw [walkLeft, walkLeft, hfree]
  omega

/-- Finishing a walk leaves at least one thing less to do. -/
theorem walkLeft_leave {f : Frame} {rest : List Frame} (top : s.frames = f :: rest) :
    walkLeft r s.leave + 1 ≤ walkLeft r s := by
  have hless := sum_filter_le (l := r.graph.nodes.toList) (p := isFree s) (q := isFree s.leave)
    (fun n => n.shape.members.length + 1) fun k _ hk => by
      simp only [isFree, Bool.and_eq_true, Bool.not_eq_true', ← Bool.not_eq_true] at hk ⊢
      rw [Session.leave_of_frames top, SymbolTable.isBound_bind, Session.isResolving_iff] at hk
      rw [Session.isResolving_iff, top, List.map_cons, List.mem_cons]
      refine ⟨fun hb => hk.1 (Or.inr hb), ?_⟩
      rintro (he | hmem)
      · exact hk.1 (Or.inl he.symm)
      · exact hk.2 hmem
  have hstack : (s.leave.frames.map fun f => f.todo.length + 1).sum + 1 ≤
      (s.frames.map fun f => f.todo.length + 1).sum := by
    rw [Session.leave_of_frames top, top]
    simp only [List.map_cons, List.sum_cons]
    omega
  rw [walkLeft, walkLeft]
  omega

/-- Without walks, what is left to do is within the fuel of the walks. -/
theorem walkLeft_le (r : Resolver) (h : s.frames = []) : walkLeft r s ≤ r.walkBudget := by
  have hfree := sum_filter_le_sum (l := r.graph.nodes.toList) (p := isFree s)
    fun n => n.shape.members.length + 1
  have hbudget : r.walkBudget =
      (r.graph.nodes.toList.map fun n => n.shape.members.length + 1).sum := by
    have hsum := foldl_add_eq_sum (l := r.graph.nodes.toList)
      (fun n => n.shape.members.length + 1) 0
    rw [Nat.zero_add] at hsum
    exact hsum
  rw [walkLeft, h, hbudget]
  exact hfree

/-- When no step is left, no walk is under way. -/
theorem frames_eq_nil (hleft : walkLeft r s = 0) : s.frames = [] := by
  cases hframes : s.frames with
  | nil => rfl
  | cons f rest =>
    rw [walkLeft, hframes, List.map_cons, List.sum_cons] at hleft
    omega

/-! ## The queue -/

/-- The budget of the queue: what it holds, and what the shapes without symbols refer to. -/
theorem drainBudget_eq (r : Resolver) (s : Session) :
    r.drainBudget s =
      s.pending.length + ((unknown r s).map fun n => n.shape.references.length).sum :=
  foldl_add_eq_sum _ _

/-- Making symbols does not raise the budget: what a symbol queues was counted for its shape. -/
theorem SymbolStep.drainBudget_le (h : Sound r R s) (step : SymbolStep r R s s') :
    r.drainBudget s' ≤ r.drainBudget s := by
  rw [drainBudget_eq, drainBudget_eq]
  cases step with
  | @leaf n leaf within node fresh made =>
    have made := Resolver.made_of_leaf made
    have hsaved : ((unknown r (s.addLeaf leaf)).map fun n => n.shape.references.length).sum
        + n.shape.references.length ≤ ((unknown r s).map fun n => n.shape.references.length).sum :=
      unknown_addSymbol (fun n => n.shape.references.length) node made.shape fresh rfl
    have hqueue : (s.addLeaf leaf).pending.length = s.pending.length + n.shape.links.length := by
      show (s.pending ++ leaf.queued).length = _
      rw [List.length_append, made.queued]
    -- a shape queues no more than it refers to, and it is known from now on
    have hlinks := n.shape.length_links_le
    omega
  | opened => exact Nat.le_refl _
  | @closed n rest queued symbol node top built =>
    have fresh := (h.containers n.id (top ▸ List.mem_cons_self)).fresh
    have built := Resolver.built_of_collection built
    have hsaved : ((unknown r (s.closeContainer symbol queued)).map fun n =>
        n.shape.references.length).sum + n.shape.references.length ≤
          ((unknown r s).map fun n => n.shape.references.length).sum :=
      unknown_addSymbol (fun n => n.shape.references.length) node built.shape fresh rfl
    have hqueue : (s.closeContainer symbol queued).pending.length =
        s.pending.length + queued.length := List.length_append
    have hfilter : queued.length ≤ n.shape.elements.length := by
      have hle := List.length_filter_le r.graph.isAggregate (n.shape.elements.map Member.target)
      rw [List.length_map] at hle
      rw [built.queued]
      exact hle
    have helements := n.shape.length_elements_le
    omega

/-- No step of a walk raises the budget of the queue. -/
theorem Step.drainBudget_le (h : Sound r R s) (step : Step r R s s') :
    r.drainBudget s' ≤ r.drainBudget s := by
  cases step with
  | symbol step => exact step.drainBudget_le h
  | enter => exact Nat.le_refl _
  | bind binds => rw [Session.bindNext_of_frames binds.top]; exact Nat.le_refl _
  | descend binds => rw [Session.bindNext_of_frames binds.top]; exact Nat.le_refl _
  | leave top => rw [Session.leave_of_frames top]; exact Nat.le_refl _

end SchemaSymbols
