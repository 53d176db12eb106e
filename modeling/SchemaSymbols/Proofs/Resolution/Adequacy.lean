/-
  The machine ends with what the programs compute.

  `Follows r x a rest` says that the machine, from the state `a` on, does what the program `x` does:
  when the program ends well the machine gets to the tasks `rest`, with the session that the program
  leaves, and when the program fails the machine stops with the same fault and all walks given up.
  Since a program is followed for any tasks behind it, two programs in a row are followed one after
  the other (`Follows.bind`).

  1. **One task, no program left.**  A task that fails stops the machine (`Orderly.fails`), and one
     that leaves no tasks is done in one step (`exists_reaches`).  Everything else is put together
     from these two.

  2. **From the elements of a collection up to a call** there is one lemma for each program, with
     the task that stands for it: `prepare`, `buildContainers`, `symbol`, `bindMember`, `walk`,
     `visit`, `drain`, `resolve`, `resolveEach`, `resolveAll`, `call`.  Each takes an `Orderly`
     state, which knows where in the program the machine is and keeps the books in step with the
     session.

  3. **Loops.**  Each loop of a program has a budget and the loop of the machine has none, so the
     induction is on the budget.  The measures of the two stacks and of the queue say that the
     budget outlasts the loop: a program that ran out of it would stop where the machine goes on.

  A program that gives up its walks on failure is followed like the program inside
  (`Follows.orAbandon`), because the machine gives them up whenever it stops with a fault.
-/
import SchemaSymbols.Proofs.Resolution.Order

namespace SchemaSymbols

open Relation ResolveM

variable {r : Resolver} {a b : Machine} {c c' : Context} {t : Task} {rest mid : List Task}
  {f? : Option Fault} {α β : Type} {x : ResolveM α}

/-- What is known of the way a step ended well may be used for what comes after it. -/
theorem ResolveM.Ends.mono_of_ok {s : Session} {Q Q' : α → Session → Prop}
    {E : Fault → Session → Prop} (h : x.Ends s Q E)
    (hQ : ∀ v s', x s = .ok v s' → Q v s' → Q' v s') : x.Ends s Q' E := by
  rw [Ends] at h ⊢
  cases hx : x s with
  | ok v s' =>
    rw [hx] at h
    exact hQ v s' hx h
  | error e s' =>
    rw [hx] at h
    exact h

/-- From the state `a` the machine does what the program `x` does, and the tasks `rest` remain. -/
def Follows (r : Resolver) (x : ResolveM α) (a : Machine) (rest : List Task) : Prop :=
  x.Ends (a.context.session r)
    (fun _ s => ∃ c, c.session r = s ∧ Machine.Reaches r a ⟨rest, c, none⟩)
    fun e s => ∃ c, c.session r = s.abandon ∧ Machine.Reaches r a ⟨[], c, some e⟩

namespace Follows

/-! ## How programs are put together -/

/-- What follows a program later on is reached from before, too. -/
theorem after (run : Machine.Reaches r a b) (h : Follows r x b rest) :
    x.Ends (b.context.session r)
      (fun _ s => ∃ c, c.session r = s ∧ Machine.Reaches r a ⟨rest, c, none⟩)
      fun e s => ∃ c, c.session r = s.abandon ∧ Machine.Reaches r a ⟨[], c, some e⟩ := by
  refine h.mono ?_ ?_
  · rintro v s ⟨c, hc, run'⟩
    exact ⟨c, hc, run.trans run'⟩
  · rintro e s ⟨c, hc, run'⟩
    exact ⟨c, hc, run.trans run'⟩

/-- A step of the machine of which a session sees nothing. -/
theorem head (hstep : a.step r = some b) (same : b.context.session r = a.context.session r)
    (h : Follows r x b rest) : Follows r x a rest := by
  rw [Follows, ← same]
  exact h.after (.single hstep)

/-- Two programs after each other, each with its own tasks. -/
theorem bind {f : α → ResolveM β} (first : Follows r x a mid)
    (next : ∀ v c, x (a.context.session r) = .ok v (c.session r) →
      Machine.Reaches r a ⟨mid, c, none⟩ → Follows r (f v) ⟨mid, c, none⟩ rest) :
    Follows r (x >>= f) a rest := by
  rw [Follows, ends_bind]
  refine Ends.mono_of_ok first ?_
  rintro v s hx ⟨c, rfl, run⟩
  exact (next v c hx run).after run

/-- A program that gives up on failure is followed like the program itself. -/
theorem orAbandon (h : Follows r x a rest) : Follows r (ResolveM.orAbandon x) a rest := by
  rw [Follows, ends_orAbandon]
  exact h

end Follows

/-- A task that fails stops the machine, with all walks given up. -/
theorem Orderly.fails {e : Fault} (h : Orderly r ⟨t :: rest, c, f?⟩)
    (failed : r.perform c t = .error e) :
    ∃ c', c'.session r = (c.session r).abandon ∧
      Machine.Reaches r ⟨t :: rest, c, f?⟩ ⟨[], c', some e⟩ :=
  ⟨c.abandon, rfl, .single (h.step_of_error failed)⟩

/-- A task that leaves no tasks is done in one step. -/
theorem exists_reaches (performed : r.perform c t = .ok ([], c')) :
    ∃ k, k.session r = c'.session r ∧ Machine.Reaches r ⟨t :: rest, c, f?⟩ ⟨rest, k, none⟩ :=
  ⟨c', rfl, .single (Machine.step_of_ok performed)⟩

/-! ## Symbols -/

/-- What is done when the elements of a collection were looked at. -/
def Resolver.settle (r : Resolver) (n : Node) : Option ShapeId → ResolveM Unit
  | some inner => modify (·.openContainer inner)
  | none => do
    let (symbol, queued) ← lift (r.collection (← get).table n)
    modify (·.closeContainer symbol queued)

/-- What the machine does with an element whose target is a value. -/
theorem perform_prepare_cons {n target : Node} {m : Member} (elements : List Member)
    (hvalue : r.valueTarget (n.memberId m) m.target = .ok target) :
    r.perform c (.prepare n (m :: elements)) =
      if c.table.contains target.id then .ok ([.prepare n elements], c)
      else if target.shape.isContainer then
        if c.containers.contains target.id then .error (.containerCycle target.id)
        else .ok ([], c.openContainer target.id)
      else r.leaf target >>= fun leaf => .ok ([.prepare n elements], c.addLeaf leaf) := by
  rw [Resolver.perform, hvalue]
  rfl

/-- A machine with the elements of a collection ahead of it does what the program does with them.
The induction is on the elements: those that are passed over and those that get their symbol at once
are one step of the machine each, and the rest of them is the same task with fewer elements. -/
theorem follows_prepare {n : Node} {elements : List Member}
    (h : Orderly r ⟨.prepare n elements :: rest, c, f?⟩) :
    Follows r (r.prepare n elements >>= r.settle n) ⟨.prepare n elements :: rest, c, f?⟩ rest := by
  induction elements generalizing c f? with
  | nil =>
    have hperform : r.perform c (.prepare n []) = (r.collection c.table n >>= fun result =>
      .ok ([], c.closeContainer result.1 result.2)) := rfl
    simp only [Follows, ends_bind, Resolver.prepare, ends_pure, Resolver.settle, ends_get,
      Context.session_table]
    cases hbuilt : r.collection c.table n with
    | error e => exact h.fails (by rw [hperform, hbuilt]; rfl)
    | ok result => exact exists_reaches (by rw [hperform, hbuilt]; rfl)
  | cons m elements ih =>
    rw [Follows, ends_bind]
    cases hvalue : r.valueTarget (n.memberId m) m.target with
    | error e =>
      rw [Resolver.prepare, hvalue]
      exact h.fails (by rw [Resolver.perform, hvalue]; rfl)
    | ok target =>
      have hperform := perform_prepare_cons (c := c) elements hvalue
      cases hknown : c.table.contains target.id with
      | true =>
        rw [if_pos hknown] at hperform
        have hstep : Machine.step r ⟨.prepare n (m :: elements) :: rest, c, f?⟩ = _ :=
          Machine.step_of_ok hperform
        rw [ends_prepare_known (s := c.session r) hvalue hknown]
        exact ends_bind.1 ((ih (h.step hstep)).after (.single hstep))
      | false =>
        rw [if_neg (Bool.eq_false_iff.1 hknown)] at hperform
        cases hcontainer : target.shape.isContainer with
        | true =>
          rw [if_pos hcontainer] at hperform
          rw [ends_prepare_container (s := c.session r) hvalue hknown hcontainer]
          by_cases hopen : c.containers.contains target.id = true
          · rw [if_pos (show (c.session r).containers.contains target.id = true from hopen)]
            exact h.fails (by rw [hperform, if_pos hopen])
          · rw [if_neg (show ¬(c.session r).containers.contains target.id = true from hopen)]
            exact exists_reaches (by rw [hperform, if_neg hopen])
        | false =>
          rw [if_neg (Bool.eq_false_iff.1 hcontainer)] at hperform
          rw [ends_prepare_leaf (s := c.session r) hvalue hknown hcontainer]
          cases hmade : r.leaf target with
          | error e => exact h.fails (by rw [hperform, hmade]; rfl)
          | ok leaf =>
            have hstep : Machine.step r ⟨.prepare n (m :: elements) :: rest, c, f?⟩ = _ :=
              Machine.step_of_ok (by rw [hperform, hmade]; rfl)
            rw [ends_lift_ok]
            exact ends_bind.1 ((ih (h.step hstep)).after (.single hstep))

/-- The machine builds the innermost collection as the program does: it looks at the elements, and
then it opens one of them or closes the collection. -/
theorem follows_containerStep {top : ShapeId} {others : List ShapeId}
    (h : Orderly r ⟨.build :: rest, c, f?⟩) (htop : c.containers = top :: others) :
    Follows r (r.containerStep top) ⟨.build :: rest, c, f?⟩ (.build :: rest) := by
  have hmem : top ∈ (c.session r).containers := by
    rw [Context.session_containers, htop]
    exact List.mem_cons_self
  obtain ⟨-, ⟨n, hget, -⟩, -⟩ := h.books.sound.containers top hmem
  have hrequire := Graph.require_of_get? hget
  have hstep : Machine.step r ⟨.build :: rest, c, f?⟩ = _ :=
    Machine.step_of_ok (by simp only [Resolver.perform, htop, hrequire]; rfl)
  rw [Resolver.containerStep, hrequire]
  refine .head hstep rfl ?_
  exact follows_prepare (h.step hstep)

/-- The budget of the program outlasts the loop, which takes a step for each of its own. -/
theorem follows_buildContainers (wf : r.graph.WellFormed) {fuel : Nat}
    (h : Orderly r ⟨.build :: rest, c, f?⟩) (hfuel : containersLeft r (c.session r) ≤ fuel) :
    Follows r (r.buildContainers fuel) ⟨.build :: rest, c, f?⟩ rest := by
  have hdone : ∀ {c : Context}, c.containers = [] → r.perform c .build = .ok ([], c) := by
    intro c hidle
    rw [Resolver.perform, hidle]
    rfl
  induction fuel generalizing c f? with
  | zero =>
    have hidle : c.containers = [] := h.books.sound.containers_eq_nil (Nat.le_zero.1 hfuel)
    exact exists_reaches (hdone hidle)
  | succ fuel ih =>
    rw [Resolver.buildContainers]
    cases htop : c.containers with
    | nil =>
      simp only [Follows, ends_bind, ends_get, Context.session_containers, htop]
      exact exists_reaches (hdone htop)
    | cons top others =>
      have hsplit : Follows r (r.containerStep top >>= fun _ => r.buildContainers fuel)
          ⟨.build :: rest, c, f?⟩ rest := by
        refine (follows_containerStep h htop).bind fun _ c' hrun run => ?_
        obtain ⟨-, hlt⟩ :=
          (containerStep_ends wf r.graph.closed_true h.books.sound htop).of_ok hrun
        have hless : containersLeft r (c'.session r) < containersLeft r (c.session r) := hlt
        exact ih (h.reaches run) (by omega)
      simp only [Follows, ends_bind, ends_get, Context.session_containers, htop]
      exact ends_bind.1 hsplit

/-- What the machine does with a shape that has no symbol. -/
theorem perform_symbol_fresh {n : Node} (fresh : c.table.contains n.id = false)
    (node : r.graph.get? n.id = some n) :
    r.perform c (.symbol n.id) =
      if n.shape.isContainer then .ok ([.build], c.openContainer n.id)
      else r.leaf n >>= fun leaf => .ok ([], c.addLeaf leaf) := by
  rw [Resolver.perform, if_neg (Bool.eq_false_iff.1 fresh), Graph.require_of_get? node]
  rfl

/-- A shape has its symbol when the machine is done with it: it had one, or got one at once, or it
is a collection and the loop of the collections ends only when that one is closed. -/
theorem follows_symbol (wf : r.graph.WellFormed) {id : ShapeId}
    (h : Orderly r ⟨.symbol id :: rest, c, f?⟩) :
    Follows r (r.symbol id) ⟨.symbol id :: rest, c, f?⟩ rest := by
  have closed := r.graph.closed_true
  rw [Follows]
  cases hknown : c.table.get? id with
  | some symbol =>
    refine (ends_symbol_known (s := c.session r) hknown).2 (exists_reaches ?_)
    rw [Resolver.perform, if_pos (SymbolTable.contains_of_get? hknown)]
    rfl
  | none =>
    have fresh : c.table.contains id = false := SymbolTable.contains_eq_false_iff.2 hknown
    cases hget : r.graph.get? id with
    | none =>
      have hrequire : r.graph.require id = .error (.missingShape id) := by rw [Graph.require, hget]
      simp only [Resolver.symbol, ends_bind, ends_get, Context.session_table, hknown, hrequire]
      refine h.fails ?_
      rw [Resolver.perform, if_neg (Bool.eq_false_iff.1 fresh), hrequire]
      rfl
    | some n =>
      obtain rfl := Graph.get?_id hget
      have hperform := perform_symbol_fresh fresh hget
      cases hcontainer : n.shape.isContainer with
      | true =>
        rw [if_pos hcontainer] at hperform
        rw [ends_symbol_container (s := c.session r) hknown hget hcontainer]
        have hstep : Machine.step r ⟨.symbol n.id :: rest, c, f?⟩ = _ :=
          Machine.step_of_ok hperform
        have h' := h.step hstep
        refine ((follows_buildContainers wf h' (containersLeft_le r _)).after
          (.single hstep)).mono_of_ok ?_
        rintro v s hrun ⟨c', rfl, run⟩
        obtain ⟨steps, idle⟩ :=
          (buildContainers_ends wf closed h'.books.sound (containersLeft_le r _)).of_ok hrun
        obtain ⟨symbol, hsymbol⟩ :=
          steps.exists_symbol closed h'.books.sound List.mem_cons_self idle
        exact (ends_answer hsymbol).2 ⟨c', rfl, run⟩
      | false =>
        rw [if_neg (Bool.eq_false_iff.1 hcontainer)] at hperform
        rw [ends_symbol_leaf (s := c.session r) hknown hget hcontainer]
        cases hmade : r.leaf n with
        | error e => exact h.fails (by rw [hperform, hmade]; rfl)
        | ok leaf =>
          obtain ⟨-, hsymbol⟩ :=
            symbolStep_addLeaf (s := c.session r) (R := fun _ => True) trivial hget fresh hmade
          exact (ends_answer hsymbol).2 (exists_reaches (by rw [hperform, hmade]; rfl))

/-! ## Members -/

/-- The machine binds a member in three tasks: the target gets its symbol, the binding is made, and
the target is entered if it has to be. -/
theorem follows_bindMember (wf : r.graph.WellFormed) {owner : Node} {m : Member} {name : String}
    (h : Orderly r ⟨.member owner m name :: rest, c, f?⟩) :
    Follows r (r.bindMember owner m name) ⟨.member owner m name :: rest, c, f?⟩ rest := by
  simp only [Follows, Resolver.bindMember, ends_bind]
  cases hvalue : r.valueTarget (owner.memberId m) m.target with
  | error e => exact h.fails (by rw [Resolver.perform, hvalue]; rfl)
  | ok target =>
    simp only [ends_lift_ok]
    obtain ⟨hget, -⟩ := Resolver.valueTarget_eq_ok.1 hvalue
    have node : r.graph.get? target.id = some target := Graph.get?_id hget ▸ hget
    have performed : r.perform c (.member owner m name) =
        .ok ([.symbol target.id, .bind owner m name target], c) := by
      rw [Resolver.perform, hvalue]
      rfl
    have hstep : Machine.step r ⟨.member owner m name :: rest, c, f?⟩ =
        some ⟨.symbol target.id :: .bind owner m name target :: rest, c, none⟩ :=
      Machine.step_of_ok performed
    have h' := h.step hstep
    refine ((follows_symbol wf h').after (.single hstep)).mono_of_ok ?_
    rintro symbol s hrun ⟨c', rfl, run⟩
    -- the walk has waited, and the target has its symbol now
    have idle : c.containers = [] := h.containers_eq_nil (by simp [Task.rank])
    obtain ⟨-, -, known⟩ :=
      (symbol_ends wf r.graph.closed_true h'.books.sound idle trivial).of_ok hrun
    have hbooks : c'.Books r := (h.reaches run).books
    have hbind : r.perform c' (.bind owner m name target) = .ok ([.meet target], c'.push
        (r.memberBinding owner m name symbol
          (c'.isResolving target.id || m.tags.contains .recursive))) := by
      rw [Context.session_table] at known
      rw [Resolver.perform, known]
      rfl
    simp only [ends_get, ends_modify, ← hbooks.isResolving, ← Context.session_push]
    generalize r.memberBinding owner m name symbol
      (c'.isResolving target.id || m.tags.contains .recursive) = b at hbind ⊢
    have run' := run.tail (Machine.step_of_ok hbind)
    have hmeet : r.perform (c'.push b) (.meet target) =
        if !c'.isResolving target.id && target.shape.isAggregate &&
          !((c'.push b).session r).table.isBound target.id then
            .ok ([], (c'.push b).enter target (r.memberNames target))
        else .ok ([], c'.push b) := by
      rw [Resolver.perform, Context.isResolving_push]
      rfl
    split
    · rename_i henter
      rw [if_pos henter] at hmeet
      exact ⟨_, Context.session_enter node, run'.tail (Machine.step_of_ok hmeet)⟩
    · rename_i hstay
      rw [if_neg hstay] at hmeet
      exact ⟨_, rfl, run'.tail (Machine.step_of_ok hmeet)⟩

/-- The machine takes one step of a walk: without a member left the walk is finished, otherwise the
next one is bound. -/
theorem follows_walkStep (wf : r.graph.WellFormed) {w : OpenWalk} {others : List OpenWalk}
    (h : Orderly r ⟨.walk :: rest, c, f?⟩) (top : c.walks = w :: others) :
    Follows r (r.walkStep (r.frameOf w)) ⟨.walk :: rest, c, f?⟩ (.walk :: rest) := by
  have hw : w ∈ c.walks := top ▸ List.mem_cons_self
  obtain ⟨owner, node, hnames⟩ := h.books.named w hw
  have hnext : w.next = w.bound.length := h.next_eq rfl (by decide) w hw
  cases hm : owner.shape.members[w.next]? with
  | none =>
    have hperform : r.perform c .walk = .ok ([.walk], c.leave) := by
      simp only [Resolver.perform, top, Graph.require_of_get? node, bind, Except.bind, hm]
      rfl
    have htodo : (r.frameOf w).todo = [] := Resolver.todo_frameOf node (hnext ▸ hm)
    rw [Follows, Resolver.walkStep, htodo]
    exact ⟨_, Context.session_leave top node, .single (Machine.step_of_ok hperform)⟩
  | some m =>
    have hperform : r.perform c .walk =
        .ok ([.member owner m (w.names.getD w.next ""), .walk], c.advance) := by
      simp only [Resolver.perform, top, Graph.require_of_get? node, bind, Except.bind, hm]
      rfl
    have hname := h.books.getElem?_names hw node hm
    rw [hnext] at hm
    have htodo : (r.frameOf w).todo = (m, w.names.getD w.next "") ::
        (r.namedMembers owner).drop (w.bound.length + 1) := by
      rw [Resolver.frameOf_eq node]
      exact Resolver.drop_namedMembers hm (hnames ▸ hnext ▸ hname)
    have hstep : Machine.step r ⟨.walk :: rest, c, f?⟩ = _ := Machine.step_of_ok hperform
    rw [Resolver.walkStep, htodo, Resolver.frameOf_eq node]
    exact .head hstep Context.session_advance (follows_bindMember wf (h.step hstep))

/-- The machine walks as long as the program does.  The induction is on the fuel, which covers what
is left of the walks, so the program does not stop before the machine. -/
theorem follows_walk (wf : r.graph.WellFormed) {fuel : Nat}
    (h : Orderly r ⟨.walk :: rest, c, f?⟩) (hfuel : walkLeft r (c.session r) ≤ fuel) :
    Follows r (r.walk fuel) ⟨.walk :: rest, c, f?⟩ rest := by
  have hdone : ∀ {c : Context}, c.walks = [] → r.perform c .walk = .ok ([], c) := by
    intro c hwalks
    rw [Resolver.perform, hwalks]
    rfl
  induction fuel generalizing c f? with
  | zero =>
    have hwalks : c.walks = [] := List.map_eq_nil_iff.1 (frames_eq_nil (Nat.le_zero.1 hfuel))
    exact exists_reaches (hdone hwalks)
  | succ fuel ih =>
    rw [Resolver.walk]
    cases top : c.walks with
    | nil =>
      have hframes : (c.session r).frames = [] := by rw [Context.session, top]; rfl
      simp only [Follows, ends_bind, ends_get, hframes]
      exact exists_reaches (hdone top)
    | cons w others =>
      have hframes : (c.session r).frames = r.frameOf w :: others.map r.frameOf := by
        rw [Context.session, top]
        rfl
      have hsplit : Follows r (r.walkStep (r.frameOf w) >>= fun _ => r.walk fuel)
          ⟨.walk :: rest, c, f?⟩ rest := by
        refine (follows_walkStep wf h top).bind fun _ c' hrun run => ?_
        have idle : c.containers = [] := h.containers_eq_nil (by decide)
        obtain ⟨-, -, hlt⟩ :=
          (walkStep_ends wf r.graph.closed_true h.books.sound idle hframes).of_ok hrun
        have hless : walkLeft r (c'.session r) < walkLeft r (c.session r) := hlt
        exact ih (h.reaches run) (by omega)
      simp only [Follows, ends_bind, ends_get, hframes]
      exact ends_bind.1 hsplit

/-! ## Shapes -/

/-- The machine visits a shape: the shape gets its symbol, and then it is walked if it is a record
or union that was not walked yet. -/
theorem follows_visit (wf : r.graph.WellFormed) {id : ShapeId}
    (h : Orderly r ⟨.visit id :: rest, c, f?⟩) :
    Follows r (r.visit id) ⟨.visit id :: rest, c, f?⟩ rest := by
  have closed := r.graph.closed_true
  have idle : c.containers = [] := h.containers_eq_nil (by simp [Task.rank])
  have hwalks : c.walks = [] := h.walks_eq_nil (by simp [Task.rank])
  have hstep : Machine.step r ⟨.visit id :: rest, c, f?⟩ =
      some ⟨.symbol id :: .aggregate id :: rest, c, none⟩ := rfl
  have h' := h.step hstep
  refine .orAbandon (.head hstep rfl ((follows_symbol wf h').bind fun symbol c' hrun run => ?_))
  obtain ⟨steps, -, known⟩ := (symbol_ends wf closed h'.books.sound idle trivial).of_ok hrun
  have h'' := h'.reaches run
  have hframes : (c'.session r).frames = [] := by
    refine steps.frames.trans ?_
    rw [Context.session, hwalks]
    rfl
  obtain ⟨n, hget, -⟩ := (h''.books.sound.table.symbols id symbol known).2
  obtain rfl := Graph.get?_id hget
  have hrequire := Graph.require_of_get? hget
  have hperform : r.perform c' (.aggregate n.id) =
      if n.shape.isAggregate && !(c'.session r).table.isBound n.id && !c'.isResolving n.id then
        .ok ([.walk], c'.enter n (r.memberNames n))
      else .ok ([], c') := by
    rw [Context.session_table] at known
    simp only [Resolver.perform, known, hrequire]
    rfl
  simp only [Follows, ends_bind, hrequire, ends_lift_ok, ends_get, ← h''.books.isResolving]
  split
  · rename_i henter
    rw [if_pos henter] at hperform
    have hstep' : Machine.step r ⟨.aggregate n.id :: rest, c', none⟩ =
        some ⟨.walk :: rest, c'.enter n (r.memberNames n), none⟩ := Machine.step_of_ok hperform
    simp only [Bool.and_eq_true, Bool.not_eq_true', h''.books.isResolving] at henter
    have hbudget : walkLeft r ((c'.enter n (r.memberNames n)).session r) ≤ r.walkBudget := by
      rw [Context.session_enter hget]
      exact (walkLeft_enter hget henter.1.2 henter.2).trans (walkLeft_le r hframes)
    have hwalk := (follows_walk wf (h''.step hstep') hbudget).after (.single hstep')
    rw [Context.session_enter hget] at hwalk
    simp only [ends_bind, Resolver.enter, ends_modify, ends_pure]
    exact hwalk
  · rename_i hstay
    rw [if_neg hstay] at hperform
    exact exists_reaches hperform

/-- The machine works off the queue as long as the program does.  The induction is on the fuel, and
each visit is paid for by the shape that was taken from the queue. -/
theorem follows_drain (wf : r.graph.WellFormed) {fuel : Nat}
    (h : Orderly r ⟨.drain :: rest, c, f?⟩) (hfuel : r.drainBudget (c.session r) ≤ fuel) :
    Follows r (r.drain fuel) ⟨.drain :: rest, c, f?⟩ rest := by
  have closed := r.graph.closed_true
  have hdone : ∀ {c : Context}, c.pending = [] → r.perform c .drain = .ok ([], c) := by
    intro c hempty
    rw [Resolver.perform, hempty]
    rfl
  induction fuel generalizing c f? with
  | zero =>
    rw [drainBudget_eq, Context.session_pending] at hfuel
    exact exists_reaches (hdone (List.eq_nil_of_length_eq_zero (by omega)))
  | succ fuel ih =>
    rw [Resolver.drain]
    cases hqueue : c.pending with
    | nil =>
      simp only [Follows, ends_bind, ends_get, Context.session_pending, hqueue]
      exact exists_reaches (hdone hqueue)
    | cons next others =>
      have hperform : r.perform c .drain = .ok ([.visit next, .drain], c.dequeue) := by
        rw [Resolver.perform, hqueue]
        rfl
      have hstep : Machine.step r ⟨.drain :: rest, c, f?⟩ =
          some ⟨.visit next :: .drain :: rest, c.dequeue, none⟩ := Machine.step_of_ok hperform
      have h' := h.step hstep
      have hdequeue : c.dequeue.session r = { c.session r with pending := others } := by
        rw [Context.session_dequeue, Context.session_pending, hqueue]
        rfl
      have hidle : (c.dequeue.session r).Idle := by
        have hwalks : c.walks = [] := h.walks_eq_nil (by decide)
        have hcontainers : c.containers = [] := h.containers_eq_nil (by decide)
        exact ⟨List.map_eq_nil_iff.2 hwalks, hcontainers⟩
      have hsplit : Follows r (r.visit next >>= fun _ => r.drain fuel)
          ⟨.visit next :: .drain :: rest, c.dequeue, none⟩ rest := by
        refine (follows_visit wf h').bind fun _ c' hrun run => ?_
        -- taking a shape out of the queue pays for its visit
        obtain ⟨visited, -⟩ := (visit_ends wf closed h'.books.sound hidle trivial).of_ok hrun
        have hle : r.drainBudget (c'.session r) ≤ r.drainBudget (c.dequeue.session r) :=
          visited.steps.drainBudget_le closed h'.books.sound
        have hone := drainBudget_dequeue (r := r) (s := c.session r) hqueue
        rw [← hdequeue] at hone
        exact ih (h'.reaches run) (by omega)
      simp only [Follows, ends_bind, ends_get, Context.session_pending, hqueue, ends_modify]
      have hrun := hsplit.after (.single hstep)
      rw [hdequeue] at hrun
      exact ends_bind.1 hrun

/-- The machine resolves a shape: it visits the shape and works off the queue. -/
theorem follows_resolve (wf : r.graph.WellFormed) {id : ShapeId}
    (h : Orderly r ⟨.visit id :: .drain :: rest, c, f?⟩) :
    Follows r (r.resolve id) ⟨.visit id :: .drain :: rest, c, f?⟩ rest := by
  refine (follows_visit wf h).bind fun symbol c' _ run => ?_
  have hdrain := follows_drain wf (h.reaches run) (Nat.le_refl _)
  simp only [Follows, ends_bind, ends_get, ends_pure]
  exact hdrain

/-- The machine resolves shapes one after the other, by induction on the shapes. -/
theorem follows_resolveEach (wf : r.graph.WellFormed) {ids : List ShapeId}
    (h : Orderly r ⟨.each ids :: rest, c, f?⟩) :
    Follows r (r.resolveEach ids) ⟨.each ids :: rest, c, f?⟩ rest := by
  induction ids generalizing c f? with
  | nil => exact exists_reaches rfl
  | cons id ids ih =>
    have hstep : Machine.step r ⟨.each (id :: ids) :: rest, c, f?⟩ =
        some ⟨.visit id :: .drain :: .each ids :: rest, c, none⟩ := rfl
    have h' := h.step hstep
    refine .head hstep rfl ((follows_resolve wf h').bind fun _ c' _ run => ?_)
    exact ih (h'.reaches run)

/-! ## Calls -/

/-- The machine resolves all roots, and then checks the names. -/
theorem follows_resolveAll (wf : r.graph.WellFormed)
    (h : Orderly r ⟨[.each r.roots, .checkNames], c, f?⟩) :
    Follows r r.resolveAll ⟨[.each r.roots, .checkNames], c, f?⟩ [] := by
  refine (follows_resolveEach wf h).bind fun _ c' _ run => ?_
  have h' := h.reaches run
  simp only [Follows, ends_bind, ends_get, Context.session_table]
  cases hnames : c'.table.checkNames with
  | error e => exact h'.fails (by rw [Resolver.perform, hnames]; rfl)
  | ok _ => exact exists_reaches (by rw [Resolver.perform, hnames]; rfl)

/-- The machine makes a call, from the tasks that the call starts with. -/
theorem follows_call (wf : r.graph.WellFormed) {call : Call}
    (h : Orderly r (.start r c call)) : Follows r (r.call call) (.start r c call) [] := by
  cases call with
  | shape id =>
    have hresolve := follows_resolve wf h
    simp only [Follows, Resolver.call, ends_bind, ends_pure]
    exact hresolve
  | all => exact follows_resolveAll wf h

/-- The machine ends with what the program of the call computes. -/
theorem reaches_ended (wf : r.graph.WellFormed) (calls : List Call) (call : Call) :
    Machine.Reaches r (.start r (.ofIdle (r.after calls)) call)
      (.ended (r.call call (r.after calls))) := by
  obtain ⟨moves, idle⟩ := after_moves wf calls
  have hs := moves.sound r.graph.closed_true .new
  have h := orderly_start wf calls call
  have hcall := follows_call wf h
  have hsession : (Machine.start r (.ofIdle (r.after calls)) call).context.session r =
      r.after calls := Context.session_ofIdle idle
  rw [Follows, hsession] at hcall
  cases hrun : r.call call (r.after calls) with
  | ok v s =>
    obtain ⟨c', rfl, run⟩ := hcall.of_ok hrun
    obtain ⟨-, heq⟩ := (h.reaches run).eq_ofIdle
    rw [heq] at run
    exact run
  | error e s =>
    obtain ⟨c', hs', run⟩ := hcall.of_error hrun
    obtain ⟨-, heq⟩ := (h.reaches run).eq_ofIdle
    obtain ⟨-, hframes, hcontainers⟩ := (call_ends wf call hs idle).of_error hrun
    have habandon : s.abandon = s := by
      cases s
      cases hframes
      cases hcontainers
      rfl
    rw [heq, hs', habandon] at run
    exact run

end SchemaSymbols
