/-
  The machine keeps its tasks in order.

  1. **The invariant.**  Tasks come in the order of their ranks, and a stack with something on it
     has its loop among the tasks (`Orderly`).  So a task of a higher rank than a loop finds the
     loop's stack empty (`containers_eq_nil`, `walks_eq_nil`), and a task of a lower rank than
     another one cannot spoil what the other one relies on.  `Context.Fits` is what a task relies
     on.

  2. **Where the innermost walk is.**  A task that is binding a member is the only one of its rank,
     which is why the innermost walk is one member ahead exactly then (`next_eq`).

  3. **One step.**  A task that is performed leaves tasks of no higher rank in front of the others,
     so the order of the ranks survives (`ranked_append`).  The rest depends on what happens to the
     walks: a task changes nothing but the tasks (`same`), or nothing about the walks (`unmoved`,
     `still`), or it moves them on (`go`).  Each kind of task is one of these three, and has its own
     lemma (`perform_symbol` up to `perform_meet`); `perform` is the case analysis.

  4. **Whole runs.**  A fault empties tasks and stacks, which is in order, so every step keeps the
     invariant (`step`), and every state that is reached has it (`reaches`).  A machine that starts
     from an idle session is in order, and one that has stopped shows an idle session again
     (`orderly_start`, `eq_ofIdle`).
-/
import SchemaSymbols.Proofs.Resolution.Books

namespace SchemaSymbols

open Relation

variable {r : Resolver} {c c' : Context} {t : Task} {tasks rest : List Task} {f? : Option Fault}

/-- What a task relies on when its turn comes. -/
def Context.Fits (r : Resolver) (c : Context) : Task → Prop
  | .prepare n elements => r.graph.get? n.id = some n ∧ (∃ rest, c.containers = n.id :: rest) ∧
      ∀ m ∈ elements, m ∈ n.shape.elements
  | .member owner m name => c.AtMember r owner m name
  | .bind owner m name target => c.AtMember r owner m name ∧
      r.graph.get? m.target = some target ∧ target.shape.isValue = true
  | .meet target => r.graph.get? target.id = some target ∧ c.table.contains target.id = true ∧
      c.walks ≠ []
  | _ => True

/-- What a task relies on stays, unless collections are opened and closed above it. -/
theorem Context.Fits.stay (h : c.Fits r t) (walks : c'.walks = c.walks)
    (hext : c'.table.Extends c.table) (hrank : 0 < t.rank) : c'.Fits r t := by
  cases t with
  | prepare n elements => cases hrank
  | member owner m name =>
    rw [Context.Fits, Context.AtMember, walks]
    exact h
  | bind owner m name target =>
    rw [Context.Fits, Context.AtMember, walks]
    exact h
  | meet target =>
    obtain ⟨node, known, hwalks⟩ := h
    exact ⟨node, hext.contains known, by rwa [walks]⟩
  | _ => trivial

theorem Context.Fits.of_rank (hrank : 3 < t.rank) : c.Fits r t := by
  cases t with
  | prepare n elements => cases hrank
  | member owner m name => exact absurd hrank (Nat.lt_irrefl 3)
  | bind owner m name target => exact absurd hrank (Nat.lt_irrefl 3)
  | meet target => exact absurd hrank (Nat.lt_irrefl 3)
  | _ => trivial

theorem Task.ne_walk (h : t.isLoop = false) : .walk ≠ t := by
  rintro rfl
  cases h

theorem Task.ne_build (h : t.isLoop = false) : .build ≠ t := by
  rintro rfl
  cases h

theorem Task.rank_of_isBinding (h : t.isBinding = true) : t.rank = 3 := by
  cases t with
  | member owner m name => rfl
  | bind owner m name target => rfl
  | _ => cases h

/-- What every state of the machine satisfies. -/
structure Orderly (r : Resolver) (a : Machine) : Prop where
  books : a.context.Books r
  ranked : a.tasks.Pairwise fun t t' => t.rank < t'.rank
  fits : ∀ t ∈ a.tasks, a.context.Fits r t
  /-- The innermost walk is as far as its bound members, unless a member is being bound. -/
  level : a.tasks.any Task.isBinding = false →
    ∀ w ∈ a.context.walks.head?, w.next = w.bound.length
  walking : a.context.walks ≠ [] → .walk ∈ a.tasks
  building : a.context.containers ≠ [] → .build ∈ a.tasks

namespace Orderly

/-- When no member is being bound, all walks are as far as their bound members. -/
theorem level_all {a : Machine} (h : Orderly r a) (hbinding : a.tasks.any Task.isBinding = false) :
    ∀ w ∈ a.context.walks, w.next = w.bound.length := by
  have hlevel := h.level hbinding
  have houter := h.books.outer
  cases hwalks : a.context.walks with
  | nil => exact fun w hw => absurd hw List.not_mem_nil
  | cons first others =>
    rw [hwalks] at hlevel houter
    exact List.forall_mem_cons.2 ⟨hlevel first rfl, houter⟩

/-! ## The first task -/

section First

variable (h : Orderly r ⟨t :: rest, c, f?⟩)

include h

/-- The tasks behind the first one rank above it. -/
theorem rank_lt : ∀ t' ∈ rest, t.rank < t'.rank := (List.pairwise_cons.1 h.ranked).1

theorem containers_eq_nil (hrank : 1 < t.rank) : c.containers = [] := by
  by_contra hne
  rcases List.mem_cons.1 (h.building hne) with rfl | hmem
  · exact absurd hrank (Nat.lt_irrefl 1)
  · exact absurd (hrank.trans (h.rank_lt _ hmem)) (Nat.lt_irrefl 1)

/-- Above the loop of the walks, none is under way. -/
theorem walks_eq_nil (hrank : 4 < t.rank) : c.walks = [] := by
  by_contra hne
  rcases List.mem_cons.1 (h.walking hne) with rfl | hmem
  · exact absurd hrank (Nat.lt_irrefl 4)
  · exact absurd (hrank.trans (h.rank_lt _ hmem)) (Nat.lt_irrefl 4)

/-- If walks are under way, their loop is among the tasks to come. -/
theorem walk_mem (hloop : t.isLoop = false) (hwalks : c.walks ≠ []) : .walk ∈ rest :=
  List.mem_of_ne_of_mem (Task.ne_walk hloop) (h.walking hwalks)

/-- If collections are open, their loop is among the tasks to come. -/
theorem build_mem (hloop : t.isLoop = false) (hcontainers : c.containers ≠ []) : .build ∈ rest :=
  List.mem_of_ne_of_mem (Task.ne_build hloop) (h.building hcontainers)

/-- Only one task is binding a member. -/
theorem rest_isBinding (hrank : 3 ≤ t.rank) : rest.any Task.isBinding = false := by
  rw [List.any_eq_false]
  intro t' ht' hbinding
  have hlt := h.rank_lt t' ht'
  rw [Task.rank_of_isBinding hbinding] at hlt
  omega

/-- A task that begins no binding finds all walks as far as their bound members. -/
theorem next_eq (hbinding : t.isBinding = false) (hrank : 3 ≤ t.rank) :
    ∀ w ∈ c.walks, w.next = w.bound.length :=
  h.level_all (by rw [List.any_cons, hbinding, h.rest_isBinding hrank, Bool.or_self])

/-! ## One step -/

/-- The tasks that come next stand in order, and before the others. -/
theorem ranked_append (performs : Performs r c t tasks c') :
    (tasks ++ rest).Pairwise fun t t' => t.rank < t'.rank := by
  have hnew : (tasks.Pairwise fun t t' => t.rank < t'.rank) ∧ ∀ t' ∈ tasks, t'.rank ≤ t.rank := by
    cases performs <;> simp [Task.rank]
  refine List.pairwise_append.2 ⟨hnew.1, (List.pairwise_cons.1 h.ranked).2, ?_⟩
  exact fun a ha b hb => (hnew.2 a ha).trans_lt (h.rank_lt b hb)

/-- A task that does not touch the walks. -/
theorem unmoved (performs : Performs r c t tasks c') (books : c'.Books r)
    (walks : c'.walks = c.walks) (hext : c'.table.Extends c.table)
    (binding : tasks.any Task.isBinding = t.isBinding) (fits : ∀ t' ∈ tasks, c'.Fits r t')
    (walking : c.walks ≠ [] → .walk ∈ tasks ++ rest)
    (building : c'.containers ≠ [] → .build ∈ tasks ++ rest) :
    Orderly r ⟨tasks ++ rest, c', none⟩ where
  books := books
  ranked := h.ranked_append performs
  fits := by
    refine List.forall_mem_append.2 ⟨fits, fun t' ht' => ?_⟩
    exact (h.fits t' (List.mem_cons_of_mem _ ht')).stay walks hext
      ((Nat.zero_le _).trans_lt (h.rank_lt t' ht'))
  level := by
    show (tasks ++ rest).any Task.isBinding = false → ∀ w ∈ c'.walks.head?, w.next = w.bound.length
    rw [List.any_append, binding, walks]
    exact h.level
  walking := by
    show c'.walks ≠ [] → _
    rw [walks]
    exact walking
  building := building

/-- Without being a loop, it leaves the loop of the walks where it is. -/
theorem still (hloop : t.isLoop = false) (performs : Performs r c t tasks c') (books : c'.Books r)
    (walks : c'.walks = c.walks) (hext : c'.table.Extends c.table)
    (binding : tasks.any Task.isBinding = t.isBinding) (fits : ∀ t' ∈ tasks, c'.Fits r t')
    (building : c'.containers ≠ [] → .build ∈ tasks ++ rest) :
    Orderly r ⟨tasks ++ rest, c', none⟩ :=
  h.unmoved performs books walks hext binding fits
    (fun hwalks => List.mem_append_right _ (h.walk_mem hloop hwalks)) building

/-- A task that changes nothing but the tasks. -/
theorem same (hloop : t.isLoop = false) (performs : Performs r c t tasks c)
    (binding : tasks.any Task.isBinding = t.isBinding) (fits : ∀ t' ∈ tasks, c.Fits r t') :
    Orderly r ⟨tasks ++ rest, c, none⟩ :=
  h.still hloop performs h.books rfl SymbolTable.Extends.rfl binding fits
    fun hcontainers => List.mem_append_right _ (h.build_mem hloop hcontainers)

/-- A task that moves the walks on finds no collection open. -/
theorem go (performs : Performs r c t tasks c') (books : c'.Books r) (hrank : 3 ≤ t.rank)
    (containers : c'.containers = c.containers) (fits : ∀ t' ∈ tasks, c'.Fits r t')
    (level : tasks.any Task.isBinding = false → ∀ w ∈ c'.walks.head?, w.next = w.bound.length)
    (walking : .walk ∈ tasks ++ rest) : Orderly r ⟨tasks ++ rest, c', none⟩ where
  books := books
  ranked := h.ranked_append performs
  fits := List.forall_mem_append.2
    ⟨fits, fun t' ht' => .of_rank (hrank.trans_lt (h.rank_lt t' ht'))⟩
  level := by
    rw [List.any_append, h.rest_isBinding hrank, Bool.or_false]
    exact level
  walking := fun _ => walking
  building := by
    show c'.containers ≠ [] → _
    rw [containers, h.containers_eq_nil (Nat.lt_of_lt_of_le (by decide) hrank)]
    exact fun hne => absurd rfl hne

end First

/-! ## One task of each kind -/

/-- A shape gets its symbol, unless it is a collection, which is opened.  No collection is open, as
its loop ranks below this task, so the new one stands alone. -/
theorem perform_symbol {id : ShapeId} (h : Orderly r ⟨.symbol id :: rest, c, f?⟩)
    (performs : Performs r c (.symbol id) tasks c') : Orderly r ⟨tasks ++ rest, c', none⟩ := by
  cases performs with
  | known known => exact h.same rfl (.known known) rfl (by simp)
  | @opened n node container fresh =>
    have idle : c.containers = [] := h.containers_eq_nil (by simp [Task.rank])
    have hsound := h.books.sound.openContainer trivial node container fresh
      (show n.id ∉ c.containers by rw [idle]; exact List.not_mem_nil)
      (show ∀ top ∈ c.containers.head?, r.graph.Holds top n.id by rw [idle]; rintro top ⟨⟩)
    refine h.still rfl (.opened node container fresh) (h.books.of_sound hsound rfl rfl rfl) rfl
      SymbolTable.Extends.rfl rfl (by simp [Context.Fits]) fun _ => by simp
  | leaf node fresh made =>
    have hsound := h.books.sound.addLeaf r.graph.closed_true trivial node fresh made
    refine h.still rfl (.leaf node fresh made) (h.books.of_sound hsound rfl rfl rfl) rfl
      (SymbolTable.extends_addSymbol ((Resolver.made_of_leaf made).shape ▸ fresh)) rfl (by simp)
      fun hne => h.build_mem rfl hne

/-- The loop of the collections ends when none is open, and looks at the innermost one otherwise. -/
theorem perform_build (h : Orderly r ⟨.build :: rest, c, f?⟩)
    (performs : Performs r c .build tasks c') : Orderly r ⟨tasks ++ rest, c', none⟩ := by
  have walking (hwalks : c.walks ≠ []) : .walk ∈ rest :=
    List.mem_of_ne_of_mem (by decide) (h.walking hwalks)
  cases performs with
  | built idle =>
    exact h.unmoved (.built idle) h.books rfl SymbolTable.Extends.rfl rfl (by simp) walking
      fun hcontainers => absurd idle hcontainers
  | look node top =>
    refine h.unmoved (.look node top) h.books rfl SymbolTable.Extends.rfl rfl ?_
      (fun hwalks => List.mem_append_right _ (walking hwalks)) fun _ => by simp
    simpa [Context.Fits] using ⟨node, _, top⟩

/-- The innermost collection goes on to its next element, or another collection is opened above it,
or it is closed.  In each case its loop is among the tasks that wait. -/
theorem perform_prepare {n : Node} {elements : List Member}
    (h : Orderly r ⟨.prepare n elements :: rest, c, f?⟩)
    (performs : Performs r c (.prepare n elements) tasks c') :
    Orderly r ⟨tasks ++ rest, c', none⟩ := by
  obtain ⟨hn, ⟨outer, top⟩, helements⟩ := h.fits _ List.mem_cons_self
  have building : .build ∈ rest := h.build_mem rfl (top ▸ List.cons_ne_nil _ _)
  cases performs with
  | ready ms known =>
    refine h.same rfl (.ready ms known) rfl ?_
    simpa [Context.Fits] using ⟨hn, ⟨outer, top⟩, fun m hm =>
      helements m (List.mem_cons_of_mem _ hm)⟩
  | closed built =>
    have hsound := h.books.sound.closeContainer r.graph.closed_true hn top built
    have fresh := (h.books.sound.containers _ (top ▸ List.mem_cons_self)).fresh
    exact h.still rfl (.closed built) (h.books.of_sound hsound rfl rfl rfl) rfl
      (SymbolTable.extends_addSymbol ((Resolver.built_of_collection built).shape ▸ fresh)) rfl
      (by simp) fun _ => building
  | @inner _ target m ms node container fresh notOpen =>
    have hid : target.id = m.target := Graph.get?_id node
    have held : r.graph.Holds n.id m.target := ⟨n, hn, m, helements m List.mem_cons_self, rfl⟩
    rw [← hid] at node fresh notOpen held
    have hsound := h.books.sound.openContainer trivial node container fresh notOpen
      (show ∀ top ∈ c.containers.head?, r.graph.Holds top target.id by
        rw [top]; rintro k ⟨⟩; exact held)
    rw [hid] at hsound node fresh notOpen
    exact h.still rfl (.inner ms node container fresh notOpen)
      (h.books.of_sound hsound rfl rfl rfl) rfl SymbolTable.Extends.rfl rfl (by simp)
      fun _ => building
  | @element _ target m leaf ms node fresh made =>
    have hid : target.id = m.target := Graph.get?_id node
    have hsound := h.books.sound.addLeaf r.graph.closed_true trivial (hid ▸ node) (hid ▸ fresh) made
    refine h.still rfl (.element ms node fresh made) (h.books.of_sound hsound rfl rfl rfl) rfl
      (SymbolTable.extends_addSymbol ?_) rfl ?_ fun _ => List.mem_append_right _ building
    · rw [(Resolver.made_of_leaf made).shape, hid]
      exact fresh
    · simpa [Context.Fits] using
        ⟨hn, ⟨outer, top⟩, fun m hm => helements m (List.mem_cons_of_mem _ hm)⟩

/-- A record or union that was not walked yet is entered, in front of walks that are as far as their
bound members. -/
theorem perform_aggregate {id : ShapeId} (h : Orderly r ⟨.aggregate id :: rest, c, f?⟩)
    (performs : Performs r c (.aggregate id) tasks c') : Orderly r ⟨tasks ++ rest, c', none⟩ := by
  cases performs with
  | passed => exact h.same rfl (.passed id) rfl (by simp)
  | @entered n node aggregate known unbound apart =>
    have hrank : 3 ≤ (Task.aggregate n.id).rank := by simp [Task.rank]
    have hbooks := h.books.enter node aggregate known unbound apart (h.next_eq rfl hrank)
    refine h.go (.entered node aggregate known unbound apart) hbooks hrank rfl
      (by simp [Context.Fits]) ?_ (by simp)
    rintro - w ⟨⟩
    rfl

/-- The loop of the walks ends with them; otherwise the innermost one is filed when all its members
are bound, and goes on to its next member when they are not. -/
theorem perform_walk (h : Orderly r ⟨.walk :: rest, c, f?⟩)
    (performs : Performs r c .walk tasks c') : Orderly r ⟨tasks ++ rest, c', none⟩ := by
  have hrank : 3 ≤ Task.walk.rank := by decide
  have hnext := h.next_eq rfl hrank
  cases performs with
  | walked idle =>
    exact h.unmoved (.walked idle) h.books rfl SymbolTable.Extends.rfl rfl (by simp)
      (fun hwalks => absurd idle hwalks)
      fun hcontainers => List.mem_of_ne_of_mem (by decide) (h.building hcontainers)
  | @left w others owner top node done =>
    have hbooks := h.books.leave top node (hnext w (top ▸ List.mem_cons_self)) done
    refine h.go (.left top node done) hbooks hrank c.containers_leave (by simp [Context.Fits]) ?_
      (by simp)
    rw [Context.walks_leave top]
    intro _ k hk
    exact hnext k (top ▸ List.mem_cons_of_mem _ (List.mem_of_mem_head? hk))
  | @next w others owner m top node next =>
    have hw : w.next = w.bound.length := hnext w (top ▸ List.mem_cons_self)
    refine h.go (.next top node next) h.books.advance hrank c.containers_advance ?_
      (fun hnone => absurd hnone.symm Bool.false_ne_true) (by simp)
    -- from here on the walk is one member ahead, until that member is bound
    have hname := h.books.getElem?_names (top ▸ List.mem_cons_self) node next
    rw [hw] at next hname
    have binding : c.advance.AtMember r owner m (w.names.getD w.next "") :=
      ⟨_, others, Context.walks_advance top, node, congrArg (· + 1) hw, next, hw ▸ hname⟩
    simpa [Context.Fits] using binding

/-- A member that is bound brings the innermost walk level with what it has bound. -/
theorem perform_bind {owner target : Node} {m : Member} {name : String}
    (h : Orderly r ⟨.bind owner m name target :: rest, c, f?⟩)
    (performs : Performs r c (.bind owner m name target) tasks c') :
    Orderly r ⟨tasks ++ rest, c', none⟩ := by
  have hrank : 3 ≤ (Task.bind owner m name target).rank := Nat.le_refl 3
  obtain ⟨binding, node, value⟩ := h.fits _ List.mem_cons_self
  have idle : c.containers = [] := h.containers_eq_nil (by simp [Task.rank])
  have hid : target.id = m.target := Graph.get?_id node
  cases performs with
  | @bound _ _ _ symbol _ known =>
    have hbooks := h.books.push binding idle node value known
    obtain ⟨w, others, top, -, hnext, -, -⟩ := binding
    have hknown := SymbolTable.contains_of_get? known
    have hwalks : c.walks ≠ [] := by
      rw [top]
      exact List.cons_ne_nil _ _
    refine h.go (.bound name known) hbooks hrank (c.containers_push _) ?_ ?_
      (List.mem_append_right _ (h.walk_mem rfl hwalks))
    · rw [Context.push, top]
      simpa [Context.Fits] using ⟨hid ▸ node, hknown⟩
    · rw [Context.push, top]
      rintro - k ⟨⟩
      rw [List.length_append]
      exact hnext

/-- The target of a member that was bound is entered, if it is a record or union not met before. -/
theorem perform_meet {target : Node} (h : Orderly r ⟨.meet target :: rest, c, f?⟩)
    (performs : Performs r c (.meet target) tasks c') : Orderly r ⟨tasks ++ rest, c', none⟩ := by
  cases performs with
  | stayed => exact h.same rfl (.stayed target) rfl (by simp)
  | met apart aggregate unbound =>
    have hrank : 3 ≤ (Task.meet target).rank := Nat.le_refl 3
    obtain ⟨node, known, hwalks⟩ := h.fits _ List.mem_cons_self
    have hbooks := h.books.enter node aggregate known unbound apart (h.next_eq rfl hrank)
    refine h.go (.met apart aggregate unbound) hbooks hrank rfl (by simp) ?_
      (h.walk_mem rfl hwalks)
    rintro - w ⟨⟩
    rfl

/-- A task that is performed leaves the machine in order: the tasks of the three loops have lemmas
of their own, and the others hand on what they were given. -/
theorem perform (h : Orderly r ⟨t :: rest, c, f?⟩) (performs : Performs r c t tasks c') :
    Orderly r ⟨tasks ++ rest, c', none⟩ := by
  cases t with
  | symbol id => exact h.perform_symbol performs
  | build => exact h.perform_build performs
  | prepare n elements => exact h.perform_prepare performs
  | aggregate id => exact h.perform_aggregate performs
  | walk => exact h.perform_walk performs
  | bind owner m name target => exact h.perform_bind performs
  | meet target => exact h.perform_meet performs
  | visit id =>
    cases performs
    exact h.same rfl (.visit id) rfl (by simp [Context.Fits])
  | member owner m name =>
    cases performs with
    | target _ node value =>
      refine h.same rfl (.target name node value) rfl ?_
      simpa [Context.Fits] using ⟨h.fits _ List.mem_cons_self, node, value⟩
  | drain =>
    cases performs with
    | drained => exact h.same rfl .drained rfl (by simp)
    | dequeued queue =>
      exact h.still rfl (.dequeued queue) h.books.dequeue rfl SymbolTable.Extends.rfl rfl
        (by simp [Context.Fits]) fun hne => List.mem_append_right _ (h.build_mem rfl hne)
  | each ids =>
    cases performs with
    | eachNil => exact h.same rfl .eachNil rfl (by simp)
    | eachCons id ids => exact h.same rfl (.eachCons id ids) rfl (by simp [Context.Fits])
  | checkNames =>
    cases performs
    exact h.same rfl .checked rfl (by simp)

/-! ## Whole runs -/

/-- Without a loop among the tasks there is nothing to give up. -/
theorem abandon_eq {a : Machine} (h : Orderly r a) (walk : .walk ∉ a.tasks)
    (build : .build ∉ a.tasks) : a.context.abandon = a.context := by
  refine h.books.abandon_eq ?_ ?_
  · by_contra hne
    exact walk (h.walking hne)
  · by_contra hne
    exact build (h.building hne)

/-- A task that fails finds nothing on the stacks, unless a loop gives up what is there. -/
theorem step_of_error {e : Fault} (h : Orderly r ⟨t :: rest, c, f?⟩)
    (failed : r.perform c t = .error e) :
    Machine.step r ⟨t :: rest, c, f?⟩ = some ⟨[], c.abandon, some e⟩ := by
  rw [Machine.step_of_error failed]
  split
  · rfl
  · rename_i hloops
    have hloops : ∀ t' ∈ t :: rest, t'.isLoop = false := by simpa using hloops
    have heq : c.abandon = c := h.abandon_eq (fun hmem => absurd (hloops _ hmem) (by decide))
      fun hmem => absurd (hloops _ hmem) (by decide)
    rw [heq]

/-- Without tasks and walks the machine is in order. -/
theorem abandoned (books : c.Books r) : Orderly r ⟨[], c.abandon, f?⟩ where
  books := books.abandon
  ranked := .nil
  fits := fun _ ht => absurd ht List.not_mem_nil
  level := fun _ w hw => absurd hw (Option.not_mem_none w)
  walking := fun hne => absurd rfl hne
  building := fun hne => absurd rfl hne

/-- A step performs the first task, or it fails and gives up all walks. -/
theorem step_cases {a b : Machine} (h : Orderly r a) (hstep : a.step r = some b) :
    (∃ t rest tasks c', a.tasks = t :: rest ∧ Performs r a.context t tasks c' ∧
        b = ⟨tasks ++ rest, c', none⟩) ∨
      ∃ e, b = ⟨[], a.context.abandon, some e⟩ := by
  obtain ⟨_ | ⟨t, rest⟩, c, f?⟩ := a
  · cases hstep
  · cases hperform : r.perform c t with
    | error e =>
      exact Or.inr ⟨e, Option.some.inj (hstep.symm.trans (h.step_of_error hperform))⟩
    | ok result =>
      exact Or.inl ⟨t, rest, result.1, result.2, rfl, performs_of_perform hperform,
        Option.some.inj (hstep.symm.trans (Machine.step_of_ok hperform))⟩

/-- One step leaves the machine in order. -/
theorem step {a b : Machine} (h : Orderly r a) (hstep : a.step r = some b) : Orderly r b := by
  obtain ⟨t, rest, tasks, c', htasks, performs, rfl⟩ | ⟨e, rfl⟩ := h.step_cases hstep
  · obtain ⟨_, c, f?⟩ := a
    cases htasks
    exact h.perform performs
  · exact abandoned h.books

/-- So does any number of steps. -/
theorem reaches {a b : Machine} (h : Orderly r a) (run : Machine.Reaches r a b) :
    Orderly r b := by
  induction run with
  | refl => exact h
  | tail _ hstep ih => exact ih.step hstep

/-! ## The first state and the last one -/

/-- The machine is in order when a call begins. -/
theorem start {s : Session} (h : Sound r (fun _ => True) s) (idle : s.Idle)
    (depth : s.maxDepth ≤ r.graph.aggregates.length) (call : Call) :
    Orderly r (Machine.start r (.ofIdle s) call) where
  books := Context.Books.ofIdle h idle depth
  ranked := by cases call <;> simp [Machine.start, Resolver.tasksOf, Task.rank]
  fits := by cases call <;> simp [Machine.start, Resolver.tasksOf, Context.Fits]
  level := fun _ w hw => absurd hw (Option.not_mem_none w)
  walking := fun hne => absurd rfl hne
  building := fun hne => absurd rfl hne

/-- When no tasks are left, nothing is left on the stacks. -/
theorem eq_ofIdle (h : Orderly r ⟨[], c, f?⟩) :
    (c.session r).Idle ∧ c = .ofIdle (c.session r) := by
  have heq : c.abandon = c := h.abandon_eq List.not_mem_nil List.not_mem_nil
  rw [← heq]
  exact ⟨⟨rfl, rfl⟩, rfl⟩

end Orderly

/-- After any calls the machine is in order for the next one. -/
theorem orderly_start (wf : r.graph.WellFormed) (calls : List Call) (call : Call) :
    Orderly r (.start r (.ofIdle (r.after calls)) call) := by
  have closed := r.graph.closed_true
  obtain ⟨moves, idle⟩ := after_moves wf calls
  have depth : (r.after calls).maxDepth ≤ r.graph.aggregates.length :=
    moves.keep closed .new (fun _ _ h move => move.maxDepth_le closed h) (Nat.zero_le _)
  exact .start (moves.sound closed .new) idle depth call

end SchemaSymbols
