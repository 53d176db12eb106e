/-
  A resolution that ends well finds exactly what can be reached.

  Nothing is found that no reference leads to: that is part of `Sound`, with the set of what can be
  reached for `R`.  Nothing is lost either, and `Covered` says why.  The references of a shape are
  followed once, when it gets its symbol or, for a record or union, when its members are bound.
  From then on each target is `Due`:

  - it is settled, that is, it has a symbol and is bound or being walked if it has members;
  - or it waits in the queue;
  - or it is the goal of the visit that is under way.

  A step may turn one of these into another, but nothing that is due is forgotten (`Step.due`), and
  a step that follows new references makes their targets due at once (`Covered.addLeaf`,
  `Covered.closeContainer`, `Covered.leave`).  The member that a walk has bound last is the delicate
  case: its target may have to be entered first, and until it is, nothing accounts for it.
  Therefore binding and entering are one step here as well (`Covered.descend`).

  When the queue is empty and no visit is under way, only the first of the three is left, so what is
  settled is closed under references (`Complete.settled_of_reaches`).  With soundness this gives
  both directions (`Complete.exact`), for a resolution of all roots and for one of any shapes
  (`symbols_exact_after_resolution`).
-/
import SchemaSymbols.Proofs.Resolution.Run

namespace SchemaSymbols

open Relation ResolveM

variable {r : Resolver} {R : ShapeId → Prop} {s s' : Session} {goal : ShapeId → Prop}

/-! ## What is accounted for -/

/-- The references of a shape were followed: it is a bound record or union, or another shape with a
symbol. -/
def Followed (r : Resolver) (s : Session) (id : ShapeId) : Prop :=
  s.table.isBound id = true ∨ (s.table.contains id = true ∧ r.graph.isAggregate id = false)

/-- A shape is settled, waits in the queue, or is the goal of a visit. -/
def Due (r : Resolver) (goal : ShapeId → Prop) (s : Session) (id : ShapeId) : Prop :=
  Settled r s id ∨ id ∈ s.pending ∨ goal id

/-- Nothing that was referred to is lost. -/
structure Covered (r : Resolver) (goal : ShapeId → Prop) (s : Session) : Prop where
  followed : ∀ x y, Followed r s x → r.graph.Refers x y → Due r goal s y
  walking : ∀ f ∈ s.frames, ∀ m ∈ f.owner.shape.members,
    Settled r s m.target ∨ m ∈ f.todo.map Prod.fst

/-- No step takes a shape from the queue. -/
theorem Step.pending (step : Step r R s s') {id : ShapeId} (hid : id ∈ s.pending) :
    id ∈ s'.pending := by
  cases step with
  | symbol step =>
    cases step with
    | leaf => exact List.mem_append_left _ hid
    | opened => exact hid
    | closed => exact List.mem_append_left _ hid
  | enter => exact hid
  | bind binds => rw [Session.bindNext_of_frames binds.top]; exact hid
  | descend binds => rw [Session.bindNext_of_frames binds.top]; exact hid
  | leave top => rw [Session.leave_of_frames top]; exact hid

/-- What is due stays due. -/
theorem Step.due (h : Sound r R s) (step : Step r R s s') {id : ShapeId} (hid : Due r goal s id) :
    Due r goal s' id :=
  hid.imp (step.settled h) fun hid => hid.imp_left step.pending

/-- A step that follows no new references and leaves the walks as they are. -/
theorem Covered.of_same (h : Sound r R s) (step : Step r R s s') (hc : Covered r goal s)
    (hframes : s'.frames = s.frames)
    (hnew : ∀ x y, Followed r s' x → ¬ Followed r s x → r.graph.Refers x y → Due r goal s' y) :
    Covered r goal s' := by
  refine ⟨fun x y hx hxy => ?_, fun f hf m hm => ?_⟩
  · by_cases hold : Followed r s x
    · exact step.due h (hc.followed x y hold hxy)
    · exact hnew x y hx hold hxy
  · rw [hframes] at hf
    exact (hc.walking f hf m hm).imp_left (step.settled h)

/-! ## Every step keeps account -/

/-- A shape that gets its symbol was not followed before, and is the only new one. -/
theorem eq_of_followed_addSymbol {symbol : Symbol} {x : ShapeId}
    (htable : s'.table = s.table.addSymbol symbol) (hx : Followed r s' x)
    (hold : ¬ Followed r s x) : x = symbol.shape ∧ r.graph.isAggregate x = false := by
  rw [Followed, htable, SymbolTable.isBound_addSymbol] at hx
  rcases hx with hx | ⟨hx, haggregate⟩
  · exact absurd (Or.inl hx) hold
  · rcases SymbolTable.contains_addSymbol.1 hx with he | hx
    · exact ⟨he.symm, haggregate⟩
    · exact absurd (Or.inr ⟨hx, haggregate⟩) hold

/-- A leaf queues all it refers to, unless it is a record or union. -/
theorem Covered.addLeaf {n : Node} {leaf : Leaf} (h : Sound r R s) (hc : Covered r goal s)
    (within : R n.id) (node : r.graph.get? n.id = some n)
    (fresh : s.table.contains n.id = false) (made : r.leaf n = .ok leaf) :
    Covered r goal (s.addLeaf leaf) := by
  refine hc.of_same h (.symbol (.leaf within node fresh made)) rfl ?_
  intro x y hx hold hxy
  have made := Resolver.made_of_leaf made
  obtain ⟨rfl, haggregate⟩ := eq_of_followed_addSymbol rfl hx hold
  obtain ⟨k, hk, reference, href, rfl⟩ := hxy
  rw [made.shape] at hk haggregate
  rw [node] at hk
  cases hk
  rw [Graph.isAggregate_of_get? node] at haggregate
  -- neither a record or union nor a collection: all references are links
  have hlink := Shape.mem_links_of_mem_references haggregate made.isContainer href
  refine Or.inr (Or.inl (List.mem_append_right _ ?_))
  rw [made.queued]
  exact hlink

/-- The elements of a collection have symbols, and its records and unions are queued. -/
theorem Covered.closeContainer {n : Node} {rest queued : List ShapeId} {symbol : Symbol}
    (h : Sound r R s) (hc : Covered r goal s) (node : r.graph.get? n.id = some n)
    (top : s.containers = n.id :: rest)
    (built : r.collection s.table n = .ok (symbol, queued)) :
    Covered r goal (s.closeContainer symbol queued) := by
  have step : Step r R s (s.closeContainer symbol queued) := .symbol (.closed node top built)
  refine hc.of_same h step rfl ?_
  intro x y hx hold hxy
  have built := Resolver.built_of_collection built
  obtain ⟨rfl, -⟩ := eq_of_followed_addSymbol rfl hx hold
  obtain ⟨k, hk, reference, href, rfl⟩ := hxy
  rw [built.shape, node] at hk
  cases hk
  obtain ⟨m, hm, htarget⟩ := Shape.exists_element_of_mem_references built.isContainer href
  obtain ⟨target, -, -, hready⟩ := built.ready m hm
  rw [← htarget]
  -- a record or union behind a collection waits for a walk of its own
  by_cases haggregate : r.graph.isAggregate m.target = true
  · refine Or.inr (Or.inl (List.mem_append_right _ ?_))
    rw [built.queued]
    exact List.mem_filter.2 ⟨List.mem_map.2 ⟨m, hm, rfl⟩, haggregate⟩
  · exact Or.inl ⟨(step.extends h).contains hready, fun hyes => absurd hyes haggregate⟩

/-- A walk that is done has settled all members. -/
theorem Covered.leave {f : Frame} {rest : List Frame} (h : Sound r R s) (hc : Covered r goal s)
    (top : s.frames = f :: rest) (done : f.todo = []) (idle : s.containers = []) :
    Covered r goal s.leave := by
  have step : Step r R s s.leave := .leave top done idle
  have hf : f ∈ s.frames := top ▸ List.mem_cons_self
  have sound := h.frames f hf
  refine ⟨fun x y hx hxy => ?_, fun k hk m hm => ?_⟩
  · by_cases hold : Followed r s x
    · exact step.due h (hc.followed x y hold hxy)
    · rw [Followed, Session.leave_of_frames top, SymbolTable.isBound_bind] at hx
      -- only the owner of the walk is new
      have hx : x = f.owner.id := by
        rcases hx with (he | hx) | hx
        · exact he.symm
        · exact absurd (Or.inl hx) hold
        · exact absurd (Or.inr hx) hold
      obtain ⟨k, hk, reference, href, rfl⟩ := hxy
      rw [hx, sound.node] at hk
      cases hk
      obtain ⟨m, hm, htarget⟩ := Shape.exists_member_of_mem_references sound.aggregate href
      rw [← htarget]
      rcases hc.walking f hf m hm with hsettled | htodo
      · exact Or.inl (step.settled h hsettled)
      · rw [done] at htodo
        cases htodo
  · rw [Session.leave_of_frames top] at hk
    exact (hc.walking k (top ▸ List.mem_cons_of_mem _ hk) m hm).imp_left (step.settled h)

/-- A walk starts with all members to come. -/
theorem Covered.enter {n : Node} (h : Sound r R s)
    (step : Step r R s (s.enter n (r.memberNames n))) (hc : Covered r goal s) :
    Covered r goal (s.enter n (r.memberNames n)) := by
  refine ⟨fun x y hx hxy => step.due h (hc.followed x y hx hxy), fun f hf m hm => ?_⟩
  rcases List.mem_cons.1 hf with rfl | hf
  · exact Or.inr ((r.map_fst_namedMembers n).symm ▸ hm)
  · exact (hc.walking f hf m hm).imp_left (step.settled h)

/-- A member that was bound is settled, whether its target was entered or not. -/
theorem Covered.bindMember {f : Frame} {rest : List Frame} {m : Member} {name : String}
    {target : Node} {symbol : Symbol} (h : Sound r R s) (step : Step r R s s')
    (hc : Covered r goal s) (binds : Binds r s f rest m name target symbol)
    (htable : s'.table = s.table)
    (hframes : ∀ k ∈ s'.frames, k ∈ rest ∨ (∃ b, k = f.advance b) ∨
      k.todo.map Prod.fst = k.owner.shape.members)
    (hsettled : Settled r s' m.target) : Covered r goal s' := by
  refine ⟨fun x y hx hxy => ?_, fun k hk m' hm' => ?_⟩
  · rw [Followed, htable] at hx
    exact step.due h (hc.followed x y hx hxy)
  · rcases hframes k hk with hk | ⟨b, rfl⟩ | hk
    · have hwalking := hc.walking k (binds.top ▸ List.mem_cons_of_mem _ hk) m' hm'
      exact hwalking.imp_left (step.settled h)
    · -- the innermost walk: the member that was next is settled now
      rcases hc.walking f (binds.top ▸ List.mem_cons_self) m' hm' with hdone | htodo
      · exact Or.inl (step.settled h hdone)
      · obtain ⟨todo, hnext⟩ := binds.next
        rw [hnext, List.map_cons, List.mem_cons] at htodo
        rcases htodo with rfl | htodo
        · exact Or.inl hsettled
        · refine Or.inr ?_
          show m' ∈ f.todo.tail.map Prod.fst
          rw [hnext]
          exact htodo
    · exact Or.inr (hk ▸ hm')

/-- Binding a member whose target needs no walk: the target is settled already. -/
theorem Covered.bind {f : Frame} {rest : List Frame} {m : Member} {name : String}
    {target : Node} {symbol : Symbol} (h : Sound r R s) (hc : Covered r goal s)
    (binds : Binds r s f rest m name target symbol)
    (stays : s.isResolving m.target = true ∨ target.shape.isAggregate = false ∨
      s.table.isBound m.target = true) :
    Covered r goal (s.bindNext (nextBinding r s f m name symbol)) := by
  have step : Step r R s (s.bindNext (nextBinding r s f m name symbol)) := .bind binds stays
  have hadvance := Session.bindNext_of_frames binds.top (nextBinding r s f m name symbol)
  refine hc.bindMember h step binds ?_ ?_ (step.settled h ⟨?_, fun haggregate => ?_⟩)
  · rw [hadvance]
  · rw [hadvance]
    intro k hk
    rcases List.mem_cons.1 hk with rfl | hk
    · exact Or.inr (Or.inl ⟨_, rfl⟩)
    · exact Or.inl hk
  · exact SymbolTable.contains_of_get? binds.known
  · rw [Graph.isAggregate_of_get? binds.node] at haggregate
    rcases stays with hstays | hstays | hstays
    · exact Or.inl hstays
    · rw [haggregate] at hstays
      cases hstays
    · exact Or.inr hstays

/-- Binding a member and entering its target: the walk makes the target settled. -/
theorem Covered.descend {f : Frame} {rest : List Frame} {m : Member} {name : String}
    {target : Node} {symbol : Symbol} (h : Sound r R s) (hc : Covered r goal s)
    (binds : Binds r s f rest m name target symbol) (apart : s.isResolving m.target = false)
    (aggregate : target.shape.isAggregate = true) (unbound : s.table.isBound m.target = false) :
    Covered r goal
      ((s.bindNext (nextBinding r s f m name symbol)).enter target (r.memberNames target)) := by
  have hadvance := Session.bindNext_of_frames binds.top (nextBinding r s f m name symbol)
  refine hc.bindMember h (.descend binds apart aggregate unbound) binds ?_ ?_
    ⟨?_, fun _ => Or.inl ?_⟩
  · rw [hadvance]
    rfl
  · rw [hadvance]
    intro k hk
    rcases List.mem_cons.1 hk with rfl | hk
    · exact Or.inr (Or.inr (r.map_fst_namedMembers target))
    · rcases List.mem_cons.1 hk with rfl | hk
      · exact Or.inr (Or.inl ⟨_, rfl⟩)
      · exact Or.inl hk
  · rw [hadvance]
    exact SymbolTable.contains_of_get? binds.known
  · -- the target is the owner of the new walk
    rw [← Graph.get?_id binds.node]
    exact Session.isResolving_iff.2 List.mem_cons_self

/-- No step loses what was referred to. -/
theorem Step.covered (h : Sound r R s) (step : Step r R s s') (hc : Covered r goal s) :
    Covered r goal s' := by
  cases step with
  | symbol step =>
    cases step with
    | leaf within node fresh made => exact hc.addLeaf h within node fresh made
    | opened within node container fresh closed inside =>
      exact hc.of_same h (.symbol (.opened within node container fresh closed inside)) rfl
        fun x y hx hold _ => absurd hx hold
    | closed node top built => exact hc.closeContainer h node top built
  | enter within node aggregate known unbound noWalk idle =>
    exact hc.enter h (.enter within node aggregate known unbound noWalk idle)
  | bind binds stays => exact hc.bind h binds stays
  | descend binds apart aggregate unbound => exact hc.descend h binds apart aggregate unbound
  | leave top done idle => exact hc.leave h top done idle

/-- No chain of steps does. -/
theorem Steps.covered (closed : r.graph.Closed R) (h : Sound r R s) (steps : Steps r R s s')
    (hc : Covered r goal s) : Covered r goal s' :=
  steps.keep closed h (fun _ _ h step hc => step.covered h hc) hc

/-! ## Whole resolutions -/

/-- No visit has a goal. -/
def noGoal : ShapeId → Prop := fun _ => False

/-- A visit reaches its goal. -/
theorem Visited.covered (closed : r.graph.Closed R) {id : ShapeId} (h : Sound r R s)
    (visited : Visited r R id s s') (hc : Covered r (· = id) s) : Covered r noGoal s' := by
  have hc' := visited.steps.covered closed h hc
  refine ⟨fun x y hx hxy => ?_, hc'.walking⟩
  rcases hc'.followed x y hx hxy with hy | hy | rfl
  · exact Or.inl hy
  · exact Or.inr (Or.inl hy)
  · exact Or.inl visited.settled

/-- Without a visit under way, any goal may be set. -/
theorem Covered.weaken (hc : Covered r noGoal s) : Covered r goal s :=
  ⟨fun x y hx hxy => (hc.followed x y hx hxy).imp_right fun hy => hy.imp_right False.elim,
    hc.walking⟩

/-- A shape that is taken out of the queue becomes the goal of a visit. -/
theorem Covered.dequeue {id : ShapeId} {rest : List ShapeId} (queue : s.pending = id :: rest)
    (hc : Covered r noGoal s) : Covered r (· = id) { s with pending := rest } := by
  refine ⟨fun x y hx hxy => ?_, hc.walking⟩
  rcases hc.followed x y hx hxy with hy | hy | hy
  · exact Or.inl hy
  · rw [queue] at hy
    rcases List.mem_cons.1 hy with rfl | hy
    · exact Or.inr (Or.inr rfl)
    · exact Or.inr (Or.inl hy)
  · exact hy.elim

/-- What one round keeps: nothing is lost, and what was settled stays so. -/
theorem Round.keeps (closed : r.graph.Closed R) (h : Sound r R s) (round : Round r R s s') :
    Sound r R s' ∧ (Covered r noGoal s → Covered r noGoal s') ∧
      ∀ id, Settled r s id → Settled r s' id := by
  obtain ⟨id, rest, hqueue, visited⟩ := round
  have h' : Sound r R { s with pending := rest } := Move.sound closed h (.dequeue hqueue)
  exact ⟨visited.steps.sound closed h', fun hc => visited.covered closed h' (hc.dequeue hqueue),
    fun k hk => visited.steps.settled closed h' hk⟩

/-- Rounds keep a session sound, lose nothing, and what is settled stays so. -/
theorem Rounds.keeps (closed : r.graph.Closed R) (h : Sound r R s)
    (rounds : ReflTransGen (Round r R) s s') :
    Sound r R s' ∧ (Covered r noGoal s → Covered r noGoal s') ∧
      ∀ id, Settled r s id → Settled r s' id := by
  induction rounds with
  | refl => exact ⟨h, id, fun _ => id⟩
  | tail _ round ih =>
    obtain ⟨hsound, hcovered, hsettled⟩ := ih
    obtain ⟨hsound', hcovered', hsettled'⟩ := round.keeps closed hsound
    exact ⟨hsound', hcovered' ∘ hcovered, fun k => hsettled' k ∘ hsettled k⟩

/-- A session in which nothing is left to do. -/
structure Complete (r : Resolver) (s : Session) : Prop where
  covered : Covered r noGoal s
  idle : s.Idle
  drained : s.pending = []

/-- A new session is complete: nothing is settled. -/
theorem Complete.new : Complete r {} where
  covered := by
    refine ⟨fun x y hx _ => ?_, fun f hf => absurd hf List.not_mem_nil⟩
    rcases hx with hx | ⟨hx, -⟩
    · cases hx
    · cases hx
  idle := ⟨rfl, rfl⟩
  drained := rfl

/-- In a complete session, what is settled is closed under references. -/
theorem Complete.settled_of_reaches (h : Complete r s) {x y : ShapeId} (hx : Settled r s x)
    (hxy : r.graph.Reaches x y) : Settled r s y := by
  induction hxy with
  | refl => exact hx
  | @tail y z _ hyz ih =>
    -- no walk is under way, so a settled record or union is bound
    have hfollowed : Followed r s y := by
      by_cases haggregate : r.graph.isAggregate y = true
      · refine Or.inl ((ih.2 haggregate).resolve_left fun hresolving => ?_)
        rw [h.idle.isResolving] at hresolving
        cases hresolving
      · exact Or.inr ⟨ih.1, Bool.eq_false_iff.2 haggregate⟩
    rcases h.covered.followed y z hfollowed hyz with hz | hz | hz
    · exact hz
    · rw [h.drained] at hz
      cases hz
    · exact hz.elim

/-- A resolution that went well leaves nothing to do, and settles its shape. -/
theorem Resolved.complete (closed : r.graph.Closed R) {id : ShapeId} (h : Sound r R s)
    (hc : Complete r s) (resolved : Resolved r R id s s') :
    Sound r R s' ∧ Complete r s' ∧ Settled r s' id ∧ ∀ k, Settled r s k → Settled r s' k := by
  obtain ⟨⟨middle, visited, rounds⟩, hidle, hdrained⟩ := resolved
  have h' := visited.steps.sound closed h
  obtain ⟨hsound, hcovered, hsettled⟩ := Rounds.keeps closed h' rounds
  refine ⟨hsound, ⟨?_, hidle, hdrained⟩, hsettled id visited.settled, fun k hk => ?_⟩
  · exact hcovered (visited.covered closed h hc.covered.weaken)
  · exact hsettled k (visited.steps.settled closed h hk)

/-- Resolutions that went well leave a complete session, in which their shapes are settled. -/
theorem ResolvedEach.complete (closed : r.graph.Closed R) {ids : List ShapeId} (h : Sound r R s)
    (hc : Complete r s) (resolved : ResolvedEach r R ids s s') :
    Sound r R s' ∧ Complete r s' ∧ (∀ id ∈ ids, Settled r s' id) ∧
      ∀ k, Settled r s k → Settled r s' k := by
  induction resolved with
  | nil => exact ⟨h, hc, fun id hid => absurd hid List.not_mem_nil, fun _ => id⟩
  | cons first _ ih =>
    obtain ⟨h', hc', hfirst, hkept⟩ := first.complete closed h hc
    obtain ⟨h'', hc'', hrest, hkept'⟩ := ih h' hc'
    refine ⟨h'', hc'', List.forall_mem_cons.2 ⟨hkept' _ hfirst, hrest⟩, fun k => ?_⟩
    exact hkept' k ∘ hkept k

/-! ## Exactly what can be reached -/

/-- A complete session that has settled all of `R`, and nothing else, has the symbols and the bound
    members of `R`. -/
theorem Complete.exact (hc : Complete r s) (h : Sound r R s)
    (hsettled : ∀ id, R id → Settled r s id) (id : ShapeId) :
    (s.table.contains id = true ↔ R id) ∧
      (s.table.isBound id = true ↔ R id ∧ r.graph.isAggregate id = true) := by
  refine ⟨⟨fun hid => ?_, fun hid => (hsettled id hid).1⟩, fun hid => ?_, ?_⟩
  · obtain ⟨symbol, hget⟩ := SymbolTable.contains_iff.1 hid
    exact (h.table.symbols id symbol hget).1
  · obtain ⟨members, hmembers⟩ := SymbolTable.isBound_iff.1 hid
    obtain ⟨within, owner, hget, haggregate, -⟩ := h.table.members id members hmembers
    exact ⟨within, (Graph.isAggregate_of_get? hget).trans haggregate⟩
  · rintro ⟨hid, haggregate⟩
    refine ((hsettled id hid).2 haggregate).resolve_left fun hresolving => ?_
    rw [hc.idle.isResolving] at hresolving
    cases hresolving

/-- The shapes that references lead to from one of the given shapes. -/
def Graph.ReachedFrom (g : Graph) (ids : List ShapeId) (id : ShapeId) : Prop :=
  ∃ start ∈ ids, g.Reaches start id

theorem Graph.closed_reachedFrom (g : Graph) (ids : List ShapeId) :
    g.Closed (g.ReachedFrom ids) := by
  rintro x y ⟨start, hstart, hx⟩ hxy
  exact ⟨start, hstart, hx.tail hxy⟩

/-- In a well-formed graph no reference leads away from what is exposed. -/
theorem Graph.WellFormed.closed_exposed {g : Graph} (wf : g.WellFormed) : g.Closed g.Exposed := by
  rintro x y (⟨hnone, -⟩ | ⟨service, hservice, hx⟩) hxy
  · exact Or.inl ⟨hnone, wf.contains_of_refers hxy⟩
  · exact Or.inr ⟨service, hservice, hx.tail hxy⟩

/-- After resolving some shapes, those have symbols that can be reached from them, and the records
and unions among these are bound. -/
theorem resolveEach_exact (wf : r.graph.WellFormed) {ids : List ShapeId}
    (hrun : r.resolveEach ids {} = .ok () s) (id : ShapeId) :
    (s.table.contains id = true ↔ r.graph.ReachedFrom ids id) ∧
      (s.table.isBound id = true ↔
        r.graph.ReachedFrom ids id ∧ r.graph.isAggregate id = true) := by
  have closed := r.graph.closed_reachedFrom ids
  have ends := resolveEach_ends wf closed .new ⟨rfl, rfl⟩ fun id hid => ⟨id, hid, .refl⟩
  obtain ⟨sound, complete, hsettled, -⟩ :=
    (ends.of_ok hrun).1.complete closed .new .new
  refine complete.exact sound ?_ id
  rintro k ⟨start, hstart, hk⟩
  exact complete.settled_of_reaches (hsettled start hstart) hk

/-- After resolving all roots, the exposed shapes have symbols, and no others, and the records and
unions among them are bound. -/
theorem resolveAll_exact (wf : r.graph.WellFormed) (hrun : r.resolveAll {} = .ok () s)
    (id : ShapeId) :
    (s.table.contains id = true ↔ r.graph.Exposed id) ∧
      (s.table.isBound id = true ↔ r.graph.Exposed id ∧ r.graph.isAggregate id = true) := by
  have closed := wf.closed_exposed
  have ends := resolveAll_ends wf closed .new ⟨rfl, rfl⟩ fun id hid =>
    (Resolver.mem_roots wf).1 hid
  obtain ⟨sound, complete, hsettled, -⟩ :=
    (ends.of_ok hrun).1.complete closed .new .new
  exact complete.exact sound (fun k hk => hsettled k ((Resolver.mem_roots wf).2 hk)) id

/-- What a resolution has found when it ends well: after the resolution of all roots the symbols are
    those of what the services reach, or of all shapes if there is no service; after the
    resolution of single shapes, those of what these reach.  Bound are the records and unions
    among them. -/
theorem symbols_exact_after_resolution (wf : r.graph.WellFormed) :
    (∀ s, r.resolveAll {} = .ok () s → ∀ id,
      (s.table.contains id = true ↔ r.graph.Exposed id) ∧
        (s.table.isBound id = true ↔ r.graph.Exposed id ∧ r.graph.isAggregate id = true)) ∧
    ∀ ids s, r.resolveEach ids {} = .ok () s → ∀ id,
      (s.table.contains id = true ↔ r.graph.ReachedFrom ids id) ∧
        (s.table.isBound id = true ↔
          r.graph.ReachedFrom ids id ∧ r.graph.isAggregate id = true) :=
  ⟨fun _ hrun => resolveAll_exact wf hrun, fun _ _ hrun => resolveEach_exact wf hrun⟩

/-! ## A shop -/

namespace Shop

/-- The identifier of a shape of the shop. -/
def shape (name : String) : ShapeId := ⟨"shop", name, none⟩

/-- A service whose orders hold items, which refer back to orders, and a record that no service
leads to. -/
def nodes : List Node :=
  [ ⟨shape "Shop", .service [shape "Buy"], .empty⟩,
    ⟨shape "Buy", .operation (some (shape "Order")) none [], .empty⟩,
    ⟨shape "Order", .record [⟨"items", shape "Items", .empty⟩], .empty⟩,
    ⟨shape "Items", .list ⟨"member", shape "Item", .empty⟩, .empty⟩,
    ⟨shape "Item", .union [⟨"part", shape "Order", .empty⟩], .empty⟩,
    ⟨shape "Draft", .record [⟨"order", shape "Order", .empty⟩], .empty⟩ ]

/-- The graph of the shop. -/
def graph : Graph := .ofNodesD nodes

/-- The shop seen through a target language. -/
def resolver : Resolver := .new graph .swift (NullabilityMode.policy .structural) {}

/-- The shop can be resolved. -/
theorem exists_resolveAll : ∃ s, resolver.resolveAll {} = .ok () s := by
  obtain ⟨_, s, hrun⟩ := exists_of_endsWell (x := resolver.resolveAll) (s := {})
    (by decide +kernel)
  exact ⟨s, hrun⟩

end Shop

/-- The shop resolves as a whole, and from two of its shapes alone. -/
theorem symbols_exact_in_shop :
    Shop.resolver.graph.WellFormed ∧
      (∃ s, Shop.resolver.resolveAll {} = .ok () s ∧
        ∀ id, (s.table.contains id = true ↔ Shop.graph.Exposed id)) ∧
      ∃ s, Shop.resolver.resolveEach [Shop.shape "Items", Shop.shape "Draft"] {} = .ok () s ∧
        ∀ id, (s.table.contains id = true ↔
          Shop.graph.ReachedFrom [Shop.shape "Items", Shop.shape "Draft"] id) := by
  obtain ⟨s, hall⟩ := Shop.exists_resolveAll
  obtain ⟨_, s', heach⟩ := exists_of_endsWell
    (x := Shop.resolver.resolveEach [Shop.shape "Items", Shop.shape "Draft"]) (s := {})
    (by decide +kernel)
  have wf : Shop.resolver.graph.WellFormed := Graph.wellFormed_ofNodesD Shop.nodes
  refine ⟨wf, ⟨s, hall, fun id => ?_⟩, s', heach, fun id => ?_⟩
  · exact ((symbols_exact_after_resolution wf).1 s hall id).1
  · exact ((symbols_exact_after_resolution wf).2 _ s' heach id).1

end SchemaSymbols
