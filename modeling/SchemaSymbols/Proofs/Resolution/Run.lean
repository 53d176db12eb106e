/-
  Every run of a resolution is a chain of steps.

  For each program, from one step of a walk up to the resolution of all roots, there is one lemma
  that says how it ends.  Started in a sound session it takes steps only, it does what it is for if
  it ends well, and if it fails there is a violation that explains the fault.

  - A walk that ends well has left nothing on the stacks (`walk_ends`).
  - A visit that ends well has settled its shape: it has a symbol, and a record or union is bound
    (`visit_ends`, `Visited`, `Settled`).
  - The queue is worked off in rounds, each of which takes a shape out and visits it, and is empty
    at the end (`drain_ends`, `Round`).
  - A resolution is a visit and then rounds (`resolve_ends`, `Resolved`), several of them are one
    after the other (`resolveEach_ends`, `ResolvedEach`), and a resolution of all roots checks the
    names at the end (`resolveAll_ends`).

  The loops do not run out of budget: the hypothesis of the induction is that the budget covers what
  is left to do, by the measures of `Progress`.  A round is paid for by the shape that it takes from
  the queue, since nothing that is queued on the way was not counted before
  (`Steps.drainBudget_le`, `drainBudget_dequeue`).

  Calls are what a session is used for from outside.  `after` is the session that a list of calls
  leaves, failing ones included, and `after_moves` says that moves lead there from a new session.
  This is how claims about any calls are reduced to claims about one move.
-/
import SchemaSymbols.Proofs.Resolution.Symbols

namespace SchemaSymbols

open Relation ResolveM

variable {r : Resolver} {R : ShapeId → Prop} {s s' : Session}

/-! ## Members -/

/-- Making symbols leaves the walks alone. -/
theorem SymbolSteps.frames (steps : SymbolSteps r R s s') : s'.frames = s.frames := by
  induction steps with
  | refl => rfl
  | tail _ step ih => rw [step.frames, ih]

/-- Making symbols binds no member. -/
theorem SymbolSteps.bindings (steps : SymbolSteps r R s s') :
    s'.table.bindings = s.table.bindings := by
  induction steps with
  | refl => rfl
  | tail _ step ih => rw [step.bindings, ih]

/-- Binding a member changes the walk only, and leaves one step less. -/
theorem Binds.bindNext {f : Frame} {rest : List Frame} {m : Member} {name : String}
    {target : Node} {symbol : Symbol} (binds : Binds r s f rest m name target symbol)
    (b : Binding) :
    (s.bindNext b).table = s.table ∧ (s.bindNext b).containers = [] ∧
      walkLeft r (s.bindNext b) < walkLeft r s := by
  obtain ⟨todo, hnext⟩ := binds.next
  have hone := walkLeft_bindNext (r := r) binds.top hnext b
  refine ⟨?_, ?_, by omega⟩
  · rw [Session.bindNext_of_frames binds.top]
  · rw [Session.bindNext_of_frames binds.top]
    exact binds.idle

/-- So does binding a member and entering its target, whose weight was counted before. -/
theorem Binds.enter {f : Frame} {rest : List Frame} {m : Member} {name : String}
    {target : Node} {symbol : Symbol} (binds : Binds r s f rest m name target symbol)
    (b : Binding) (apart : s.isResolving m.target = false)
    (unbound : s.table.isBound m.target = false) :
    ((s.bindNext b).enter target (r.memberNames target)).containers = [] ∧
      walkLeft r ((s.bindNext b).enter target (r.memberNames target)) < walkLeft r s := by
  obtain ⟨htable, hidle, hlt⟩ := binds.bindNext b
  have hid : target.id = m.target := Graph.get?_id binds.node
  have hunbound : (s.bindNext b).table.isBound target.id = false := by
    rw [htable, hid]
    exact unbound
  have hapart : (s.bindNext b).isResolving target.id = false := by
    rw [Session.isResolving_bindNext binds.top, hid]
    exact apart
  have hle := walkLeft_enter (hid ▸ binds.node) hunbound hapart
  exact ⟨hidle, hle.trans_lt hlt⟩

/-- The next member is bound in one step, after the steps that give its target a symbol. -/
theorem bindMember_ends (wf : r.graph.WellFormed) (closed : r.graph.Closed R) {f : Frame}
    {rest : List Frame} {m : Member} {name : String} {todo : List (Member × String)}
    (h : Sound r R s) (idle : s.containers = []) (top : s.frames = f :: rest)
    (next : f.todo = (m, name) :: todo) :
    (r.bindMember f.owner m name).Ends s
      (fun _ s' => Steps r R s s' ∧ s'.containers = [] ∧ walkLeft r s' < walkLeft r s)
      (fun e s' => Violation r R e ∧ Steps r R s s') := by
  have hf := h.frames f (top ▸ List.mem_cons_self)
  have hm := hf.mem_members next
  have within := closed _ _ hf.within (Graph.refers_of_mem_members hf.node hm)
  simp only [Resolver.bindMember, ends_bind]
  cases hvalue : r.valueTarget (f.owner.memberId m) m.target with
  | error e =>
    have part : m ∈ f.owner.shape.parts := List.mem_append_left _ hm
    exact ⟨violation_of_valueTarget wf hf.within hf.node part hvalue, .refl⟩
  | ok target =>
    obtain ⟨hget, hisValue⟩ := Resolver.valueTarget_eq_ok.1 hvalue
    have hid : target.id = m.target := Graph.get?_id hget
    simp only [ends_lift_ok, hid]
    refine (symbol_ends wf closed h idle within).mono ?_ ?_
    · rintro symbol s' ⟨steps, idle', known⟩
      -- the steps so far did not touch the walks
      have binds : Binds r s' f rest m name target symbol :=
        ⟨steps.frames.trans top, ⟨todo, next⟩, idle', hget, hisValue, known⟩
      have hsame : walkLeft r s' = walkLeft r s := walkLeft_congr steps.bindings steps.frames
      obtain ⟨htable, hidle, hlt⟩ := binds.bindNext (nextBinding r s' f m name symbol)
      simp only [ends_get, ends_modify]
      change Ends (if (!s'.isResolving m.target && target.shape.isAggregate &&
        !(s'.bindNext (nextBinding r s' f m name symbol)).table.isBound m.target) = true then
          r.enter target else pure ()) (s'.bindNext (nextBinding r s' f m name symbol)) _ _
      rw [htable]
      split
      · rename_i henter
        simp only [Bool.and_eq_true, Bool.not_eq_true'] at henter
        obtain ⟨⟨apart, aggregate⟩, unbound⟩ := henter
        obtain ⟨hidle', hlt'⟩ := binds.enter (nextBinding r s' f m name symbol) apart unbound
        exact ⟨steps.steps.tail (.descend binds apart aggregate unbound), hidle', hsame ▸ hlt'⟩
      · rename_i hstay
        refine ⟨steps.steps.tail (.bind binds ?_), hidle, hsame ▸ hlt⟩
        cases hresolving : s'.isResolving m.target
        · cases haggregate : target.shape.isAggregate
          · exact Or.inr (Or.inl rfl)
          · simp only [hresolving, haggregate, Bool.not_false, Bool.true_and,
              Bool.not_eq_true', Bool.not_eq_false] at hstay
            exact Or.inr (Or.inr hstay)
        · exact Or.inl rfl
    · rintro e s' ⟨hviolation, steps⟩
      exact ⟨hviolation, steps.steps⟩

/-- Each step of a walk leaves one step less. -/
theorem walkStep_ends (wf : r.graph.WellFormed) (closed : r.graph.Closed R) {f : Frame}
    {rest : List Frame} (h : Sound r R s) (idle : s.containers = [])
    (top : s.frames = f :: rest) :
    (r.walkStep f).Ends s
      (fun _ s' => Steps r R s s' ∧ s'.containers = [] ∧ walkLeft r s' < walkLeft r s)
      (fun e s' => Violation r R e ∧ Steps r R s s') := by
  rw [Resolver.walkStep]
  cases htodo : f.todo with
  | nil =>
    simp only [ends_modify]
    refine ⟨.single (.leave top htodo idle), ?_, walkLeft_leave top⟩
    rw [Session.leave_of_frames top]
    exact idle
  | cons next todo => exact bindMember_ends wf closed h idle top htodo

/-- Walking ends with nothing on the stacks, or with a violation. -/
theorem walk_ends (wf : r.graph.WellFormed) (closed : r.graph.Closed R) {fuel : Nat}
    (h : Sound r R s) (idle : s.containers = []) (hfuel : walkLeft r s ≤ fuel) :
    (r.walk fuel).Ends s
      (fun _ s' => Steps r R s s' ∧ s'.containers = [] ∧ s'.frames = [])
      (fun e s' => Violation r R e ∧ Steps r R s s') := by
  induction fuel generalizing s with
  | zero => exact ⟨.refl, idle, frames_eq_nil (Nat.le_zero.1 hfuel)⟩
  | succ fuel ih =>
    rw [Resolver.walk]
    simp only [ends_bind, ends_get]
    cases htop : s.frames with
    | nil => exact ⟨.refl, idle, htop⟩
    | cons f rest =>
      simp only [ends_bind]
      refine (walkStep_ends wf closed h idle htop).mono ?_ fun _ _ => id
      rintro - s' ⟨steps, idle', hlt⟩
      refine (ih (steps.sound closed h) idle' (by omega)).mono ?_ ?_
      · rintro - s'' ⟨steps', hidle⟩
        exact ⟨steps.trans steps', hidle⟩
      · rintro e s'' ⟨hviolation, steps'⟩
        exact ⟨hviolation, steps.trans steps'⟩

/-! ## Shapes -/

/-- No walk is under way. -/
def Session.Idle (s : Session) : Prop := s.frames = [] ∧ s.containers = []

theorem Session.Idle.isResolving {id : ShapeId} (h : s.Idle) : s.isResolving id = false := by
  rw [Session.isResolving, h.1]
  rfl

/-- A shape is settled: it has a symbol, and a record or union is bound or being walked. -/
def Settled (r : Resolver) (s : Session) (id : ShapeId) : Prop :=
  s.table.contains id = true ∧
    (r.graph.isAggregate id = true → s.isResolving id = true ∨ s.table.isBound id = true)

/-- A visit that went well. -/
structure Visited (r : Resolver) (R : ShapeId → Prop) (id : ShapeId) (s s' : Session) : Prop where
  steps : Steps r R s s'
  idle : s'.Idle
  settled : Settled r s' id

/-- A fault, with a reason for it and the session that it leaves behind. -/
structure Failed (r : Resolver) (R : ShapeId → Prop) (s : Session) (e : Fault) (s' : Session) :
    Prop where
  reason : Violation r R e
  moves : Moves r R s s'
  idle : s'.Idle

/-- A shape that is settled stays so along a step. -/
theorem Step.settled (h : Sound r R s) (step : Step r R s s') {id : ShapeId}
    (hid : Settled r s id) : Settled r s' id :=
  ⟨(step.extends h).contains hid.1, fun haggregate => step.resolving (hid.2 haggregate)⟩

theorem Steps.settled (closed : r.graph.Closed R) (h : Sound r R s) (steps : Steps r R s s')
    {id : ShapeId} (hid : Settled r s id) : Settled r s' id :=
  steps.keep closed h (fun _ _ h step hid => step.settled h hid) hid

/-- A visit settles its shape and answers with its symbol, or ends with a violation. -/
theorem visit_ends (wf : r.graph.WellFormed) (closed : r.graph.Closed R) {id : ShapeId}
    (h : Sound r R s) (idle : s.Idle) (within : R id) :
    (r.visit id).Ends s
      (fun symbol s' => Visited r R id s s' ∧ s'.table.get? id = some symbol) (Failed r R s) := by
  have failed : ∀ e s', Violation r R e ∧ Steps r R s s' → Failed r R s e s'.abandon := by
    rintro e s' ⟨hviolation, steps⟩
    exact ⟨hviolation, steps.moves.tail .abandon, rfl, rfl⟩
  rw [Resolver.visit, ends_orAbandon]
  simp only [ends_bind]
  refine (symbol_ends wf closed h idle.2 within).mono ?_
    fun e s' hfault => failed e s' (hfault.imp_right SymbolSteps.steps)
  rintro symbol s' ⟨steps, idle', known⟩
  have h' := steps.sound closed h
  have hframes : s'.frames = [] := steps.frames.trans idle.1
  obtain ⟨n, hget, -⟩ := (h'.table.symbols id symbol known).2
  obtain rfl := Graph.get?_id hget
  have hknown := SymbolTable.contains_of_get? known
  -- making the symbol did not start a walk
  have hquiet : s'.isResolving n.id = false := Session.Idle.isResolving ⟨hframes, idle'⟩
  rw [Graph.require_of_get? hget]
  simp only [ends_lift_ok, ends_get, hquiet]
  split
  · rename_i henter
    simp only [Bool.and_eq_true, Bool.not_eq_true'] at henter
    obtain ⟨⟨aggregate, unbound⟩, -⟩ := henter
    have step : Step r R s' (s'.enter n (r.memberNames n)) :=
      .enter within hget aggregate hknown unbound hframes idle'
    have hle : walkLeft r (s'.enter n (r.memberNames n)) ≤ r.walkBudget :=
      (walkLeft_enter hget unbound hquiet).trans (walkLeft_le r hframes)
    have hentered : Settled r (s'.enter n (r.memberNames n)) n.id :=
      ⟨hknown, fun _ => Or.inl (Session.isResolving_iff.2 List.mem_cons_self)⟩
    have h'' := step.sound closed h'
    simp only [ends_bind, Resolver.enter, ends_modify]
    refine (walk_ends wf closed h'' idle' hle).mono ?_ ?_
    · rintro - s'' ⟨steps', hcontainers, hnoFrames⟩
      exact ⟨⟨steps.steps.trans (.head step steps'), ⟨hnoFrames, hcontainers⟩,
        steps'.settled closed h'' hentered⟩, steps'.moves.extends closed h'' _ _ known⟩
    · rintro e s'' ⟨hviolation, steps'⟩
      exact failed e s'' ⟨hviolation, steps.steps.trans (.head step steps')⟩
  · -- a record or union that is not entered is bound, since nothing is being walked
    rename_i hstay
    refine ⟨⟨steps.steps, ⟨hframes, idle'⟩, hknown, fun haggregate => Or.inr ?_⟩, known⟩
    rw [Graph.isAggregate_of_get? hget] at haggregate
    simpa [haggregate] using hstay

/-- A shape is taken out of the queue and visited. -/
def Round (r : Resolver) (R : ShapeId → Prop) (s s' : Session) : Prop :=
  ∃ id rest, s.pending = id :: rest ∧ Visited r R id { s with pending := rest } s'

/-- A round is a chain of moves. -/
theorem Round.moves (round : Round r R s s') : Moves r R s s' := by
  obtain ⟨id, rest, hqueue, visited⟩ := round
  exact .head (.dequeue hqueue) visited.steps.moves

/-- Steps do not raise the budget of the queue. -/
theorem Steps.drainBudget_le (closed : r.graph.Closed R) (h : Sound r R s)
    (steps : Steps r R s s') : r.drainBudget s' ≤ r.drainBudget s :=
  steps.keep closed h (fun _ _ h step hle => (step.drainBudget_le h).trans hle) (Nat.le_refl _)

/-- A shape that is taken from the queue leaves a budget smaller by one. -/
theorem drainBudget_dequeue {id : ShapeId} {rest : List ShapeId} (queue : s.pending = id :: rest) :
    r.drainBudget { s with pending := rest } + 1 = r.drainBudget s := by
  have hqueue : s.pending.length = rest.length + 1 := by rw [queue]; rfl
  have hafter : r.drainBudget { s with pending := rest } =
      rest.length + ((unknown r s).map fun n => n.shape.references.length).sum := drainBudget_eq r _
  rw [hafter, drainBudget_eq]
  omega

/-- What fails after some moves has failed from where these began. -/
theorem Failed.after {s₀ : Session} {e : Fault} (moves : Moves r R s₀ s)
    (h : Failed r R s e s') : Failed r R s₀ e s' :=
  ⟨h.reason, moves.trans h.moves, h.idle⟩

/-- Working off the queue ends with an empty queue after some rounds, or with a violation. -/
theorem drain_ends (wf : r.graph.WellFormed) (closed : r.graph.Closed R) {fuel : Nat}
    (h : Sound r R s) (idle : s.Idle) (hfuel : r.drainBudget s ≤ fuel) :
    (r.drain fuel).Ends s
      (fun _ s' => ReflTransGen (Round r R) s s' ∧ s'.Idle ∧ s'.pending = [])
      (Failed r R s) := by
  induction fuel generalizing s with
  | zero =>
    rw [drainBudget_eq] at hfuel
    exact ⟨.refl, idle, List.eq_nil_of_length_eq_zero (by omega)⟩
  | succ fuel ih =>
    rw [Resolver.drain]
    simp only [ends_bind, ends_get]
    cases hqueue : s.pending with
    | nil => exact ⟨.refl, idle, hqueue⟩
    | cons next rest =>
      simp only [ends_bind, ends_modify]
      -- taking a shape out of the queue pays for its visit
      have move : Move r R s { s with pending := rest } := .dequeue hqueue
      have h' := move.sound closed h
      have within : R next := h.pending next (hqueue ▸ List.mem_cons_self)
      have hone := drainBudget_dequeue (r := r) hqueue
      refine (visit_ends wf closed h' idle within).mono ?_
        fun e s' hfault => hfault.after (.single move)
      rintro - s' ⟨visited, -⟩
      have hle := visited.steps.drainBudget_le closed h'
      have round : Round r R s s' := ⟨next, rest, hqueue, visited⟩
      refine (ih (visited.steps.sound closed h') visited.idle (by omega)).mono ?_
        fun e s'' hfault => hfault.after round.moves
      rintro - s'' ⟨rounds, hends⟩
      exact ⟨.head round rounds, hends⟩

/-- A resolution that went well: the shape is visited, and then the queue until it is empty. -/
structure Resolved (r : Resolver) (R : ShapeId → Prop) (id : ShapeId) (s s' : Session) : Prop where
  visited : ∃ middle, Visited r R id s middle ∧ ReflTransGen (Round r R) middle s'
  idle : s'.Idle
  drained : s'.pending = []

/-- Rounds are a chain of moves. -/
theorem Rounds.moves (rounds : ReflTransGen (Round r R) s s') : Moves r R s s' := by
  induction rounds with
  | refl => exact .refl
  | tail _ round ih => exact ih.trans round.moves

/-- A resolution that went well is a chain of moves. -/
theorem Resolved.moves {id : ShapeId} (h : Resolved r R id s s') : Moves r R s s' := by
  obtain ⟨⟨middle, visited, rounds⟩, -, -⟩ := h
  exact visited.steps.moves.trans (Rounds.moves rounds)

/-- A resolution visits its shape, works off the queue and answers with the symbol, or ends with a
violation. -/
theorem resolve_ends (wf : r.graph.WellFormed) (closed : r.graph.Closed R) {id : ShapeId}
    (h : Sound r R s) (idle : s.Idle) (within : R id) :
    (r.resolve id).Ends s
      (fun symbol s' => Resolved r R id s s' ∧ s'.table.get? id = some symbol)
      (Failed r R s) := by
  rw [Resolver.resolve]
  simp only [ends_bind, ends_get, ends_pure]
  refine (visit_ends wf closed h idle within).mono ?_ fun _ _ hfault => hfault
  rintro symbol middle ⟨visited, known⟩
  have h' := visited.steps.sound closed h
  refine (drain_ends wf closed h' visited.idle (Nat.le_refl _)).mono ?_
    fun e s' hfault => hfault.after visited.steps.moves
  rintro - s' ⟨rounds, hidle, hempty⟩
  exact ⟨⟨⟨middle, visited, rounds⟩, hidle, hempty⟩,
    (Rounds.moves rounds).extends closed h' _ _ known⟩

/-- Resolutions that all went well, of one shape after the other. -/
inductive ResolvedEach (r : Resolver) (R : ShapeId → Prop) : List ShapeId → Session → Session → Prop
  | nil {s : Session} : ResolvedEach r R [] s s
  | cons {id : ShapeId} {rest : List ShapeId} {s middle s' : Session}
      (first : Resolved r R id s middle) (others : ResolvedEach r R rest middle s') :
      ResolvedEach r R (id :: rest) s s'

/-- Resolving shapes one after the other resolves each, or ends with a violation. -/
theorem resolveEach_ends (wf : r.graph.WellFormed) (closed : r.graph.Closed R)
    {ids : List ShapeId} (h : Sound r R s) (idle : s.Idle) (within : ∀ id ∈ ids, R id) :
    (r.resolveEach ids).Ends s
      (fun _ s' => ResolvedEach r R ids s s' ∧ s'.Idle) (Failed r R s) := by
  induction ids generalizing s with
  | nil => exact ⟨.nil, idle⟩
  | cons id ids ih =>
    rw [Resolver.resolveEach]
    simp only [ends_bind]
    refine (resolve_ends wf closed h idle (within id List.mem_cons_self)).mono ?_
      fun _ _ hfault => hfault
    rintro - middle ⟨resolved, -⟩
    have h' := resolved.moves.sound closed h
    refine (ih h' resolved.idle fun k hk => within k (List.mem_cons_of_mem _ hk)).mono ?_
      fun e s' hfault => hfault.after resolved.moves
    rintro - s' ⟨others, hidle⟩
    exact ⟨.cons resolved others, hidle⟩

/-! ## All roots -/

/-- A symbol is declared if its node is, and then it has the node's qualified name. -/
theorem TableSound.declaration {t : SymbolTable} (h : TableSound r R t) {id : ShapeId}
    {symbol : Symbol} (hget : t.get? id = some symbol) :
    ∃ n, r.graph.get? id = some n ∧ symbol.isDeclared = n.shape.isDeclared ∧
      (n.shape.isDeclared = true →
        symbol.scope = r.scopeOf n ∧ symbol.displayName = r.namer.typeName n.id.name) := by
  obtain ⟨n, hn, ⟨leaf, hleaf, rfl⟩ | ⟨queued, hbuilt⟩⟩ := (h.symbols id symbol hget).2
  · have made := Resolver.made_of_leaf hleaf
    exact ⟨n, hn, made.declared, fun hd => ⟨made.scope hd, made.name hd⟩⟩
  · have built := Resolver.built_of_collection hbuilt
    have hcontainer := Shape.isDeclared_eq_false_of_isContainer built.isContainer
    refine ⟨n, hn, ?_, fun hd => ?_⟩
    · rw [hcontainer, Symbol.isDeclared, built.file]
      rfl
    · rw [hcontainer] at hd
      cases hd

/-- Names that are refused show two declared types with one name. -/
theorem violation_of_checkNames {e : Fault} (h : TableSound r R s.table)
    (hnames : s.table.checkNames = .error e) : Violation r R e := by
  obtain ⟨a, b, ha, hb, hne, hscope, hname, rfl⟩ := SymbolTable.of_checkNames_eq_error hnames
  obtain ⟨hgetA, hdeclaredA⟩ := SymbolTable.get?_of_mem_declared ha
  obtain ⟨hgetB, hdeclaredB⟩ := SymbolTable.get?_of_mem_declared hb
  obtain ⟨x, hx, hxDeclared, hxName⟩ := h.declaration hgetA
  obtain ⟨y, hy, hyDeclared, hyName⟩ := h.declaration hgetB
  rw [hxDeclared] at hdeclaredA
  rw [hyDeclared] at hdeclaredB
  obtain ⟨hxScope, hxName⟩ := hxName hdeclaredA
  obtain ⟨hyScope, hyName⟩ := hyName hdeclaredB
  have hxid := Graph.get?_id hx
  have hyid := Graph.get?_id hy
  have withinA := (h.symbols _ _ hgetA).1
  have withinB := (h.symbols _ _ hgetB).1
  rw [← hxid] at hx withinA hne ⊢
  rw [← hyid] at hy withinB hne ⊢
  rw [hyName]
  -- the names of the symbols are those of the nodes
  refine .names withinA withinB hx hy hne hdeclaredA hdeclaredB ?_ ?_
  · rw [← hxScope, ← hyScope, hscope]
  · rw [← hxName, ← hyName, hname]

/-- Resolutions one after the other are a chain of moves. -/
theorem ResolvedEach.moves {ids : List ShapeId} (h : ResolvedEach r R ids s s') :
    Moves r R s s' := by
  induction h with
  | nil => exact .refl
  | cons first _ ih => exact first.moves.trans ih

/-- Resolving all roots resolves each of them and ends with names that differ, or with a violation.
-/
theorem resolveAll_ends (wf : r.graph.WellFormed) (closed : r.graph.Closed R) (h : Sound r R s)
    (idle : s.Idle) (within : ∀ id ∈ r.roots, R id) :
    r.resolveAll.Ends s
      (fun _ s' => ResolvedEach r R r.roots s s' ∧ s'.Idle ∧ s'.table.checkNames = .ok ())
      (Failed r R s) := by
  rw [Resolver.resolveAll]
  simp only [ends_bind, ends_get]
  refine (resolveEach_ends wf closed h idle within).mono ?_ fun _ _ hfault => hfault
  rintro - s' ⟨resolved, hidle⟩
  have h' := resolved.moves.sound closed h
  rw [ends_lift]
  refine ⟨fun _ hok => ⟨resolved, hidle, hok⟩, fun e hnames => ?_⟩
  exact ⟨violation_of_checkNames h'.table hnames, resolved.moves, hidle⟩

/-! ## Calls -/

/-- What can be asked of a resolution: one shape, or all roots. -/
inductive Call where
  | shape (id : ShapeId)
  | all
deriving DecidableEq, Repr

namespace Resolver

/-- The program that answers a call. -/
def call (r : Resolver) : Call → ResolveM Unit
  | .shape id => do
    let _ ← r.resolve id
    return ()
  | .all => r.resolveAll

/-- The session after a sequence of calls, of which any may fail. -/
def after (r : Resolver) (calls : List Call) : Session :=
  calls.foldl (fun s c => (r.call c).leaves s) {}

end Resolver

/-- Whatever a call is for and however it ends, it moves the session on. -/
theorem call_ends (wf : r.graph.WellFormed) (c : Call) (h : Sound r (fun _ => True) s)
    (idle : s.Idle) :
    (r.call c).Ends s (fun _ s' => Moves r (fun _ => True) s s' ∧ s'.Idle)
      fun _ s' => Moves r (fun _ => True) s s' ∧ s'.Idle := by
  have closed : r.graph.Closed fun _ => True := fun _ _ _ _ => trivial
  cases c with
  | shape id =>
    rw [Resolver.call]
    simp only [ends_bind, ends_pure]
    exact (resolve_ends wf closed h idle trivial).mono
      (fun _ _ resolved => ⟨resolved.1.moves, resolved.1.idle⟩)
      fun _ _ failed => ⟨failed.moves, failed.idle⟩
  | all =>
    exact (resolveAll_ends wf closed h idle fun _ _ => trivial).mono
      (fun _ _ resolved => ⟨resolved.1.moves, resolved.2.1⟩)
      fun _ _ failed => ⟨failed.moves, failed.idle⟩

/-- Every sequence of calls is a chain of moves. -/
theorem after_moves (wf : r.graph.WellFormed) (calls : List Call) :
    Moves r (fun _ => True) {} (r.after calls) ∧ (r.after calls).Idle := by
  have closed : r.graph.Closed fun _ => True := fun _ _ _ _ => trivial
  have hfold : ∀ s : Session, Moves r (fun _ => True) {} s → s.Idle →
      Moves r (fun _ => True) {} (calls.foldl (fun s c => (r.call c).leaves s) s) ∧
        (calls.foldl (fun s c => (r.call c).leaves s) s).Idle := by
    induction calls with
    | nil => exact fun s moves idle => ⟨moves, idle⟩
    | cons c calls ih =>
      intro s moves idle
      obtain ⟨next, idle'⟩ := (call_ends wf c (moves.sound closed .new) idle).leaves
      exact ih _ (moves.trans next) idle'
  exact hfold {} .refl ⟨rfl, rfl⟩

end SchemaSymbols
