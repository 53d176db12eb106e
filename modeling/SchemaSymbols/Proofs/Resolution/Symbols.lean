/-
  How symbols are made, and why that fails.

  `Violation` lists the reasons for all faults of a resolution, each as something that the graph
  itself shows: a shape that is missing, a member or element that leads to no value, a primitive
  without a type, a collection that holds itself, two declared types of one name.

  1. **The ways an element can go.**  A target that has its symbol is passed over, a collection is
     opened, and anything else gets its symbol at once.  There is one lemma for each of them, for
     elements and for shapes that are asked for (`ends_prepare_known`, `ends_prepare_container`,
     `ends_prepare_leaf`, and the same for `symbol`).

  2. **Collections.**  Started in a sound session, the programs that make symbols take symbol steps
     only.  If they end well the shape has its symbol and no collection is left open, because the
     stack of collections does not run out of budget (`buildContainers_ends`).

  3. **Faults.**  If they fail there is a reason for the fault: a collection that is met again while
     it is open is inside itself (`Sound.violation_of_open`, by the chain of open collections), and
     the other reasons are seen where they arise (`violation_of_leaf`, `violation_of_valueTarget`).
-/
import SchemaSymbols.Proofs.Resolution.Ending
import SchemaSymbols.Proofs.Resolution.Progress

namespace SchemaSymbols

open Relation ResolveM

variable {r : Resolver} {R : ShapeId → Prop} {s s' : Session}

/-- The reasons for which a resolution of shapes in `R` fails, each with the fault it gives. -/
inductive Violation (r : Resolver) (R : ShapeId → Prop) : Fault → Prop
  /-- There is no such shape. -/
  | missing {id : ShapeId} (within : R id) (absent : r.graph.contains id = false) :
      Violation r R (.missingShape id)
  /-- A member, element, key or value is an operation or a service. -/
  | target {owner target : Node} {m : Member} (within : R owner.id)
      (node : r.graph.get? owner.id = some owner) (part : m ∈ owner.shape.parts)
      (found : r.graph.get? m.target = some target) (noValue : target.shape.isValue = false) :
      Violation r R (.unsupportedMemberTarget (owner.memberId m) m.target target.shape.word)
  /-- The language has no type for a primitive. -/
  | primitive {n : Node} {kind : PrimitiveKind} (within : R n.id)
      (node : r.graph.get? n.id = some n) (shape : n.shape = .primitive kind)
      (unmapped : r.profile.primitiveType? kind = none) :
      Violation r R (.unmappedPrimitive n.id kind r.profile.language)
  /-- A collection holds itself, with nothing but collections in between. -/
  | cycle {id : ShapeId} (within : R id) (cycle : TransGen r.graph.Holds id id) :
      Violation r R (.containerCycle id)
  /-- Two declared types have one qualified name. -/
  | names {a b : Node} (withinA : R a.id) (withinB : R b.id)
      (nodeA : r.graph.get? a.id = some a) (nodeB : r.graph.get? b.id = some b)
      (apart : a.id ≠ b.id) (declaredA : a.shape.isDeclared = true)
      (declaredB : b.shape.isDeclared = true) (scope : r.scopeOf a = r.scopeOf b)
      (name : r.namer.typeName a.id.name = r.namer.typeName b.id.name) :
      Violation r R (.declarationCollision (r.namer.typeName b.id.name) a.id b.id)

/-! ## Symbols -/

/-- A collection that can be opened inside the collection `outer`. -/
structure Inner (r : Resolver) (s : Session) (outer inner : ShapeId) : Prop where
  node : ∃ n, r.graph.get? inner = some n ∧ n.shape.isContainer = true
  fresh : s.table.contains inner = false
  notOpen : inner ∉ s.containers
  held : r.graph.Holds outer inner

/-- On a stack whose elements lead inwards one by one, every element leads to the innermost one. -/
theorem leads_of_isChain {α : Type} {leads : α → α → Prop} {top : α} {rest : List α}
    (h : (top :: rest).IsChain fun inner outer => leads outer inner) :
    ∀ a ∈ top :: rest, ReflTransGen leads a top := by
  induction rest generalizing top with
  | nil =>
    intro a ha
    rw [List.mem_singleton.1 ha]
  | cons next rest ih =>
    obtain ⟨hnext, htail⟩ := List.isChain_cons_cons.1 h
    intro a ha
    rcases List.mem_cons.1 ha with rfl | ha
    · exact .refl
    · exact (ih htail a ha).tail hnext

/-- A leaf that cannot be made shows a primitive without a type. -/
theorem violation_of_leaf {n : Node} {e : Fault} (wf : r.graph.WellFormed) (within : R n.id)
    (node : r.graph.get? n.id = some n) (hc : n.shape.isContainer = false)
    (h : r.leaf n = .error e) : Violation r R e := by
  have hlinks : ∀ id ∈ n.shape.links, r.graph.contains id = true := fun id hid =>
    wf.contains_of_refers ⟨n, node, Shape.exists_reference_of_mem_links hid⟩
  obtain ⟨kind, hshape, hunmapped, rfl⟩ := Resolver.leaf_eq_error hlinks hc h
  exact .primitive within node hshape hunmapped

/-- A target that is refused shows a part that is no value. -/
theorem violation_of_valueTarget {n : Node} {m : Member} {e : Fault} (wf : r.graph.WellFormed)
    (within : R n.id) (node : r.graph.get? n.id = some n) (part : m ∈ n.shape.parts)
    (h : r.valueTarget (n.memberId m) m.target = .error e) : Violation r R e := by
  rcases Resolver.valueTarget_eq_error h with ⟨habsent, -⟩ | ⟨target, hfound, hvalue, rfl⟩
  · have hrefers : r.graph.Refers n.id m.target := by
      rcases List.mem_append.1 part with hm | hm
      · exact Graph.refers_of_mem_members node hm
      · exact Graph.refers_of_mem_elements node hm
    obtain ⟨k, hk⟩ := wf.get?_of_refers hrefers
    rw [habsent] at hk
    cases hk
  · exact .target within node part hfound hvalue

/-- An element that is open already holds the innermost collection, which holds the element. -/
theorem Sound.violation_of_open (h : Sound r R s) {top id : ShapeId} {rest : List ShapeId}
    (htop : s.containers = top :: rest) (within : R id) (held : r.graph.Holds top id)
    (hopen : id ∈ s.containers) : Violation r R (.containerCycle id) := by
  have hnested := h.nested
  rw [htop] at hopen hnested
  exact .cycle within (TransGen.tail' (leads_of_isChain hnested id hopen) held)

/-- A leaf is added in one step, after which its shape has a symbol. -/
theorem symbolStep_addLeaf {n : Node} {leaf : Leaf} (within : R n.id)
    (node : r.graph.get? n.id = some n) (fresh : s.table.contains n.id = false)
    (made : r.leaf n = .ok leaf) :
    SymbolStep r R s (s.addLeaf leaf) ∧
      (s.addLeaf leaf).table.get? n.id = some leaf.symbol := by
  refine ⟨.leaf within node fresh made, ?_⟩
  show (s.table.addSymbol leaf.symbol).get? n.id = _
  rw [SymbolTable.get?_addSymbol, if_pos (Resolver.made_of_leaf made).shape]

/-- What a look at the elements of an open collection ends with: all of them are ready, or one was
found that has to be opened first. -/
structure Prepared (r : Resolver) (R : ShapeId → Prop) (outer : ShapeId) (elements : List Member)
    (s : Session) (found : Option ShapeId) (s' : Session) : Prop where
  steps : SymbolSteps r R s s'
  same : s'.containers = s.containers
  ready : found = none → ∀ m ∈ elements, r.Ready s'.table m
  inner : ∀ id, found = some id → Inner r s' outer id

/-- An element that gets its symbol in steps before the others are looked at. -/
theorem Prepared.cons (closed : r.graph.Closed R) {outer : ShapeId} {m : Member}
    {elements : List Member} {found : Option ShapeId} {middle : Session} (h : Sound r R middle)
    (first : SymbolSteps r R s middle) (same : middle.containers = s.containers)
    (ready : r.Ready middle.table m) (others : Prepared r R outer elements middle found s') :
    Prepared r R outer (m :: elements) s found s' where
  steps := first.trans others.steps
  same := others.same.trans same
  ready := fun hfound => by
    refine List.forall_mem_cons.2 ⟨?_, others.ready hfound⟩
    obtain ⟨target, hget, hvalue, hknown⟩ := ready
    exact ⟨target, hget, hvalue, (others.steps.extends closed h).contains hknown⟩
  inner := others.inner

/-! ## The ways an element can go -/

section Ways

variable {n target : Node} {m : Member} {elements : List Member} {symbol : Symbol} {id : ShapeId}
  {Q : Option ShapeId → Session → Prop} {Q' : Symbol → Session → Prop}
  {E : Fault → Session → Prop}

/-- An element with a symbol is passed over. -/
theorem ends_prepare_known (hvalue : r.valueTarget (n.memberId m) m.target = .ok target)
    (known : s.table.contains target.id = true) :
    (r.prepare n (m :: elements)).Ends s Q E ↔ (r.prepare n elements).Ends s Q E := by
  rw [Resolver.prepare]
  simp only [ends_bind, hvalue, ends_lift_ok, ends_get, if_pos known]

/-- A collection without a symbol ends the look at the elements: it is opened next, unless it is
open already. -/
theorem ends_prepare_container (hvalue : r.valueTarget (n.memberId m) m.target = .ok target)
    (fresh : s.table.contains target.id = false) (container : target.shape.isContainer = true) :
    (r.prepare n (m :: elements)).Ends s Q E ↔
      if s.containers.contains target.id then E (.containerCycle target.id) s
      else Q (some target.id) s := by
  rw [Resolver.prepare]
  simp only [ends_bind, hvalue, ends_lift_ok, ends_get, if_neg (Bool.eq_false_iff.1 fresh),
    if_pos container]
  split <;> rfl

/-- Any other element gets its symbol at once, and the elements behind it are looked at. -/
theorem ends_prepare_leaf (hvalue : r.valueTarget (n.memberId m) m.target = .ok target)
    (fresh : s.table.contains target.id = false) (leaf : target.shape.isContainer = false) :
    (r.prepare n (m :: elements)).Ends s Q E ↔
      (lift (r.leaf target)).Ends s
        (fun made _ => (r.prepare n elements).Ends (s.addLeaf made) Q E) E := by
  rw [Resolver.prepare]
  simp only [ends_bind, hvalue, ends_lift_ok, ends_get, if_neg (Bool.eq_false_iff.1 fresh),
    if_neg (Bool.eq_false_iff.1 leaf), ends_modify]
  cases r.leaf target <;> rfl

/-- The symbol that a shape has got in the meantime. -/
def Resolver.answer (id : ShapeId) : ResolveM Symbol := do
  match (← get).table.get? id with
  | some symbol => return symbol
  | none => throw (.missingShape id)

/-- A shape with a symbol is answered with it. -/
theorem ends_answer (known : s.table.get? id = some symbol) :
    (Resolver.answer id).Ends s Q' E ↔ Q' symbol s := by
  simp only [Resolver.answer, ends_bind, ends_get, known, ends_pure]

/-- A symbol that is there is the answer. -/
theorem ends_symbol_known (known : s.table.get? id = some symbol) :
    (r.symbol id).Ends s Q' E ↔ Q' symbol s := by
  simp only [Resolver.symbol, ends_bind, ends_get, known, ends_pure]

/-- A collection without a symbol is opened, and all open collections are built. -/
theorem ends_symbol_container (fresh : s.table.get? n.id = none)
    (node : r.graph.get? n.id = some n) (container : n.shape.isContainer = true) :
    (r.symbol n.id).Ends s Q' E ↔
      (r.buildContainers r.containerBudget).Ends (s.openContainer n.id)
        (fun _ s' => (Resolver.answer n.id).Ends s' Q' E) E := by
  simp only [Resolver.symbol, ends_bind, ends_get, fresh, Graph.require_of_get? node, ends_lift_ok,
    if_pos container, ends_modify]
  rfl

/-- Any other shape without a symbol gets one at once. -/
theorem ends_symbol_leaf (fresh : s.table.get? n.id = none)
    (node : r.graph.get? n.id = some n) (leaf : n.shape.isContainer = false) :
    (r.symbol n.id).Ends s Q' E ↔
      (lift (r.leaf n)).Ends s
        (fun made _ => (Resolver.answer n.id).Ends (s.addLeaf made) Q' E) E := by
  simp only [Resolver.symbol, ends_bind, ends_get, fresh, Graph.require_of_get? node, ends_lift_ok,
    if_neg (Bool.eq_false_iff.1 leaf), ends_modify]
  cases r.leaf n <;> rfl

end Ways

/-! ## Collections -/

/-- The look at the elements of an open collection ends with what `Prepared` says, or with a fault
that shows a violation.  The induction is on the elements; an element that is passed over or gets
its symbol at once leaves the others to be looked at, and only a collection ends the look. -/
theorem prepare_ends (wf : r.graph.WellFormed) (closed : r.graph.Closed R) {n : Node}
    {elements : List Member} {rest : List ShapeId} (h : Sound r R s)
    (node : r.graph.get? n.id = some n) (top : s.containers = n.id :: rest)
    (helements : ∀ m ∈ elements, m ∈ n.shape.elements) :
    (r.prepare n elements).Ends s (Prepared r R n.id elements s)
      (fun e s' => Violation r R e ∧ SymbolSteps r R s s') := by
  induction elements generalizing s with
  | nil =>
    refine ⟨.refl, rfl, fun _ m hm => absurd hm List.not_mem_nil, ?_⟩
    rintro id ⟨⟩
  | cons m elements ih =>
    obtain ⟨hm, hrest⟩ := List.forall_mem_cons.1 helements
    have within : R n.id := (h.containers n.id (top ▸ List.mem_cons_self)).within
    cases hvalue : r.valueTarget (n.memberId m) m.target with
    | error e =>
      have part : m ∈ n.shape.parts := List.mem_append_right _ hm
      rw [Resolver.prepare, hvalue]
      exact ⟨violation_of_valueTarget wf within node part hvalue, .refl⟩
    | ok target =>
      obtain ⟨hget, hisValue⟩ := Resolver.valueTarget_eq_ok.1 hvalue
      have hid : target.id = m.target := Graph.get?_id hget
      have held : r.graph.Holds n.id target.id := ⟨n, node, m, hm, hid.symm⟩
      have within' : R target.id := closed _ _ within held.refers
      have node' : r.graph.get? target.id = some target := hid ▸ hget
      cases hcontains : s.table.contains target.id with
      | true =>
        rw [ends_prepare_known hvalue hcontains]
        have ready : r.Ready s.table m := ⟨target, hget, hisValue, hid ▸ hcontains⟩
        exact (ih h top hrest).mono (fun _ _ others => others.cons closed h .refl rfl ready)
          fun _ _ hfault => hfault
      | false =>
        cases hcontainer : target.shape.isContainer with
        | true =>
          rw [ends_prepare_container hvalue hcontains hcontainer]
          split
          · rename_i hopen
            exact ⟨h.violation_of_open top within' held (List.contains_iff_mem.1 hopen), .refl⟩
          · rename_i hopen
            refine ⟨.refl, rfl, (by rintro ⟨⟩), ?_⟩
            rintro id ⟨⟩
            exact ⟨⟨target, node', hcontainer⟩, hcontains, fun hmem =>
              hopen (List.contains_iff_mem.2 hmem), held⟩
        | false =>
          rw [ends_prepare_leaf hvalue hcontains hcontainer]
          cases hmade : r.leaf target with
          | error e => exact ⟨violation_of_leaf wf within' node' hcontainer hmade, .refl⟩
          | ok leaf =>
            obtain ⟨step, hsymbol⟩ := symbolStep_addLeaf within' node' hcontains hmade
            have h' := step.sound closed h
            have ready : r.Ready (s.addLeaf leaf).table m :=
              ⟨target, hget, hisValue, hid ▸ SymbolTable.contains_of_get? hsymbol⟩
            refine (ih h' top hrest).mono ?_ fun e s' hfault => ⟨hfault.1, .head step hfault.2⟩
            exact fun _ _ others => others.cons closed h' (.single step) rfl ready

/-- Making symbols leaves no more to do. -/
theorem SymbolSteps.containersLeft_le (closed : r.graph.Closed R) (h : Sound r R s)
    (steps : SymbolSteps r R s s') : containersLeft r s' ≤ containersLeft r s :=
  steps.keep closed h (fun _ _ h step hle => (step.containersLeft_lt closed h).le.trans hle)
    (Nat.le_refl _)

/-- An open collection ends up with a symbol, unless it is still open. -/
theorem SymbolSteps.containers (closed : r.graph.Closed R) (h : Sound r R s)
    (steps : SymbolSteps r R s s') {id : ShapeId} (hid : id ∈ s.containers) :
    id ∈ s'.containers ∨ s'.table.contains id = true :=
  steps.keep closed h (fun _ _ h step hid => step.containers h hid) (Or.inl hid)

/-- A collection that was open has a symbol when none is open any more. -/
theorem SymbolSteps.exists_symbol (closed : r.graph.Closed R) (h : Sound r R s)
    (steps : SymbolSteps r R s s') {id : ShapeId} (hid : id ∈ s.containers)
    (idle : s'.containers = []) : ∃ symbol, s'.table.get? id = some symbol := by
  rcases steps.containers closed h hid with hopen | hcontains
  · rw [idle] at hopen
    cases hopen
  · exact SymbolTable.contains_iff.1 hcontains

/-- Each step with the innermost collection leaves one step less. -/
theorem containerStep_ends (wf : r.graph.WellFormed) (closed : r.graph.Closed R) {top : ShapeId}
    {rest : List ShapeId} (h : Sound r R s) (htop : s.containers = top :: rest) :
    (r.containerStep top).Ends s
      (fun _ s' => SymbolSteps r R s s' ∧ containersLeft r s' < containersLeft r s)
      (fun e s' => Violation r R e ∧ SymbolSteps r R s s') := by
  obtain ⟨within, ⟨n, hget, hcontainer⟩, -⟩ := h.containers top (htop ▸ List.mem_cons_self)
  obtain rfl := Graph.get?_id hget
  rw [Resolver.containerStep, Graph.require_of_get? hget]
  simp only [ends_bind, ends_lift_ok]
  refine (prepare_ends wf closed h hget htop fun _ => id).mono ?_ fun _ _ => id
  rintro found s' ⟨steps, hsame, hready, hinner⟩
  -- a look at the elements leaves no more steps than before, and one step follows in either case
  have h' := steps.sound closed h
  have hle := steps.containersLeft_le closed h
  cases found with
  | some inner =>
    obtain ⟨⟨k, hk, hkc⟩, fresh, notOpen, held⟩ := hinner inner rfl
    obtain rfl := Graph.get?_id hk
    have inside : ∀ top ∈ s'.containers.head?, r.graph.Holds top k.id := by
      rw [hsame, htop]
      rintro top ⟨⟩
      exact held
    have step : SymbolStep r R s' (s'.openContainer k.id) :=
      .opened (closed _ _ within held.refers) hk hkc fresh notOpen inside
    have hlt := step.containersLeft_lt closed h'
    exact ⟨steps.tail step, hlt.trans_le hle⟩
  | none =>
    obtain ⟨symbol, queued, hbuilt⟩ := Resolver.exists_collection hcontainer (hready rfl)
    simp only [ends_bind, ends_get, hbuilt, ends_lift_ok, ends_modify]
    have step : SymbolStep r R s' (s'.closeContainer symbol queued) :=
      .closed hget (hsame.trans htop) hbuilt
    have hlt := step.containersLeft_lt closed h'
    exact ⟨steps.tail step, hlt.trans_le hle⟩

/-- Building collections ends with none open, or with a violation.  The induction is on the fuel,
which covers what is left to do. -/
theorem buildContainers_ends (wf : r.graph.WellFormed) (closed : r.graph.Closed R) {fuel : Nat}
    (h : Sound r R s) (hfuel : containersLeft r s ≤ fuel) :
    (r.buildContainers fuel).Ends s
      (fun _ s' => SymbolSteps r R s s' ∧ s'.containers = [])
      (fun e s' => Violation r R e ∧ SymbolSteps r R s s') := by
  induction fuel generalizing s with
  | zero => exact ⟨.refl, h.containers_eq_nil (Nat.le_zero.1 hfuel)⟩
  | succ fuel ih =>
    rw [Resolver.buildContainers]
    simp only [ends_bind, ends_get]
    cases htop : s.containers with
    | nil => exact ⟨.refl, htop⟩
    | cons top rest =>
      simp only [ends_bind]
      refine (containerStep_ends wf closed h htop).mono ?_ fun _ _ => id
      rintro - s' ⟨steps, hlt⟩
      refine (ih (steps.sound closed h) (by omega)).mono ?_ ?_
      · rintro - s'' ⟨steps', hidle⟩
        exact ⟨steps.trans steps', hidle⟩
      · rintro e s'' ⟨hviolation, steps'⟩
        exact ⟨hviolation, steps.trans steps'⟩

/-- A shape gets its symbol, and all collections opened for it are closed again. -/
theorem symbol_ends (wf : r.graph.WellFormed) (closed : r.graph.Closed R) {id : ShapeId}
    (h : Sound r R s) (idle : s.containers = []) (within : R id) :
    (r.symbol id).Ends s
      (fun symbol s' => SymbolSteps r R s s' ∧ s'.containers = [] ∧
        s'.table.get? id = some symbol)
      (fun e s' => Violation r R e ∧ SymbolSteps r R s s') := by
  cases hknown : s.table.get? id with
  | some symbol => exact (ends_symbol_known hknown).2 ⟨.refl, idle, hknown⟩
  | none =>
    have fresh : s.table.contains id = false := SymbolTable.contains_eq_false_iff.2 hknown
    cases hget : r.graph.get? id with
    | none =>
      have hrequire : r.graph.require id = .error (.missingShape id) := by rw [Graph.require, hget]
      simp only [Resolver.symbol, ends_bind, ends_get, hknown, hrequire, ends_lift_error]
      exact ⟨.missing within (Graph.contains_eq_false_iff.2 hget), .refl⟩
    | some n =>
      obtain rfl := Graph.get?_id hget
      cases hcontainer : n.shape.isContainer with
      | true =>
        rw [ends_symbol_container hknown hget hcontainer]
        have step : SymbolStep r R s (s.openContainer n.id) := by
          refine .opened within hget hcontainer fresh ?_ ?_ <;> rw [idle]
          · exact List.not_mem_nil
          · rintro top ⟨⟩
        have h' := step.sound closed h
        refine (buildContainers_ends wf closed h' (containersLeft_le r _)).mono ?_
          fun e s' hfault => ⟨hfault.1, .head step hfault.2⟩
        rintro - s' ⟨steps, hidle⟩
        obtain ⟨symbol, hsymbol⟩ := steps.exists_symbol closed h' List.mem_cons_self hidle
        exact (ends_answer hsymbol).2 ⟨.head step steps, hidle, hsymbol⟩
      | false =>
        rw [ends_symbol_leaf hknown hget hcontainer]
        cases hmade : r.leaf n with
        | error e => exact ⟨violation_of_leaf wf within hget hcontainer hmade, .refl⟩
        | ok leaf =>
          obtain ⟨step, hsymbol⟩ := symbolStep_addLeaf within hget fresh hmade
          exact (ends_answer hsymbol).2 ⟨.single step, idle, hsymbol⟩

end SchemaSymbols
