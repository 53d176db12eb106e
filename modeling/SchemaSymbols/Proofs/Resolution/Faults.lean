/-
  The faults of a resolution are exact.

  `Resolvable` lists what a set of shapes has to satisfy: members and elements are values, the
  language has a type for every primitive, no collection holds itself, and no two declared types
  share a name.  The resolution of all roots ends well if and only if the roots satisfy this; and if
  it fails, the fault names shapes that break one of the conditions.

  1. **One direction** is known already, because every fault comes with a `Violation`, and where the
     conditions hold there is none (`Resolvable.not_violation`).

  2. **For the other one**, the table that is left when all went well is read back.  Every root has
     a symbol and every record and union is bound, so each condition was met somewhere on the way
     (`TableSound.ready`, `TableSound.value`, `TableSound.mapped`, `TableSound.names`).

  3. **Only the cycles need an invariant**: a collection gets its symbol after its elements, so
     every descent through collections ends (`Grounded`, kept by every step).

  `Tally` has a primitive that one language has a type for and another one has not; `Loop` has a
  list and a map that hold each other.
-/
import SchemaSymbols.Proofs.Resolution.Completeness

namespace SchemaSymbols

open Relation ResolveM

variable {r : Resolver} {R : ShapeId → Prop} {s s' : Session}

/-- What shapes have to satisfy so that they can be resolved. -/
structure Resolvable (r : Resolver) (R : ShapeId → Prop) : Prop where
  /-- Members, elements, keys and values are neither operations nor services. -/
  values : ∀ owner target m, R owner.id → r.graph.get? owner.id = some owner →
    m ∈ owner.shape.parts → r.graph.get? m.target = some target → target.shape.isValue = true
  /-- The language has a type for every primitive. -/
  primitives : ∀ n kind, R n.id → r.graph.get? n.id = some n → n.shape = .primitive kind →
    r.profile.primitiveType? kind ≠ none
  /-- No collection holds itself, with nothing but collections in between. -/
  acyclic : ∀ id, R id → ¬ TransGen r.graph.Holds id id
  /-- Declared types have qualified names of their own. -/
  names : ∀ a b, R a.id → R b.id → r.graph.get? a.id = some a → r.graph.get? b.id = some b →
    a.shape.isDeclared = true → b.shape.isDeclared = true → r.scopeOf a = r.scopeOf b →
    r.namer.typeName a.id.name = r.namer.typeName b.id.name → a.id = b.id

/-- Where there is a violation, not all is as it has to be. -/
theorem Resolvable.not_violation (h : Resolvable r R)
    (present : ∀ id, R id → r.graph.contains id = true) {e : Fault} : ¬ Violation r R e := by
  intro violation
  cases violation with
  | missing within absent =>
    rw [present _ within] at absent
    cases absent
  | target within node part found noValue =>
    rw [h.values _ _ _ within node part found] at noValue
    cases noValue
  | primitive within node shape unmapped => exact h.primitives _ _ within node shape unmapped
  | cycle within cycle => exact h.acyclic _ within cycle
  | names withinA withinB nodeA nodeB apart declaredA declaredB scope name =>
    exact apart (h.names _ _ withinA withinB nodeA nodeB declaredA declaredB scope name)

/-! ## Descents through collections -/

/-- From every shape with a symbol, each descent through collections ends. -/
def Grounded (r : Resolver) (s : Session) : Prop :=
  ∀ x, s.table.contains x = true → Acc (fun y x => r.graph.Holds x y) x

/-- A new symbol keeps descents finite if all that the shape holds has a symbol already. -/
theorem Grounded.addSymbol {symbol : Symbol} (hg : Grounded r s)
    (htable : s'.table = s.table.addSymbol symbol)
    (inner : ∀ y, r.graph.Holds symbol.shape y → s.table.contains y = true) : Grounded r s' := by
  intro x hx
  rw [htable, SymbolTable.contains_addSymbol] at hx
  rcases hx with rfl | hx
  · exact .intro _ fun y hy => hg y (inner y hy)
  · exact hg x hx

/-- A new symbol is that of a leaf, or its elements had theirs before. -/
theorem SymbolStep.grounded (step : SymbolStep r R s s') (hg : Grounded r s) : Grounded r s' := by
  cases step with
  | @leaf n leaf within node fresh made =>
    have made := Resolver.made_of_leaf made
    refine hg.addSymbol rfl fun y hy => ?_
    -- a leaf holds nothing
    obtain ⟨k, hk, m, hm, -⟩ := hy
    rw [made.shape, node] at hk
    cases hk
    have hcontainer := Shape.isContainer_of_mem_elements hm
    rw [made.isContainer] at hcontainer
    cases hcontainer
  | opened => exact hg
  | @closed n rest queued symbol node top built =>
    have built := Resolver.built_of_collection built
    refine hg.addSymbol rfl fun y hy => ?_
    obtain ⟨k, hk, m, hm, rfl⟩ := hy
    rw [built.shape, node] at hk
    cases hk
    obtain ⟨-, -, -, hready⟩ := built.ready m hm
    exact hready

/-- Every move keeps descents finite. -/
theorem Move.grounded (move : Move r R s s') (hg : Grounded r s) : Grounded r s' := by
  cases move with
  | step step =>
    cases step with
    | symbol step => exact step.grounded hg
    | enter => exact hg
    | bind binds => rw [Session.bindNext_of_frames binds.top]; exact hg
    | descend binds => rw [Session.bindNext_of_frames binds.top]; exact hg
    | leave top => rw [Session.leave_of_frames top]; exact hg
  | dequeue => exact hg
  | abandon => exact hg

/-- Every chain of moves does. -/
theorem Moves.grounded (moves : Moves r R s s') (hg : Grounded r s) : Grounded r s' := by
  induction moves with
  | refl => exact hg
  | tail _ move ih => exact move.grounded ih

/-! ## Reading back the table -/

/-- What a collection with a symbol holds are values. -/
theorem TableSound.ready {t : SymbolTable} (h : TableSound r R t) {n : Node} {m : Member}
    (node : r.graph.get? n.id = some n) (known : t.contains n.id = true)
    (hm : m ∈ n.shape.elements) : r.Ready t m := by
  obtain ⟨symbol, hget⟩ := SymbolTable.contains_iff.1 known
  obtain ⟨k, hk, ⟨leaf, hleaf, -⟩ | ⟨queued, hbuilt⟩⟩ := (h.symbols n.id symbol hget).2
  · rw [node] at hk
    cases hk
    have hcontainer := Shape.isContainer_of_mem_elements hm
    rw [(Resolver.made_of_leaf hleaf).isContainer] at hcontainer
    cases hcontainer
  · rw [node] at hk
    cases hk
    exact (Resolver.built_of_collection hbuilt).ready m hm

/-- The members of a bound record or union are values. -/
theorem TableSound.value {t : SymbolTable} (h : TableSound r R t) {n target : Node} {m : Member}
    (node : r.graph.get? n.id = some n) (bound : t.isBound n.id = true)
    (hm : m ∈ n.shape.members) (found : r.graph.get? m.target = some target) :
    target.shape.isValue = true := by
  obtain ⟨bindings, hmembers⟩ := SymbolTable.isBound_iff.1 bound
  obtain ⟨-, owner, hget, -, -, hall⟩ := h.members n.id bindings hmembers
  rw [node] at hget
  cases hget
  rw [← r.map_fst_namedMembers] at hm
  obtain ⟨declared, hdeclared, rfl⟩ := List.mem_map.1 hm
  obtain ⟨-, -, k, -, -, hk, hvalue, -⟩ := exists_of_forall₂ hall hdeclared
  rw [found] at hk
  cases hk
  exact hvalue

/-- The language has a type for a primitive with a symbol. -/
theorem TableSound.mapped {t : SymbolTable} (h : TableSound r R t) {n : Node}
    {kind : PrimitiveKind} (node : r.graph.get? n.id = some n) (known : t.contains n.id = true)
    (shape : n.shape = .primitive kind) : r.profile.primitiveType? kind ≠ none := by
  obtain ⟨symbol, hget⟩ := SymbolTable.contains_iff.1 known
  obtain ⟨k, hk, hexplained⟩ := (h.symbols n.id symbol hget).2
  rw [node] at hk
  cases hk
  rcases hexplained with ⟨leaf, hleaf, -⟩ | ⟨queued, hbuilt⟩
  · intro hunmapped
    rw [Resolver.leaf, shape] at hleaf
    obtain ⟨symbol, hsymbol, -⟩ := bind_eq_ok.1 hleaf
    rw [Resolver.primitiveSymbol, hunmapped] at hsymbol
    cases hsymbol
  · have hcontainer := (Resolver.built_of_collection hbuilt).isContainer
    rw [shape] at hcontainer
    cases hcontainer

/-- Names that were not refused tell the declared types of the graph apart. -/
theorem TableSound.names {t : SymbolTable} (h : TableSound r R t) (hnames : t.checkNames = .ok ())
    {a b : Node} (nodeA : r.graph.get? a.id = some a) (nodeB : r.graph.get? b.id = some b)
    (knownA : t.contains a.id = true) (knownB : t.contains b.id = true)
    (declaredA : a.shape.isDeclared = true) (declaredB : b.shape.isDeclared = true)
    (scope : r.scopeOf a = r.scopeOf b)
    (name : r.namer.typeName a.id.name = r.namer.typeName b.id.name) : a.id = b.id := by
  obtain ⟨x, hx⟩ := SymbolTable.contains_iff.1 knownA
  obtain ⟨y, hy⟩ := SymbolTable.contains_iff.1 knownB
  obtain ⟨k, hk, hxDeclared, hxName⟩ := h.declaration hx
  rw [nodeA] at hk
  cases hk
  obtain ⟨k, hk, hyDeclared, hyName⟩ := h.declaration hy
  rw [nodeB] at hk
  cases hk
  -- the check saw both symbols, under the names of their nodes
  have hshape : x.shape = y.shape := by
    refine SymbolTable.shape_eq_of_checkNames hnames
      (SymbolTable.mem_declared_of_get? hx (hxDeclared.trans declaredA))
      (SymbolTable.mem_declared_of_get? hy (hyDeclared.trans declaredB)) ?_ ?_
    · rw [(hxName declaredA).1, (hyName declaredB).1, scope]
    · rw [(hxName declaredA).2, (hyName declaredB).2, name]
  rw [← SymbolTable.get?_shape hx, ← SymbolTable.get?_shape hy, hshape]

/-! ## Exactly the faults of the graph -/

theorem Graph.WellFormed.contains_of_exposed {g : Graph} (wf : g.WellFormed) {id : ShapeId}
    (h : g.Exposed id) : g.contains id = true := by
  rcases h with ⟨-, hid⟩ | ⟨service, hservice, hreaches⟩
  · exact hid
  · exact wf.contains_of_reaches (Graph.contains_of_get? (Graph.mem_services.1 hservice).1) hreaches

/-- A resolution of all roots that ended well has met all conditions. -/
theorem resolvable_of_resolveAll (wf : r.graph.WellFormed) (hrun : r.resolveAll {} = .ok () s) :
    Resolvable r r.graph.Exposed := by
  have ends := resolveAll_ends wf wf.closed_exposed .new ⟨rfl, rfl⟩ fun id hid =>
    (Resolver.mem_roots wf).1 hid
  obtain ⟨resolved, -, hnames⟩ := ends.of_ok hrun
  have table := (resolved.moves.sound wf.closed_exposed .new).table
  have grounded : Grounded r s := resolved.moves.grounded fun x hx => by cases hx
  have known : ∀ id, r.graph.Exposed id → s.table.contains id = true :=
    fun id hid => ((resolveAll_exact wf hrun id).1).2 hid
  refine ⟨?_, ?_, ?_, ?_⟩
  · intro owner target m within node part found
    -- a member was bound to a value, and an element was ready when its collection was built
    rcases List.mem_append.1 part with hm | hm
    · have haggregate : r.graph.isAggregate owner.id = true :=
        (Graph.isAggregate_of_get? node).trans (Shape.isAggregate_of_mem_members hm)
      exact table.value node ((resolveAll_exact wf hrun _).2.2 ⟨within, haggregate⟩) hm found
    · obtain ⟨k, hk, hvalue, -⟩ := table.ready node (known _ within) hm
      rw [found] at hk
      cases hk
      exact hvalue
  · intro n kind within node shape
    exact table.mapped node (known _ within) shape
  · intro id within
    exact not_transGen_self_of_acc (grounded id (known id within))
  · intro a b withinA withinB nodeA nodeB declaredA declaredB scope name
    exact table.names hnames nodeA nodeB (known _ withinA) (known _ withinB) declaredA declaredB
      scope name

/-- The resolution of all roots ends well exactly if the roots, which are the shapes that a
    generator is after, can be resolved; and otherwise the fault shows what they violate.  No shape
    is ever missing. -/
theorem resolveAll_faults_exact (wf : r.graph.WellFormed) :
    (∀ id, id ∈ r.roots ↔ r.graph.Exposed id) ∧
      ((∃ s, r.resolveAll {} = .ok () s) ↔ Resolvable r (· ∈ r.roots)) ∧
      ∀ e s, r.resolveAll {} = .error e s →
        Violation r (· ∈ r.roots) e ∧ ∀ id, e ≠ .missingShape id := by
  have hroots : (· ∈ r.roots) = r.graph.Exposed := by
    funext id
    exact propext (Resolver.mem_roots wf)
  have present : ∀ id, r.graph.Exposed id → r.graph.contains id = true :=
    fun id hid => wf.contains_of_exposed hid
  have violation : ∀ e s, r.resolveAll {} = .error e s → Violation r r.graph.Exposed e := by
    intro e s hrun
    have ends := resolveAll_ends wf wf.closed_exposed .new ⟨rfl, rfl⟩ fun id hid =>
      (Resolver.mem_roots wf).1 hid
    exact (ends.of_error hrun).reason
  rw [hroots]
  refine ⟨fun id => Resolver.mem_roots wf, ⟨?_, fun hresolvable => ?_⟩, fun e s hrun => ?_⟩
  · rintro ⟨s, hrun⟩
    exact resolvable_of_resolveAll wf hrun
  · -- a fault would show a violation, and there is none
    cases hrun : r.resolveAll {} with
    | ok _ s => exact ⟨s, rfl⟩
    | error e s => exact absurd (violation e s hrun) (hresolvable.not_violation present)
  · refine ⟨violation e s hrun, ?_⟩
    rintro id rfl
    cases violation _ s hrun with
    | missing within absent =>
      rw [present id within] at absent
      cases absent

/-! ## A tally in two languages, and collections in a loop -/

namespace Tally

/-- The identifier of a shape of the tally. -/
def shape (name : String) : ShapeId := ⟨"tally", name, none⟩

/-- A record that counts marks of some kind, of which there can be very many. -/
def nodes : List Node :=
  [ ⟨shape "Tally", .record [⟨"marks", shape "Marks", .empty⟩, ⟨"total", shape "Total", .empty⟩],
      .empty⟩,
    ⟨shape "Marks", .list ⟨"member", shape "Mark", .empty⟩, .empty⟩,
    ⟨shape "Mark", .primitive .string, .empty⟩,
    ⟨shape "Total", .primitive .bigInteger, .empty⟩ ]

/-- The tally seen through a target language. -/
def resolver (profile : Profile) : Resolver :=
  .new (.ofNodesD nodes) profile (NullabilityMode.policy .structural) {}

end Tally

namespace Loop

/-- The identifier of a shape of the loop. -/
def shape (name : String) : ShapeId := ⟨"loop", name, none⟩

/-- A list and a map that hold each other, next to a record in a list of its own. -/
def nodes : List Node :=
  [ ⟨shape "Rows", .list ⟨"member", shape "Cells", .empty⟩, .empty⟩,
    ⟨shape "Cells", .map ⟨"key", shape "Text", .empty⟩ ⟨"value", shape "Rows", .empty⟩, .empty⟩,
    ⟨shape "Text", .primitive .string, .empty⟩,
    ⟨shape "Tree", .record [⟨"children", shape "Trees", .empty⟩], .empty⟩,
    ⟨shape "Trees", .list ⟨"member", shape "Tree", .empty⟩, .empty⟩ ]

/-- The graph of the loop. -/
def graph : Graph := .ofNodesD nodes

/-- The loop seen through a target language. -/
def resolver : Resolver := .new graph .python (NullabilityMode.policy .structural) {}

end Loop

/-- Python has a type for very large numbers and Swift has none, so the tally resolves in the one
language and not in the other; the loop resolves in no language. -/
theorem faults_exact_in_tally_and_loop :
    ((Tally.resolver .python).graph.WellFormed ∧
      (∃ s, (Tally.resolver .python).resolveAll {} = .ok () s) ∧
      Tally.shape "Total" ∈ (Tally.resolver .python).roots ∧
      Resolvable (Tally.resolver .python) (· ∈ (Tally.resolver .python).roots)) ∧
    (∃ s, (Tally.resolver .swift).resolveAll {} =
        .error (.unmappedPrimitive (Tally.shape "Total") .bigInteger .swift) s ∧
      Violation (Tally.resolver .swift) (· ∈ (Tally.resolver .swift).roots)
        (.unmappedPrimitive (Tally.shape "Total") .bigInteger .swift) ∧
      ¬ Resolvable (Tally.resolver .swift) (· ∈ (Tally.resolver .swift).roots)) ∧
    ∃ s, Loop.resolver.resolveAll {} = .error (.containerCycle (Loop.shape "Cells")) s ∧
      Violation Loop.resolver (· ∈ Loop.resolver.roots) (.containerCycle (Loop.shape "Cells")) := by
  have tally : (Graph.ofNodesD Tally.nodes).WellFormed := Graph.wellFormed_ofNodesD Tally.nodes
  have loop : Loop.resolver.graph.WellFormed := Graph.wellFormed_ofNodesD Loop.nodes
  obtain ⟨_, mapped, hmapped⟩ := exists_of_endsWell (x := (Tally.resolver .python).resolveAll)
    (s := {}) (by decide +kernel)
  obtain ⟨unmapped, hunmapped⟩ := exists_of_fault? (x := (Tally.resolver .swift).resolveAll)
    (s := {}) (e := .unmappedPrimitive (Tally.shape "Total") .bigInteger .swift) (by decide +kernel)
  obtain ⟨cyclic, hcyclic⟩ := exists_of_fault? (x := Loop.resolver.resolveAll)
    (s := {}) (e := .containerCycle (Loop.shape "Cells")) (by decide +kernel)
  obtain ⟨-, resolvable, -⟩ := resolveAll_faults_exact (r := Tally.resolver .python) tally
  obtain ⟨-, resolvable', violation⟩ := resolveAll_faults_exact (r := Tally.resolver .swift) tally
  obtain ⟨-, -, violation'⟩ := resolveAll_faults_exact loop
  refine ⟨⟨tally, ⟨mapped, hmapped⟩, by decide +kernel, resolvable.1 ⟨mapped, hmapped⟩⟩,
    ⟨unmapped, hunmapped, (violation _ _ hunmapped).1, fun hresolvable => ?_⟩,
    cyclic, hcyclic, (violation' _ _ hcyclic).1⟩
  obtain ⟨s, hrun⟩ := resolvable'.2 hresolvable
  rw [hunmapped] at hrun
  cases hrun

end SchemaSymbols
