/-
  The order of declarations.

  What a declared type depends on are declared types that it reaches, so after a build each of them
  has a symbol and is declared itself (`TableSound.dependencies`, `Phases.isDeclared_iff`).

  `DependsOn` and `Interdependent` say with symbols alone what the order has to respect.  The order
  lists the classes of types that depend on each other, sorted within, and a class comes after those
  it depends on; that much is known of components.  What is left is that the dependencies the order
  looks at are all there are (`Phases.leads_iff`), and that sorting within the classes does not mix
  them (`sublist_flatMap_sort`).

  `declarationOrder_exact` states it for every build that ends well: the order has the declared
  types, each once, dependencies come first unless types depend on each other, and those that do are
  next to each other.
-/
import SchemaSymbols.Proofs.Build.Phases
import SchemaSymbols.Proofs.Components
import SchemaSymbols.Proofs.Resolution.Dependencies

namespace SchemaSymbols

open Relation Components

variable {r : Resolver} {R : ShapeId → Prop} {t : SymbolTable} {n : Node} {x y : ShapeId}

/-! ## What a symbol depends on -/

/-- A symbol with dependencies is that of a declared type, which reaches them; and they are declared
types themselves. -/
theorem TableSound.dependencies (h : TableSound r R t) {symbol : Symbol} {ref : SymbolRef}
    (hget : t.get? x = some symbol) (href : ref ∈ symbol.dependencies) :
    symbol.isDeclared = true ∧ r.graph.Reaches x ref.shape ∧
      ∃ k, r.graph.get? ref.shape = some k ∧ k.shape.isDeclared = true := by
  obtain ⟨n, hn, declares⟩ := (h.symbols x symbol hget).2.declares
  rw [declares.dependencies] at href
  split at href
  · rename_i hdeclared
    obtain rfl := Graph.get?_id hn
    exact ⟨declares.declared.trans hdeclared, Resolver.reaches_of_mem_dependencies hn href⟩
  · exact absurd href List.not_mem_nil

/-! ## Dependence after a build -/

namespace Build

variable {g : Graph} {settings : Settings} {b : Build} {normalized : Graph} {session : Session}

/-- The declared type `x` names `y` among the types it depends on. -/
def DependsOn (t : SymbolTable) (x y : ShapeId) : Prop :=
  ∃ symbol, t.get? x = some symbol ∧ symbol.isDeclared = true ∧
    ∃ ref ∈ symbol.dependencies, ref.shape = y

/-- The types `x` and `y` depend on each other, directly or through others. -/
def Interdependent (t : SymbolTable) (x y : ShapeId) : Prop :=
  ReflTransGen (DependsOn t) x y ∧ ReflTransGen (DependsOn t) y x

/-- A shape has a symbol that is declared. -/
def IsDeclared (t : SymbolTable) (id : ShapeId) : Prop :=
  ∃ symbol, t.get? id = some symbol ∧ symbol.isDeclared = true

theorem mem_declared_keys : x ∈ t.declared.map Symbol.key ↔ IsDeclared t x := by
  rw [List.mem_map]
  constructor
  · rintro ⟨symbol, hsymbol, rfl⟩
    exact ⟨symbol, SymbolTable.get?_of_mem_declared hsymbol⟩
  · rintro ⟨symbol, hget, hdeclared⟩
    exact ⟨symbol, SymbolTable.mem_declared_of_get? hget hdeclared, SymbolTable.get?_shape hget⟩

/-- The order looks at the declared shapes among what a symbol refers to. -/
theorem mem_dependenciesIn :
    y ∈ dependenciesIn t x ↔ IsDeclared t y ∧
      ∃ symbol, t.get? x = some symbol ∧ ∃ ref ∈ symbol.dependencies, ref.shape = y := by
  rw [dependenciesIn]
  cases hget : t.get? x with
  | none => simp
  | some symbol =>
    rw [List.mem_filter, List.mem_map, and_comm, Option.any_eq_true]
    simp only [IsDeclared, Option.some.injEq, exists_eq_left']
    rfl

/-- After a build, what has a declaration are the records, unions and enumerations with a symbol. -/
theorem Phases.isDeclared_iff (phases : Phases g settings b normalized session)
    (wf : g.WellFormed) :
    IsDeclared b.table x ↔ b.table.contains x = true ∧
      ∃ n, b.graph.get? x = some n ∧ n.shape.isDeclared = true := by
  have table := (phases.table_sound wf).1
  constructor
  · rintro ⟨symbol, hget, hdeclared⟩
    obtain ⟨n, hn, hsame, -⟩ := table.declaration hget
    exact ⟨SymbolTable.contains_of_get? hget, n, hn, hsame.symm.trans hdeclared⟩
  · rintro ⟨hknown, n, hn, hdeclared⟩
    obtain ⟨symbol, hget⟩ := SymbolTable.contains_iff.1 hknown
    obtain ⟨k, hk, hsame, -⟩ := table.declaration hget
    change b.graph.get? x = some k at hk
    rw [hn] at hk
    cases hk
    exact ⟨symbol, hget, hsame.trans hdeclared⟩

/-- The order looks at all dependencies: after a build they are declared. -/
theorem Phases.dependsOn_iff (phases : Phases g settings b normalized session)
    (wf : g.WellFormed) : y ∈ dependenciesIn b.table x ↔ DependsOn b.table x y := by
  obtain ⟨table, hknown⟩ := phases.table_sound wf
  have wf' := phases.wellFormed wf
  rw [mem_dependenciesIn]
  constructor
  · rintro ⟨-, symbol, hget, ref, href, rfl⟩
    exact ⟨symbol, hget, (table.dependencies hget href).1, ref, href, rfl⟩
  · rintro ⟨symbol, hget, -, ref, href, rfl⟩
    obtain ⟨-, hreaches, k, hk, hdeclared⟩ := table.dependencies hget href
    have hexposed : b.graph.Exposed ref.shape :=
      wf'.closed_exposed.of_reaches hreaches (table.symbols x symbol hget).1
    exact ⟨(phases.isDeclared_iff wf).2 ⟨hknown _ hexposed, k, hk, hdeclared⟩, symbol, hget, ref,
      href, rfl⟩

/-- After a build, the order looks at everything that types depend on. -/
theorem Phases.leads_iff (phases : Phases g settings b normalized session) (wf : g.WellFormed) :
    Leads (dependenciesIn b.table) x y ↔ ReflTransGen (DependsOn b.table) x y := by
  have hsame : (fun x y => y ∈ dependenciesIn b.table x) = DependsOn b.table := by
    funext x y
    exact propext (phases.dependsOn_iff wf)
  rw [Leads, hsame]

/-! ## The order -/

/-- In a list of classes in the order of dependence, what a member of a class depends on stands in
that class or earlier. -/
theorem sublist_flatMap_sort {before after : List (List ShapeId)} {c : List ShapeId} (hx : x ∈ c)
    (hy : y ∈ before.flatten) :
    [y, x].Sublist ((before ++ c :: after).flatMap ShapeId.sort) := by
  rw [List.flatMap_append, List.flatMap_cons]
  obtain ⟨d, hd, hyd⟩ := List.mem_flatten.1 hy
  have hfirst : [y].Sublist (before.flatMap ShapeId.sort) :=
    List.singleton_sublist.2 (List.mem_flatMap.2 ⟨d, hd, ShapeId.mem_sort.2 hyd⟩)
  have hsecond : [x].Sublist (ShapeId.sort c ++ after.flatMap ShapeId.sort) :=
    List.singleton_sublist.2 (List.mem_append_left _ (ShapeId.mem_sort.2 hx))
  exact hfirst.append hsecond

/-- The order of declarations after a build.  It lists the records, unions and enumerations with a
    symbol, each once; what a type depends on comes before it, unless they depend on each other;
    and types that depend on each other stand together, in the order of their identifiers. -/
theorem declarationOrder_exact (wf : g.WellFormed) (h : run g settings = .ok b) :
    (declarationOrder b.table).Nodup ∧
      (∀ id, id ∈ declarationOrder b.table ↔ b.table.contains id = true ∧
        ∃ n, b.graph.get? id = some n ∧ n.shape.isDeclared = true) ∧
      (∀ x y, DependsOn b.table x y → y ∈ declarationOrder b.table ∧
        ([y, x].Sublist (declarationOrder b.table) ∨ Interdependent b.table x y)) ∧
      ∃ blocks : List (List ShapeId), declarationOrder b.table = blocks.flatten ∧
        ∀ block ∈ blocks, block ≠ [] ∧ block.Pairwise (fun x y => compare x y = .lt) ∧
          ∀ x ∈ block, ∀ y, y ∈ block ↔ Interdependent b.table x y := by
  obtain ⟨normalized, session, phases⟩ := exists_phases h
  have hstays : ∀ x ∈ b.table.declared.map Symbol.key, ∀ y ∈ dependenciesIn b.table x,
      y ∈ b.table.declared.map Symbol.key :=
    fun x _ y hy => mem_declared_keys.2 (mem_dependenciesIn.1 hy).1
  obtain ⟨layered, hall⟩ := components_layered hstays
  have hmutual : ∀ x y, Mutual (dependenciesIn b.table) x y ↔ Interdependent b.table x y :=
    fun x y => and_congr (phases.leads_iff wf) (phases.leads_iff wf)
  have hmem : ∀ id, id ∈ declarationOrder b.table ↔ IsDeclared b.table id := by
    intro id
    rw [← mem_declared_keys, ← hall id, declarationOrder, List.mem_flatMap, List.mem_flatten]
    simp only [ShapeId.mem_sort]
  refine ⟨?_, fun id => (hmem id).trans (phases.isDeclared_iff wf), fun x y hxy => ⟨?_, ?_⟩,
    (components (b.table.declared.map Symbol.key) (dependenciesIn b.table)).map ShapeId.sort,
    List.flatMap_def, fun block hblock => ?_⟩
  · have hperm : (declarationOrder b.table).Perm
        (components (b.table.declared.map Symbol.key) (dependenciesIn b.table)).flatten := by
      rw [declarationOrder, ← List.flatMap_id]
      exact List.Perm.flatMap_left _ fun c _ => List.mergeSort_perm c ShapeId.le
    exact hperm.nodup_iff.2 layered.nodup
  · exact (hmem y).2 (mem_dependenciesIn.1 ((phases.dependsOn_iff wf).2 hxy)).1
  · have hdepends := (phases.dependsOn_iff wf).2 hxy
    obtain ⟨symbol, hget, hdeclared, -⟩ := hxy
    obtain ⟨c, hc, hx⟩ := List.mem_flatten.1
      ((hall x).2 (mem_declared_keys.2 ⟨symbol, hget, hdeclared⟩))
    obtain ⟨before, after, hsplit⟩ := List.append_of_mem hc
    rcases layered.below before c after hsplit x hx y hdepends with hy | hy | hy
    · exact Or.inr ((hmutual x y).1 ((layered.mem_iff_mutual hc hx).1 hy))
    · rw [declarationOrder, hsplit]
      exact Or.inl (sublist_flatMap_sort hx hy)
    · exact hy.elim
  · obtain ⟨c, hc, rfl⟩ := List.mem_map.1 hblock
    obtain ⟨root, hroot, -⟩ := layered.classes c hc
    refine ⟨List.ne_nil_of_mem (ShapeId.mem_sort.2 hroot), ?_, fun x hx y => ?_⟩
    · exact ShapeId.pairwise_sort ((List.nodup_flatten.1 layered.nodup).1 c hc)
    · rw [ShapeId.mem_sort, layered.mem_iff_mutual hc (ShapeId.mem_sort.1 hx), hmutual]

end Build

/-! ## A mailbox -/

namespace Mailbox

/-- The identifier of a shape of the mailbox. -/
def shape (name : String) : ShapeId := ⟨"mail", name, none⟩

/-- A folder holds letters in a list, and a letter can hold a folder; a letter has a colour, and an
archive holds folders by name. -/
def nodes : List Node :=
  [ ⟨shape "Archive", .record [⟨"folders", shape "Folders", .empty⟩], .empty⟩,
    ⟨shape "Folders", .map ⟨"key", shape "Text", .empty⟩ ⟨"value", shape "Folder", .empty⟩, .empty⟩,
    ⟨shape "Folder", .record [⟨"letters", shape "Letters", .empty⟩], .empty⟩,
    ⟨shape "Letters", .list ⟨"member", shape "Letter", .empty⟩, .empty⟩,
    ⟨shape "Letter", .union [⟨"inner", shape "Folder", .empty⟩, ⟨"flag", shape "Zinc", .empty⟩],
      .empty⟩,
    ⟨shape "Zinc", .enum [⟨"Pale", "pale"⟩], .empty⟩,
    ⟨shape "Text", .primitive .string, .empty⟩ ]

/-- The graph of the mailbox. -/
def graph : Graph := .ofNodesD nodes

/-- The mailbox, built. -/
def build : Build :=
  match Build.run graph {} with
  | .ok b => b
  | .error _ => default

end Mailbox

/-- A letter and its folder depend on each other and come next to each other, after what they depend
on and before what depends on them. -/
theorem mailbox_order_exact :
    Build.run Mailbox.graph {} = .ok Mailbox.build ∧
      components (Mailbox.build.table.declared.map Symbol.key)
        (Build.dependenciesIn Mailbox.build.table) =
        [[Mailbox.shape "Zinc"], [Mailbox.shape "Folder", Mailbox.shape "Letter"],
          [Mailbox.shape "Archive"]] ∧
      ∀ x y, Build.DependsOn Mailbox.build.table x y →
        y ∈ Build.declarationOrder Mailbox.build.table ∧
          ([y, x].Sublist (Build.declarationOrder Mailbox.build.table) ∨
            Build.Interdependent Mailbox.build.table x y) := by
  have hrun : Build.run Mailbox.graph {} = .ok Mailbox.build := by decide +kernel
  exact ⟨hrun, by decide +kernel,
    (Build.declarationOrder_exact (Graph.wellFormed_ofNodesD Mailbox.nodes) hrun).2.2.1⟩

end SchemaSymbols
