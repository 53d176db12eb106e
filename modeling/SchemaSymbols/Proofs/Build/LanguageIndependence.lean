/-
  The structure of a build does not depend on the language.

  1. **One graph.**  The phases before the resolution do not see the language at all, so two builds
     of one graph that name made records alike resolve one graph (`Phases.graph_eq`).

  2. **Tables that look alike.**  The two resolutions go in lockstep and leave tables that look
     alike.  What else a table holds is explained by its nodes: which types are declared, what they
     conform to, and what they depend on (`TableSound.declaredAlike`).

  3. **Dependencies** are sorted by references that contain names of the language, but no shape has
     two references, so it is the shapes that sort them (`shapes_dependencies_eq`).

  So everything in a build that is computed from these is the same (`SameStructure`), the order of
  declarations included.
-/
import SchemaSymbols.Proofs.Build.Declarations
import SchemaSymbols.Proofs.Resolution.Lockstep

namespace SchemaSymbols

open ResolveM

variable {r r' : Resolver} {R R' : ShapeId → Prop} {t u : SymbolTable} {n : Node} {x y : ShapeId}

/-! ## Dependencies -/

namespace Resolver

/-- The shapes that a type depends on are the same in every language, and listed alike. -/
theorem shapes_dependencies_eq (same : r.graph = r'.graph) (n : Node) :
    (r.dependencies n).toList.map SymbolRef.shape =
      (r'.dependencies n).toList.map SymbolRef.shape := by
  refine Sorted.eq_of_mem_iff (r.pairwise_shapes_dependencies n)
    (r'.pairwise_shapes_dependencies n) fun x => ?_
  rw [mem_shapes_dependencies, mem_shapes_dependencies, same]

end Resolver

/-! ## Tables that look alike -/

/-- Two symbols are both declared or not, depend on the same shapes and conform to the same. -/
structure Symbol.DeclaredAlike (a b : Symbol) : Prop where
  declared : a.isDeclared = b.isDeclared
  dependencies : a.dependencies.toList.map SymbolRef.shape =
    b.dependencies.toList.map SymbolRef.shape
  conformances : a.conformances = b.conformances

/-- In tables of one graph, the symbols of a shape are declared alike. -/
theorem TableSound.declaredAlike (ht : TableSound r R t) (hu : TableSound r' R' u)
    (same : r.graph = r'.graph) {a b : Symbol} (ha : t.get? x = some a) (hb : u.get? x = some b) :
    a.DeclaredAlike b := by
  obtain ⟨n, hn, declares⟩ := (ht.symbols x a ha).2.declares
  obtain ⟨n', hn', declares'⟩ := (hu.symbols x b hb).2.declares
  rw [same, hn'] at hn
  cases hn
  refine ⟨declares.declared.trans declares'.declared.symm, ?_,
    declares.conformances.trans declares'.conformances.symm⟩
  rw [declares.dependencies, declares'.dependencies]
  split
  · exact Resolver.shapes_dependencies_eq same n
  · rfl

namespace SymbolTable

/-- The symbols of two tables are declared alike, shape by shape. -/
def DeclaredAlike (t u : SymbolTable) : Prop :=
  ∀ id, Option.Rel Symbol.DeclaredAlike (t.get? id) (u.get? id)

/-- Sound tables of one graph that look alike declare alike. -/
theorem Alike.declaredAlike (alike : t.Alike u) (same : r.graph = r'.graph) (ht : TableSound r R t)
    (hu : TableSound r' R' u) : t.DeclaredAlike u := by
  intro id
  rcases alike.cases_get? id with ⟨ha, hb⟩ | ⟨a, b, ha, hb⟩
  · rw [ha, hb]
    exact .none
  · rw [ha, hb]
    exact .some (ht.declaredAlike hu same ha hb)

namespace DeclaredAlike

theorem any_isDeclared (h : t.DeclaredAlike u) (id : ShapeId) :
    (t.get? id).any Symbol.isDeclared = (u.get? id).any Symbol.isDeclared := by
  have hrel := h id
  generalize t.get? id = a, u.get? id = b at hrel
  cases hrel with
  | none => rfl
  | some hsame => exact hsame.declared

/-- Tables that declare alike list the declared types in the same order. -/
theorem declared_eq (h : t.DeclaredAlike u) :
    t.declared.map Symbol.key = u.declared.map Symbol.key := by
  have hsorted : ∀ v : SymbolTable,
      (v.declared.map Symbol.key).Pairwise fun x y => compare x y = .lt := fun v =>
    List.pairwise_map.2 (v.symbols.sorted.filter _)
  refine Sorted.eq_of_mem_iff (hsorted t) (hsorted u) fun id => ?_
  rw [Build.mem_declared_keys, Build.mem_declared_keys, Build.IsDeclared, Build.IsDeclared,
    ← Option.any_eq_true, ← Option.any_eq_true, h.any_isDeclared]

/-- They make them depend on each other in the same way. -/
theorem dependenciesIn_eq (h : t.DeclaredAlike u) :
    Build.dependenciesIn t = Build.dependenciesIn u := by
  funext id
  have hrel := h id
  rw [Build.dependenciesIn, Build.dependenciesIn]
  simp only [h.any_isDeclared]
  generalize t.get? id = a, u.get? id = b at hrel
  cases hrel with
  | none => rfl
  | some hsame => simp only [hsame.dependencies]

end DeclaredAlike

end SymbolTable

/-! ## Builds -/

namespace Build

variable {g normalized normalized' : Graph} {settings settings' : Settings} {b c : Build}
  {session session' : Session}

/-- Two builds have one structure, and differ at most in what things are called. -/
structure SameStructure (b c : Build) : Prop where
  graph : b.graph = c.graph
  /-- The same shapes have symbols. -/
  symbols : b.table.symbols.keys = c.table.symbols.keys
  /-- The members of the same records and unions are bound. -/
  bound : b.table.bindings.keys = c.table.bindings.keys
  /-- They are the same members, in the same order, boxed or not. -/
  marks : ∀ owner, (b.table.members? owner).map (List.map Binding.mark) =
    (c.table.members? owner).map (List.map Binding.mark)
  boxed : b.table.boxedMembers = c.table.boxedMembers
  declared : b.table.declared.map Symbol.key = c.table.declared.map Symbol.key
  /-- The types depend on the same shapes and conform to the same. -/
  declarations : ∀ id x y, b.table.get? id = some x → c.table.get? id = some y → x.DeclaredAlike y
  cycles : b.cycles = c.cycles
  order : declarationOrder b.table = declarationOrder c.table

/-- The phases before the resolution know nothing of a language. -/
theorem Phases.graph_eq (phases : Phases g settings b normalized session)
    (phases' : Phases g settings' c normalized' session')
    (naming : settings.synthetic = settings'.synthetic) : b.graph = c.graph := by
  have hnormalized := phases.normalization
  rw [naming, phases'.normalization] at hnormalized
  obtain ⟨rfl, -⟩ := Prod.mk.inj (Except.ok.inj hnormalized)
  have hclosed := phases.closure
  rw [phases'.closure] at hclosed
  exact (Prod.mk.inj (Except.ok.inj hclosed)).1.symm

/-- If a graph can be built for two languages, and records made for operations are named alike, both
builds have one structure. -/
theorem sameStructure_of_run (wf : g.WellFormed) (naming : settings.synthetic = settings'.synthetic)
    (h : run g settings = .ok b) (h' : run g settings' = .ok c) : SameStructure b c := by
  obtain ⟨normalized, session, phases, concluded⟩ := run_eq_ok.1 h
  obtain ⟨normalized', session', phases', concluded'⟩ := run_eq_ok.1 h'
  have hgraph := phases.graph_eq phases' naming
  have same : (settings.resolver b.graph).graph = (settings'.resolver c.graph).graph := hgraph
  have hsessions : session.Alike session' := Resolver.resolveAll_together same (.refl {})
    () session () session' phases.resolution phases'.resolution
  have alike : b.table.Alike c.table := by
    rw [phases.table, phases'.table]
    exact hsessions.table
  have sound := (phases.table_sound wf).1
  have sound' := (phases'.table_sound wf).1
  have declaredAlike := alike.declaredAlike same sound sound'
  exact {
    graph := hgraph
    symbols := Sorted.keys_eq alike.known
    bound := Sorted.keys_eq alike.isBound
    marks := alike.marks
    boxed := alike.boxedMembers_eq
    declared := declaredAlike.declared_eq
    declarations := fun _ _ _ hx hy => sound.declaredAlike sound' same hx hy
    cycles := by rw [concluded.cycles, concluded'.cycles, hgraph]
    order := by
      rw [declarationOrder, declarationOrder, declaredAlike.declared_eq,
        declaredAlike.dependenciesIn_eq] }

end Build

/-! ## An orchard -/

namespace Orchard

/-- The identifier of a shape of the orchard. -/
def shape (name : String) : ShapeId := ⟨"orchard", name, none⟩

/-- A tree holds the tree that it is grafted on, and a set of fruits. -/
def nodes : List Node :=
  [ ⟨shape "Tree", .record [⟨"type", shape "Kind", .empty⟩, ⟨"stock", shape "Tree", .empty⟩,
      ⟨"fruits", shape "Fruits", .empty⟩], .empty⟩,
    ⟨shape "Fruits", .set ⟨"member", shape "fruit_id", .empty⟩, .empty⟩,
    ⟨shape "fruit_id", .union [⟨"kind", shape "Kind", .empty⟩], .empty⟩,
    ⟨shape "Kind", .enum [⟨"ripe", "r"⟩], .empty⟩ ]

/-- The graph of the orchard. -/
def graph : Graph := .ofNodesD nodes

/-- The orchard is built for Rust, where one of its types has a reserved name. -/
def forRust : Settings where
  target := { language := .rust, rootNamespace := "crate.orchard", modelsDir := "src" }
  symbols := {
    nullability := .clientOptional, reservedWords := ["Tree"], fallbackVariant := "ripe" }
  naming := { acronyms := .empty }

/-- A build of the orchard. -/
def build (settings : Settings) : Build :=
  match Build.run graph settings with
  | .ok b => b
  | .error _ => default

end Orchard

/-- An orchard in two languages: the names of the types differ, the structure does not. -/
theorem orchard_sameStructure :
    Build.run Orchard.graph {} = .ok (Orchard.build {}) ∧
      Build.run Orchard.graph Orchard.forRust = .ok (Orchard.build Orchard.forRust) ∧
      (Orchard.build {}).table.declared.map (fun s => s.displayName) = ["Kind", "Tree", "FruitID"] ∧
      (Orchard.build Orchard.forRust).table.declared.map (fun s => s.displayName) =
        ["Kind", "r#Tree", "FruitId"] ∧
      Build.SameStructure (Orchard.build {}) (Orchard.build Orchard.forRust) := by
  obtain ⟨hswift, hrust, hnames⟩ :
      Build.run Orchard.graph {} = .ok (Orchard.build {}) ∧
        Build.run Orchard.graph Orchard.forRust = .ok (Orchard.build Orchard.forRust) ∧
        (Orchard.build {}).table.declared.map (fun s => s.displayName) =
          ["Kind", "Tree", "FruitID"] ∧
        (Orchard.build Orchard.forRust).table.declared.map (fun s => s.displayName) =
          ["Kind", "r#Tree", "FruitId"] := by
    decide +kernel
  have naming : ({} : Settings).synthetic = Orchard.forRust.synthetic := rfl
  exact ⟨hswift, hrust, hnames.1, hnames.2, Build.sameStructure_of_run
    (Graph.wellFormed_ofNodesD Orchard.nodes) naming hswift hrust⟩

end SchemaSymbols
