/-
  References lead to symbols, and have their names.

  A reference is made from the node it leads to, at a time when that shape need not have a symbol
  yet.  Two things come together at the end of a resolution.

  1. **Every reference leads to a symbol.**  A reference in a symbol leads to a shape that the
     symbol's own shape reaches (`Leads`), and what is reached has a symbol by then.  The symbol of
     a collection holds those of its elements, and these hold references too; so the proof is by
     induction on the kind of the symbol (`TableSound.leads`, on its depth).

  2. **It has the name of that symbol.**  The symbol of a declared type, an operation or a service
     gets its name and its namespace from the node as references do, though each kind of symbol is
     put together in its own way (`reference_of_leaf`, `TableSound.reference_eq`).

  Bindings copy the symbols of their targets, so their references are among those of the table
  (`Resolver.BoundAll.exists_target`).  `references_resolved` says both for all of them.
-/
import SchemaSymbols.Proofs.Resolution.Completeness
import SchemaSymbols.Proofs.Resolution.Dependencies

namespace SchemaSymbols

open Relation

/-! ## References in symbols -/

namespace SymbolKind

/-- The references in a kind of symbol: those of operations and services, and in collections those
in the symbols of the elements. -/
def refs : SymbolKind → List SymbolRef
  | list element kind _ => element.dependencies.toList ++ kind.refs
  | set element kind _ => element.dependencies.toList ++ kind.refs
  | map key keyKind value valueKind _ =>
    (key.dependencies.toList ++ keyKind.refs) ++ (value.dependencies.toList ++ valueKind.refs)
  | operation input output errors => input.toList ++ output.toList ++ errors
  | service operations => operations
  | _ => []

/-- How deep collections are nested in a kind of symbol. -/
def depth : SymbolKind → Nat
  | list _ kind _ => kind.depth + 1
  | set _ kind _ => kind.depth + 1
  | map _ keyKind _ valueKind _ => max keyKind.depth valueKind.depth + 1
  | _ => 0

end SymbolKind

/-- All references in a symbol. -/
def Symbol.refs (a : Symbol) : List SymbolRef := a.dependencies.toList ++ a.kind.refs

/-- Whether the symbols of a shape have a name of their own: those of primitives and collections are
called after their types. -/
def Shape.isNamed (s : Shape) : Bool := s.isDeclared || s.isOperation || s.isService

theorem Shape.isNamed_eq_false_of_isContainer {s : Shape} (h : s.isContainer = true) :
    s.isNamed = false := by
  cases s <;> first | rfl | cases h

variable {r : Resolver} {R : ShapeId → Prop} {s : Session} {t : SymbolTable} {n : Node}
  {id : ShapeId} {ref : SymbolRef}

namespace Resolver

/-- A reference leads from a shape to one that it reaches, and is made from its node. -/
def Leads (r : Resolver) (id : ShapeId) (ref : SymbolRef) : Prop :=
  r.graph.Reaches id ref.shape ∧ ∃ k, r.graph.get? ref.shape = some k ∧ ref = r.reference k

theorem Leads.head {x y : ShapeId} (h : r.Leads y ref) (hxy : r.graph.Refers x y) :
    r.Leads x ref :=
  ⟨.head hxy h.1, h.2⟩

/-- A link is the reference to the node it leads to. -/
theorem linked_eq_ok :
    r.linked id = .ok ref ↔ ∃ k, r.graph.get? id = some k ∧ ref = r.reference k := by
  rw [linked, bind_eq_ok]
  constructor
  · rintro ⟨k, hk, hret⟩
    cases hret
    exact ⟨k, Graph.get?_of_require hk, rfl⟩
  · rintro ⟨k, hk, rfl⟩
    exact ⟨k, Graph.require_of_get? hk, rfl⟩

/-! ## Leaves -/

/-- The references of an operation or service lead to its links. -/
theorem linked_of_leaf {leaf : Leaf} (h : r.leaf n = .ok leaf)
    (href : ref ∈ leaf.symbol.kind.refs) :
    ∃ link ∈ n.shape.links, r.linked link = .ok ref := by
  obtain ⟨id, shape, tags⟩ := n
  cases leafOf_of_leaf h with
  | operation hshape hinput houtput herrors =>
    cases hshape
    simp only [SymbolKind.refs, plainSymbol, List.mem_append, Option.mem_toList] at href
    simp only [Shape.links, List.mem_append, Option.mem_toList]
    rcases href with (hin | hout) | herror
    · obtain ⟨link, hlink, hlinked⟩ := exists_of_mem_option_mapM hinput hin
      exact ⟨link, Or.inl (Or.inl hlink), hlinked⟩
    · obtain ⟨link, hlink, hlinked⟩ := exists_of_mem_option_mapM houtput hout
      exact ⟨link, Or.inl (Or.inr hlink), hlinked⟩
    · obtain ⟨link, hlink, hlinked⟩ := exists_of_mem_mapM herrors herror
      exact ⟨link, Or.inr hlink, hlinked⟩
  | service hshape hlinked =>
    cases hshape
    exact exists_of_mem_mapM hlinked href
  | _ => cases href

/-- Named symbols have the name and the namespace that references to their nodes have. -/
theorem reference_of_leaf {leaf : Leaf} (h : r.leaf n = .ok leaf) (named : n.shape.isNamed = true) :
    leaf.symbol.reference = r.reference n := by
  obtain ⟨id, shape, tags⟩ := n
  cases leafOf_of_leaf h with
  | primitive hshape => cases hshape; cases named
  | record hshape => cases hshape; rfl
  | union hshape => cases hshape; rfl
  | enum hshape => cases hshape; rfl
  | operation hshape => cases hshape; rfl
  | service hshape => cases hshape; rfl

/-! ## Collections -/

/-- A reference in the kind of a collection is one in the symbol of an element, in which collections
are not nested so deep. -/
theorem exists_element_of_mem_refs {symbol : Symbol} {queued : List ShapeId}
    (h : r.collection t n = .ok (symbol, queued)) (href : ref ∈ symbol.kind.refs) :
    ∃ m ∈ n.shape.elements, ∃ a, t.get? m.target = some a ∧ ref ∈ a.refs ∧
      a.kind.depth < symbol.kind.depth := by
  obtain ⟨id, shape, tags⟩ := n
  cases collection_eq_ok.1 h with
  | @list m a _ hshape _ found used =>
    cases hshape
    subst used
    exact ⟨m, List.mem_cons_self, a, found, href, Nat.lt_succ_self _⟩
  | @set m a _ hshape _ found used =>
    cases hshape
    subst used
    exact ⟨m, List.mem_cons_self, a, found, href, Nat.lt_succ_self _⟩
  | @map key value a b _ _ hshape _ foundKey usedKey _ foundValue usedValue =>
    cases hshape
    subst usedKey usedValue
    rcases List.mem_append.1 href with href | href
    · exact ⟨key, List.mem_cons_self, a, foundKey, href, Nat.lt_succ_of_le (Nat.le_max_left _ _)⟩
    · exact ⟨value, List.mem_cons_of_mem _ List.mem_cons_self, b, foundValue, href,
        Nat.lt_succ_of_le (Nat.le_max_right _ _)⟩

end Resolver

/-! ## All symbols of a table -/

namespace TableSound

/-- What a type depends on can be reached from it. -/
theorem leads_of_mem_dependencies {a : Symbol} (h : TableSound r R t) (hget : t.get? id = some a)
    (href : ref ∈ a.dependencies) : r.Leads id ref := by
  obtain ⟨n, hn, declares⟩ := (h.symbols id a hget).2.declares
  obtain rfl := Graph.get?_id hn
  rw [declares.dependencies] at href
  split at href
  · obtain ⟨hreaches, -⟩ := Resolver.reaches_of_mem_dependencies hn href
    obtain ⟨k, hk, -, -, -, rfl⟩ := Resolver.mem_dependencies.1 href
    exact ⟨hreaches, k, hk, rfl⟩
  · exact absurd href List.not_mem_nil

/-- Every reference in a symbol of the table leads somewhere. -/
theorem leads {a : Symbol} (h : TableSound r R t) (hget : t.get? id = some a)
    (href : ref ∈ a.refs) : r.Leads id ref := by
  induction hdepth : a.kind.depth using Nat.strong_induction_on generalizing id a with
  | h depth ih =>
  subst hdepth
  rcases List.mem_append.1 href with hdependency | href
  · exact h.leads_of_mem_dependencies hget hdependency
  obtain ⟨n, hn, ⟨leaf, hleaf, rfl⟩ | ⟨queued, hbuilt⟩⟩ := (h.symbols id a hget).2
  · obtain ⟨link, hlink, hlinked⟩ := Resolver.linked_of_leaf hleaf href
    obtain ⟨k, hk, rfl⟩ := Resolver.linked_eq_ok.1 hlinked
    obtain rfl := Graph.get?_id hk
    obtain ⟨reference, hreference, htarget⟩ := Shape.exists_reference_of_mem_links hlink
    exact ⟨.single ⟨n, hn, reference, hreference, htarget⟩, k, hk, rfl⟩
  · -- the element has a symbol in the table itself
    obtain ⟨m, hm, b, hb, hrefs, hlt⟩ := Resolver.exists_element_of_mem_refs hbuilt href
    exact (ih _ hlt hb hrefs rfl).head (Graph.refers_of_mem_elements hn hm)

end TableSound

/-! ## After a resolution of everything -/

/-- A reference is resolved: its shape has a symbol, and if that symbol has a name of its own, the
reference is the one that the symbol itself gives. -/
def SymbolTable.Resolves (t : SymbolTable) (g : Graph) (ref : SymbolRef) : Prop :=
  ∃ k b, g.get? ref.shape = some k ∧ t.get? ref.shape = some b ∧
    (k.shape.isNamed = true → ref = b.reference)

/-- The symbol of a named shape gives the reference that its node gives. -/
theorem TableSound.reference_eq {k : Node} {b : Symbol} (h : TableSound r R t)
    (node : r.graph.get? id = some k) (hget : t.get? id = some b)
    (named : k.shape.isNamed = true) : b.reference = r.reference k := by
  obtain ⟨n, hn, ⟨leaf, hleaf, rfl⟩ | ⟨queued, hbuilt⟩⟩ := (h.symbols id b hget).2
  · obtain rfl : n = k := Option.some.inj (hn.symm.trans node)
    exact Resolver.reference_of_leaf hleaf named
  · obtain rfl : n = k := Option.some.inj (hn.symm.trans node)
    have hcontainer := (Resolver.built_of_collection hbuilt).isContainer
    rw [Shape.isNamed_eq_false_of_isContainer hcontainer] at named
    cases named

/-- After a resolution of all roots, every reference in a symbol is resolved. -/
theorem resolves_of_resolveAll (wf : r.graph.WellFormed) (hrun : r.resolveAll {} = .ok () s)
    {a : Symbol} (hget : s.table.get? id = some a) (href : ref ∈ a.refs) :
    s.table.Resolves r.graph ref := by
  have closed := wf.closed_exposed
  have ends := resolveAll_ends wf closed .new ⟨rfl, rfl⟩ fun id hid => (Resolver.mem_roots wf).1 hid
  have table := ((ends.of_ok hrun).1.moves.sound closed .new).table
  obtain ⟨hreaches, k, hk, hreference⟩ := table.leads hget href
  have hexposed := closed.of_reaches hreaches (table.symbols id a hget).1
  obtain ⟨b, hb⟩ := SymbolTable.contains_iff.1 (((resolveAll_exact wf hrun _).1).2 hexposed)
  exact ⟨k, b, hk, hb, fun named => hreference.trans (table.reference_eq hk hb named).symm⟩

/-- No use of a symbol changes the references in it. -/
theorem Resolver.refs_memberSymbol (r : Resolver) (owner : Node) (m : Member) (target : Symbol)
    (boxed : Bool) : (r.memberSymbol owner m target boxed).refs = target.refs := by
  rw [memberSymbol]
  split <;> rfl

theorem Resolver.BoundAll.exists_target {bindings : List Binding} {b : Binding}
    (h : r.BoundAll t id bindings) (hb : b ∈ bindings) :
    ∃ target a, t.get? target = some a ∧ b.symbol.refs = a.refs := by
  obtain ⟨owner, -, -, -, hall⟩ := h
  obtain ⟨⟨m, name⟩, -, target, a, boxed, -, -, ha, -, rfl⟩ := exists_of_forall₂ hall.flip hb
  exact ⟨m.target, a, ha, r.refs_memberSymbol owner m a boxed⟩

/-- References never dangle, and never drift from what they refer to.  After a resolution of
    everything has ended well, every reference in a symbol leads to a shape with a symbol: the
    dependencies of a declared type, the input, the output and the errors of an operation, the
    operations of a service, and what the symbols of elements and members have of these.  If the
    shape is a record, a union, an enumeration, an operation or a service, the reference is the one
    that the symbol there gives, with the same namespace and the same name. -/
theorem references_resolved (wf : r.graph.WellFormed) (hrun : r.resolveAll {} = .ok () s) :
    (∀ id a, s.table.get? id = some a → ∀ ref ∈ a.refs, s.table.Resolves r.graph ref) ∧
    ∀ id bindings, s.table.members? id = some bindings → ∀ b ∈ bindings, ∀ ref ∈ b.symbol.refs,
      s.table.Resolves r.graph ref := by
  constructor
  · intro id a hget ref href
    exact resolves_of_resolveAll wf hrun hget href
  · intro id bindings hmembers b hb ref href
    have closed : r.graph.Closed fun _ => True := fun _ _ _ _ => trivial
    have ends := resolveAll_ends wf closed .new ⟨rfl, rfl⟩ fun _ _ => trivial
    have table := ((ends.of_ok hrun).1.moves.sound closed .new).table
    obtain ⟨target, a, ha, hrefs⟩ := (table.members id bindings hmembers).2.exists_target hb
    rw [hrefs] at href
    exact resolves_of_resolveAll wf hrun ha href

/-! ## A ferry -/

namespace Ferry

/-- The identifier of a shape of the ferry. -/
def shape (name : String) : ShapeId := ⟨"ferry", name, none⟩

/-- Tags of what belongs to the ferry. -/
def aboard : TagSet := Sorted.ofList [.nestedUnder (shape "ferry")]

/-- An operation that is called after a keyword takes a load and answers with a text, or with a
storm.  A load has crates in a list, and each of them is of one kind and has a load inside. -/
def nodes : List Node :=
  [ ⟨shape "ferry", .service [shape "import"], .empty⟩,
    ⟨shape "import", .operation (some (shape "load")) (some (shape "Text")) [shape "storm"],
      aboard⟩,
    ⟨shape "load", .record [⟨"crates", shape "Crates", .empty⟩], aboard⟩,
    ⟨shape "Crates", .list ⟨"member", shape "crate", .empty⟩, .empty⟩,
    ⟨shape "crate", .union [⟨"kind", shape "Protocol", .empty⟩, ⟨"inner", shape "load", .empty⟩],
      aboard⟩,
    ⟨shape "Protocol", .enum [⟨"dry", "d"⟩], .empty⟩,
    ⟨shape "storm", .record [], .empty⟩,
    ⟨shape "Text", .primitive .string, .empty⟩ ]

/-- The ferry, seen through a target language. -/
def resolver : Resolver := .new (.ofNodesD nodes) .swift (NullabilityMode.policy .structural) {}

/-- The table when everything is resolved. -/
def table : SymbolTable := (resolver.resolveAll.leaves {}).table

/-- What the symbol of a shape is called, and the references in it, by namespace and name. -/
def entry (name : String) : Option (String × List (List String × String)) :=
  (table.get? (shape name)).map fun a =>
    (a.displayName, a.refs.map fun ref => (ref.scope, ref.name))

end Ferry

/-- The list refers to what its crates depend on.  The symbol of the text is called after its type,
and not as the operation refers to it; all others are called as they are referred to. -/
theorem ferry_references_resolved :
    ["ferry", "import", "Crates", "crate", "Text"].map Ferry.entry =
      [ some ("Ferry", [(["Models", "Ferry"], "`import`")]),
        some ("`import`",
          [(["Models", "Ferry"], "Load"), (["Models"], "Text"), (["Models"], "Storm")]),
        some ("[Crate]", [(["Models"], "`Protocol`"), (["Models", "Ferry"], "Load")]),
        some ("Crate", [(["Models"], "`Protocol`"), (["Models", "Ferry"], "Load")]),
        some ("String", []) ] ∧
    ∀ id a, Ferry.table.get? id = some a → ∀ ref ∈ a.refs,
      Ferry.table.Resolves Ferry.resolver.graph ref := by
  obtain ⟨_, hrun⟩ := ResolveM.exists_ok_leaves (x := Ferry.resolver.resolveAll) (s := {})
    (by decide +kernel)
  exact ⟨by decide +kernel, (references_resolved (Graph.wellFormed_ofNodesD Ferry.nodes) hrun).1⟩

end SchemaSymbols
