/-
  What a declared type depends on, exactly.

  The search for dependencies starts at the targets of the members and goes on through collections,
  which may hold each other or be met on several ways.

  1. **What edges lead to.**  In a well-formed graph the search lists what element edges lead to
     from the members (`WellFormed.mem_memberReach`), and nothing stops it before that: as long as
     no reference dangles, every round sees a shape of the graph for the first time.  More rounds
     find nothing more.

  2. **The references of a type** are those to the declared types that were listed.  What is
     declared ends its way, since only collections have elements, and the type itself is left out at
     the end (`mem_dependencies`).  The set is sorted by references, that is, by shapes first; no
     shape has two of them, so each shape is in it once, and in order
     (`pairwise_shapes_dependencies`).

  3. **What symbols say.**  The symbol of a declared type has these references, and other symbols
     have none, whichever way the symbol was made (`Declares`, `declares_of_leaf`,
     `declares_of_collection`).

  `dependencies_exact` puts them together for the search, for symbols in any table, and for
  canonical symbols.
-/
import SchemaSymbols.Proofs.Resolution.Canonical

namespace SchemaSymbols

open Relation

variable {g : Graph} {p : Profile} {o : ResolverOptions} {policy : NullabilityPolicy}
  {r : Resolver} {t : SymbolTable} {n : Node} {x y : ShapeId}

/-! ## What edges lead to -/

/-- Whether edges of a kind lead from a collection to what it holds. -/
def EdgeKind.isElement : EdgeKind → Bool
  | element => true
  | mapKey => true
  | mapValue => true
  | _ => false

namespace Shape

/-- The targets of members are the member references of a shape. -/
theorem mem_targets_members {s : Shape} :
    y ∈ s.members.map Member.target ↔ (.member, y) ∈ s.references := by
  cases s <;> simp [members, references]

/-- What a collection holds is what its references of these kinds lead to. -/
theorem map_target_elements (s : Shape) : s.elements.map Member.target =
    (s.references.filter fun r => r.1.isElement).map Prod.snd := by
  cases s <;> simp [elements, references, EdgeKind.isElement, List.filter_map, Function.comp_def]

/-- The targets of elements are its element references. -/
theorem mem_targets_elements {s : Shape} :
    y ∈ s.elements.map Member.target ↔
      ∃ kind : EdgeKind, kind.isElement = true ∧ (kind, y) ∈ s.references := by
  rw [map_target_elements, List.mem_map]
  constructor
  · rintro ⟨⟨kind, _⟩, h, rfl⟩
    obtain ⟨hr, hkind⟩ := List.mem_filter.1 h
    exact ⟨kind, hkind, hr⟩
  · rintro ⟨kind, hkind, hr⟩
    exact ⟨(kind, y), List.mem_filter.2 ⟨hr, hkind⟩, rfl⟩

end Shape

namespace Graph

/-- The collection `x` has `y` for its element, its key or its value. -/
def Collects (g : Graph) (x y : ShapeId) : Prop :=
  ∃ kind : EdgeKind, kind.isElement = true ∧ ⟨x, kind, y⟩ ∈ g.edges

/-- Where the search goes on from a shape is what its elements lead to. -/
theorem WellFormed.mem_elementTargets (wf : g.WellFormed) :
    y ∈ Resolver.elementTargets g x ↔ g.Collects x y := by
  simp only [Collects, wf.mem_edges]
  rw [Resolver.elementTargets]
  cases hget : g.get? x with
  | none => simp
  | some n => simp only [Shape.mem_targets_elements, Option.some.injEq, exists_eq_left']

/-- The search for dependencies lists what collections lead to from the members. -/
theorem WellFormed.mem_memberReach (wf : g.WellFormed) (node : g.get? n.id = some n) :
    y ∈ Resolver.memberReach g n ↔
      ∃ first, ⟨n.id, .member, first⟩ ∈ g.edges ∧ ReflTransGen g.Collects first y := by
  have hsteps : (fun x z => z ∈ Resolver.elementTargets g x) = g.Collects := by
    funext x z
    exact propext wf.mem_elementTargets
  have hmember : ∀ first, ⟨n.id, .member, first⟩ ∈ g.edges ↔
      ∃ m ∈ n.shape.members, m.target = first := by
    intro first
    rw [wf.mem_edges, ← List.mem_map, Shape.mem_targets_members]
    simp only [node, Option.some.injEq, exists_eq_left']
  rw [Resolver.mem_memberReach wf node, hsteps]
  constructor
  · rintro ⟨m, hm, hreach⟩
    exact ⟨m.target, (hmember _).2 ⟨m, hm, rfl⟩, hreach⟩
  · rintro ⟨first, hfirst, hreach⟩
    obtain ⟨m, hm, rfl⟩ := (hmember first).1 hfirst
    exact ⟨m, hm, hreach⟩

end Graph

/-! ## The references of a type -/

theorem SymbolRef.shape_lt_or_eq {a b : SymbolRef} (h : compare a b = .lt) :
    compare a.shape b.shape = .lt ∨ a.shape = b.shape := by
  change SymbolRef.order a b = .lt at h
  rw [SymbolRef.order, compareLex, Ordering.then_eq_lt] at h
  exact h.imp_right fun h => Std.compare_eq_iff_eq.1 h.1

namespace Resolver

/-- A type refers to the declared types, other than itself, that its members lead to directly or
through collections. -/
theorem mem_dependencies {ref : SymbolRef} : ref ∈ r.dependencies n ↔
    ∃ k, r.graph.get? k.id = some k ∧ k.id ∈ memberReach r.graph n ∧ k.shape.isDeclared = true ∧
      k.id ≠ n.id ∧ r.reference k = ref := by
  rw [dependencies, Sorted.mem_ofList, List.mem_map]
  simp only [List.mem_filter, List.mem_filterMap, Bool.and_eq_true, bne_iff_ne]
  constructor
  · rintro ⟨k, ⟨⟨id, hid, hget⟩, hdeclared, hne⟩, rfl⟩
    obtain rfl := Graph.get?_id hget
    exact ⟨k, hget, hid, hdeclared, hne, rfl⟩
  · rintro ⟨k, hget, hid, hdeclared, hne, rfl⟩
    exact ⟨k, ⟨⟨k.id, hid, hget⟩, hdeclared, hne⟩, rfl⟩

/-- Dependencies are declared types that references lead to. -/
theorem reaches_of_mem_dependencies {ref : SymbolRef} (node : r.graph.get? n.id = some n)
    (h : ref ∈ r.dependencies n) :
    r.graph.Reaches n.id ref.shape ∧
      ∃ k, r.graph.get? ref.shape = some k ∧ k.shape.isDeclared = true := by
  obtain ⟨k, hget, hid, hdeclared, -, rfl⟩ := mem_dependencies.1 h
  refine ⟨?_, k, hget, hdeclared⟩
  -- a member leads to the first shape, and elements lead on from there
  obtain ⟨seed, hseed, hreach⟩ := reached_of_mem_levelsFrom hid
  rw [Sorted.mem_ofList, List.mem_map] at hseed
  obtain ⟨m, hm, rfl⟩ := hseed
  exact .head (Graph.refers_of_mem_members node hm)
    (ReflTransGen.mono (fun _ _ => refers_of_mem_elementTargets) _ _ hreach)

/-- A type has one reference to each shape that it depends on. -/
theorem eq_of_mem_dependencies {a b : SymbolRef} (ha : a ∈ r.dependencies n)
    (hb : b ∈ r.dependencies n) (h : a.shape = b.shape) : a = b := by
  obtain ⟨k, hk, -, -, -, rfl⟩ := mem_dependencies.1 ha
  obtain ⟨l, hl, -, -, -, rfl⟩ := mem_dependencies.1 hb
  have hid : k.id = l.id := h
  rw [hid, hl] at hk
  cases hk
  rfl

/-- The shapes of these references are in order, each once. -/
theorem pairwise_shapes_dependencies (r : Resolver) (n : Node) :
    ((r.dependencies n).toList.map SymbolRef.shape).Pairwise fun x y => compare x y = .lt := by
  rw [List.pairwise_map]
  refine (r.dependencies n).sorted.imp_of_mem fun {a b} ha hb hlt => ?_
  refine (SymbolRef.shape_lt_or_eq hlt).resolve_right fun hsame => ?_
  obtain rfl := eq_of_mem_dependencies ha hb hsame
  have hself : compare a a = .eq := Std.ReflCmp.compare_self
  exact nomatch hself.symm.trans hlt

/-- The shapes that a type refers to are those of declared types that its members lead to. -/
theorem mem_shapes_dependencies : x ∈ (r.dependencies n).toList.map SymbolRef.shape ↔
    ∃ k, r.graph.get? k.id = some k ∧ k.id ∈ memberReach r.graph n ∧ k.shape.isDeclared = true ∧
      k.id ≠ n.id ∧ k.id = x := by
  rw [List.mem_map]
  constructor
  · rintro ⟨ref, href, rfl⟩
    obtain ⟨k, hk, hreach, hdeclared, hne, rfl⟩ := mem_dependencies.1 href
    exact ⟨k, hk, hreach, hdeclared, hne, rfl⟩
  · rintro ⟨k, hk, hreach, hdeclared, hne, rfl⟩
    exact ⟨r.reference k, mem_dependencies.2 ⟨k, hk, hreach, hdeclared, hne, rfl⟩, rfl⟩

/-- An enumeration has no members. -/
theorem dependencies_of_isEnum (r : Resolver) (h : n.shape.isEnum = true) :
    r.dependencies n = .empty := by
  have hnone : memberReach r.graph n = [] := by
    obtain ⟨id, shape, tags⟩ := n
    cases shape with
    | enum values => rfl
    | _ => cases h
  rw [dependencies, hnone]
  rfl

/-! ## What symbols say -/

/-- What a symbol says about the declaration of its node: it has one if its shape is declared, and
then it depends on what members lead to and conforms to what the tags ask for. -/
structure Declares (r : Resolver) (n : Node) (symbol : Symbol) : Prop where
  declared : symbol.isDeclared = n.shape.isDeclared
  dependencies : symbol.dependencies = if n.shape.isDeclared then r.dependencies n else .empty
  conformances : symbol.conformances = if n.shape.isDeclared then conformances n else []

/-- The symbol of a leaf says what the leaf declares. -/
theorem declares_of_leaf {leaf : Leaf} (h : r.leaf n = .ok leaf) : r.Declares n leaf.symbol := by
  obtain ⟨id, shape, tags⟩ := n
  cases leafOf_of_leaf h with
  | primitive hshape => cases hshape; exact ⟨rfl, rfl, rfl⟩
  | record hshape => cases hshape; exact ⟨rfl, rfl, rfl⟩
  | union hshape => cases hshape; exact ⟨rfl, rfl, rfl⟩
  | enum hshape => cases hshape; exact ⟨rfl, rfl, rfl⟩
  | operation hshape => cases hshape; exact ⟨rfl, rfl, rfl⟩
  | service hshape => cases hshape; exact ⟨rfl, rfl, rfl⟩

/-- The symbol of a collection declares nothing and depends on nothing. -/
theorem declares_of_collection {symbol : Symbol} {queued : List ShapeId}
    (h : r.collection t n = .ok (symbol, queued)) : r.Declares n symbol := by
  obtain ⟨id, shape, tags⟩ := n
  cases collection_eq_ok.1 h with
  | list hshape => cases hshape; exact ⟨rfl, rfl, rfl⟩
  | set hshape => cases hshape; exact ⟨rfl, rfl, rfl⟩
  | map hshape => cases hshape; exact ⟨rfl, rfl, rfl⟩

/-- A symbol that is explained by its node says what the node declares. -/
theorem Explains.declares {symbol : Symbol} (h : r.Explains t x symbol) :
    ∃ n, r.graph.get? x = some n ∧ r.Declares n symbol := by
  obtain ⟨n, hn, ⟨leaf, hleaf, rfl⟩ | ⟨queued, hbuilt⟩⟩ := h
  · exact ⟨n, hn, declares_of_leaf hleaf⟩
  · exact ⟨n, hn, declares_of_collection hbuilt⟩

end Resolver

/-- The symbol of a declared type depends on what the members of its node lead to. -/
theorem Graph.dependencies_of_canonical {a : Symbol} (policy : NullabilityPolicy)
    (node : g.get? n.id = some n) (declared : n.shape.isDeclared = true)
    (h : g.canonical p o n.id = some a) :
    a.dependencies = (Resolver.new g p policy o).dependencies n := by
  obtain ⟨k, hk, hcases⟩ := g.leaf_or_collection_of_canonical policy h
  obtain rfl : n = k := Option.some.inj (node.symm.trans hk)
  rcases hcases with ⟨leaf, hleaf, rfl⟩ | ⟨hcontainer, -, -⟩
  · rw [(Resolver.declares_of_leaf hleaf).dependencies, if_pos declared]
  · rw [Shape.isDeclared_eq_false_of_isContainer hcontainer] at declared
    cases declared

/-- Dependencies are exact.  In a graph without dangling references the search for what a record or
    union depends on comes to an end by itself, whatever collections hold each other; and it finds
    the records, unions and enumerations, other than the type itself, that edges lead to: one to a
    member, and then any number of edges to an element, a key or a value.  Each is found once.  An
    enumeration depends on nothing.  After any calls these are the dependencies in the symbols. -/
theorem dependencies_exact (g : Graph) (p : Profile) (policy : NullabilityPolicy)
    (o : ResolverOptions) (n : Node) (wf : g.WellFormed) (node : g.get? n.id = some n) :
    let r := Resolver.new g p policy o
    (n.shape.isAggregate = true →
      (∀ more, let seeds : SortedSet ShapeId := Sorted.ofList (n.shape.members.map Member.target)
        levelsFrom (Resolver.elementTargets g) (g.size + 1 + more) seeds seeds =
          g.levels (Resolver.elementTargets g) seeds) ∧
      ((r.dependencies n).toList.map SymbolRef.shape).Nodup ∧
      ∀ id, id ∈ (r.dependencies n).toList.map SymbolRef.shape ↔
        id ≠ n.id ∧ (∃ k, g.get? id = some k ∧ k.shape.isDeclared = true) ∧
          ∃ first, ⟨n.id, .member, first⟩ ∈ g.edges ∧ ReflTransGen g.Collects first id) ∧
    (n.shape.isEnum = true → r.dependencies n = .empty) ∧
    ∀ calls a, (r.after calls).table.get? n.id = some a → n.shape.isDeclared = true →
      a.dependencies = r.dependencies n := by
  intro r
  refine ⟨fun _ => ⟨?_, ?_, ?_⟩, ?_, ?_⟩
  · intro more
    exact Graph.levelsFrom_eq_levels (Resolver.contains_of_mem_targets wf node)
      (Resolver.contains_of_mem_elementTargets wf) more
  · exact Sorted.nodup_of_pairwise_lt (r.pairwise_shapes_dependencies n)
  · intro id
    rw [Resolver.mem_shapes_dependencies, ← wf.mem_memberReach node]
    constructor
    · rintro ⟨k, hk, hreach, hdeclared, hne, rfl⟩
      exact ⟨hne, ⟨k, hk, hdeclared⟩, hreach⟩
    · rintro ⟨hne, ⟨k, hk, hdeclared⟩, hreach⟩
      obtain rfl := Graph.get?_id hk
      exact ⟨k, hk, hreach, hdeclared, hne, rfl⟩
  · exact Resolver.dependencies_of_isEnum r
  · intro calls a hget hdeclared
    exact Graph.dependencies_of_canonical policy node hdeclared
      ((canonical_after rfl calls).canonical hget)

/-! ## A jukebox -/

namespace Jukebox

/-- The identifier of a shape of the jukebox. -/
def shape (name : String) : ShapeId := ⟨"jukebox", name, none⟩

/-- An album has its tracks, twice and in lists of lists, an index that holds itself, and other
albums like it. -/
def album : Node where
  id := shape "Album"
  shape := .record
    [ ⟨"sides", shape "Sides", .empty⟩, ⟨"bonus", shape "Tracks", .empty⟩,
      ⟨"index", shape "Index", .empty⟩, ⟨"similar", shape "Albums", .empty⟩ ]
  tags := .empty

/-- Behind a track there is an artist, whom an album does not lead to. -/
def nodes : List Node :=
  [ album,
    ⟨shape "Albums", .set ⟨"member", shape "Album", .empty⟩, .empty⟩,
    ⟨shape "Sides", .list ⟨"member", shape "Tracks", .empty⟩, .empty⟩,
    ⟨shape "Tracks", .list ⟨"member", shape "Track", .empty⟩, .empty⟩,
    ⟨shape "Track", .record [⟨"by", shape "Artist", .empty⟩], .empty⟩,
    ⟨shape "Artist", .record [], .empty⟩,
    ⟨shape "Index", .map ⟨"key", shape "Genre", .empty⟩ ⟨"value", shape "Index", .empty⟩, .empty⟩,
    ⟨shape "Genre", .enum [⟨"Folk", "f"⟩], .empty⟩ ]

/-- The graph of the jukebox. -/
def graph : Graph := .ofNodesD nodes

/-- The jukebox, seen through a target language. -/
def resolver : Resolver := .new graph .swift (NullabilityMode.policy .structural) {}

/-- What an album depends on. -/
def dependencies : List ShapeId := (resolver.dependencies album).toList.map SymbolRef.shape

end Jukebox

/-- The index holds itself, so albums cannot be resolved; but what they depend on is known, and is
in the symbol that the failed resolution left. -/
theorem jukebox_dependencies_exact :
    (Jukebox.resolver.call (.shape Jukebox.album.id)).endsWell {} = false ∧
    Jukebox.dependencies = [Jukebox.shape "Genre", Jukebox.shape "Track"] ∧
    Jukebox.dependencies.Nodup ∧
    (∃ first, ⟨Jukebox.album.id, .member, first⟩ ∈ Jukebox.graph.edges ∧
      ReflTransGen Jukebox.graph.Collects first (Jukebox.shape "Track")) ∧
    (¬ ∃ first, ⟨Jukebox.album.id, .member, first⟩ ∈ Jukebox.graph.edges ∧
      ReflTransGen Jukebox.graph.Collects first (Jukebox.shape "Artist")) ∧
    ∃ a, (Jukebox.resolver.after [.shape Jukebox.album.id]).table.get? Jukebox.album.id = some a ∧
      a.dependencies.toList.map SymbolRef.shape = Jukebox.dependencies := by
  have node : Jukebox.graph.get? Jukebox.album.id = some Jukebox.album := by decide +kernel
  have hlist : Jukebox.dependencies = [Jukebox.shape "Genre", Jukebox.shape "Track"] := by
    decide +kernel
  have hknown : (Jukebox.resolver.after [.shape Jukebox.album.id]).table.contains
      Jukebox.album.id = true := by decide +kernel
  obtain ⟨haggregate, -, htable⟩ := dependencies_exact Jukebox.graph .swift
    (NullabilityMode.policy .structural) {} Jukebox.album (Graph.wellFormed_ofNodesD Jukebox.nodes)
    node
  obtain ⟨-, hnodup, hiff⟩ := haggregate rfl
  obtain ⟨a, ha⟩ := SymbolTable.contains_iff.1 hknown
  refine ⟨by decide +kernel, hlist, hnodup, ?_, ?_, a, ha, ?_⟩
  · have htrack : Jukebox.shape "Track" ∈ Jukebox.dependencies := by rw [hlist]; decide +kernel
    exact ((hiff _).1 htrack).2.2
  · intro hreach
    have hartist : Jukebox.shape "Artist" ∈ Jukebox.dependencies :=
      (hiff _).2 ⟨by decide +kernel, ⟨⟨Jukebox.shape "Artist", .record [], .empty⟩,
        by decide +kernel, rfl⟩, hreach⟩
    rw [hlist] at hartist
    exact absurd hartist (by decide +kernel)
  · rw [htable _ a ha rfl]
    rfl

end SchemaSymbols
