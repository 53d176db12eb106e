/-
  Symbols are canonical, however and whenever they were made.

  The canonical symbol of a shape is computed from the graph, the profile and the options alone, by
  following references through collections to leaves.  A resolution finds symbols in an order of its
  own, stops at faults and keeps what it found so far, so there is something to show.

  The invariant is that every symbol of the table is canonical.  A leaf is canonical by itself.  A
  collection is built from symbols of the table, so it takes one step more than they do and the
  table grows by one: the number of symbols in the table bounds the number of steps that canonical
  symbols may take (`Session.Canonical`), and a table has no more symbols than the graph has nodes
  (`Canonical.size_le`).

  Nothing else files a symbol, so a resolution keeps the invariant whether it ends well or fails, in
  any graph and with any budget (`keeps_canonical`), and no step needs to be looked at twice.
  `symbols_canonical_after_calls` states what follows for the table and for answers after any calls,
  and for two graphs in which a shape leads to the same nodes.

  `Atlas` has a collection of which a failed call makes a part, and a leaf that looks at the node it
  links to, so its symbol is not settled by its own node.
-/
import SchemaSymbols.Proofs.Resolution.Independence
import SchemaSymbols.Proofs.Resolution.Keeping
import SchemaSymbols.Proofs.Symbol.Canonical

namespace SchemaSymbols

open ResolveM

variable {g : Graph} {p : Profile} {o : ResolverOptions} {policy : NullabilityPolicy}
  {s : Session} {id : ShapeId}

/-! ## Sessions whose symbols are canonical -/

/-- Every symbol of the table is canonical, and takes no more steps than there are symbols. -/
def Session.Canonical (g : Graph) (p : Profile) (o : ResolverOptions) (s : Session) : Prop :=
  ∀ id a, s.table.get? id = some a → g.canonicalWithin p o s.table.size id = some a

namespace Session.Canonical

theorem new : Session.Canonical g p o {} := by
  intro id a hget
  cases hget

/-- There are no more symbols than shapes. -/
theorem size_le (h : s.Canonical g p o) : s.table.size ≤ g.size := by
  have hshapes : ∀ id ∈ s.table.symbols.keys, g.nodes.contains id = true := by
    intro id hid
    obtain ⟨a, ha⟩ := SymbolTable.contains_iff.1 (Sorted.mem_keys.1 hid)
    exact Graph.contains_of_canonicalWithin (h id a ha)
  rw [← SymbolTable.length_keys]
  exact Sorted.length_le_size (Sorted.nodup_keys s.table.symbols) hshapes

/-- A symbol of the table is the canonical one of its shape. -/
theorem canonical {a : Symbol} (h : s.Canonical g p o) (hget : s.table.get? id = some a) :
    g.canonical p o id = some a :=
  Graph.canonicalWithin_mono (h id a hget) h.size_le

/-- A new symbol has to be canonical itself, given the symbols that are there. -/
theorem addSymbol {symbol : Symbol} (h : s.Canonical g p o)
    (hnew : g.canonicalFrom p o (g.canonicalWithin p o s.table.size) symbol.shape = some symbol) :
    ∀ id a, (s.table.addSymbol symbol).get? id = some a →
      g.canonicalWithin p o (s.table.addSymbol symbol).size id = some a := by
  have hstep : g.canonicalWithin p o (s.table.size + 1) symbol.shape = some symbol := hnew
  have hgrown := SymbolTable.size_le_addSymbol s.table symbol
  intro id a hget
  rw [SymbolTable.get?_addSymbol] at hget
  split at hget
  · rename_i he
    cases hget
    subst he
    cases hknown : s.table.get? symbol.shape with
    | none =>
      have hfresh := SymbolTable.contains_eq_false_iff.2 hknown
      exact Graph.canonicalWithin_mono hstep (SymbolTable.size_lt_addSymbol hfresh)
    | some known =>
      -- what was filed before is found in the same number of steps, so it is the same symbol
      have hsame := Graph.canonicalWithin_mono (h _ _ hknown) (Nat.le_succ s.table.size)
      rw [hstep] at hsame
      cases hsame
      exact Graph.canonicalWithin_mono (h _ _ hknown) hgrown
  · exact Graph.canonicalWithin_mono (h id a hget) hgrown

theorem addLeaf {n : Node} {leaf : Leaf} (h : s.Canonical g p o) (node : g.get? n.id = some n)
    (made : (Resolver.new g p policy o).leaf n = .ok leaf) : (s.addLeaf leaf).Canonical g p o := by
  refine h.addSymbol ?_
  rw [(Resolver.made_of_leaf made).shape]
  exact Graph.canonicalFrom_of_leaf node made

/-- The symbol of a collection is canonical if those of its elements are. -/
theorem closeContainer {n : Node} {symbol : Symbol} {queued : List ShapeId}
    (h : s.Canonical g p o) (node : g.get? n.id = some n)
    (built : (Resolver.new g p policy o).collection s.table n = .ok (symbol, queued)) :
    (s.closeContainer symbol queued).Canonical g p o := by
  refine h.addSymbol ?_
  rw [(Resolver.built_of_collection built).shape]
  exact Graph.canonicalFrom_of_collection node h built

theorem bindNext (h : s.Canonical g p o) (b : Binding) : (s.bindNext b).Canonical g p o := by
  cases hframes : s.frames with
  | nil => rw [Session.bindNext, hframes]; exact h
  | cons f rest => rw [Session.bindNext_of_frames hframes]; exact h

theorem leave (h : s.Canonical g p o) : s.leave.Canonical g p o := by
  cases hframes : s.frames with
  | nil => rw [Session.leave, hframes]; exact h
  | cons f rest => rw [Session.leave_of_frames hframes]; exact h

end Session.Canonical

/-! ## What a resolution keeps -/

/-- Whatever way a resolution goes, it keeps symbols canonical. -/
theorem keeps_canonical (g : Graph) (p : Profile) (policy : NullabilityPolicy)
    (o : ResolverOptions) : (Resolver.new g p policy o).Keeps (Session.Canonical g p o) where
  leaf := fun h node _ made => h.addLeaf node made
  opened := fun _ h => h
  closed := fun h node built => h.closeContainer node built
  entered := fun h _ _ _ => h
  bound := fun h _ _ _ _ _ => h.bindNext _
  left := fun h _ _ => h.leave
  dequeued := fun _ h => h
  abandoned := fun h => h

section Calls

variable {r : Resolver} (hr : r = Resolver.new g p policy o)

include hr

/-- Whatever was called for and however it ended, all symbols are canonical. -/
theorem canonical_after (calls : List Call) : (r.after calls).Canonical g p o := by
  subst hr
  exact (keeps_canonical g p policy o).after .new calls

theorem canonical_of_answers {calls : List Call} {a : Symbol}
    (h : r.Answers (r.after calls) id a) : g.canonical p o id = some a := by
  have hafter := canonical_after hr calls
  subst hr
  obtain ⟨s', hrun⟩ := h
  obtain ⟨found, hfound, hget⟩ := (keeps_canonical g p policy o).exists_found hafter hrun
  exact hfound.canonical hget

end Calls

/-- There is one symbol for each shape, and it depends on the graph, the profile and the options
    alone: after any calls, whether they ended well or failed, the symbols of the table and those
    that further resolutions answer with are the canonical ones.  So two answers for one shape are
    equal, whatever was called for before.  Canonical symbols are defined by recursion through
    collections; others have no symbol in them, and look at other nodes only to refer to them. -/
theorem symbols_canonical_after_calls (g : Graph) (p : Profile) (o : ResolverOptions) :
    (∀ id, g.canonical p o id = g.canonicalFrom p o (g.canonical p o) id) ∧
    (∀ (g' : Graph) (n : Node), g.WellFormed → g'.WellFormed → g.get? n.id = some n →
      g'.get? n.id = some n → n.shape.isContainer = false →
        (∀ y, g.LooksAt n y → g'.get? y = g.get? y) →
          g'.canonical p o n.id = g.canonical p o n.id) ∧
    (∀ policy calls id a, ((Resolver.new g p policy o).after calls).table.get? id = some a →
      g.canonical p o id = some a) ∧
    (∀ policy calls id a,
      (Resolver.new g p policy o).Answers ((Resolver.new g p policy o).after calls) id a →
        g.canonical p o id = some a) ∧
    ∀ policy calls calls' id a b,
      (Resolver.new g p policy o).Answers ((Resolver.new g p policy o).after calls) id a →
        (Resolver.new g p policy o).Answers ((Resolver.new g p policy o).after calls') id b →
          a = b := by
  refine ⟨g.canonical_eq p o, fun g' n => Graph.canonical_congr,
    fun policy calls id a => (canonical_after rfl calls).canonical,
    fun policy calls id a => canonical_of_answers rfl, ?_⟩
  intro policy calls calls' id a b ha hb
  have hcanonical : g.canonical p o id = some a := canonical_of_answers rfl ha
  rw [canonical_of_answers rfl hb] at hcanonical
  exact (Option.some.inj hcanonical).symm

/-! ## An atlas -/

namespace Atlas

/-- The identifier of a shape of the atlas. -/
def shape (name : String) : ShapeId := ⟨"atlas", name, none⟩

/-- A map from texts to rows of tiles, of which some may be missing, and a map that holds rows and,
beside them, a service, for which it is refused. -/
def nodes : List Node :=
  [ ⟨shape "Text", .primitive .string, .empty⟩,
    ⟨shape "Tile", .record [⟨"grid", shape "Grid", .empty⟩], .empty⟩,
    ⟨shape "Row", .list ⟨"member", shape "Tile", .ofList [.elementNullable]⟩, .empty⟩,
    ⟨shape "Grid", .map ⟨"key", shape "Text", .empty⟩ ⟨"value", shape "Row", .empty⟩, .empty⟩,
    ⟨shape "Office", .service [], .empty⟩,
    ⟨shape "Lost", .map ⟨"key", shape "Row", .empty⟩ ⟨"value", shape "Office", .empty⟩, .empty⟩ ]

/-- The graph of the atlas. -/
def graph : Graph := .ofNodesD nodes

/-- A graph seen through a target language. -/
def resolver (g : Graph) : Resolver := .new g .swift (NullabilityMode.policy .structural) {}

/-- A cover with a title, which is a text or something else. -/
def cover (text : Shape) : Graph :=
  .ofNodesD
    [ ⟨shape "Text", text, .empty⟩,
      ⟨shape "Cover", .record [⟨"title", shape "Text", .empty⟩], .empty⟩ ]

/-- A call fails, and a call after it makes the type of the grid nonetheless. -/
theorem type_of_grid :
    ((resolver graph).call (.shape (shape "Lost"))).endsWell {} = false ∧
      (((resolver graph).after [.shape (shape "Lost"), .shape (shape "Grid")]).table.get?
        (shape "Grid")).map (fun a => a.displayName) = some "[String: [Tile?]]" := by
  decide +kernel

theorem grid_answered :
    (∃ a, (resolver graph).Answers {} (shape "Grid") a) ∧
      ∃ a, (resolver graph).Answers ((resolver graph).after [.shape (shape "Lost")])
        (shape "Grid") a :=
  ⟨exists_of_endsWell (by decide +kernel), exists_of_endsWell (by decide +kernel)⟩

/-- What a cover depends on, once it is resolved. -/
def dependencies (text : Shape) : Option (List ShapeId) :=
  (((resolver (cover text)).after [.shape (shape "Cover")]).table.get? (shape "Cover")).map
    fun a => a.dependencies.toList.map SymbolRef.shape

theorem dependencies_of_cover :
    dependencies (.primitive .string) = some [] ∧
      dependencies (.record []) = some [shape "Text"] := by
  decide +kernel

end Atlas

/-- The rows that a failed call made are part of the grid's symbol, which is the same as without
    that call; and texts have the same symbol in any graph that has them. -/
theorem atlas_symbols_canonical :
    ((Atlas.resolver Atlas.graph).call (.shape (Atlas.shape "Lost"))).endsWell {} = false ∧
      (∃ a, (Atlas.resolver Atlas.graph).Answers {} (Atlas.shape "Grid") a ∧
        (Atlas.resolver Atlas.graph).Answers
          ((Atlas.resolver Atlas.graph).after [.shape (Atlas.shape "Lost")]) (Atlas.shape "Grid") a ∧
        Atlas.graph.canonical .swift {} (Atlas.shape "Grid") = some a ∧
        a.displayName = "[String: [Tile?]]") ∧
      (Atlas.cover (.primitive .string)).canonical .swift {} (Atlas.shape "Text") =
        Atlas.graph.canonical .swift {} (Atlas.shape "Text") := by
  obtain ⟨hfails, htype⟩ := Atlas.type_of_grid
  obtain ⟨a, hget, hname⟩ := Option.map_eq_some_iff.1 htype
  obtain ⟨⟨b, hb⟩, c, hc⟩ := Atlas.grid_answered
  obtain ⟨-, hcongr, hstored, hanswers, hequal⟩ :=
    symbols_canonical_after_calls Atlas.graph .swift {}
  have hcanonical := hstored _ _ _ a hget
  have hbc : b = c := hequal _ [] [.shape (Atlas.shape "Lost")] _ b c hb hc
  subst hbc
  have hab : some b = some a := (hanswers _ [] _ b hb).symm.trans hcanonical
  cases hab
  refine ⟨hfails, ⟨a, hb, hc, hcanonical, hname⟩, ?_⟩
  refine hcongr (Atlas.cover (.primitive .string)) ⟨Atlas.shape "Text", .primitive .string, .empty⟩
    (Graph.wellFormed_ofNodesD _) (Graph.wellFormed_ofNodesD _) (by decide +kernel)
    (by decide +kernel) rfl ?_
  rintro y (hlink | ⟨m, hm, -⟩)
  · cases hlink
  · cases hm

/-- No reference looks at a shape's own node alone, collections apart: what a cover depends on is a
    matter of what its title is. -/
theorem cover_symbol_looks_at_title :
    ¬ ∃ reference : Graph → Profile → ResolverOptions → ShapeId → Option Symbol,
      (∀ g g' p o n, g.WellFormed → g'.WellFormed → g.get? n.id = some n → g'.get? n.id = some n →
        n.shape.isContainer = false → reference g' p o n.id = reference g p o n.id) ∧
      ∀ g p o policy calls id a, g.WellFormed →
        ((Resolver.new g p policy o).after calls).table.get? id = some a →
          reference g p o id = some a := by
  rintro ⟨reference, hown, hstored⟩
  obtain ⟨htext, hrecord⟩ := Atlas.dependencies_of_cover
  obtain ⟨a, ha, hnone⟩ := Option.map_eq_some_iff.1 htext
  obtain ⟨b, hb, hsome⟩ := Option.map_eq_some_iff.1 hrecord
  have wf := Graph.wellFormed_ofNodesD
  have hsame : some b = some a :=
    calc some b
      _ = reference (Atlas.cover (.record [])) .swift {} (Atlas.shape "Cover") :=
        (hstored _ _ _ _ _ _ b (wf _) hb).symm
      _ = reference (Atlas.cover (.primitive .string)) .swift {} (Atlas.shape "Cover") :=
        hown _ _ _ _ ⟨Atlas.shape "Cover", .record [⟨"title", Atlas.shape "Text", .empty⟩], .empty⟩
          (wf _) (wf _) (by decide +kernel) (by decide +kernel) rfl
      _ = some a := hstored _ _ _ _ _ _ a (wf _) ha
  cases hsame
  rw [hnone] at hsome
  cases hsome

end SchemaSymbols
