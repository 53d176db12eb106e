/-
  Snapshots lose nothing.

  1. **Nodes make a graph again.**  The nodes that a well-formed graph lists have distinct
     identifiers, so all of them are filed, and no reference between them dangles, so all of them
     are linked (`WellFormed.exists_ofNodes`).

  2. **The text is read back.**  It is the indented form of textual JSON, eight levels deep at most,
     and every node in it is read back if its identifiers are printable
     (`WellFormed.exists_ofSnapshot`).

  3. **The same nodes** make the same text and the same fingerprint, and as many edges: the indices
     are permutations of each other.

  The graphs for which this holds are those that can be reached by edits from a graph that was read
  (`Reached`); they are closed under it.
-/
import SchemaSymbols.Proofs.Graph.Printable

namespace SchemaSymbols

namespace Graph

variable {g g' : Graph} {n : Node}

/-! ## Nodes make a graph again -/

/-- Nodes with different identifiers can be added, and nothing gives way to them. -/
theorem exists_foldlM_add {nodes : List Node} (hnodup : (nodes.map Node.id).Nodup)
    (hfresh : ∀ n ∈ nodes, g.contains n.id = false) :
    ∃ g', nodes.foldlM add g = .ok g' ∧ ∀ n, n ∈ g'.nodes ↔ n ∈ g.nodes ∨ n ∈ nodes := by
  induction nodes generalizing g with
  | nil => exact ⟨g, rfl, fun n => by simp⟩
  | cons k nodes ih =>
    obtain ⟨hother, hnodup⟩ := List.nodup_cons.1 hnodup
    have hk : g.contains k.id = false := hfresh k List.mem_cons_self
    have hadd : g.add k = .ok { g with nodes := g.nodes.insert k } := by
      rw [add, hk]
      rfl
    have hstill : ∀ n ∈ nodes,
        Graph.contains { g with nodes := g.nodes.insert k } n.id = false := by
      intro n hn
      refine Bool.eq_false_iff.2 fun hcontains => ?_
      rcases Sorted.contains_insert.1 hcontains with hid | hold
      · exact hother (hid ▸ List.mem_map_of_mem hn)
      · have hn' := hfresh n (List.mem_cons_of_mem _ hn)
        rw [contains, hold] at hn'
        cases hn'
    obtain ⟨g', hrest, hmem⟩ := ih hnodup hstill
    refine ⟨g', ?_, fun n => ?_⟩
    · rw [List.foldlM_cons, hadd]
      exact hrest
    · rw [hmem, Sorted.mem_insert, List.mem_cons]
      constructor
      · rintro ((rfl | ⟨hold, -⟩) | hnew)
        · exact Or.inr (Or.inl rfl)
        · exact Or.inl hold
        · exact Or.inr (Or.inr hnew)
      · rintro (hold | rfl | hnew)
        · refine Or.inl (Or.inr ⟨hold, fun hid => ?_⟩)
          rw [hid, contains_of_get? (get?_of_mem hold)] at hk
          cases hk
        · exact Or.inl (Or.inl rfl)
        · exact Or.inr hnew

/-- Nodes without dangling references can be linked. -/
theorem exists_foldlM_link {nodes : List Node}
    (h : ∀ n ∈ nodes, ∀ r ∈ n.shape.references, g.contains r.2 = true) :
    ∃ g', nodes.foldlM link g = .ok g' := by
  induction nodes generalizing g with
  | nil => exact ⟨g, rfl⟩
  | cons n nodes ih =>
    have hnone : n.shape.references.find? (fun r => !g.contains r.2) = none := by
      refine List.find?_eq_none.2 fun r hr => ?_
      simp [h n List.mem_cons_self r hr]
    have hlink : g.link n = .ok { g with edges := g.edges ++ n.edges } := by
      rw [link, hnone]
    rw [List.foldlM_cons, hlink]
    exact ih fun k hk => h k (List.mem_cons_of_mem _ hk)

/-- The nodes of a well-formed graph make a graph again. -/
theorem WellFormed.exists_ofNodes (wf : g.WellFormed) :
    ∃ g', ofNodes g.nodes.toList = .ok g' ∧ g'.nodes = g.nodes := by
  obtain ⟨added, hadd, hmem⟩ := exists_foldlM_add (g := {}) (Sorted.nodup_keys g.nodes)
    fun _ _ => rfl
  have hnodes : added.nodes = g.nodes := by
    refine Sorted.ext_toList (Sorted.eq_of_mem_iff added.nodes.sorted g.nodes.sorted fun n => ?_)
    exact (hmem n).trans (or_iff_right List.not_mem_nil)
  have hclosed : ∀ n ∈ added.nodes.toList, ∀ r ∈ n.shape.references, added.contains r.2 = true := by
    intro n hn r hr
    rw [hnodes] at hn
    rw [contains, hnodes]
    exact wf.closed n hn r hr
  obtain ⟨g', hlink⟩ := exists_foldlM_link hclosed
  refine ⟨g', ?_, (of_foldlM_link hlink).1.trans hnodes⟩
  rw [ofNodes, hadd]
  exact hlink

/-! ## The text is read back -/

/-- A snapshot has at most eight levels around its texts. -/
theorem textual_toJson (g : Graph) : Json.Textual 8 g.toJson := by
  refine List.forall_mem_singleton.2 ?_
  exact Json.textual_array_map fun n _ => n.textual_toJson

/-- The nodes of a printable graph are read back from its JSON form. -/
theorem nodesOfJson?_toJson (h : g.Printable) : nodesOfJson? g.toJson = some g.nodes.toList :=
  Json.list?_array_map fun n hn =>
    Node.ofJson?_toJson .snapshot (by decide) (printable_iff.1 h n hn)

/-- A graph is read back from its text, with all of its nodes. -/
theorem WellFormed.exists_ofSnapshot (wf : g.WellFormed) (h : g.Printable) :
    ∃ g', ofSnapshot g.snapshot = .ok g' ∧ g'.nodes = g.nodes := by
  obtain ⟨g', hbuilt, hnodes⟩ := wf.exists_ofNodes
  refine ⟨g', ?_, hnodes⟩
  rw [ofSnapshot, snapshot, Json.parse?_indented g.textual_toJson]
  show ofJson g.toJson = .ok g'
  rw [ofJson, nodesOfJson?_toJson h]
  exact hbuilt

/-- The nodes settle the text. -/
theorem toJson_congr (h : g'.nodes = g.nodes) : g'.toJson = g.toJson := by
  rw [toJson, toJson, h]

/-- The nodes settle the number of edges. -/
theorem edgeCount_congr (wf : g.WellFormed) (wf' : g'.WellFormed) (h : g'.nodes = g.nodes) :
    g'.edgeCount = g.edgeCount := by
  rw [edgeCount, edgeCount, wf.indexed.length_eq, wf'.indexed.length_eq, h]

/-- The graph is what edits made of a graph that was built from nodes or read from a text. -/
def Reached (g : Graph) : Prop :=
  ∃ (start : Graph) (edits : List Edit), start.Loaded ∧ g = edits.foldl Edit.after start

theorem Reached.wellFormed (h : g.Reached) : g.WellFormed := by
  obtain ⟨start, edits, hstart, rfl⟩ := h
  exact Edit.wellFormed_edits hstart.wellFormed edits

end Graph

/-- A snapshot is read back to a graph with the same nodes, fingerprint, number of edges and text;
it tells graphs with different nodes apart; and all of this is so for what was read from a text and
edited within what can be printed. -/
theorem snapshot_round_trip :
    (∀ g : Graph, g.Reached → g.Printable → ∃ g', Graph.ofSnapshot g.snapshot = .ok g' ∧
      g'.nodes = g.nodes ∧ g'.fingerprint = g.fingerprint ∧ g'.edgeCount = g.edgeCount ∧
      g'.snapshot = g.snapshot) ∧
    (∀ g h : Graph, g.Reached → g.Printable → h.Reached → h.Printable →
      g.snapshot = h.snapshot → g.nodes = h.nodes) ∧
    ∀ (text : String) (start : Graph) (edits : List Edit), Graph.ofSnapshot text = .ok start →
      (∀ edit ∈ edits, edit.Printable) →
        (edits.foldl Edit.after start).Reached ∧ (edits.foldl Edit.after start).Printable := by
  refine ⟨fun g reached printable => ?_, fun g h hg pg hh ph hsame => ?_,
    fun text start edits hstart hedits => ?_⟩
  · obtain ⟨g', hread, hnodes⟩ := reached.wellFormed.exists_ofSnapshot printable
    have wf' : g'.WellFormed := Graph.Loaded.wellFormed (Or.inr ⟨_, hread⟩)
    refine ⟨g', hread, hnodes, ?_, Graph.edgeCount_congr reached.wellFormed wf' hnodes, ?_⟩
    · rw [Graph.fingerprint, Graph.fingerprint, Graph.toJson_congr hnodes]
    · rw [Graph.snapshot, Graph.snapshot, Graph.toJson_congr hnodes]
  · obtain ⟨g', hread, hnodes⟩ := hg.wellFormed.exists_ofSnapshot pg
    obtain ⟨h', hread', hnodes'⟩ := hh.wellFormed.exists_ofSnapshot ph
    rw [hsame, hread'] at hread
    cases hread
    exact hnodes.symm.trans hnodes'
  · have loaded : start.Loaded := Or.inr ⟨text, hstart⟩
    exact ⟨⟨start, edits, loaded, rfl⟩,
      Edit.printable_edits loaded.wellFormed (Graph.printable_of_ofSnapshot hstart) hedits⟩

/-! ## A vault -/

namespace Vault

/-- The identifier of a shape of the vault. -/
def shape (name : String) : ShapeId := ⟨"vault", name, none⟩

/-- An identifier with marks where they do not matter. -/
def marked : ShapeId := ⟨"va$ult", "Do#or", some "l$o#ck"⟩

/-- Tags with and without payload, some of them with texts that have to be escaped. -/
def tags : TagSet :=
  Sorted.ofList [.equality, .error .server, .sensitive, .elementNullable, .recursive, .required,
    .default "\"\\\n\x01\x1f/é😀", .nestedUnder marked, .cloneOf marked, .synthetic, .input, .output,
    .custom "" none, .custom "\t" (some "")]

/-- Shapes of all kinds, with tags or without. -/
def nodes : List Node :=
  [ ⟨shape "Text", .primitive .bigDecimal, .empty⟩,
    ⟨marked, .record [⟨"b\"", shape "Text", tags⟩, ⟨"a", marked, .empty⟩], tags⟩,
    ⟨shape "Choice", .union [⟨"", marked, .empty⟩], .empty⟩,
    ⟨shape "Level", .enum [⟨"\x7f", "ß"⟩, ⟨"", "\r"⟩], tags⟩,
    ⟨shape "Row", .list ⟨"item", marked, tags⟩, .empty⟩,
    ⟨shape "Heap", .set ⟨"item", marked, .empty⟩, .empty⟩,
    ⟨shape "Index", .map ⟨"key", shape "Text", .empty⟩ ⟨"value", shape "Row", tags⟩, .empty⟩,
    ⟨shape "open", .operation (some marked) none [], .empty⟩,
    ⟨shape "ﬁll", .operation none (some marked) [marked, marked], .empty⟩,
    ⟨shape "Guard", .service [shape "open", shape "ﬁll"], .empty⟩ ]

/-- The graph of the vault. -/
def graph : Graph := .ofNodesD nodes

/-- What is done to the vault when it is read again. -/
def edits : List Edit := [.normalize {}, .closeEquality, .addTag (shape "Text") (.cloneOf marked)]

end Vault

/-- A vault with marks, quotes and control characters in its names is read back, and so is what
edits make of it. -/
theorem vault_round_trip :
    Vault.graph.size = 10 ∧
      ∃ g', Graph.ofSnapshot Vault.graph.snapshot = .ok g' ∧ g'.nodes = Vault.graph.nodes ∧
        ∃ g'', Graph.ofSnapshot (Vault.edits.foldl Edit.after g').snapshot = .ok g'' ∧
          g''.nodes = (Vault.edits.foldl Edit.after g').nodes := by
  have reached : Vault.graph.Reached := ⟨Vault.graph, [], Or.inl ⟨Vault.nodes, rfl⟩, rfl⟩
  have printable : Vault.graph.Printable := by decide +kernel
  obtain ⟨trip, -, kept⟩ := snapshot_round_trip
  obtain ⟨g', hread, hnodes, -⟩ := trip Vault.graph reached printable
  obtain ⟨reached', printable'⟩ := kept _ g' Vault.edits hread (by decide)
  obtain ⟨g'', hread', hnodes', -⟩ := trip _ reached' printable'
  exact ⟨by decide +kernel, g', hread, hnodes, g'', hread', hnodes'⟩

end SchemaSymbols
