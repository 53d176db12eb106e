/-
  Graphs that are edited in place.

  The shapes of a graph and the index of its edges are two stores, and an edit works on them one
  after the other: a new node is filed before its edges are entered, new sides are filed before the
  edges to the old ones are taken out.  So there is a moment in which the stores do not agree, and
  an edit that failed there would leave them so.

  1. **The edits, step by step.**  `EditM` has programs that change the stores one at a time, and an
     edit that fails leaves the graph as far as it got.  `Edit` lists what can be asked for.

  2. **Each edit leaves the result of its function.**  The functions on whole graphs know nothing of
     moments in between.  Each program leaves what the function of the same name gives, or, if that
     gives a fault, the graph as it was (`Edit.run_eq`).  The point is that everything that can fail
     is checked before anything is changed: a node whose references dangle is not linked
     (`find?_dangling_filed`), and a tag is given only to a node that is there.  For a list of
     records to be tagged this is not so, and there it is the graph that settles it: in a
     well-formed graph none of them is missing (`tagAll_eq`).

  3. **The two stores agree** in a well-formed graph (`Consistent`), and every edit that succeeds
     keeps a graph well formed (`Edit.result_wellFormed`).

  So they agree after any sequence of edits, whether or not each of them succeeds
  (`index_consistent_after_edits`).
-/
import SchemaSymbols.Graph.Snapshot
import SchemaSymbols.Proofs.Build.Phases

namespace SchemaSymbols

/-- Edits of a graph, which may fail half way. -/
abbrev EditM := EStateM Fault Graph

/-! ## The edits, step by step -/

namespace EditM

/-- Puts a node in the place of the node of its identifier, or adds it. -/
def file (n : Node) : EditM Unit := modify fun g => { g with nodes := g.nodes.insert n }

/-- Enters an edge into the index. -/
def addEdge (e : Edge) : EditM Unit := modify fun g => { g with edges := g.edges ++ [e] }

/-- Takes out the edge at a position of the index. -/
def removeEdge (position : Nat) : EditM Unit :=
  modify fun g => { g with edges := Graph.removeEdge g.edges position }

/-- Files a new node, without its edges. -/
def add (n : Node) : EditM Unit := do
  let g ← get
  if g.contains n.id then throw (.duplicateShape n.id) else file n

/-- Enters the edges of a node that is filed already. -/
def link (id : ShapeId) : EditM Unit := do
  let g ← get
  match g.get? id with
  | none => throw (.missingShape id)
  | some n =>
    match n.shape.references.find? fun r => !g.contains r.2 with
    | some r => throw (.danglingReference id r.2)
    | none => n.edges.forM addEdge

/-- Adds a node that refers to shapes of the graph or to itself. -/
def insert (n : Node) : EditM Unit := do
  let g ← get
  match n.shape.references.find? fun r => !g.contains r.2 && r.2 != n.id with
  | some r => throw (.danglingReference n.id r.2)
  | none =>
    add n
    link n.id

/-- Tags a node, and says whether the tag is new. -/
def addTag (id : ShapeId) (t : Tag) : EditM Bool := do
  let g ← get
  match g.get? id with
  | none => throw (.missingShape id)
  | some n =>
    file (n.withTag t)
    return !n.tags.contains t

/-- Gives an operation new records for its two sides. -/
def setSides (operation input output : ShapeId) : EditM Unit := do
  let g ← get
  match [input, output].find? fun id => !g.contains id with
  | some id => throw (.danglingReference operation id)
  | none =>
    match g.get? operation with
    | some ⟨id, .operation _ _ errors, tags⟩ =>
      file ⟨id, .operation (some input) (some output) errors, tags⟩
      (Graph.sidePositions operation g.edges).forM removeEdge
      [⟨operation, .input, input⟩, ⟨operation, .output, output⟩].forM addEdge
    | _ => throw (.missingShape operation)

/-- Tags records one after the other. -/
def tagAll (ids : List ShapeId) : EditM Unit :=
  ids.forM fun id => do
    let _ ← addTag id .equality

end EditM

/-- The edits of a graph. -/
inductive Edit where
  | insert (n : Node)
  | addTag (id : ShapeId) (t : Tag)
  | setSides (operation input output : ShapeId)
  | normalize (naming : SyntheticNaming)
  | closeEquality
deriving DecidableEq, Repr

namespace Edit

/-- Carries out an edit.  A normalization works on a copy, which replaces the graph at the end; all
other edits work on the graph itself. -/
def run : Edit → EditM Unit
  | insert n => EditM.insert n
  | addTag id t => do
    let _ ← EditM.addTag id t
  | setSides operation input output => EditM.setSides operation input output
  | normalize naming => do
    match (← get).normalize naming with
    | .ok (normalized, _) => set normalized
    | .error fault => throw fault
  | closeEquality => do
    EditM.tagAll ((EqualityClosure.levels (← get)).flatMap Sorted.toList)

/-- What an edit gives. -/
def result (g : Graph) : Edit → Except Fault Graph
  | insert n => g.insert n
  | addTag id t => (g.addTag id t).map Prod.snd
  | setSides operation input output => g.setSides operation input output
  | normalize naming => (g.normalize naming).map Prod.fst
  | closeEquality => g.closeEquality.map Prod.fst

/-- What an edit leaves behind, whether it succeeds or fails. -/
def after (g : Graph) (edit : Edit) : Graph :=
  match edit.run g with
  | .ok _ g' => g'
  | .error _ g' => g'

end Edit

/-- The result that a fault-free value stands for, or the graph as it was. -/
def EditM.ofResult (g : Graph) : Except Fault Graph → EStateM.Result Fault Graph Unit
  | .ok g' => .ok () g'
  | .error fault => .error fault g

/-! ## Each edit leaves the result of its function -/

namespace EditM

variable {α β : Type} {g g' : Graph} {n : Node} {id : ShapeId}

theorem bind_of_ok {x : EditM α} {f : α → EditM β} {a : α} (h : x g = .ok a g') :
    (x >>= f) g = f a g' := by
  show EStateM.bind x f g = f a g'
  rw [EStateM.bind, h]

theorem bind_of_error {x : EditM α} {f : α → EditM β} {fault : Fault} (h : x g = .error fault g') :
    (x >>= f) g = .error fault g' := by
  show EStateM.bind x f g = .error fault g'
  rw [EStateM.bind, h]

/-- Edges are entered behind those that are there. -/
theorem forM_addEdge (edges : List Edge) (g : Graph) :
    edges.forM addEdge g = .ok () { g with edges := g.edges ++ edges } := by
  induction edges generalizing g with
  | nil => simp [pure, EStateM.pure]
  | cons e edges ih =>
    have hrest := ih { g with edges := g.edges ++ [e] }
    rw [List.append_assoc] at hrest
    exact hrest

/-- Each removal works on the index that the one before it left. -/
theorem forM_removeEdge (positions : List Nat) (g : Graph) :
    positions.forM removeEdge g =
      .ok () { g with edges := positions.foldl Graph.removeEdge g.edges } := by
  induction positions generalizing g with
  | nil => rfl
  | cons position positions ih => exact ih { g with edges := Graph.removeEdge g.edges position }

/-- Once its references were looked up, a new node can be linked: the only shape that may have been
    missing is the node itself. -/
theorem find?_dangling_filed
    (h : n.shape.references.find? (fun r => !g.contains r.2 && r.2 != n.id) = none) :
    n.shape.references.find?
      (fun r => !Graph.contains { g with nodes := g.nodes.insert n } r.2) = none := by
  refine List.find?_eq_none.2 fun r hr => ?_
  have hlooked : g.contains r.2 = true ∨ r.2 = n.id := by
    have hnone := List.find?_eq_none.1 h r hr
    by_cases hself : r.2 = n.id
    · exact Or.inr hself
    · exact Or.inl (by simpa [hself] using hnone)
  have hpresent : Graph.contains { g with nodes := g.nodes.insert n } r.2 = true :=
    Sorted.contains_insert.2 (hlooked.symm.imp_left Eq.symm)
  simp [hpresent]

/-- A node without dangling references is linked once it is filed. -/
theorem link_filed
    (h : n.shape.references.find?
      (fun r => !Graph.contains { g with nodes := g.nodes.insert n } r.2) = none) :
    link n.id { g with nodes := g.nodes.insert n } =
      .ok () { nodes := g.nodes.insert n, edges := g.edges ++ n.edges } := by
  have hget : Graph.get? { g with nodes := g.nodes.insert n } n.id = some n :=
    Sorted.find?_insert_self g.nodes n
  rw [link, bind_of_ok (rfl : (get : EditM Graph) _ = .ok _ _), hget]
  simp only [h]
  exact forM_addEdge n.edges _

/-- Inserting a node leaves what the function gives, or the graph as it was. -/
theorem insert_eq (g : Graph) (n : Node) : insert n g = ofResult g (g.insert n) := by
  rw [insert, Graph.insert, bind_of_ok (rfl : (get : EditM Graph) g = .ok g g)]
  cases hlooked : n.shape.references.find? fun r => !g.contains r.2 && r.2 != n.id with
  | some r => rfl
  | none =>
    show (add n >>= fun _ => link n.id) g = ofResult g (g.add n >>= fun g' => g'.link n)
    cases hpresent : g.contains n.id with
    | true =>
      have hadd : add n g = .error (.duplicateShape n.id) g := by
        rw [add, bind_of_ok (rfl : (get : EditM Graph) g = .ok g g), hpresent]
        rfl
      rw [bind_of_error hadd, Graph.add, hpresent]
      rfl
    | false =>
      -- the node is filed now, and a fault from here on would leave it without its edges
      have hadd : add n g = .ok () { g with nodes := g.nodes.insert n } := by
        rw [add, bind_of_ok (rfl : (get : EditM Graph) g = .ok g g), hpresent]
        rfl
      have hlink := find?_dangling_filed hlooked
      rw [bind_of_ok hadd, link_filed hlink, Graph.add, hpresent]
      show _ = ofResult g (Graph.link { g with nodes := g.nodes.insert n } n)
      rw [Graph.link, hlink]
      rfl

theorem addTag_of_get? (h : g.get? id = some n) (t : Tag) :
    addTag id t g =
      .ok (!n.tags.contains t) { g with nodes := g.nodes.insert (n.withTag t) } := by
  rw [addTag, bind_of_ok (rfl : (get : EditM Graph) g = .ok g g), h]
  rfl

theorem addTag_of_get?_eq_none (h : g.get? id = none) (t : Tag) :
    addTag id t g = .error (.missingShape id) g := by
  rw [addTag, bind_of_ok (rfl : (get : EditM Graph) g = .ok g g), h]
  rfl

/-- Giving an operation new sides leaves what the function gives, or the graph as it was. -/
theorem setSides_eq (g : Graph) (operation input output : ShapeId) :
    setSides operation input output g = ofResult g (g.setSides operation input output) := by
  rw [setSides, Graph.setSides, bind_of_ok (rfl : (get : EditM Graph) g = .ok g g)]
  cases [input, output].find? fun id => !g.contains id with
  | some id => rfl
  | none =>
    cases g.get? operation with
    | none => rfl
    | some n =>
      obtain ⟨id, shape, tags⟩ := n
      cases shape with
      | operation oldInput oldOutput errors =>
        have hremoved := forM_removeEdge (Graph.sidePositions operation g.edges)
          { g with
            nodes := g.nodes.insert ⟨id, .operation (some input) (some output) errors, tags⟩ }
        show ((Graph.sidePositions operation g.edges).forM removeEdge >>= fun _ =>
          [⟨operation, .input, input⟩, ⟨operation, .output, output⟩].forM addEdge) _ = _
        rw [bind_of_ok hremoved]
        exact forM_addEdge _ _
      | _ => rfl

/-- Shapes of the graph can be tagged in place as they are one by one. -/
theorem tagAll_eq {ids : List ShapeId} (h : EqualityClosure.tagAll g ids = .ok g') :
    tagAll ids g = .ok () g' := by
  induction ids generalizing g with
  | nil =>
    cases h
    rfl
  | cons first ids ih =>
    rw [EqualityClosure.tagAll, List.foldlM_cons] at h
    cases hget : g.get? first with
    | none =>
      rw [Graph.addTag, Graph.require, hget] at h
      cases h
    | some n =>
      have hfirst : (do let _ ← addTag first .equality : EditM Unit) g =
          .ok () { g with nodes := g.nodes.insert (n.withTag .equality) } :=
        bind_of_ok (addTag_of_get? hget .equality)
      rw [Graph.addTag_of_get? hget] at h
      exact (bind_of_ok hfirst).trans (ih h)

end EditM

/-- An edit of a well-formed graph gives what its function gives, and leaves the graph as it was if
    that is a fault. -/
theorem Edit.run_eq {g : Graph} (wf : g.WellFormed) (edit : Edit) :
    edit.run g = EditM.ofResult g (edit.result g) := by
  cases edit with
  | insert n => exact EditM.insert_eq g n
  | addTag id t =>
    show (EditM.addTag id t >>= fun _ => pure ()) g =
      EditM.ofResult g ((g.addTag id t).map Prod.snd)
    cases hget : g.get? id with
    | none =>
      rw [EditM.bind_of_error (EditM.addTag_of_get?_eq_none hget t), Graph.addTag, Graph.require,
        hget]
      rfl
    | some n =>
      rw [EditM.bind_of_ok (EditM.addTag_of_get? hget t), Graph.addTag_of_get? hget]
      rfl
  | setSides operation input output => exact EditM.setSides_eq g operation input output
  | normalize naming =>
    show (match g.normalize naming with
      | .ok (normalized, _) => set normalized
      | .error fault => throw fault : EditM Unit) g =
        EditM.ofResult g ((g.normalize naming).map Prod.fst)
    cases g.normalize naming <;> rfl
  | closeEquality =>
    -- in a well-formed graph the search finds only shapes of the graph, so all of them are tagged
    obtain ⟨g', report, hclose, -, -⟩ := wf.exists_closes
    have htagged : EqualityClosure.tagAll g ((EqualityClosure.levels g).flatMap Sorted.toList) =
        .ok g' := by
      rw [Graph.closeEquality] at hclose
      obtain ⟨closed, htagged, hreport⟩ := bind_eq_ok.1 hclose
      cases hreport
      exact htagged
    show EditM.tagAll _ g = EditM.ofResult g (g.closeEquality.map Prod.fst)
    rw [EditM.tagAll_eq htagged, hclose]
    rfl

/-! ## The two stores agree -/

namespace Graph

variable {g : Graph} {x y : ShapeId} {kind : EdgeKind}

/-- What an index that agrees with the shapes gives. -/
structure Consistent (g : Graph) : Prop where
  /-- No two nodes have one identifier. -/
  unique : (g.nodes.toList.map Node.id).Nodup
  /-- Every reference leads to a shape of the graph. -/
  closed : ∀ n ∈ g.nodes, ∀ r ∈ n.shape.references, ∃ target, g.get? r.2 = some target
  /-- The index has the references of the shapes, each as often as it is made. -/
  indexed : g.edges.Perm (g.nodes.toList.flatMap fun n =>
    n.shape.references.map fun r => ⟨n.id, r.1, r.2⟩)
  /-- The targets of a shape are what it refers to in that role. -/
  mem_targets : ∀ x kind y, y ∈ g.targets x kind ↔
    ∃ n, g.get? x = some n ∧ (kind, y) ∈ n.shape.references
  /-- They are listed in order, each once. -/
  sorted : ∀ x kind, (g.targets x kind).Pairwise fun y z => compare y z = .lt
  /-- Sources are found by the same edges. -/
  mem_sources : ∀ x kind y, x ∈ g.sources y kind ↔ y ∈ g.targets x kind
  /-- All references are counted. -/
  counted : g.edgeCount = (g.nodes.toList.map fun n => n.shape.references.length).sum

/-- The targets of a shape are those that its edges lead to. -/
theorem mem_targets_iff : y ∈ g.targets x kind ↔ ⟨x, kind, y⟩ ∈ g.edges := by
  rw [targets, ← Sorted.mem_def, Sorted.mem_ofList, List.mem_map]
  constructor
  · rintro ⟨e, he, rfl⟩
    obtain ⟨he, hsource, hkind⟩ : e ∈ g.edges ∧ e.source = x ∧ e.kind = kind := by simpa using he
    rwa [← hsource, ← hkind]
  · intro he
    exact ⟨_, List.mem_filter.2 ⟨he, by simp⟩, rfl⟩

/-- The sources of a shape are those whose edges lead to it. -/
theorem mem_sources_iff : x ∈ g.sources y kind ↔ ⟨x, kind, y⟩ ∈ g.edges := by
  rw [sources, ← Sorted.mem_def, Sorted.mem_ofList, List.mem_map]
  constructor
  · rintro ⟨e, he, rfl⟩
    obtain ⟨he, htarget, hkind⟩ : e ∈ g.edges ∧ e.target = y ∧ e.kind = kind := by simpa using he
    rwa [← htarget, ← hkind]
  · intro he
    exact ⟨_, List.mem_filter.2 ⟨he, by simp⟩, rfl⟩

/-- In a well-formed graph the two stores agree. -/
theorem WellFormed.consistent (wf : g.WellFormed) : g.Consistent where
  unique := Sorted.nodup_keys g.nodes
  closed n hn r hr := contains_iff.1 (wf.closed n hn r hr)
  indexed := wf.indexed
  mem_targets x kind y := wf.mem_targets
  sorted x kind := Sorted.sorted _
  mem_sources x kind y := mem_sources_iff.trans mem_targets_iff.symm
  counted := by
    have hlength : ∀ n : Node, n.edges.length = n.shape.references.length := fun n =>
      List.length_map _
    rw [edgeCount, wf.indexed.length_eq, List.length_flatMap]
    simp only [hlength]

/-- The graph was built from nodes or read from a text. -/
def Loaded (g : Graph) : Prop :=
  (∃ nodes, ofNodes nodes = .ok g) ∨ ∃ text, ofSnapshot text = .ok g

/-- A graph that was loaded is well formed, wherever it was loaded from. -/
theorem Loaded.wellFormed (h : g.Loaded) : g.WellFormed := by
  rcases h with ⟨nodes, hnodes⟩ | ⟨text, htext⟩
  · exact wellFormed_of_ofNodes hnodes
  · rw [ofSnapshot] at htext
    split at htext
    · rw [ofJson] at htext
      split at htext
      · exact wellFormed_of_ofNodes htext
      · cases htext
    · cases htext

end Graph

/-! ## Sequences of edits -/

namespace Edit

variable {g g' : Graph}

/-- A tag is added to a node of the graph. -/
theorem exists_of_addTag {id : ShapeId} {t : Tag} (h : (addTag id t).result g = .ok g') :
    ∃ n, g.get? id = some n ∧ g' = { g with nodes := g.nodes.insert (n.withTag t) } := by
  obtain ⟨⟨isNew, tagged⟩, hrun, rfl⟩ := map_eq_ok.1 h
  cases hget : g.get? id with
  | none =>
    rw [Graph.addTag, Graph.require, hget] at hrun
    cases hrun
  | some n =>
    rw [Graph.addTag_of_get? hget] at hrun
    cases hrun
    exact ⟨n, rfl, rfl⟩

/-- An edit that succeeds keeps a graph well formed. -/
theorem result_wellFormed (wf : g.WellFormed) {edit : Edit} (h : edit.result g = .ok g') :
    g'.WellFormed := by
  cases edit with
  | insert n => exact wf.insert h
  | addTag id t =>
    obtain ⟨n, hget, rfl⟩ := exists_of_addTag h
    obtain rfl := Graph.get?_id hget
    exact wf.tag hget t
  | setSides operation input output => exact wf.setSides h
  | normalize naming =>
    obtain ⟨⟨normalized, report⟩, hnormalize, rfl⟩ := map_eq_ok.1 h
    exact wf.normalize hnormalize
  | closeEquality =>
    obtain ⟨⟨closed, report⟩, hclose, rfl⟩ := map_eq_ok.1 h
    obtain ⟨closed', report', hclose', wf', -⟩ := wf.exists_closes
    rw [hclose] at hclose'
    cases hclose'
    exact wf'

/-- What holds of a graph and of the result of an edit holds of what the edit leaves. -/
theorem after_keep {P : Graph → Prop} (wf : g.WellFormed) {edit : Edit} (h : P g)
    (hresult : ∀ g', edit.result g = .ok g' → P g') : P (edit.after g) := by
  rw [after, run_eq wf]
  cases hedit : edit.result g with
  | ok g' => exact hresult g' hedit
  | error fault => exact h

/-- An edit keeps a graph well formed, whether it succeeds or fails. -/
theorem after_wellFormed (wf : g.WellFormed) (edit : Edit) : (edit.after g).WellFormed :=
  after_keep wf wf fun _ => result_wellFormed wf

theorem wellFormed_edits (wf : g.WellFormed) (edits : List Edit) :
    (edits.foldl after g).WellFormed := by
  induction edits generalizing g with
  | nil => exact wf
  | cons edit edits ih => exact ih (after_wellFormed wf edit)

/-- An edit that fails leaves the graph as it was. -/
theorem eq_of_run_eq_error (wf : g.WellFormed) {edit : Edit} {fault : Fault}
    (h : edit.run g = .error fault g') : g' = g := by
  rw [run_eq wf] at h
  cases hresult : edit.result g with
  | ok result => rw [hresult] at h; cases h
  | error fault' => rw [hresult] at h; cases h; rfl

end Edit

/-- After any sequence of edits the index agrees with the shapes, and an edit that fails then leaves
the graph exactly as it was. -/
theorem index_consistent_after_edits {start : Graph} (hstart : start.Loaded) (edits : List Edit) :
    (edits.foldl Edit.after start).Consistent ∧
      ∀ edit fault left, Edit.run edit (edits.foldl Edit.after start) = .error fault left →
        left = edits.foldl Edit.after start := by
  have wf := Edit.wellFormed_edits hstart.wellFormed edits
  exact ⟨wf.consistent, fun edit fault left h => Edit.eq_of_run_eq_error wf h⟩

/-! ## A depot -/

namespace Depot

/-- The identifier of a shape of the depot. -/
def shape (name : String) : ShapeId := ⟨"depot", name, none⟩

/-- Crates hold crates, in two members and a set.  One operation takes and returns a crate, the
other has no sides. -/
def nodes : List Node :=
  [ ⟨shape "Crate", .record [⟨"left", shape "Crate", .empty⟩, ⟨"right", shape "Crate", .empty⟩],
      .empty⟩,
    ⟨shape "Full", .record [], .empty⟩,
    ⟨shape "Stack", .set ⟨"item", shape "Crate", .empty⟩, .empty⟩,
    ⟨shape "swap", .operation (some (shape "Crate")) (some (shape "Crate"))
      [shape "Full", shape "Full"], .empty⟩,
    ⟨shape "check", .operation none none [], .empty⟩ ]

/-- The graph of the depot. -/
def graph : Graph := .ofNodesD nodes

/-- Edits of the depot, of which the first, the second, the fourth and the sixth fail. -/
def edits : List Edit :=
  [ .insert ⟨shape "Crate", .record [], .empty⟩,
    .insert ⟨shape "Label", .record [⟨"on", shape "Box", .empty⟩], .empty⟩,
    .insert ⟨shape "Label", .record [⟨"next", shape "Label", .empty⟩], .empty⟩,
    .addTag (shape "Box") .sensitive,
    .setSides (shape "swap") (shape "Label") (shape "Full"),
    .setSides (shape "Full") (shape "Label") (shape "Label"),
    .normalize {},
    .closeEquality ]

/-- The depot after all edits. -/
def edited : Graph := edits.foldl Edit.after graph

end Depot

/-- The stores agree after a run of edits of which some fail; the crate is nobody's input any more,
and its two members and its set still lead to it. -/
theorem depot_consistent_after_edits :
    Depot.edited.Consistent ∧
      (∃ fault left, Edit.run (.insert ⟨Depot.shape "Crate", .record [], .empty⟩) Depot.edited =
        .error fault left ∧ left = Depot.edited) ∧
      Depot.edited.size = 10 ∧ Depot.edited.edgeCount = 11 ∧
      Depot.edited.sources (Depot.shape "Crate") .input = [] ∧
      Depot.edited.sources (Depot.shape "Crate") .member = [Depot.shape "Crate"] := by
  have hloaded : Depot.graph.Loaded := Or.inl ⟨Depot.nodes, rfl⟩
  obtain ⟨consistent, hsame⟩ := index_consistent_after_edits hloaded Depot.edits
  have hpresent : Depot.edited.contains (Depot.shape "Crate") = true := by decide +kernel
  have hfails : Edit.run (.insert ⟨Depot.shape "Crate", .record [], .empty⟩) Depot.edited =
      .error (.duplicateShape (Depot.shape "Crate")) Depot.edited := by
    rw [Edit.run, EditM.insert_eq, Graph.insert, Graph.add, hpresent]
    rfl
  exact ⟨consistent, ⟨_, _, hfails, hsame _ _ _ hfails⟩, by decide +kernel⟩

end SchemaSymbols
