/-
  The equality closure tags exactly the records that sets lead to.

  1. **The requirement** is read off the shapes.  `RequiresEquality` starts at the records that are
     elements of sets (`SetElement`) and follows members from record to record (`RecordMember`).  It
     does not mention the index, the search or the tags that a graph has already.

  2. **The search** of the closure goes by the index of the graph instead, in rounds, and stops only
     at what is no record.  In a well-formed graph the index has the same edges
     (`WellFormed.mem_seeds`, `WellFormed.mem_step`), so both reach the same records, in the same
     number of steps (`WellFormed.mem_levels_iff`, `WellFormed.exists_distance_iff_lt`), and there
     are as many rounds as the greatest distance asks for.

  3. **Tagging** all records that were found changes the tags of these nodes and nothing else, in
     one pass over them (`exists_tagAll`); it cannot fail, as they are all in the graph.

  4. **What a run does**, to the graph and in its report, is one structure `Closes`.  It determines
     both, so a second run is settled by it too: a closed graph has the same shapes, hence the same
     requirement, and nothing is left to tag (`Closes.again`).

  `closeEquality_exact` says that a run on a well-formed graph ends well and does that, and what a
  run after it does.  `Library` is a graph with records at three distances and one that was tagged
  before.
-/
import SchemaSymbols.EqualityClosure
import SchemaSymbols.Proofs.Graph.Distances
import SchemaSymbols.Proofs.Graph.Upkeep

namespace SchemaSymbols

open Relation EqualityClosure

/-! ## The requirement -/

namespace Graph

variable {g g' : Graph} {id x y : ShapeId} {n : Nat}

/-- The record `id` is the element of a set. -/
def SetElement (g : Graph) (id : ShapeId) : Prop :=
  g.isRecord id = true ∧ ∃ n m, g.get? n.id = some n ∧ n.shape = .set m ∧ m.target = id

/-- The record `x` has a member that holds the record `y`. -/
def RecordMember (g : Graph) (x y : ShapeId) : Prop :=
  g.isRecord y = true ∧
    ∃ n, g.get? x = some n ∧ n.shape.isRecord = true ∧ ∃ m ∈ n.shape.members, m.target = y

/-- Members lead from the element of a set to the record `id`, through records only. -/
def RequiresEquality (g : Graph) (id : ShapeId) : Prop :=
  ∃ element, g.SetElement element ∧ ReflTransGen g.RecordMember element id

theorem isRecord_iff :
    g.isRecord id = true ↔ ∃ n, g.get? id = some n ∧ n.shape.isRecord = true := by
  rw [isRecord]
  cases hget : g.get? id with
  | none => simp
  | some n => simp

theorem isRecord_of_reachedIn (h : ReachedIn g.SetElement g.RecordMember n id) :
    g.isRecord id = true := by
  cases n with
  | zero => exact h.1
  | succ n =>
    obtain ⟨x, -, hx⟩ := h
    exact hx.1

theorem RequiresEquality.isRecord (h : g.RequiresEquality id) : g.isRecord id = true := by
  obtain ⟨n, hn⟩ := exists_reachedIn_iff.2 h
  exact isRecord_of_reachedIn hn

/-! ## The index -/

/-- What the index leads to by edges of a kind is what the shape refers to in that role. -/
theorem WellFormed.mem_targets (wf : g.WellFormed) {kind : EdgeKind} :
    y ∈ g.targets x kind ↔ ∃ n, g.get? x = some n ∧ (kind, y) ∈ n.shape.references := by
  rw [targets, ← Sorted.mem_def, Sorted.mem_ofList, ← wf.mem_edges]
  simp only [List.mem_map, List.mem_filter, decide_eq_true_eq]
  constructor
  · rintro ⟨e, ⟨he, rfl, rfl⟩, rfl⟩
    exact he
  · intro he
    exact ⟨⟨x, kind, y⟩, ⟨he, rfl, rfl⟩, rfl⟩

/-- The search starts at the records that are elements of sets. -/
theorem WellFormed.mem_seeds (wf : g.WellFormed) : id ∈ seeds g ↔ g.SetElement id := by
  rw [seeds, Sorted.mem_ofList]
  simp only [List.mem_filter, List.mem_flatMap, wf.mem_targets]
  constructor
  · rintro ⟨⟨k, ⟨hk, hset⟩, n, hn, href⟩, hrecord⟩
    rw [get?_of_mem hk] at hn
    cases hn
    obtain ⟨i, shape, tags⟩ := k
    cases shape with
    | set m =>
      exact ⟨hrecord, _, m, get?_of_mem hk, rfl, by simpa using (List.mem_singleton.1 href).symm⟩
    | _ => cases hset
  · rintro ⟨hrecord, k, m, hk, hset, rfl⟩
    refine ⟨⟨k, ⟨mem_nodes hk, by rw [hset]; rfl⟩, k, hk, ?_⟩, hrecord⟩
    rw [hset]
    exact List.mem_cons_self

/-- From a record the search goes on to the records that its members hold. -/
theorem WellFormed.mem_step (wf : g.WellFormed) (hx : g.isRecord x = true) :
    y ∈ EqualityClosure.step g x ↔ g.RecordMember x y := by
  obtain ⟨k, hk, hrecord⟩ := isRecord_iff.1 hx
  rw [EqualityClosure.step, List.mem_filter, wf.mem_targets, RecordMember, and_comm]
  refine and_congr_right fun _ => exists_congr fun n => and_congr_right fun hn => ?_
  rw [hk] at hn
  cases hn
  obtain ⟨i, shape, tags⟩ := k
  cases shape with
  | record members => simp [Shape.references, Shape.members, Shape.isRecord]
  | _ => cases hrecord

/-- The search takes as many steps to a record as there are members on the way. -/
theorem WellFormed.reachedIn_iff (wf : g.WellFormed) :
    ReachedIn (· ∈ seeds g) (fun x y => y ∈ EqualityClosure.step g x) n id ↔
      ReachedIn g.SetElement g.RecordMember n id := by
  induction n generalizing id with
  | zero => exact wf.mem_seeds
  | succ n ih =>
    constructor
    · rintro ⟨x, hx, hxy⟩
      exact ⟨x, ih.1 hx, (wf.mem_step (isRecord_of_reachedIn (ih.1 hx))).1 hxy⟩
    · rintro ⟨x, hx, hxy⟩
      exact ⟨x, ih.2 hx, (wf.mem_step (isRecord_of_reachedIn hx)).2 hxy⟩

theorem contains_of_isRecord (h : g.isRecord id = true) : g.contains id = true := by
  obtain ⟨k, hk, -⟩ := isRecord_iff.1 h
  exact contains_of_get? hk

theorem contains_of_mem_seeds (x : ShapeId) (hx : x ∈ seeds g) : g.contains x = true := by
  rw [seeds, Sorted.mem_ofList] at hx
  exact contains_of_isRecord (List.mem_filter.1 hx).2

/-- The search does not lead out of the graph, as it goes to records only. -/
theorem contains_of_mem_step (x : ShapeId) (_ : g.contains x = true) (y : ShapeId)
    (hy : y ∈ EqualityClosure.step g x) : g.contains y = true :=
  contains_of_isRecord (List.mem_filter.1 hy).2

/-- The search lists the records that require equality. -/
theorem WellFormed.mem_levels_iff (wf : g.WellFormed) :
    id ∈ (EqualityClosure.levels g).flatMap Sorted.toList ↔ g.RequiresEquality id := by
  rw [EqualityClosure.levels, mem_levels contains_of_mem_seeds contains_of_mem_step,
    RequiresEquality, ← exists_reachedIn_iff, ← exists_reachedIn_iff]
  exact exists_congr fun n => wf.reachedIn_iff

/-- The distances that occur are those below the number of levels. -/
theorem WellFormed.exists_distance_iff_lt (wf : g.WellFormed) {d : Nat} :
    (∃ id, Distance g.SetElement g.RecordMember d id) ↔ d < (EqualityClosure.levels g).length := by
  rw [EqualityClosure.levels, ← exists_distance_iff contains_of_mem_seeds contains_of_mem_step]
  refine exists_congr fun id => ?_
  rw [Distance, Distance]
  simp only [wf.reachedIn_iff]

theorem distance_zero_iff : Distance g.SetElement g.RecordMember 0 id ↔ g.SetElement id :=
  ⟨fun h => h.1, fun h => ⟨h, fun k _ => Nat.zero_le k⟩⟩

theorem WellFormed.length_levels_eq_zero (wf : g.WellFormed) (h : ∀ id, ¬ g.SetElement id) :
    (EqualityClosure.levels g).length = 0 := by
  refine Nat.eq_zero_of_not_pos fun hpos => ?_
  obtain ⟨id, hid⟩ := wf.exists_distance_iff_lt.2 hpos
  exact h id (distance_zero_iff.1 hid)

/-- There is one level more than the greatest distance. -/
theorem WellFormed.length_levels_eq_succ (wf : g.WellFormed) (h : ∃ id, g.SetElement id) :
    ∃ d, IsGreatest {d | ∃ id, Distance g.SetElement g.RecordMember d id} d ∧
      (EqualityClosure.levels g).length = d + 1 := by
  obtain ⟨id, hid⟩ := h
  have hpos : 0 < (EqualityClosure.levels g).length :=
    wf.exists_distance_iff_lt.1 ⟨id, distance_zero_iff.2 hid⟩
  refine ⟨(EqualityClosure.levels g).length - 1, ⟨?_, fun k hk => ?_⟩, by omega⟩
  · exact wf.exists_distance_iff_lt.2 (by omega)
  · have hlt := wf.exists_distance_iff_lt.1 hk
    omega

end Graph

/-! ## Tagging -/

theorem Node.withTag_withTag (n : Node) (t : Tag) : (n.withTag t).withTag t = n.withTag t := by
  have htags : (n.tags.insert t).insert t = n.tags.insert t :=
    Sorted.insert_of_mem (Sorted.mem_insert_self n.tags t)
  rw [withTag, withTag, htags]

/-- The node, tagged if it is one of the given ones. -/
def Node.withEquality (ids : List ShapeId) (n : Node) : Node :=
  if n.id ∈ ids then n.withTag .equality else n

theorem Node.withEquality_withTag (ids : List ShapeId) (n : Node) :
    (n.withTag .equality).withEquality ids = n.withEquality (n.id :: ids) := by
  rw [withEquality, withEquality, if_pos (List.mem_cons_self : n.id ∈ n.id :: ids)]
  split
  · exact n.withTag_withTag .equality
  · rfl

@[simp] theorem Node.shape_withEquality (ids : List ShapeId) (n : Node) :
    (n.withEquality ids).shape = n.shape := by
  rw [withEquality]
  split <;> rfl

/-- A tagged node has the tag, and its other tags are those from before. -/
theorem Node.mem_tags_withEquality {ids : List ShapeId} {n : Node} {t : Tag} :
    t ∈ (n.withEquality ids).tags ↔ t ∈ n.tags ∨ (t = .equality ∧ n.id ∈ ids) := by
  rw [withEquality]
  split
  · rename_i hid
    rw [withTag, Sorted.mem_insert_set, or_comm]
    exact or_congr_right ⟨fun ht => ⟨ht, hid⟩, And.left⟩
  · rename_i hid
    exact ⟨Or.inl, fun h => h.resolve_right fun ht => hid ht.2⟩

theorem EqualityClosure.isTagged_iff {n : Node} : isTagged n = true ↔ .equality ∈ n.tags :=
  Sorted.contains_set_iff

namespace Graph

variable {g g' : Graph} {id : ShapeId} {ids : List ShapeId}

/-- Tagging a node of a graph succeeds, and says whether the tag is new. -/
theorem addTag_of_get? {n : Node} (hn : g.get? id = some n) (t : Tag) :
    g.addTag id t =
      .ok (!n.tags.contains t, { g with nodes := g.nodes.insert (n.withTag t) }) := by
  rw [addTag, require_of_get? hn]
  rfl

/-- Shapes of the graph can be tagged, and nothing else changes. -/
theorem exists_tagAll (wf : g.WellFormed) (hids : ∀ id ∈ ids, g.contains id = true) :
    ∃ g', tagAll g ids = .ok g' ∧ g'.WellFormed ∧ g'.edges = g.edges ∧
      ∀ id, g'.get? id = (g.get? id).map (Node.withEquality ids) := by
  induction ids generalizing g with
  | nil =>
    refine ⟨g, rfl, wf, rfl, fun id => ?_⟩
    have hsame : Node.withEquality [] = fun n => n := by
      funext n
      exact if_neg List.not_mem_nil
    rw [hsame, Option.map_id']
  | cons first ids ih =>
    obtain ⟨n, hn⟩ := contains_iff.1 (hids first List.mem_cons_self)
    obtain rfl := get?_id hn
    -- one node is replaced by its tagged copy
    have hget : ∀ id, Graph.get? { g with nodes := g.nodes.insert (n.withTag .equality) } id =
        if n.id = id then some (n.withTag .equality) else g.get? id := fun id =>
      Sorted.find?_insert g.nodes (n.withTag .equality) id
    obtain ⟨g', hrest, wf', hedges, hall⟩ := ih (wf.tag hn .equality) fun id hid =>
      Sorted.contains_insert.2 (Or.inr (hids id (List.mem_cons_of_mem _ hid)))
    refine ⟨g', ?_, wf', hedges, fun id => ?_⟩
    · rw [tagAll, List.foldlM_cons, addTag_of_get? hn]
      exact hrest
    · rw [hall, hget]
      split
      · rename_i he
        rw [← he, hn, Option.map_some, Option.map_some, Node.withEquality_withTag]
      · rename_i hne
        cases hk : g.get? id with
        | none => rfl
        | some k =>
          have hkid : k.id ≠ n.id := fun he => hne (he.symm.trans (get?_id hk))
          simp [Node.withEquality, hkid]

end Graph

/-! ## What a run does -/

/-- What the closure of `g` is, and what is reported about it. -/
structure Closes (g g' : Graph) (report : Report) : Prop where
  /-- The edges are those from before. -/
  edges : g'.edges = g.edges
  /-- The identifiers and their shapes are those from before. -/
  shapes : ∀ id, (g'.get? id).map Node.shape = (g.get? id).map Node.shape
  /-- A tag that a node has was there before, or is the one for a record that requires equality. -/
  tags : ∀ id n n', g.get? id = some n → g'.get? id = some n' →
    ∀ t, t ∈ n'.tags ↔ t ∈ n.tags ∨ (t = .equality ∧ g.RequiresEquality id)
  /-- All tagged records are reported. -/
  tagged : ∀ id, id ∈ report.tagged ↔
    ∃ n', g'.get? id = some n' ∧ n'.shape.isRecord = true ∧ .equality ∈ n'.tags
  /-- So are, on their own, those that were not tagged before. -/
  newlyTagged : ∀ id, id ∈ report.newlyTagged ↔
    id ∈ report.tagged ∧ ∃ n, g.get? id = some n ∧ .equality ∉ n.tags
  /-- Each record is reported once, in order. -/
  sorted : report.tagged.Pairwise (fun x y => compare x y = .lt) ∧
    report.newlyTagged.Pairwise (fun x y => compare x y = .lt)
  /-- Without sets of records there is no round. -/
  noRound : (∀ id, ¬ g.SetElement id) → report.rounds = 0
  /-- The last round finds the records farthest away from the elements of sets. -/
  rounds : (∃ id, g.SetElement id) →
    ∃ d, IsGreatest {d | ∃ id, Distance g.SetElement g.RecordMember d id} d ∧
      report.rounds = d + 1

variable {g g' g'' : Graph} {id : ShapeId} {report report' : Report}

/-- What is reported as tagged are the records with the tag. -/
theorem Graph.mem_tagged_records :
    id ∈ (g.nodes.toList.filter fun n => n.shape.isRecord && isTagged n).map Node.id ↔
      ∃ n, g.get? id = some n ∧ n.shape.isRecord = true ∧ .equality ∈ n.tags := by
  simp only [List.mem_map, List.mem_filter, Bool.and_eq_true, isTagged_iff]
  constructor
  · rintro ⟨n, ⟨hn, hrecord, htag⟩, rfl⟩
    exact ⟨n, Graph.get?_of_mem hn, hrecord, htag⟩
  · rintro ⟨n, hn, hrecord, htag⟩
    exact ⟨n, ⟨Graph.mem_nodes hn, hrecord, htag⟩, Graph.get?_id hn⟩

/-- A run ends well, and closes the graph. -/
theorem Graph.WellFormed.exists_closes (wf : g.WellFormed) :
    ∃ g' report, g.closeEquality = .ok (g', report) ∧ g'.WellFormed ∧ Closes g g' report := by
  have hreached : ∀ id, id ∈ (EqualityClosure.levels g).flatMap Sorted.toList ↔
      g.RequiresEquality id := fun id => wf.mem_levels_iff
  obtain ⟨g', hrun, wf', hedges, hget⟩ := Graph.exists_tagAll wf fun id hid =>
    Graph.contains_of_isRecord ((hreached id).1 hid).isRecord
  have htags : ∀ id n n', g.get? id = some n → g'.get? id = some n' →
      ∀ t, t ∈ n'.tags ↔ t ∈ n.tags ∨ (t = .equality ∧ g.RequiresEquality id) := by
    intro id n n' hn hn' t
    rw [hget, hn, Option.map_some] at hn'
    cases hn'
    rw [Node.mem_tags_withEquality, Graph.get?_id hn, hreached]
  refine ⟨g', _, by rw [Graph.closeEquality, hrun]; rfl, wf', {
    edges := hedges
    shapes := fun id => by
      rw [hget, Option.map_map]
      congr 1
      funext n
      exact n.shape_withEquality _
    tags := htags
    tagged := fun id => Graph.mem_tagged_records
    newlyTagged := fun id => ?_
    sorted := ⟨?_, Sorted.sorted _⟩
    noRound := wf.length_levels_eq_zero
    rounds := wf.length_levels_eq_succ }⟩
  · rw [← Sorted.mem_def, Sorted.mem_ofList, List.mem_filter, hreached,
      Graph.mem_tagged_records]
    constructor
    · rintro ⟨hrequires, hfresh⟩
      obtain ⟨n, hn, hrecord⟩ := Graph.isRecord_iff.1 hrequires.isRecord
      have hn' : g'.get? id =
          some (n.withEquality ((EqualityClosure.levels g).flatMap Sorted.toList)) := by
        rw [hget, hn, Option.map_some]
      refine ⟨⟨_, hn', ?_, (htags id n _ hn hn' _).2 (Or.inr ⟨rfl, hrequires⟩)⟩, n, hn, ?_⟩
      · rw [Node.shape_withEquality]
        exact hrecord
      · rw [hn] at hfresh
        rw [← isTagged_iff]
        simpa using hfresh
    · rintro ⟨⟨n', hn', -, htag⟩, n, hn, hfresh⟩
      -- a tag that was not there before is one of the closure
      have hrequires := ((htags id n n' hn hn' _).1 htag).resolve_left hfresh
      refine ⟨hrequires.2, ?_⟩
      rw [← isTagged_iff] at hfresh
      rw [hn]
      simpa using hfresh
  · rw [List.pairwise_map]
    exact g'.nodes.sorted.filter _

/-! ## A second run -/

namespace Closes

theorem isRecord_eq (h : Closes g g' report) (id : ShapeId) : g'.isRecord id = g.isRecord id := by
  have hshape := h.shapes id
  rw [Graph.isRecord, Graph.isRecord]
  cases hn : g.get? id <;> cases hn' : g'.get? id <;> simp_all

theorem exists_shape_iff (h : Closes g g' report) {P : Shape → Prop} (id : ShapeId) :
    (∃ n, g'.get? id = some n ∧ P n.shape) ↔ ∃ n, g.get? id = some n ∧ P n.shape := by
  have hshape := h.shapes id
  cases hn : g.get? id <;> cases hn' : g'.get? id <;> simp_all

/-- A closed graph has the same elements of sets. -/
theorem setElement_eq (h : Closes g g' report) : g'.SetElement = g.SetElement := by
  funext id
  have hset : ∀ k : Graph, (∃ n m, k.get? n.id = some n ∧ n.shape = .set m ∧ m.target = id) ↔
      ∃ x n, k.get? x = some n ∧ ∃ m, n.shape = .set m ∧ m.target = id := by
    intro k
    constructor
    · rintro ⟨n, m, hn, hm⟩
      exact ⟨n.id, n, hn, m, hm⟩
    · rintro ⟨x, n, hn, m, hm⟩
      exact ⟨n, m, (Graph.get?_id hn) ▸ hn, hm⟩
  rw [Graph.SetElement, Graph.SetElement, h.isRecord_eq, hset, hset]
  refine propext (and_congr_right fun _ => exists_congr fun x => ?_)
  exact h.exists_shape_iff (P := fun s => ∃ m, s = .set m ∧ m.target = id) x

theorem recordMember_eq (h : Closes g g' report) : g'.RecordMember = g.RecordMember := by
  funext x y
  rw [Graph.RecordMember, Graph.RecordMember, h.isRecord_eq]
  refine propext (and_congr_right fun _ => ?_)
  exact h.exists_shape_iff
    (P := fun s => s.isRecord = true ∧ ∃ m ∈ s.members, m.target = y) x

theorem requiresEquality_iff (h : Closes g g' report) :
    g'.RequiresEquality id ↔ g.RequiresEquality id := by
  rw [Graph.RequiresEquality, Graph.RequiresEquality, h.setElement_eq, h.recordMember_eq]

/-- After a run there is nothing left to tag. -/
theorem get?_again (h : Closes g g' report) (h' : Closes g' g'' report') (id : ShapeId) :
    g''.get? id = g'.get? id := by
  have hshape := h'.shapes id
  cases hn : g.get? id with
  | none =>
    have hn' : g'.get? id = none := by simpa [hn] using h.shapes id
    rw [hn'] at hshape ⊢
    simpa using hshape
  | some n =>
    obtain ⟨n', hn', -⟩ : ∃ n', g'.get? id = some n' ∧ n'.shape = n.shape := by
      simpa [hn] using h.shapes id
    obtain ⟨n'', hn'', hsame⟩ : ∃ n'', g''.get? id = some n'' ∧ n''.shape = n'.shape := by
      simpa [hn'] using hshape
    have htags : n''.tags = n'.tags := Sorted.ext_mem fun t => by
      rw [h'.tags id n' n'' hn' hn'' t, h.requiresEquality_iff]
      exact or_iff_left_of_imp fun ht => (h.tags id n n' hn hn' t).2 (Or.inr ht)
    have hid : n''.id = n'.id := (Graph.get?_id hn'').trans (Graph.get?_id hn').symm
    rw [hn', hn'']
    obtain ⟨i, shape, tags⟩ := n'
    obtain ⟨i', shape', tags'⟩ := n''
    obtain rfl : i' = i := hid
    obtain rfl : shape' = shape := hsame
    obtain rfl : tags' = tags := htags
    rfl

/-- A second run goes through the same rounds: the distances are the same. -/
theorem rounds_again (h : Closes g g' report) (h' : Closes g' g'' report') :
    report'.rounds = report.rounds := by
  have hnone := h'.noRound
  have hsome := h'.rounds
  rw [h.setElement_eq] at hnone
  rw [h.setElement_eq, h.recordMember_eq] at hsome
  by_cases hset : ∃ id, g.SetElement id
  · obtain ⟨d, hd, hrounds⟩ := h.rounds hset
    obtain ⟨d', hd', hrounds'⟩ := hsome hset
    rw [hrounds, hrounds', hd'.unique hd]
  · rw [hnone (not_exists.1 hset), h.noRound (not_exists.1 hset)]

/-- A second run changes nothing and reports the same records, none of them as newly tagged. -/
theorem again (h : Closes g g' report) (h' : Closes g' g'' report') :
    g'' = g' ∧ report' = { report with newlyTagged := [] } := by
  have hget := h.get?_again h'
  have hgraph : g'' = g' := by
    obtain ⟨nodes, edges⟩ := g'
    obtain ⟨nodes', edges'⟩ := g''
    obtain rfl : edges' = edges := h'.edges
    obtain rfl : nodes' = nodes := Sorted.ext_find? hget
    rfl
  have htagged : report'.tagged = report.tagged := by
    refine Sorted.eq_of_mem_iff h'.sorted.1 h.sorted.1 fun id => ?_
    rw [h'.tagged, h.tagged, hget]
  have hnew : report'.newlyTagged = [] := by
    refine List.eq_nil_iff_forall_not_mem.2 fun id hid => ?_
    obtain ⟨hid, n', hn', hfresh⟩ := (h'.newlyTagged id).1 hid
    obtain ⟨k, hk, -, htag⟩ := (h.tagged id).1 (htagged ▸ hid)
    rw [hn'] at hk
    cases hk
    exact hfresh htag
  have hrounds := h.rounds_again h'
  obtain ⟨tagged, newlyTagged, rounds⟩ := report'
  obtain rfl : tagged = report.tagged := htagged
  obtain rfl : newlyTagged = [] := hnew
  obtain rfl : rounds = report.rounds := hrounds
  exact ⟨hgraph, rfl⟩

end Closes

/-- The closure always ends well.  It tags exactly the records that require equality, and running it
again changes nothing. -/
theorem closeEquality_exact (wf : g.WellFormed) :
    ∃ g' report, g.closeEquality = .ok (g', report) ∧ Closes g g' report ∧
      g'.closeEquality = .ok (g', { report with newlyTagged := [] }) := by
  obtain ⟨g', report, hrun, wf', closes⟩ := wf.exists_closes
  obtain ⟨g'', report', hagain, -, closes'⟩ := wf'.exists_closes
  obtain ⟨rfl, rfl⟩ := closes.again closes'
  exact ⟨g'', report, hrun, closes, hagain⟩

/-! ## A library -/

namespace Library

/-- The identifier of a shape of the library. -/
def shape (name : String) : ShapeId := ⟨"library", name, none⟩

/-- A set of books.  A book and its author hold each other; the union and the list that a book holds
lead to records that need no equality.  One record was tagged beforehand. -/
def nodes : List Node :=
  [ ⟨shape "Shelf", .set ⟨"item", shape "Book", .empty⟩, .empty⟩,
    ⟨shape "Book", .record [⟨"author", shape "Author", .empty⟩, ⟨"state", shape "State", .empty⟩,
      ⟨"pages", shape "Pages", .empty⟩], .empty⟩,
    ⟨shape "Author", .record [⟨"best", shape "Book", .empty⟩, ⟨"born", shape "Town", .empty⟩],
      .empty⟩,
    ⟨shape "Town", .record [], .empty⟩,
    ⟨shape "State", .union [⟨"lent", shape "Loan", .empty⟩], .empty⟩,
    ⟨shape "Loan", .record [], .empty⟩,
    ⟨shape "Pages", .list ⟨"item", shape "Page", .empty⟩, .empty⟩,
    ⟨shape "Page", .record [], Sorted.empty.insert .equality⟩ ]

/-- The graph of the library. -/
def graph : Graph := .ofNodesD nodes

/-- The library after a run, and its report. -/
def closed : Graph × Report :=
  match graph.closeEquality with
  | .ok result => result
  | .error _ => ({}, ⟨[], [], 0⟩)

end Library

/-- The town is two members away from the set, so there are three rounds.  The page is reported as
tagged, though no set leads there, and the loan is not reached behind a union. -/
theorem library_closure_exact :
    Library.graph.size = 8 ∧
      Library.closed.2 = ⟨[Library.shape "Author", Library.shape "Book", Library.shape "Page",
        Library.shape "Town"], [Library.shape "Author", Library.shape "Book", Library.shape "Town"],
        3⟩ ∧
      Closes Library.graph Library.closed.1 Library.closed.2 := by
  obtain ⟨g', report, hrun, closes, -⟩ :=
    closeEquality_exact (Graph.wellFormed_ofNodesD Library.nodes)
  have hclosed : Library.closed = (g', report) := by
    rw [Library.closed, Library.graph, hrun]
  exact ⟨by decide +kernel, by decide +kernel, hclosed ▸ closes⟩

end SchemaSymbols
