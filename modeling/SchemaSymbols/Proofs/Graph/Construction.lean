/-
  The order in which a graph is put together does not matter.

  Nodes that are loaded at once are linked when all of them are there, in the order of identifiers;
  nodes that are added one by one are linked as they come.

  1. **Graphs with the same nodes** cannot be told apart by any query if they are well formed
     (`Graph.WellFormed.agrees`): their indices are permutations of each other, and all queries sort
     or count what they find there.

  2. **Nodes that are loaded at once** make a graph exactly if they are `Loadable`: no identifier is
     repeated and no reference leads out.  The conditions speak of the list as a set, so any
     permutation is loadable as well.  If they are not met the fault is settled too: the first
     identifier that is repeated (`FirstRepeated`), or else, among the nodes whose references lead
     out, the least one and the first of its targets that is missing (`FirstMissing`).

  3. **Nodes that are added one by one** must come after those they refer to (`InsertableAfter`),
     which a permutation may break.  But if they can be added they can be loaded, and both ways
     make graphs with the same nodes.

  So all that depends on the way is whether it succeeds, and which fault ends it if it does not.
  `construction_settled_by_nodes` lists these facts.
-/
import SchemaSymbols.Proofs.Graph.Snapshot

namespace SchemaSymbols

namespace Graph

variable {g g' : Graph} {n : Node} {l l' : List Node} {id : ShapeId}

/-! ## Graphs with the same nodes -/

/-- What can be asked about two graphs has the same answers. -/
structure Agrees (g g' : Graph) : Prop where
  nodes : g'.nodes = g.nodes
  fingerprint : g'.fingerprint = g.fingerprint
  targets : ∀ id kind, g'.targets id kind = g.targets id kind
  sources : ∀ id kind, g'.sources id kind = g.sources id kind
  edgeCount : g'.edgeCount = g.edgeCount
  surface : g'.surface = g.surface

/-- Up to order, the nodes settle the index. -/
theorem WellFormed.perm_index (wf : g.WellFormed) (wf' : g'.WellFormed) (h : g'.nodes = g.nodes) :
    g'.edges.Perm g.edges := by
  have hindexed := wf'.indexed
  rw [h] at hindexed
  exact hindexed.trans wf.indexed.symm

/-- The nodes settle everything. -/
theorem WellFormed.agrees (wf : g.WellFormed) (wf' : g'.WellFormed) (h : g'.nodes = g.nodes) :
    g.Agrees g' := by
  have hindex : g'.edges.Perm g.edges := wf.perm_index wf' h
  have hget : ∀ id, g'.get? id = g.get? id := fun id => by rw [get?, get?, h]
  refine ⟨h, ?_, fun id kind => ?_, fun id kind => ?_, edgeCount_congr wf wf' h, ?_⟩
  · rw [fingerprint, fingerprint, toJson_congr h]
  · refine congrArg Sorted.toList (Sorted.ext_mem fun x => ?_)
    rw [Sorted.mem_ofList, Sorted.mem_ofList]
    exact ((hindex.filter _).map _).mem_iff
  · refine congrArg Sorted.toList (Sorted.ext_mem fun x => ?_)
    rw [Sorted.mem_ofList, Sorted.mem_ofList]
    exact ((hindex.filter _).map _).mem_iff
  · have hrefers : g'.Refers = g.Refers := by
      funext x y
      rw [← propext wf'.mem_successors, ← propext wf.mem_successors]
      exact propext ((hindex.filter _).map _).mem_iff
    refine Sorted.ext_mem fun x => ?_
    rw [wf'.mem_surface, wf.mem_surface, services, services, h, Reaches, Reaches, hrefers]

/-- Graphs that list the same nodes have them in the same places. -/
theorem nodes_eq_of_mem_iff (h : ∀ n, n ∈ g.nodes ↔ n ∈ l) (h' : ∀ n, n ∈ g'.nodes ↔ n ∈ l')
    (hperm : l.Perm l') : g'.nodes = g.nodes := by
  refine Sorted.ext_toList (Sorted.eq_of_mem_iff g'.nodes.sorted g.nodes.sorted fun n => ?_)
  exact (h' n).trans (hperm.mem_iff.symm.trans (h n).symm)

/-- A graph that lists some nodes has the shapes with their identifiers. -/
theorem contains_iff_mem_ids (h : ∀ n, n ∈ g.nodes ↔ n ∈ l) :
    g.contains id = true ↔ id ∈ l.map Node.id := by
  rw [contains, Sorted.contains_iff, List.mem_map]
  exact exists_congr fun n => and_congr_left fun _ => h n

/-! ## Nodes that are loaded at once -/

/-- No identifier is repeated, and every reference leads to a node of the list. -/
structure Loadable (l : List Node) : Prop where
  distinct : (l.map Node.id).Nodup
  closed : ∀ n ∈ l, ∀ r ∈ n.shape.references, r.2 ∈ l.map Node.id

/-- Whether nodes are loadable does not depend on their order. -/
theorem Loadable.perm (h : Loadable l) (hperm : l.Perm l') : Loadable l' where
  distinct := (hperm.map Node.id).nodup_iff.1 h.distinct
  closed n hn r hr := (hperm.map Node.id).mem_iff.1 (h.closed n (hperm.mem_iff.2 hn) r hr)

/-- An identifier that is repeated, and the first one to be: those before it differ. -/
def FirstRepeated (l : List Node) (id : ShapeId) : Prop :=
  ∃ before n after, l = before ++ n :: after ∧ n.id = id ∧ (before.map Node.id).Nodup ∧
    id ∈ before.map Node.id

/-- A reference leads out of the list. -/
def LeadsOut (l : List Node) (n : Node) : Prop :=
  ∃ r ∈ n.shape.references, r.2 ∉ l.map Node.id

/-- The least node with a reference out of the list, and the first such reference that it makes. -/
def FirstMissing (l : List Node) (source target : ShapeId) : Prop :=
  ∃ n ∈ l, n.id = source ∧ (∀ k ∈ l, LeadsOut l k → (compare source k.id).isLE = true) ∧
    ∃ before r after, n.shape.references = before ++ r :: after ∧ r.2 = target ∧
      target ∉ l.map Node.id ∧ ∀ earlier ∈ before, earlier.2 ∈ l.map Node.id

/-- If an identifier is repeated, one of them is the first. -/
theorem exists_firstRepeated (h : ¬ (l.map Node.id).Nodup) : ∃ id, FirstRepeated l id := by
  induction l using List.reverseRecOn with
  | nil => exact absurd List.nodup_nil h
  | append_singleton l n ih =>
    by_cases hdistinct : (l.map Node.id).Nodup
    · have hmem : n.id ∈ l.map Node.id := by
        by_contra hfresh
        refine h ?_
        rw [List.map_append, List.nodup_append_comm]
        exact List.nodup_cons.2 ⟨hfresh, hdistinct⟩
      exact ⟨n.id, l, n, [], rfl, rfl, hdistinct, hmem⟩
    · obtain ⟨id, before, k, after, rfl, hk⟩ := ih hdistinct
      exact ⟨id, before, k, after ++ [n], by simp, hk⟩

/-- Once all nodes are filed, they are linked in the order of identifiers. -/
theorem ofNodes_eq_of_add {added : Graph} (h : l.foldlM add {} = .ok added) :
    ofNodes l = added.nodes.toList.foldlM link added := by
  rw [ofNodes, h]
  rfl

/-- Nodes with different identifiers are all there when the linking starts. -/
theorem exists_added (h : (l.map Node.id).Nodup) :
    ∃ added, l.foldlM add {} = .ok added ∧ ∀ n, n ∈ added.nodes ↔ n ∈ l := by
  obtain ⟨added, hadd, hmem⟩ := exists_foldlM_add (g := {}) h fun _ _ => rfl
  exact ⟨added, hadd, fun n => (hmem n).trans (or_iff_right List.not_mem_nil)⟩

/-- Loading stops at the first identifier that is repeated. -/
theorem ofNodes_of_firstRepeated (h : FirstRepeated l id) :
    ofNodes l = .error (.duplicateShape id) := by
  obtain ⟨before, n, after, rfl, rfl, hdistinct, hrepeated⟩ := h
  obtain ⟨added, hadd, hmem⟩ := exists_added hdistinct
  have hn : added.add n = .error (.duplicateShape n.id) := by
    rw [add, (contains_iff_mem_ids hmem).2 hrepeated]
    rfl
  rw [ofNodes, List.foldlM_append, hadd]
  change ((n :: after).foldlM add added >>= _) = _
  rw [List.foldlM_cons, hn]
  rfl

/-- Linking ends at the first node with a reference that leads nowhere. -/
theorem foldlM_link_eq_error {before after : List Node} {r : EdgeKind × ShapeId}
    (hbefore : ∀ k ∈ before, ∀ r ∈ k.shape.references, g.contains r.2 = true)
    (hr : n.shape.references.find? (fun r => !g.contains r.2) = some r) :
    (before ++ n :: after).foldlM link g = .error (.danglingReference n.id r.2) := by
  obtain ⟨middle, hlink⟩ := exists_foldlM_link hbefore
  have hn : middle.link n = .error (.danglingReference n.id r.2) := by
    rw [link, show middle.contains = g.contains from funext fun id => by
      rw [contains, contains, (of_foldlM_link hlink).1], hr]
  rw [List.foldlM_append, hlink]
  change (n :: after).foldlM link middle = _
  rw [List.foldlM_cons, hn]
  rfl

/-- A reference out of the list is found at the least node that has one. -/
theorem exists_firstMissing (distinct : (l.map Node.id).Nodup) (h : ∃ n ∈ l, LeadsOut l n) :
    ∃ source target, FirstMissing l source target ∧
      ofNodes l = .error (.danglingReference source target) := by
  obtain ⟨added, hadd, hmem⟩ := exists_added distinct
  have hids : ∀ id, added.contains id = false ↔ id ∉ l.map Node.id := fun id => by
    rw [← contains_iff_mem_ids hmem, Bool.not_eq_true]
  have hout : ∀ n, (n.shape.references.any fun r => !added.contains r.2) = true ↔ LeadsOut l n := by
    intro n
    rw [List.any_eq_true, LeadsOut]
    exact exists_congr fun r => and_congr_right fun _ => by rw [Bool.not_eq_true', hids]
  obtain ⟨n, hfind⟩ : ∃ n, added.nodes.toList.find?
      (fun n => n.shape.references.any fun r => !added.contains r.2) = some n := by
    obtain ⟨n, hn, hleads⟩ := h
    exact Option.isSome_iff_exists.1 (List.find?_isSome.2 ⟨n, (hmem n).2 hn, (hout n).2 hleads⟩)
  obtain ⟨hn, before, after, hsplit, hbefore⟩ := List.find?_eq_some_iff_append.1 hfind
  have hclosed : ∀ k ∈ before, ∀ r ∈ k.shape.references, added.contains r.2 = true := by
    intro k hk r hr
    have hk := hbefore k hk
    rw [Bool.not_eq_true', List.any_eq_false] at hk
    simpa using hk r hr
  obtain ⟨r, hr⟩ : ∃ r, n.shape.references.find? (fun r => !added.contains r.2) = some r :=
    Option.isSome_iff_exists.1 (List.find?_isSome.2 (List.any_eq_true.1 hn))
  obtain ⟨hmissing, earlier, later, hreferences, hearlier⟩ := List.find?_eq_some_iff_append.1 hr
  have hnl : n ∈ l := (hmem n).1 (List.mem_of_find?_eq_some hfind)
  refine ⟨n.id, r.2, ⟨n, hnl, rfl, fun k hk hleads => ?_, earlier, r, later, hreferences, rfl, ?_,
    fun e he => ?_⟩, ?_⟩
  · refine Sorted.isLE_of_not_mem_before hsplit ((hmem k).2 hk) fun hmemBefore => ?_
    obtain ⟨r, hr, hnot⟩ := hleads
    rw [← hids, hclosed k hmemBefore r hr] at hnot
    cases hnot
  · rwa [Bool.not_eq_true', hids] at hmissing
  · exact (contains_iff_mem_ids hmem).1 (by simpa using hearlier e he)
  · rw [ofNodes_eq_of_add hadd, hsplit]
    exact foldlM_link_eq_error hclosed hr

/-- Loadable nodes make a graph, which lists them. -/
theorem Loadable.exists_ofNodes (h : Loadable l) :
    ∃ g, ofNodes l = .ok g ∧ g.WellFormed ∧ ∀ n, n ∈ g.nodes ↔ n ∈ l := by
  obtain ⟨added, hadd, hmem⟩ := exists_added h.distinct
  have hclosed : ∀ n ∈ added.nodes.toList, ∀ r ∈ n.shape.references, added.contains r.2 = true :=
    fun n hn r hr => (contains_iff_mem_ids hmem).2 (h.closed n ((hmem n).1 hn) r hr)
  obtain ⟨g, hlink⟩ := exists_foldlM_link hclosed
  have hbuilt : ofNodes l = .ok g := (ofNodes_eq_of_add hadd).trans hlink
  refine ⟨g, hbuilt, wellFormed_of_ofNodes hbuilt, fun n => ?_⟩
  rw [(of_foldlM_link hlink).1]
  exact hmem n

/-- Nodes with distinct identifiers are loadable, or some reference leads out. -/
theorem loadable_or_leadsOut (distinct : (l.map Node.id).Nodup) :
    Loadable l ∨ ∃ n ∈ l, LeadsOut l n := by
  by_cases h : ∃ n ∈ l, LeadsOut l n
  · exact Or.inr h
  · refine Or.inl ⟨distinct, fun n hn r hr => ?_⟩
    by_contra hout
    exact h ⟨n, hn, r, hr, hout⟩

/-- Nodes make a graph if they are loadable. -/
theorem ofNodes_eq_ok_iff : (∃ g, ofNodes l = .ok g) ↔ Loadable l := by
  refine ⟨fun ⟨g, hg⟩ => ?_, fun h => h.exists_ofNodes.imp fun _ => And.left⟩
  by_cases distinct : (l.map Node.id).Nodup
  · refine (loadable_or_leadsOut distinct).resolve_right fun hout => ?_
    obtain ⟨_, _, -, hfail⟩ := exists_firstMissing distinct hout
    rw [hfail] at hg
    cases hg
  · obtain ⟨id, hrepeated⟩ := exists_firstRepeated distinct
    rw [ofNodes_of_firstRepeated hrepeated] at hg
    cases hg

/-! ## Nodes that are added one by one -/

/-- Each node has an identifier that is new, and refers to itself or to what was there before. -/
def InsertableAfter (ids : List ShapeId) : List Node → Prop
  | [] => True
  | n :: rest => n.id ∉ ids ∧ (∀ r ∈ n.shape.references, r.2 ∈ n.id :: ids) ∧
      InsertableAfter (n.id :: ids) rest

instance decidableInsertableAfter :
    (ids : List ShapeId) → (l : List Node) → Decidable (InsertableAfter ids l)
  | _, [] => inferInstanceAs (Decidable True)
  | ids, n :: rest =>
    have := decidableInsertableAfter (n.id :: ids) rest
    inferInstanceAs (Decidable (_ ∧ _ ∧ _))

/-- A node is inserted if its identifier is new and its references lead to itself or to nodes that
are there. -/
theorem insert_eq_ok_iff : (∃ g', g.insert n = .ok g') ↔
    g.contains n.id = false ∧ ∀ r ∈ n.shape.references, r.2 = n.id ∨ g.contains r.2 = true := by
  refine ⟨fun ⟨g', h⟩ => ⟨(of_insert h).1, (edges_of_insert h).2⟩, fun ⟨hfresh, hclosed⟩ => ?_⟩
  have hnone : n.shape.references.find? (fun r => !g.contains r.2 && r.2 != n.id) = none := by
    refine List.find?_eq_none.2 fun r hr => ?_
    rcases hclosed r hr with hself | hpresent
    · simp [hself]
    · simp [hpresent]
  have hadd : g.add n = .ok { g with nodes := g.nodes.insert n } := by
    rw [add, hfresh]
    rfl
  have hpresent : ∀ k ∈ [n], ∀ r ∈ k.shape.references,
      Graph.contains { g with nodes := g.nodes.insert n } r.2 = true := by
    intro k hk r hr
    obtain rfl := List.mem_singleton.1 hk
    exact Sorted.contains_insert.2 ((hclosed r hr).imp_left Eq.symm)
  obtain ⟨_, hlink⟩ := exists_foldlM_link hpresent
  obtain ⟨g', hlink, -⟩ := bind_eq_ok.1 hlink
  refine ⟨g', ?_⟩
  rw [insert, hnone]
  change (g.add n >>= fun g => g.link n) = _
  rw [hadd]
  exact hlink

/-- An order succeeds exactly if every node can be added when its turn comes. -/
theorem foldlM_insert_eq_ok_iff {ids : List ShapeId} (h : ∀ id, g.contains id = true ↔ id ∈ ids) :
    (∃ g', l.foldlM insert g = .ok g') ↔ InsertableAfter ids l := by
  induction l generalizing g ids with
  | nil => exact ⟨fun _ => trivial, fun _ => ⟨g, rfl⟩⟩
  | cons n l ih =>
    have hfresh : g.contains n.id = false ↔ n.id ∉ ids := by rw [← h, Bool.not_eq_true]
    have hclosed : (∀ r ∈ n.shape.references, r.2 = n.id ∨ g.contains r.2 = true) ↔
        ∀ r ∈ n.shape.references, r.2 ∈ n.id :: ids := by
      simp only [h, List.mem_cons]
    have hnext : ∀ {middle}, g.insert n = .ok middle →
        ∀ id, middle.contains id = true ↔ id ∈ n.id :: ids := by
      intro middle hinsert id
      rw [contains, (of_insert hinsert).2, Sorted.contains_insert, List.mem_cons, eq_comm]
      exact or_congr_right (h id)
    rw [InsertableAfter, ← hfresh, ← hclosed, ← and_assoc, ← insert_eq_ok_iff]
    constructor
    · rintro ⟨g', hg'⟩
      rw [List.foldlM_cons] at hg'
      obtain ⟨middle, hinsert, hrest⟩ := bind_eq_ok.1 hg'
      exact ⟨⟨middle, hinsert⟩, (ih (hnext hinsert)).1 ⟨g', hrest⟩⟩
    · rintro ⟨⟨middle, hinsert⟩, hrest⟩
      obtain ⟨g', hg'⟩ := (ih (hnext hinsert)).2 hrest
      refine ⟨g', ?_⟩
      rw [List.foldlM_cons, hinsert]
      exact hg'

/-- Nodes that can be added one by one have distinct new identifiers. -/
theorem InsertableAfter.nodup {ids : List ShapeId} (h : InsertableAfter ids l) :
    (l.map Node.id).Nodup ∧ ∀ n ∈ l, n.id ∉ ids := by
  induction l generalizing ids with
  | nil => exact ⟨List.nodup_nil, nofun⟩
  | cons n l ih =>
    obtain ⟨hfresh, -, hrest⟩ := h
    obtain ⟨hdistinct, hlater⟩ := ih hrest
    refine ⟨List.nodup_cons.2 ⟨fun hmem => ?_, hdistinct⟩, fun k hk => ?_⟩
    · obtain ⟨k, hk, hid⟩ := List.mem_map.1 hmem
      exact hlater k hk (List.mem_cons.2 (Or.inl hid))
    · rcases List.mem_cons.1 hk with rfl | hk
      · exact hfresh
      · exact fun hmem => hlater k hk (List.mem_cons_of_mem _ hmem)

theorem wellFormed_empty : WellFormed {} := ⟨nofun, .refl _⟩

/-- An order of nodes succeeds from nothing exactly if none comes before what it refers to. -/
theorem foldlM_insert_empty_eq_ok_iff : (∃ g, l.foldlM insert {} = .ok g) ↔ InsertableAfter [] l :=
  foldlM_insert_eq_ok_iff fun _ => ⟨nofun, nofun⟩

/-- Nodes that were added one by one make up a well-formed graph. -/
theorem of_foldlM_insert (h : l.foldlM insert {} = .ok g) :
    g.WellFormed ∧ (∀ n, n ∈ g.nodes ↔ n ∈ l) ∧ Loadable l := by
  have hinsertable : InsertableAfter [] l := foldlM_insert_empty_eq_ok_iff.1 ⟨g, h⟩
  have wf : g.WellFormed := wellFormed_empty.inserts h
  have hmem : ∀ n, n ∈ g.nodes ↔ n ∈ l := by
    refine fun n => ⟨fun hn => ?_, fun hn => mem_nodes (get?_inserts_of_mem h hn)⟩
    refine (get?_of_get?_inserts h (get?_of_mem hn)).resolve_left ?_
    rintro ⟨⟩
  refine ⟨wf, hmem, hinsertable.nodup.1, fun n hn r hr => ?_⟩
  exact (contains_iff_mem_ids hmem).1 (wf.closed n ((hmem n).2 hn) r hr)

/-- Nodes of a list that are loaded or added in any order agree. -/
theorem agrees_of_perm (hperm : l.Perm l') (h : ofNodes l = .ok g)
    (h' : ofNodes l' = .ok g' ∨ l'.foldlM insert {} = .ok g') : g.Agrees g' := by
  have hmem : ∀ {l g}, ofNodes l = .ok g → ∀ n, n ∈ g.nodes ↔ n ∈ l := by
    intro l g h
    obtain ⟨built, hbuilt, -, hmem⟩ := (ofNodes_eq_ok_iff.1 ⟨g, h⟩).exists_ofNodes
    rw [h] at hbuilt
    cases hbuilt
    exact hmem
  have wf : g.WellFormed := wellFormed_of_ofNodes h
  rcases h' with h' | h'
  · exact wf.agrees (wellFormed_of_ofNodes h') (nodes_eq_of_mem_iff (hmem h) (hmem h') hperm)
  · obtain ⟨wf', hmem', -⟩ := of_foldlM_insert h'
    exact wf.agrees wf' (nodes_eq_of_mem_iff (hmem h) hmem' hperm)

/-- Nodes make a graph exactly if their identifiers differ and their references lead to each other.
    If an identifier is repeated, the fault is the first repetition; otherwise it is the first
    reference out of the list that the least node with such a reference makes.  Another order of the
    nodes makes a graph that agrees, whether they are loaded at once or added one by one; the orders
    in which they can be added are those in which each refers to itself or to what came before. -/
theorem construction_settled_by_nodes :
    (∀ l, (∃ g, ofNodes l = .ok g) ↔ Loadable l) ∧
    (∀ l, ¬ (l.map Node.id).Nodup →
      ∃ id, FirstRepeated l id ∧ ofNodes l = .error (.duplicateShape id)) ∧
    (∀ l, (l.map Node.id).Nodup → ¬ Loadable l →
      ∃ source target, FirstMissing l source target ∧
        ofNodes l = .error (.danglingReference source target)) ∧
    (∀ l l' g, l.Perm l' → ofNodes l = .ok g → (∃ g', ofNodes l' = .ok g') ∧
      ∀ g', ofNodes l' = .ok g' ∨ l'.foldlM insert {} = .ok g' → g.Agrees g') ∧
    ∀ l, ((∃ g, l.foldlM insert {} = .ok g) ↔ InsertableAfter [] l) ∧
      (InsertableAfter [] l → Loadable l) := by
  refine ⟨fun l => ofNodes_eq_ok_iff, fun l hrepeated => ?_, fun l distinct hnot => ?_,
    fun l l' g hperm h => ⟨?_, fun g' => agrees_of_perm hperm h⟩, fun l => ?_⟩
  · obtain ⟨id, hid⟩ := exists_firstRepeated hrepeated
    exact ⟨id, hid, ofNodes_of_firstRepeated hid⟩
  · exact exists_firstMissing distinct ((loadable_or_leadsOut distinct).resolve_left hnot)
  · exact ofNodes_eq_ok_iff.2 ((ofNodes_eq_ok_iff.1 ⟨g, h⟩).perm hperm)
  · refine ⟨foldlM_insert_empty_eq_ok_iff, fun h => ?_⟩
    obtain ⟨g, hg⟩ := foldlM_insert_empty_eq_ok_iff.2 h
    exact (of_foldlM_insert hg).2.2

end Graph

/-! ## A theatre -/

namespace Theatre

/-- The identifier of a shape of the theatre. -/
def shape (name : String) : ShapeId := ⟨"theatre", name, none⟩

/-- A record that refers to one shape twice and to itself. -/
def actor : Node :=
  ⟨shape "Actor", .record [⟨"stage", shape "Text", .empty⟩, ⟨"name", shape "Text", .empty⟩,
    ⟨"understudy", shape "Actor", .empty⟩], .empty⟩

/-- The nodes, each after those that it refers to. -/
def nodes : List Node :=
  [ ⟨shape "Text", .primitive .string, .empty⟩,
    actor,
    ⟨shape "Cast", .operation (some (shape "Actor")) none [shape "Actor"], .empty⟩,
    ⟨shape "Season", .service [shape "Cast", shape "Cast"], .empty⟩ ]

end Theatre

/-- The nodes of the theatre can be loaded backwards, with the same graph, but not added backwards;
with the actor twice or without the text they cannot be loaded. -/
theorem theatre_settled_by_nodes :
    (∃ g g', Graph.ofNodes Theatre.nodes.reverse = .ok g ∧
      Theatre.nodes.foldlM Graph.insert {} = .ok g' ∧ g.Agrees g') ∧
    (¬ ∃ g, Theatre.nodes.reverse.foldlM Graph.insert {} = .ok g) ∧
    (∃ id, Graph.FirstRepeated (Theatre.nodes ++ [Theatre.actor]) id ∧
      Graph.ofNodes (Theatre.nodes ++ [Theatre.actor]) = .error (.duplicateShape id)) ∧
    ∃ source target, Graph.FirstMissing (Theatre.nodes.tail) source target ∧
      Graph.ofNodes Theatre.nodes.tail = .error (.danglingReference source target) := by
  obtain ⟨hloaded, hrepeated, hmissing, horder, hinserted⟩ := Graph.construction_settled_by_nodes
  refine ⟨?_, ?_, hrepeated _ (by decide +kernel), hmissing _ (by decide +kernel) fun h => ?_⟩
  · obtain ⟨g', hg'⟩ := (hinserted Theatre.nodes).1.2 (by decide +kernel)
    have loadable : Graph.Loadable Theatre.nodes := (hinserted _).2 (by decide +kernel)
    obtain ⟨g, hg⟩ := (hloaded Theatre.nodes.reverse).2
      (loadable.perm (List.reverse_perm Theatre.nodes).symm)
    exact ⟨g, g', hg, hg', (horder _ _ g (List.reverse_perm Theatre.nodes) hg).2 g' (Or.inr hg')⟩
  · rw [(hinserted Theatre.nodes.reverse).1]
    decide +kernel
  · exact absurd (h.closed Theatre.actor (by decide) (.member, Theatre.shape "Text") (by decide))
      (by decide)

end SchemaSymbols
