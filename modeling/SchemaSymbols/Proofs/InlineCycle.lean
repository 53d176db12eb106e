/-
  Groups of shapes that contain each other.

  `Keeps` reads off the graph which shapes hold which ones inline, apart from boxed members.  A
  group is a component of that relation with a cycle in it: two shapes or more that keep each other,
  or one shape that keeps itself.  What a group ought to be is said with the graph alone
  (`IsComponent`, `HasCycle`, `membersInside`), and what the search finds is compared with it.

  1. **Edges.**  The list of edges that the search starts from has an edge for each member that is
     stored inline, so its targets are those that a shape `Keeps` (`mem_targetsIn_edges`).  Two
     members of one owner with one target are two edges.

  2. **Classes.**  The search divides the records and unions into classes of those that keep each
     other, each once, later ones never leading to earlier ones (`classes_layered`).  A class is all
     that some shape of it keeps and is kept by (`mem_class_iff`), and every record and union is in
     one (`exists_class_iff`).

  3. **Groups.**  A group is made of a class with a cycle (`GroupOf`).  All that is said of groups
     is read off their classes, since sorting and numbering them changes neither their shapes nor
     the members inside them.  The classes with a cycle are exactly those that give a group
     (`groupOf_of_ofComponent?`, `exists_ofComponent?`).

  4. **Cycles.**  A shape lies on a cycle if its class has one (`hasCycle_iff`), so a shape is in
     some group if and only if it keeps itself, directly or through others (`exists_group_iff`), and
     a graph in which none does has no group.

  5. **The result** (`groups_exact`) puts these together in one structure `Exact`: the components
     with a cycle, each once and in order, with their members inside, and how a shape finds its
     group.  `Trellis` is a graph in which one group has two parallel members and another one is a
     single shape.
-/
import Mathlib.Data.List.Lattice
import Mathlib.Data.List.Nodup
import Mathlib.Data.List.Pairwise
import SchemaSymbols.InlineCycle
import SchemaSymbols.Proofs.Components
import SchemaSymbols.Proofs.Graph.References

namespace SchemaSymbols

open Relation Components

variable {g : Graph} {boxed : ShapeId → Bool} {x y : ShapeId} {c : List ShapeId}
  {group : InlineCycle}

namespace Graph

/-- The record or union `x` has a member, not boxed, whose target is the record or union `y`. -/
def Keeps (g : Graph) (boxed : ShapeId → Bool) (x y : ShapeId) : Prop :=
  ∃ n m, g.get? x = some n ∧ n.shape.isAggregate = true ∧ m ∈ n.shape.members ∧
    boxed (n.memberId m) = false ∧ m.target = y ∧ g.isAggregate y = true

/-- The shapes `x` and `y` keep each other, directly or through others. -/
def KeepEachOther (g : Graph) (boxed : ShapeId → Bool) (x y : ShapeId) : Prop :=
  ReflTransGen (g.Keeps boxed) x y ∧ ReflTransGen (g.Keeps boxed) y x

/-- A strongly connected component: all records and unions that keep each other with one of them. -/
def IsComponent (g : Graph) (boxed : ShapeId → Bool) (c : ShapeId → Prop) : Prop :=
  ∃ x, g.isAggregate x = true ∧ ∀ y, c y ↔ g.KeepEachOther boxed x y

/-- Some shapes have a cycle in them: they are more than one, or one of them keeps itself. -/
def HasCycle (g : Graph) (boxed : ShapeId → Bool) (c : ShapeId → Prop) : Prop :=
  (∃ x y, c x ∧ c y ∧ x ≠ y) ∨ ∃ x, c x ∧ g.Keeps boxed x x

/-- The members that stay inside some shapes, as the nodes of the graph declare them: they are not
boxed, their target is a record or union, and both their owner and their target are among the
shapes.  Each one counts as often as it is declared. -/
def membersInside (g : Graph) (boxed : ShapeId → Bool) (c : List ShapeId) : List ShapeId :=
  g.nodes.toList.flatMap fun n =>
    (n.shape.members.filter fun m => n.id ∈ c ∧ m.target ∈ c ∧ g.isAggregate m.target = true ∧
      boxed (n.id.withMember m.name) = false).map fun m => n.id.withMember m.name

theorem Keeps.isAggregate (h : g.Keeps boxed x y) : g.isAggregate x = true := by
  obtain ⟨n, m, hn, haggregate, -⟩ := h
  rw [isAggregate_of_get? hn, haggregate]

/-- A way between two different shapes has at least one step. -/
theorem transGen_keeps (h : ReflTransGen (g.Keeps boxed) x y) (hne : x ≠ y) :
    TransGen (g.Keeps boxed) x y :=
  (reflTransGen_iff_eq_or_transGen.1 h).resolve_left hne.symm

/-- A shape whose component has a cycle lies on one. -/
theorem HasCycle.transGen (h : g.HasCycle boxed (g.KeepEachOther boxed x)) :
    TransGen (g.Keeps boxed) x x := by
  have hround : ∀ y, g.KeepEachOther boxed x y → x ≠ y → TransGen (g.Keeps boxed) x x :=
    fun y hy hne => (transGen_keeps hy.1 hne).trans_left hy.2
  rcases h with ⟨y, z, hy, hz, hne⟩ | ⟨y, hy, hkeeps⟩
  · by_cases hxy : x = y
    · exact hround z hz fun hxz => hne (hxy.symm.trans hxz)
    · exact hround y hy hxy
  · exact TransGen.trans_right hy.1 (TransGen.head' hkeeps hy.2)

/-- A shape that keeps itself, directly or through others, is in a component with a cycle. -/
theorem hasCycle_of_transGen (h : TransGen (g.Keeps boxed) x x) :
    g.HasCycle boxed (g.KeepEachOther boxed x) := by
  obtain ⟨y, hxy, hyx⟩ := TransGen.head'_iff.1 h
  by_cases hne : x = y
  · subst hne
    exact Or.inr ⟨x, ⟨.refl, .refl⟩, hxy⟩
  · exact Or.inl ⟨x, y, ⟨.refl, .refl⟩, ⟨.single hxy, hyx⟩, hne⟩

end Graph

namespace InlineCycle

/-! ## Edges -/

/-- The edges lead from a shape to those that it keeps. -/
theorem mem_targetsIn_edges : y ∈ targetsIn (edges g boxed) x ↔ g.Keeps boxed x y := by
  simp only [targetsIn, edges, List.mem_map, List.mem_filter, List.mem_flatMap, Bool.and_eq_true,
    Bool.not_eq_true', decide_eq_true_eq]
  constructor
  · rintro ⟨e, ⟨⟨n, ⟨hn, haggregate⟩, m, ⟨hm, htarget, hboxed⟩, rfl⟩, rfl⟩, rfl⟩
    exact ⟨n, m, Graph.get?_of_mem hn, haggregate, hm, hboxed, rfl, htarget⟩
  · rintro ⟨n, m, hn, haggregate, hm, hboxed, rfl, htarget⟩
    obtain rfl := Graph.get?_id hn
    exact ⟨_, ⟨⟨n, ⟨Graph.mem_nodes hn, haggregate⟩, m, ⟨hm, htarget, hboxed⟩, rfl⟩, rfl⟩, rfl⟩

theorem keeps_of_mem_edges {e : InlineEdge} (h : e ∈ edges g boxed) :
    g.Keeps boxed e.owner e.target :=
  mem_targetsIn_edges.1 (List.mem_map.2 ⟨e, List.mem_filter.2 ⟨h, decide_eq_true rfl⟩, rfl⟩)

theorem exists_edge (h : g.Keeps boxed x y) : ∃ e ∈ edges g boxed, e.owner = x ∧ e.target = y := by
  obtain ⟨e, he, rfl⟩ := List.mem_map.1 (mem_targetsIn_edges.2 h)
  obtain ⟨hmem, howner⟩ := List.mem_filter.1 he
  exact ⟨e, hmem, of_decide_eq_true howner, rfl⟩

/-- The search starts from the records and unions of the graph. -/
theorem mem_aggregates :
    x ∈ (g.nodes.toList.filter fun n => n.shape.isAggregate).map Node.id ↔
      g.isAggregate x = true := by
  simp only [List.mem_map, List.mem_filter]
  constructor
  · rintro ⟨n, ⟨hn, haggregate⟩, rfl⟩
    rw [Graph.isAggregate_of_get? (Graph.get?_of_mem hn), haggregate]
  · intro h
    rw [Graph.isAggregate] at h
    split at h
    · rename_i n hn
      exact ⟨n, ⟨Graph.mem_nodes hn, h⟩, Graph.get?_id hn⟩
    · cases h

/-- The members that stay inside some shapes. -/
def inside (g : Graph) (boxed : ShapeId → Bool) (c : List ShapeId) : List InlineEdge :=
  (edges g boxed).filter fun e => e.owner ∈ c && e.target ∈ c

theorem mem_inside {e : InlineEdge} :
    e ∈ inside g boxed c ↔ e ∈ edges g boxed ∧ e.owner ∈ c ∧ e.target ∈ c := by
  simp [inside]

/-- The edges inside some shapes are their inside members: a node that is neither a record nor a
union has no members, so it does not matter that edges leave it out. -/
theorem map_inside (g : Graph) (boxed : ShapeId → Bool) (c : List ShapeId) :
    (inside g boxed c).map InlineEdge.member = g.membersInside boxed c := by
  rw [inside, edges, Graph.membersInside]
  induction g.nodes.toList with
  | nil => rfl
  | cons n nodes ih =>
    have hnode : (((n.shape.members.filter fun m =>
        g.isAggregate m.target && !boxed (n.memberId m)).map fun m =>
          (⟨n.id, n.memberId m, m.target⟩ : InlineEdge)).filter fun e =>
            e.owner ∈ c && e.target ∈ c).map InlineEdge.member =
        (n.shape.members.filter fun m => n.id ∈ c ∧ m.target ∈ c ∧
          g.isAggregate m.target = true ∧ boxed (n.id.withMember m.name) = false).map fun m =>
            n.id.withMember m.name := by
      rw [List.filter_map, List.filter_filter, List.map_map]
      refine congrArg (List.map _) (List.filter_congr fun m _ => ?_)
      simp [Node.memberId, Bool.and_assoc]
    rw [List.flatMap_cons, ← ih, ← hnode]
    cases haggregate : n.shape.isAggregate with
    | true =>
      rw [List.filter_cons, if_pos haggregate, List.flatMap_cons, List.filter_append,
        List.map_append]
    | false =>
      have hnone : n.shape.members = [] := List.eq_nil_iff_forall_not_mem.2 fun m hm => by
        rw [Shape.isAggregate_of_mem_members hm] at haggregate
        cases haggregate
      rw [List.filter_cons, if_neg (Bool.eq_false_iff.1 haggregate), hnone]
      rfl

/-! ## Classes -/

/-- The classes of shapes that keep each other, as a search finds them. -/
def classes (g : Graph) (boxed : ShapeId → Bool) : List (List ShapeId) :=
  components ((g.nodes.toList.filter fun n => n.shape.isAggregate).map Node.id)
    (targetsIn (edges g boxed))

/-- Leading to a shape along edges is keeping it, directly, through others or not at all. -/
theorem leads_iff :
    Leads (targetsIn (edges g boxed)) x y ↔ ReflTransGen (g.Keeps boxed) x y := by
  have hsame : (fun x y => y ∈ targetsIn (edges g boxed) x) = g.Keeps boxed := by
    funext x y
    exact propext mem_targetsIn_edges
  rw [Leads, hsame]

/-- Edges do not lead away from the records and unions of a graph. -/
theorem aggregates_closed (g : Graph) (boxed : ShapeId → Bool) :
    ∀ x ∈ (g.nodes.toList.filter fun n => n.shape.isAggregate).map Node.id,
      ∀ y ∈ targetsIn (edges g boxed) x,
        y ∈ (g.nodes.toList.filter fun n => n.shape.isAggregate).map Node.id := by
  intro x _ y hy
  obtain ⟨n, m, -, -, -, -, -, haggregate⟩ := mem_targetsIn_edges.1 hy
  exact mem_aggregates.2 haggregate

/-- The classes come in layers: no class leads to an earlier one. -/
theorem classes_layered (g : Graph) (boxed : ShapeId → Bool) :
    Layered (targetsIn (edges g boxed)) (fun _ => False) (classes g boxed) :=
  (components_layered (aggregates_closed g boxed)).1

/-- The records and unions are divided into classes. -/
theorem exists_class_iff : (∃ c ∈ classes g boxed, x ∈ c) ↔ g.isAggregate x = true := by
  rw [← mem_aggregates, ← (components_layered (aggregates_closed g boxed)).2, List.mem_flatten]
  rfl

theorem mem_class_iff (hc : c ∈ classes g boxed) (hx : x ∈ c) :
    y ∈ c ↔ g.KeepEachOther boxed x y := by
  rw [(classes_layered g boxed).mem_iff_mutual hc hx, Mutual, leads_iff, leads_iff]
  rfl

theorem mem_class_eq (hc : c ∈ classes g boxed) (hx : x ∈ c) :
    (· ∈ c) = g.KeepEachOther boxed x :=
  funext fun _ => propext (mem_class_iff hc hx)

/-- No class is empty. -/
theorem exists_mem_class (hc : c ∈ classes g boxed) : ∃ x, x ∈ c := by
  obtain ⟨x, hx, -⟩ := (classes_layered g boxed).classes c hc
  exact ⟨x, hx⟩

theorem nodup_class (hc : c ∈ classes g boxed) : c.Nodup :=
  (List.nodup_flatten.1 (classes_layered g boxed).nodup).1 c hc

theorem pairwise_classes (g : Graph) (boxed : ShapeId → Bool) :
    (classes g boxed).Pairwise List.Disjoint :=
  (List.nodup_flatten.1 (classes_layered g boxed).nodup).2

/-- A class is left out if it is one shape and has no member inside. -/
theorem hasCycle_iff (hc : c ∈ classes g boxed) :
    g.HasCycle boxed (· ∈ c) ↔ ¬ (c.length = 1 ∧ inside g boxed c = []) := by
  constructor
  · rintro hcycle ⟨hone, hnone⟩
    obtain ⟨z, rfl⟩ := List.length_eq_one_iff.1 hone
    rcases hcycle with ⟨x, y, hx, hy, hne⟩ | ⟨x, hx, hkeeps⟩
    · exact hne ((List.mem_singleton.1 hx).trans (List.mem_singleton.1 hy).symm)
    · obtain ⟨e, he, rfl, htarget⟩ := exists_edge hkeeps
      have hin : e ∈ inside g boxed [z] := mem_inside.2 ⟨he, hx, htarget ▸ hx⟩
      rw [hnone] at hin
      cases hin
  · intro hkept
    obtain ⟨x, hx⟩ := exists_mem_class hc
    by_cases hone : ∃ y ∈ c, x ≠ y
    · obtain ⟨y, hy, hne⟩ := hone
      exact Or.inl ⟨x, y, hx, hy, hne⟩
    · -- the class is one shape, so the member inside it leads from that shape to itself
      have hsame : ∀ y ∈ c, y = x := fun y hy => by
        by_contra hne
        exact hone ⟨y, hy, Ne.symm hne⟩
      have hlength : c.length = 1 := by
        have hnodup := nodup_class hc
        rw [List.eq_replicate_of_mem hsame, List.nodup_replicate] at hnodup
        exact Nat.le_antisymm hnodup (List.length_pos_of_mem hx)
      obtain ⟨e, he⟩ := List.exists_mem_of_ne_nil _ fun hnone => hkept ⟨hlength, hnone⟩
      obtain ⟨hedge, howner, htarget⟩ := mem_inside.1 he
      have hkeeps := keeps_of_mem_edges hedge
      rw [hsame _ howner, hsame _ htarget] at hkeeps
      exact Or.inr ⟨x, hx, hkeeps⟩

/-! ## Groups -/

/-- A group is that of a class with a cycle. -/
structure GroupOf (g : Graph) (boxed : ShapeId → Bool) (c : List ShapeId) (group : InlineCycle) :
    Prop where
  isClass : c ∈ classes g boxed
  hasCycle : g.HasCycle boxed (· ∈ c)
  members : group.members = ShapeId.sort c
  internal : group.internal = ShapeId.sort ((inside g boxed c).map InlineEdge.member)
  selfReferential : group.selfReferential = decide (c.length = 1)

/-- The members of a group are the shapes of its class. -/
theorem GroupOf.mem_members (h : GroupOf g boxed c group) : x ∈ group.members ↔ x ∈ c := by
  rw [h.members, ShapeId.mem_sort]

/-- The groups before they are sorted and numbered. -/
def found (g : Graph) (boxed : ShapeId → Bool) : List InlineCycle :=
  (classes g boxed).filterMap (ofComponent? (edges g boxed))

/-- What the search makes of a class is a group of it. -/
theorem groupOf_of_ofComponent? (hc : c ∈ classes g boxed)
    (h : ofComponent? (edges g boxed) c = some group) : GroupOf g boxed c group := by
  rw [ofComponent?] at h
  split at h
  · cases h
  · rename_i hkept
    cases h
    exact ⟨hc, (hasCycle_iff hc).2 hkept, rfl, rfl, rfl⟩

theorem exists_ofComponent? (hc : c ∈ classes g boxed) (hcycle : g.HasCycle boxed (· ∈ c)) :
    ∃ group, ofComponent? (edges g boxed) c = some group := by
  rw [ofComponent?, if_neg]
  · exact ⟨_, rfl⟩
  · exact (hasCycle_iff hc).1 hcycle

/-- A group is one that was found, with its position. -/
theorem getElem?_unbroken {i : Nat} : (unbroken g boxed)[i]? =
    ((found g boxed).mergeSort le)[i]?.map fun group => { group with index := i } :=
  List.getElem?_mapIdx

theorem exists_groupOf (h : group ∈ unbroken g boxed) : ∃ c, GroupOf g boxed c group := by
  obtain ⟨i, hi⟩ := List.mem_iff_getElem?.1 h
  rw [getElem?_unbroken, Option.map_eq_some_iff] at hi
  obtain ⟨first, hfirst, rfl⟩ := hi
  obtain ⟨c, hc, hfound⟩ :=
    List.mem_filterMap.1 (List.mem_mergeSort.1 (List.mem_of_getElem? hfirst))
  exact ⟨c, { groupOf_of_ofComponent? hc hfound with }⟩

/-- Every class with a cycle has its group in the graph. -/
theorem exists_group_of_class (hc : c ∈ classes g boxed) (hcycle : g.HasCycle boxed (· ∈ c)) :
    ∃ group ∈ unbroken g boxed, GroupOf g boxed c group := by
  obtain ⟨group, hfound⟩ := exists_ofComponent? hc hcycle
  have hsorted : group ∈ (found g boxed).mergeSort le :=
    List.mem_mergeSort.2 (List.mem_filterMap.2 ⟨c, hc, hfound⟩)
  obtain ⟨i, hi⟩ := List.mem_iff_getElem?.1 hsorted
  refine ⟨{ group with index := i }, List.mem_of_getElem? (i := i) ?_,
    { groupOf_of_ofComponent? hc hfound with }⟩
  rw [getElem?_unbroken, hi]
  rfl

theorem map_members_unbroken (g : Graph) (boxed : ShapeId → Bool) :
    (unbroken g boxed).map InlineCycle.members =
      ((found g boxed).mergeSort le).map InlineCycle.members := by
  refine List.ext_getElem? fun i => ?_
  rw [List.getElem?_map, List.getElem?_map, getElem?_unbroken, Option.map_map]
  rfl

/-- The groups as they are found are disjoint, since the classes are. -/
theorem pairwise_found (g : Graph) (boxed : ShapeId → Bool) :
    (found g boxed).Pairwise fun a b => a.members.Disjoint b.members := by
  refine List.pairwise_filterMap.2 ((pairwise_classes g boxed).imp_of_mem ?_)
  intro c d hc hd hdisjoint a ha b hb x hxa hxb
  exact hdisjoint ((groupOf_of_ofComponent? hc ha).mem_members.1 hxa)
    ((groupOf_of_ofComponent? hd hb).mem_members.1 hxb)

/-- No shape is in two groups. -/
theorem pairwise_disjoint_unbroken (g : Graph) (boxed : ShapeId → Bool) :
    (unbroken g boxed).Pairwise fun a b => a.members.Disjoint b.members := by
  rw [← List.pairwise_map (R := List.Disjoint), map_members_unbroken, List.pairwise_map]
  exact (List.Perm.pairwise_iff (fun h => h.symm) (List.mergeSort_perm _ _)).2
    (pairwise_found g boxed)

/-- The groups are in the order of their members, and no two are the same. -/
theorem pairwise_lt_unbroken (g : Graph) (boxed : ShapeId → Bool) :
    (unbroken g boxed).Pairwise fun a b => compare a.members b.members = .lt := by
  have hne : (found g boxed).Pairwise fun a b => a.members ≠ b.members := by
    refine (pairwise_found g boxed).imp_of_mem fun {a b} ha _ hdisjoint hsame => ?_
    obtain ⟨c, hc, hfound⟩ := List.mem_filterMap.1 ha
    obtain ⟨x, hx⟩ := exists_mem_class hc
    have hxa := (groupOf_of_ofComponent? hc hfound).mem_members.2 hx
    exact hdisjoint hxa (hsame ▸ hxa)
  rw [← List.pairwise_map (R := fun a b => compare a b = .lt), map_members_unbroken,
    List.pairwise_map]
  exact pairwise_lt_mergeSort InlineCycle.members hne

/-! ## Cycles -/

/-- A shape lies on a cycle if a group lists it. -/
theorem exists_group_iff :
    (∃ group ∈ unbroken g boxed, x ∈ group.members) ↔ TransGen (g.Keeps boxed) x x := by
  constructor
  · rintro ⟨group, hgroup, hx⟩
    obtain ⟨c, groupOf⟩ := exists_groupOf hgroup
    have hcycle := groupOf.hasCycle
    rw [mem_class_eq groupOf.isClass (groupOf.mem_members.1 hx)] at hcycle
    exact hcycle.transGen
  · intro h
    obtain ⟨y, hxy, -⟩ := TransGen.head'_iff.1 h
    obtain ⟨c, hc, hx⟩ := exists_class_iff.2 hxy.isAggregate
    have hcycle : g.HasCycle boxed (· ∈ c) := by
      rw [mem_class_eq hc hx]
      exact Graph.hasCycle_of_transGen h
    obtain ⟨group, hgroup, groupOf⟩ := exists_group_of_class hc hcycle
    exact ⟨group, hgroup, groupOf.mem_members.2 hx⟩

/-- Without a cycle there is no group. -/
theorem unbroken_eq_nil (h : ∀ x, ¬ TransGen (g.Keeps boxed) x x) : unbroken g boxed = [] := by
  refine List.eq_nil_iff_forall_not_mem.2 fun group hgroup => ?_
  obtain ⟨c, groupOf⟩ := exists_groupOf hgroup
  obtain ⟨x, hx⟩ := exists_mem_class groupOf.isClass
  exact h x (exists_group_iff.1 ⟨group, hgroup, groupOf.mem_members.2 hx⟩)

/-- A member on a cycle is inside the group of its owner and target. -/
theorem exists_group {e : InlineEdge} (he : e ∈ edges g boxed)
    (hback : ReflTransGen (g.Keeps boxed) e.target e.owner) :
    ∃ group ∈ unbroken g boxed, e.owner ∈ group.members ∧ e.target ∈ group.members ∧
      e.member ∈ group.internal := by
  have hkeeps := keeps_of_mem_edges he
  obtain ⟨group, hgroup, howner⟩ := exists_group_iff.2 (TransGen.head' hkeeps hback)
  obtain ⟨c, groupOf⟩ := exists_groupOf hgroup
  have hc := groupOf.mem_members.1 howner
  have htarget : e.target ∈ c := (mem_class_iff groupOf.isClass hc).2 ⟨.single hkeeps, hback⟩
  refine ⟨group, hgroup, howner, groupOf.mem_members.2 htarget, ?_⟩
  rw [groupOf.internal, ShapeId.mem_sort]
  exact List.mem_map.2 ⟨e, mem_inside.2 ⟨he, hc, htarget⟩, rfl⟩

/-- Two groups that list one shape are one group. -/
theorem eq_of_mem_members {a b : InlineCycle} (ha : a ∈ unbroken g boxed)
    (hb : b ∈ unbroken g boxed) (hxa : x ∈ a.members) (hxb : x ∈ b.members) : a = b := by
  have hsymm : Std.Symm fun a b : InlineCycle => a.members.Disjoint b.members :=
    ⟨fun _ _ h => h.symm⟩
  by_contra hne
  exact (pairwise_disjoint_unbroken g boxed).forall ha hb hne hxa hxb

/-- The group of a shape is the one that it is a member of. -/
theorem of?_eq_some :
    of? (unbroken g boxed) x = some group ↔ group ∈ unbroken g boxed ∧ x ∈ group.members := by
  constructor
  · intro h
    exact ⟨List.mem_of_find?_eq_some h, by simpa using List.find?_some h⟩
  · rintro ⟨hgroup, hx⟩
    cases hfound : of? (unbroken g boxed) x with
    | none => exact absurd hx (by simpa using List.find?_eq_none.1 hfound group hgroup)
    | some other =>
      have hother : x ∈ other.members := by simpa using List.find?_some hfound
      exact congrArg some
        (eq_of_mem_members (List.mem_of_find?_eq_some hfound) hgroup hother hx)

/-- A shape counts as cyclic if it keeps itself, directly or through others. -/
theorem isCyclic_iff : isCyclic (unbroken g boxed) x = true ↔ TransGen (g.Keeps boxed) x x := by
  rw [isCyclic, Option.isSome_iff_exists, ← exists_group_iff]
  exact exists_congr fun group => of?_eq_some

/-! ## Groups are exact -/

/-- What groups promise: they are the components with a cycle, in order, and each one says what is
in it; and a shape has the group that lists it. -/
structure Exact (g : Graph) (boxed : ShapeId → Bool) (groups : List InlineCycle) : Prop where
  /-- The groups are the components that have a cycle. -/
  components : ∀ c : ShapeId → Prop, (∃ group ∈ groups, ∀ x, x ∈ group.members ↔ c x) ↔
    g.IsComponent boxed c ∧ g.HasCycle boxed c
  /-- The shapes of a group increase. -/
  members : ∀ group ∈ groups, group.members.Pairwise fun x y => compare x y = .lt
  disjoint : groups.Pairwise fun a b => a.members.Disjoint b.members
  /-- The groups increase by their shapes, and have their positions as numbers. -/
  sorted : groups.Pairwise fun a b => compare a.members b.members = .lt
  index : ∀ (i : Nat) (group : InlineCycle), groups[i]? = some group → group.index = i
  /-- The members inside a group are listed in order, each as often as it is declared. -/
  internal : ∀ group ∈ groups, (group.internal.Pairwise fun x y => (compare x y).isLE = true) ∧
    group.internal.Perm (g.membersInside boxed group.members)
  selfReferential : ∀ group ∈ groups, group.selfReferential = true ↔
    ∃ x, group.members = [x] ∧ g.Keeps boxed x x
  empty : groups = [] ↔ ∀ x, ¬ TransGen (g.Keeps boxed) x x
  cyclic : ∀ x, isCyclic groups x = true ↔ TransGen (g.Keeps boxed) x x
  /-- A shape has the group that lists it, and no group if it lies on no cycle. -/
  lookup : ∀ x group, of? groups x = some group ↔ group ∈ groups ∧ x ∈ group.members
  missing : ∀ x, of? groups x = none ↔ ¬ TransGen (g.Keeps boxed) x x
  /-- Shapes that lie on cycles have one group if they keep each other. -/
  same : ∀ x y, isCyclic groups x = true → isCyclic groups y = true →
    (of? groups x = of? groups y ↔ g.KeepEachOther boxed x y)

theorem isComponent_of_mem_classes (hc : c ∈ classes g boxed) : g.IsComponent boxed (· ∈ c) := by
  obtain ⟨x, hx⟩ := exists_mem_class hc
  exact ⟨x, exists_class_iff.1 ⟨c, hc, hx⟩, fun y => mem_class_iff hc hx⟩

/-- Every component is a class. -/
theorem exists_class_of_isComponent {p : ShapeId → Prop} (h : g.IsComponent boxed p) :
    ∃ c ∈ classes g boxed, (· ∈ c) = p := by
  obtain ⟨x, haggregate, hp⟩ := h
  obtain ⟨c, hc, hx⟩ := exists_class_iff.2 haggregate
  refine ⟨c, hc, ?_⟩
  rw [mem_class_eq hc hx]
  exact funext fun y => propext (hp y).symm

/-- The members of the groups are the components with a cycle. -/
theorem exists_members_iff {p : ShapeId → Prop} :
    (∃ group ∈ unbroken g boxed, ∀ x, x ∈ group.members ↔ p x) ↔
      g.IsComponent boxed p ∧ g.HasCycle boxed p := by
  constructor
  · rintro ⟨group, hgroup, hmembers⟩
    obtain ⟨c, groupOf⟩ := exists_groupOf hgroup
    have hsame : (· ∈ c) = p := funext fun x =>
      propext (groupOf.mem_members.symm.trans (hmembers x))
    rw [← hsame]
    exact ⟨isComponent_of_mem_classes groupOf.isClass, groupOf.hasCycle⟩
  · rintro ⟨hcomponent, hcycle⟩
    obtain ⟨c, hc, rfl⟩ := exists_class_of_isComponent hcomponent
    obtain ⟨group, hgroup, groupOf⟩ := exists_group_of_class hc hcycle
    exact ⟨group, hgroup, fun x => groupOf.mem_members⟩

namespace GroupOf

/-- The internal members of a group are the members inside it, in order, each once for every time it
is declared. -/
theorem internal_exact (h : GroupOf g boxed c group) :
    (group.internal.Pairwise fun x y => (compare x y).isLE = true) ∧
      group.internal.Perm (g.membersInside boxed group.members) := by
  have hinside : g.membersInside boxed group.members =
      (inside g boxed c).map InlineEdge.member := by
    rw [map_inside, Graph.membersInside, Graph.membersInside]
    simp only [h.mem_members]
  rw [h.internal, hinside]
  exact ⟨pairwise_isLE_mergeSort id _, List.mergeSort_perm _ _⟩

/-- A group is said to refer to itself if it is one shape that keeps itself. -/
theorem selfReferential_iff (h : GroupOf g boxed c group) :
    group.selfReferential = true ↔ ∃ x, group.members = [x] ∧ g.Keeps boxed x x := by
  have hlength : group.members.length = c.length := by
    rw [h.members, ShapeId.sort, List.length_mergeSort]
  rw [h.selfReferential, decide_eq_true_eq, ← hlength, List.length_eq_one_iff]
  refine exists_congr fun x => (and_iff_left_of_imp fun hone => ?_).symm
  -- a class of one shape has no cycle but the one at that shape
  have hmem : ∀ y, y ∈ c ↔ y = x := fun y => by
    rw [← h.mem_members, hone, List.mem_singleton]
  rcases h.hasCycle with ⟨y, z, hy, hz, hne⟩ | ⟨y, hy, hkeeps⟩
  · exact absurd (((hmem y).1 hy).trans ((hmem z).1 hz).symm) hne
  · rwa [(hmem y).1 hy] at hkeeps

end GroupOf

/-- Two shapes on cycles have one group if they keep each other. -/
theorem of?_eq_iff (hx : isCyclic (unbroken g boxed) x = true)
    (hy : isCyclic (unbroken g boxed) y = true) :
    of? (unbroken g boxed) x = of? (unbroken g boxed) y ↔ g.KeepEachOther boxed x y := by
  obtain ⟨a, ha⟩ := Option.isSome_iff_exists.1 hx
  obtain ⟨b, hb⟩ := Option.isSome_iff_exists.1 hy
  obtain ⟨hgroup, hmem⟩ := of?_eq_some.1 ha
  obtain ⟨c, groupOf⟩ := exists_groupOf hgroup
  rw [← mem_class_iff groupOf.isClass (groupOf.mem_members.1 hmem), ← groupOf.mem_members, ha]
  constructor
  · exact fun h => (of?_eq_some.1 h.symm).2
  · exact fun h => (of?_eq_some.2 ⟨hgroup, h⟩).symm

/-- The groups of a graph without its boxed members, and those of the whole graph, are the strongly
    connected components that have a cycle. -/
theorem groups_exact (g : Graph) :
    (∀ boxed, Exact g boxed (unbroken g boxed)) ∧ Exact g (fun _ => false) (all g) := by
  have hexact : ∀ boxed, Exact g boxed (unbroken g boxed) := fun boxed => {
    components := fun c => exists_members_iff
    members := fun group hgroup => by
      obtain ⟨c, groupOf⟩ := exists_groupOf hgroup
      rw [groupOf.members]
      exact ShapeId.pairwise_sort (nodup_class groupOf.isClass)
    disjoint := pairwise_disjoint_unbroken g boxed
    sorted := pairwise_lt_unbroken g boxed
    index := fun i group h => by
      rw [getElem?_unbroken, Option.map_eq_some_iff] at h
      obtain ⟨_, -, rfl⟩ := h
      rfl
    internal := fun group hgroup => (exists_groupOf hgroup).elim fun _ h => h.internal_exact
    selfReferential := fun group hgroup =>
      (exists_groupOf hgroup).elim fun _ h => h.selfReferential_iff
    empty := by
      refine ⟨fun hnone x hcycle => ?_, unbroken_eq_nil⟩
      obtain ⟨group, hgroup, -⟩ := exists_group_iff.2 hcycle
      rw [hnone] at hgroup
      cases hgroup
    cyclic := fun x => isCyclic_iff
    lookup := fun x group => of?_eq_some
    missing := fun x => by
      rw [← isCyclic_iff, isCyclic, Bool.not_eq_true, Option.isSome_eq_false_iff,
        Option.isNone_iff_eq_none]
    same := fun x y => of?_eq_iff }
  exact ⟨hexact, hexact _⟩

/-- A component with a cycle, written in order, has a group: the members inside it are sorted there.
-/
theorem Exact.exists_group {groups : List InlineCycle} (exact : Exact g boxed groups)
    (component : g.IsComponent boxed (· ∈ c)) (cycle : g.HasCycle boxed (· ∈ c))
    (sorted : c.Pairwise fun x y => compare x y = .lt) :
    ∃ group ∈ groups, group.members = c ∧
      group.internal = ShapeId.sort (g.membersInside boxed c) := by
  obtain ⟨group, hgroup, hmembers⟩ := (exact.components _).2 ⟨component, cycle⟩
  have hsame : group.members = c :=
    Sorted.eq_of_mem_iff (exact.members group hgroup) sorted hmembers
  obtain ⟨hsorted, hperm⟩ := exact.internal group hgroup
  rw [hsame] at hperm
  exact ⟨group, hgroup, hsame, ShapeId.eq_sort_of_perm hperm hsorted⟩

/-! ## A trellis -/

namespace Trellis

/-- The identifier of a shape of the trellis. -/
def shape (name : String) : ShapeId := ⟨"trellis", name, none⟩

/-- A record with two members that hold one union, which holds the record; a record that holds
itself; and a record that holds itself only through a list and a member that is boxed. -/
def nodes : List Node :=
  [ ⟨shape "Post", .record [⟨"right", shape "Arch", .empty⟩, ⟨"left", shape "Arch", .empty⟩,
      ⟨"vine", shape "Vine", .empty⟩], .empty⟩,
    ⟨shape "Arch", .union [⟨"post", shape "Post", .empty⟩, ⟨"leaf", shape "Leaf", .empty⟩], .empty⟩,
    ⟨shape "Vine", .record [⟨"next", shape "Vine", .empty⟩, ⟨"leaf", shape "Leaf", .empty⟩],
      .empty⟩,
    ⟨shape "Leaf", .record [⟨"leaves", shape "Leaves", .empty⟩, ⟨"shade", shape "Leaf", .empty⟩],
      .empty⟩,
    ⟨shape "Leaves", .list ⟨"member", shape "Leaf", .empty⟩, .empty⟩ ]

/-- The graph of the trellis. -/
def graph : Graph := .ofNodesD nodes

/-- The shade of a leaf is boxed. -/
def isShade (id : ShapeId) : Bool := id = (shape "Leaf").withMember "shade"

/-- The next shoot of a vine is a vine again, so a vine keeps itself. -/
theorem vine_keeps_vine : graph.Keeps isShade (shape "Vine") (shape "Vine") :=
  mem_targetsIn_edges.1 (by decide +kernel)

end Trellis

/-- Two members that lead from one shape to the same other one are both listed, and a leaf is in a
group only when the member that is boxed counts. -/
theorem trellis_groups_exact :
    (∃ group ∈ unbroken Trellis.graph Trellis.isShade,
      group.members = [Trellis.shape "Arch", Trellis.shape "Post"] ∧
      group.internal = [(Trellis.shape "Arch").withMember "post",
        (Trellis.shape "Post").withMember "left", (Trellis.shape "Post").withMember "right"] ∧
      group.selfReferential = false) ∧
    (∃ group ∈ unbroken Trellis.graph Trellis.isShade,
      group.members = [Trellis.shape "Vine"] ∧
      group.internal = [(Trellis.shape "Vine").withMember "next"] ∧
      group.selfReferential = true) ∧
    of? (unbroken Trellis.graph Trellis.isShade) (Trellis.shape "Leaf") = none ∧
    isCyclic (all Trellis.graph) (Trellis.shape "Leaf") = true := by
  obtain ⟨exact_unbroken, exact_all⟩ := groups_exact Trellis.graph
  have exact := exact_unbroken Trellis.isShade
  refine ⟨?_, ?_, (exact.missing _).2 fun hcycle => ?_, (exact_all.cyclic _).2 (.single ?_)⟩
  · have hne : Trellis.shape "Arch" ≠ Trellis.shape "Post" := by decide +kernel
    have cycle : Trellis.graph.HasCycle Trellis.isShade
        (· ∈ [Trellis.shape "Arch", Trellis.shape "Post"]) :=
      Or.inl ⟨_, _, List.mem_cons_self, List.mem_cons_of_mem _ List.mem_cons_self, hne⟩
    obtain ⟨group, hgroup, hmembers, hinternal⟩ :=
      exact.exists_group (isComponent_of_mem_classes (by decide +kernel)) cycle (by decide +kernel)
    refine ⟨group, hgroup, hmembers, hinternal.trans ?_, ?_⟩
    · exact (ShapeId.eq_sort_of_perm (by decide +kernel) (by decide +kernel)).symm
    · -- two shapes are no single one
      rw [← Bool.not_eq_true, exact.selfReferential group hgroup, hmembers]
      rintro ⟨x, hone, -⟩
      cases hone
  · have cycle : Trellis.graph.HasCycle Trellis.isShade (· ∈ [Trellis.shape "Vine"]) :=
      Or.inr ⟨_, List.mem_cons_self, Trellis.vine_keeps_vine⟩
    obtain ⟨group, hgroup, hmembers, hinternal⟩ :=
      exact.exists_group (isComponent_of_mem_classes (by decide +kernel)) cycle (by decide +kernel)
    refine ⟨group, hgroup, hmembers, hinternal.trans ?_, ?_⟩
    · exact (ShapeId.eq_sort_of_perm (by decide +kernel) (by decide +kernel)).symm
    · exact (exact.selfReferential group hgroup).2 ⟨_, hmembers, Trellis.vine_keeps_vine⟩
  · -- no member of the leaf counts, so nothing leads back to it
    obtain ⟨y, hy, -⟩ := TransGen.head'_iff.1 hcycle
    have hnone : targetsIn (edges Trellis.graph Trellis.isShade) (Trellis.shape "Leaf") = [] := by
      decide +kernel
    exact List.not_mem_nil (hnone ▸ mem_targetsIn_edges.2 hy)
  · exact mem_targetsIn_edges.1 (by decide +kernel)

end InlineCycle

end SchemaSymbols
