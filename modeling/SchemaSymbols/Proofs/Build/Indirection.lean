/-
  Which graphs a build finds cycles in that have no box.

  Boxes are set by position, while the members are walked; the check at the end of a build looks
  them up by identifier, which gives the first binding of that name of the shape at the root of the
  identifier.  Both speak of one target in an `Unambiguous` graph: records and unions are roots, and
  members of one shape with one name have one target.

  1. **Only the check raises this fault.**  The phases before it raise others, function by function
     (`Graph.normalize_ne_missingIndirection`, `Build.resolveGraph_ne_missingIndirection`).

  2. **Unambiguous graphs stay so.**  Normalization copies members and adds roots, and the equality
     closure only tags (`Graph.Unambiguous.normalize`, `Graph.Unambiguous.closes`).

  3. **What the check keeps is stored inline.**  If the check sees no box at a member, then the
     binding it looked at has the same target, and it is stored inline
     (`TableSound.inlines_of_keeps`).  What is stored inline is in no cycle, as every shape is bound
     after those that it stores, so the check finds no cycle either (`keeps_acyclic`).

  Where a name is used twice, for two targets, the check can look at the wrong binding: a record
  that holds itself in a box is then refused (`Shadow`).
-/
import SchemaSymbols.Proofs.Build.Phases
import SchemaSymbols.Proofs.InlineCycle
import SchemaSymbols.Proofs.Resolution.Boxing

namespace SchemaSymbols

open Relation

variable {g g' : Graph} {r : Resolver} {R : ShapeId → Prop} {t : SymbolTable} {s : Session}
  {x y : ShapeId}

/-! ## Faults of the phases before -/

section Faults

variable {ids : List ShapeId}

/-- Inserting a node does not raise the fault. -/
theorem Graph.insert_ne_missingIndirection (g : Graph) (n : Node) :
    g.insert n ≠ .error (.missingIndirection ids) := by
  rw [Graph.insert]
  split
  · rintro ⟨⟩
  · refine bind_ne_error ?_ fun middle => ?_
    · rw [Graph.add]
      split <;> rintro ⟨⟩
    · rw [Graph.link]
      split <;> rintro ⟨⟩

theorem Graph.setSides_ne_missingIndirection (g : Graph) (operation input output : ShapeId) :
    g.setSides operation input output ≠ .error (.missingIndirection ids) := by
  rw [Graph.setSides]
  split
  · rintro ⟨⟩
  · split <;> rintro ⟨⟩

namespace Normalization

/-- Planning a side does not. -/
theorem planSide_ne_missingIndirection (naming : SyntheticNaming) (operation : Node) (side : Side) :
    planSide g naming operation side ≠ .error (.missingIndirection ids) := by
  rw [planSide]
  split
  · rintro ⟨⟩
  · split
    · rintro ⟨⟩
    · split
      · rintro ⟨⟩
      · refine bind_ne_error ?_ fun source => ?_
        · rw [Graph.require]
          split <;> rintro ⟨⟩
        · split <;> rintro ⟨⟩

theorem reserve_ne_missingIndirection (operation : ShapeId) (taken : List ShapeId) (id : ShapeId) :
    reserve operation taken id ≠ .error (.missingIndirection ids) := by
  rw [reserve]
  split <;> rintro ⟨⟩

/-- Planning operations does not, by induction on them. -/
theorem planFrom_ne_missingIndirection (naming : SyntheticNaming) (taken : List ShapeId)
    (operations : List Node) :
    planFrom g naming taken operations ≠ .error (.missingIndirection ids) := by
  induction operations generalizing taken with
  | nil => rintro ⟨⟩
  | cons operation operations ih =>
    rw [planFrom]
    refine bind_ne_error ?_ fun plan => bind_ne_error (ih _) fun _ => by rintro ⟨⟩
    rw [planOperation]
    refine bind_ne_error (planSide_ne_missingIndirection naming operation .input) fun _ => ?_
    refine bind_ne_error (reserve_ne_missingIndirection _ _ _) fun _ => ?_
    refine bind_ne_error (planSide_ne_missingIndirection naming operation .output) fun _ => ?_
    exact bind_ne_error (reserve_ne_missingIndirection _ _ _) fun _ => by rintro ⟨⟩

end Normalization

open Normalization in
/-- So no normalization raises it. -/
theorem Graph.normalize_ne_missingIndirection (g : Graph) (naming : SyntheticNaming) :
    g.normalize naming ≠ .error (.missingIndirection ids) := by
  rw [Graph.normalize]
  split
  · rintro ⟨⟩
  · refine bind_ne_error (planFrom_ne_missingIndirection naming [] g.operations) fun plans => ?_
    refine bind_ne_error ?_ fun _ => by rintro ⟨⟩
    refine bind_ne_error (foldlM_ne_error insert_ne_missingIndirection) fun middle => ?_
    refine foldlM_ne_error fun k p => ?_
    rw [rewire]
    split
    · rintro ⟨⟩
    · exact k.setSides_ne_missingIndirection _ _ _

/-- No resolution does: its faults are violations. -/
theorem Build.resolveGraph_ne_missingIndirection (wf : r.graph.WellFormed) :
    Build.resolveGraph r ≠ .error (.missingIndirection ids) := by
  have ends := resolveAll_ends wf wf.closed_exposed .new ⟨rfl, rfl⟩ fun id hid =>
    (Resolver.mem_roots wf).1 hid
  rw [Build.resolveGraph]
  cases hrun : r.resolveAll {} with
  | ok u s => rintro ⟨⟩
  | error e s =>
    rintro ⟨⟩
    cases (ends.of_error hrun).reason

end Faults

/-! ## Unambiguous graphs -/

/-- The identifiers of members lead to one target: records and unions are roots, and members that
share a name share their target. -/
structure Graph.Unambiguous (g : Graph) : Prop where
  roots : ∀ n ∈ g.nodes, n.shape.isAggregate = true → n.id.member = none
  names : ∀ n ∈ g.nodes, ∀ m ∈ n.shape.members, ∀ m' ∈ n.shape.members,
    m.name = m'.name → m.target = m'.target

theorem Shape.isOperation_of_isAggregate {s : Shape} (h : s.isAggregate = true) :
    s.isOperation = false := by
  cases s <;> first | rfl | cases h

namespace Normalization

variable {naming : SyntheticNaming} {plans : List Plan} {n : Node}

/-- A record that is added is a root, and has no members or those of a record that was there. -/
theorem members_of_mem_addedNodes (h : planAll g naming = .ok plans) (hn : n ∈ addedNodes plans) :
    n.id.member = none ∧
      (n.shape.members = [] ∨ ∃ source ∈ g.nodes, n.shape.members = source.shape.members) := by
  obtain ⟨operation, -, side, rfl | ⟨source, hsource, members, hshape, rfl⟩⟩ :=
    exists_of_mem_addedNodes h hn
  · exact ⟨rfl, Or.inl rfl⟩
  · refine ⟨rfl, Or.inr ⟨source, hsource, ?_⟩⟩
    rw [hshape]
    rfl

end Normalization

namespace Graph.Unambiguous

/-- Clones have the members of their sources, and all that is made are roots. -/
theorem normalize {naming : SyntheticNaming} {report : Normalization.Report} (h : g.Unambiguous)
    (hrun : g.normalize naming = .ok (g', report)) : g'.Unambiguous := by
  obtain ⟨plans, middle, normalized⟩ := Normalization.exists_normalized hrun
  have hcases : ∀ n ∈ g'.nodes, n.shape.isAggregate = true → n ∈ g.nodes ∨
      n ∈ Normalization.addedNodes plans := fun n hn haggregate =>
    (normalized.old_or_added (Graph.get?_of_mem hn)
      (Shape.isOperation_of_isAggregate haggregate)).imp_left Graph.mem_nodes
  refine ⟨fun n hn haggregate => ?_, fun n hn m hm m' hm' => ?_⟩
  · rcases hcases n hn haggregate with hold | hnew
    · exact h.roots n hold haggregate
    · exact (Normalization.members_of_mem_addedNodes normalized.planned hnew).1
  · rcases hcases n hn (Shape.isAggregate_of_mem_members hm) with hold | hnew
    · exact h.names n hold m hm m' hm'
    · rcases (Normalization.members_of_mem_addedNodes normalized.planned hnew).2 with
        hempty | ⟨source, hsource, hsame⟩
      · rw [hempty] at hm
        cases hm
      · rw [hsame] at hm hm'
        exact h.names source hsource m hm m' hm'

/-- The closure changes no shape. -/
theorem closes {report : EqualityClosure.Report} (h : g.Unambiguous) (closes : Closes g g' report) :
    g'.Unambiguous := by
  have hsame : ∀ n ∈ g'.nodes, ∃ k ∈ g.nodes, k.id = n.id ∧ k.shape = n.shape := by
    intro n hn
    have hshape := closes.shapes n.id
    rw [Graph.get?_of_mem hn, Option.map_some] at hshape
    obtain ⟨k, hk, hshape⟩ := Option.map_eq_some_iff.1 hshape.symm
    exact ⟨k, Graph.mem_nodes hk, Graph.get?_id hk, hshape⟩
  refine ⟨fun n hn => ?_, fun n hn => ?_⟩
  · obtain ⟨k, hk, hid, hshape⟩ := hsame n hn
    rw [← hid, ← hshape]
    exact h.roots k hk
  · obtain ⟨k, hk, -, hshape⟩ := hsame n hn
    rw [← hshape]
    exact h.names k hk

end Graph.Unambiguous

/-! ## What the check keeps is stored inline -/

theorem Node.root_memberId {n : Node} (m : Member) (h : n.id.member = none) :
    (n.memberId m).root = n.id := by
  obtain ⟨⟨scope, name, member⟩, shape, tags⟩ := n
  obtain rfl : member = none := h
  rfl

/-- Bindings have the names and the targets of declared members. -/
theorem Resolver.BoundTo.named {owner : Node} {declared : Member × String} {b : Binding}
    (h : r.BoundTo t owner declared b) :
    b.wireName = declared.1.name ∧ b.symbol.shape = declared.1.target := by
  obtain ⟨target, symbol, boxed, -, -, hknown, -, rfl⟩ := h
  exact ⟨rfl, (r.shape_memberSymbol _ _ _ _).trans (SymbolTable.get?_shape hknown)⟩

/-- The binding that the check looks at is one of a member with the name it asks for. -/
theorem TableSound.member?_memberId (h : TableSound r R t) {n : Node} {m : Member}
    {bindings : List Binding} (node : r.graph.get? n.id = some n) (root : n.id.member = none)
    (bound : t.members? n.id = some bindings) (hm : m ∈ n.shape.members) :
    ∃ b ∈ bindings, t.member? (n.memberId m) = some b ∧
      ∃ m' ∈ n.shape.members, m'.name = m.name ∧ b.symbol.shape = m'.target := by
  obtain ⟨-, owner, hget, -, -, hall⟩ := h.members n.id bindings bound
  rw [node] at hget
  cases hget
  have hlookup : t.member? (n.memberId m) = bindings.find? fun b => b.wireName == m.name := by
    show (t.members? (n.memberId m).root >>= fun members =>
      members.find? fun b => b.wireName == m.name) = _
    rw [Node.root_memberId m root, bound]
    rfl
  rw [← r.map_fst_namedMembers] at hm
  obtain ⟨declared, hdeclared, rfl⟩ := List.mem_map.1 hm
  -- the member has a binding of its own, so one of its name is found
  obtain ⟨own, hown, hbound⟩ := exists_of_forall₂ hall hdeclared
  cases hfind : bindings.find? fun b => b.wireName == declared.1.name with
  | none => exact absurd (beq_iff_eq.2 hbound.named.1) (List.find?_eq_none.1 hfind own hown)
  | some b =>
    have hb := List.mem_of_find?_eq_some hfind
    obtain ⟨declared', hdeclared', hbound'⟩ := exists_of_forall₂ hall.flip hb
    have named' := Resolver.BoundTo.named hbound'
    refine ⟨b, hb, hlookup.trans hfind, declared'.1, ?_, ?_, named'.2⟩
    · rw [← r.map_fst_namedMembers]
      exact List.mem_map.2 ⟨declared', hdeclared', rfl⟩
    · rw [← named'.1]
      have hname := List.find?_some hfind
      exact beq_iff_eq.1 hname

/-- What the check keeps in an unambiguous graph is stored inline. -/
theorem TableSound.inlines_of_keeps (h : TableSound r R t) (unambiguous : r.graph.Unambiguous)
    (hkeeps : r.graph.Keeps (Build.isBroken t) x y) : r.graph.Inlines t x y := by
  obtain ⟨n, m, hn, haggregate, hm, hbroken, rfl, htarget⟩ := hkeeps
  obtain rfl := Graph.get?_id hn
  have hroot : n.id.member = none := unambiguous.roots n (Graph.mem_nodes hn) haggregate
  rw [Build.isBroken, Bool.or_eq_false_iff, Bool.not_eq_false', Node.root_memberId m hroot]
    at hbroken
  obtain ⟨hboxed, hbound⟩ := hbroken
  obtain ⟨bindings, hmembers⟩ := SymbolTable.isBound_iff.1 hbound
  obtain ⟨b, hb, hfound, m', hm', hname, hshape⟩ := h.member?_memberId hn hroot hmembers hm
  rw [SymbolTable.isBoxed, hfound, Option.any_some] at hboxed
  obtain ⟨i, hi⟩ := List.mem_iff_getElem?.1 hb
  refine ⟨bindings, hmembers, i, b, hi, hboxed, ?_, htarget⟩
  rw [hshape]
  exact unambiguous.names n (Graph.mem_nodes hn) m' hm' m hm hname

/-- After a resolution of all roots in an unambiguous graph, the check finds no cycle. -/
theorem keeps_acyclic (wf : r.graph.WellFormed) (unambiguous : r.graph.Unambiguous)
    (hrun : r.resolveAll {} = .ok () s) (x : ShapeId) :
    ¬ TransGen (r.graph.Keeps (Build.isBroken s.table)) x x := by
  have ends := resolveAll_ends wf wf.closed_exposed .new ⟨rfl, rfl⟩ fun id hid =>
    (Resolver.mem_roots wf).1 hid
  have moves := (ends.of_ok hrun).1.moves
  have table := (moves.sound wf.closed_exposed .new).table
  have anchored : Anchored r.graph s :=
    moves.keep wf.closed_exposed .new (fun _ _ h move ha => move.anchored h ha) .new
  intro cycle
  exact anchored.acyclic x
    (TransGen.mono (fun _ _ => table.inlines_of_keeps unambiguous) _ _ cycle)

/-- In an unambiguous graph the check agrees with the resolution: after all roots are resolved no
    cycle is left, and a build never fails for one. -/
theorem build_finds_no_missing_indirection (wf : g.WellFormed) (unambiguous : g.Unambiguous) :
    (∀ r : Resolver, r.graph = g → ∀ s, r.resolveAll {} = .ok () s →
      (∀ x, ¬ TransGen (g.Keeps (Build.isBroken s.table)) x x) ∧
        InlineCycle.unbroken g (Build.isBroken s.table) = []) ∧
      ∀ settings ids, Build.run g settings ≠ .error (.missingIndirection ids) := by
  refine ⟨?_, fun settings ids hrun => ?_⟩
  · rintro r rfl s hrun
    have acyclic := keeps_acyclic wf unambiguous hrun
    exact ⟨acyclic, InlineCycle.unbroken_eq_nil acyclic⟩
  · cases hnormalize : g.normalize settings.synthetic with
    | error e =>
      rw [Build.run, hnormalize] at hrun
      cases hrun
      exact g.normalize_ne_missingIndirection _ hnormalize
    | ok result =>
      obtain ⟨normalized, report⟩ := result
      obtain ⟨graph, closure, hclose, wf', closes⟩ := (wf.normalize hnormalize).exists_closes
      have unambiguous' := (unambiguous.normalize hnormalize).closes closes
      simp only [Build.run, hnormalize, hclose, bind, Except.bind] at hrun
      cases hresolve : Build.resolveGraph (settings.resolver graph) with
      | error e =>
        rw [hresolve] at hrun
        cases hrun
        exact Build.resolveGraph_ne_missingIndirection wf' hresolve
      | ok session =>
        have acyclic := keeps_acyclic wf' unambiguous' (Build.resolveGraph_eq_ok.1 hresolve)
        have hnone : InlineCycle.unbroken graph (Build.isBroken session.table) = [] :=
          InlineCycle.unbroken_eq_nil acyclic
        rw [hresolve] at hrun
        simp only [hnone] at hrun
        cases hrun

/-! ## A ledger -/

namespace Ledger

/-- The identifier of a shape of the ledger. -/
def shape (name : String) : ShapeId := ⟨"ledger", name, none⟩

/-- An entry that holds itself and its page, which holds the entry. -/
def nodes : List Node :=
  [ ⟨shape "Entry", .record [⟨"next", shape "Entry", .empty⟩, ⟨"page", shape "Page", .empty⟩],
      .empty⟩,
    ⟨shape "Page", .union [⟨"first", shape "Entry", .empty⟩], .empty⟩,
    ⟨shape "Post", .operation (some (shape "Entry")) none [], .empty⟩ ]

/-- The graph of the ledger. -/
def graph : Graph := .ofNodesD nodes

theorem unambiguous : graph.Unambiguous where
  roots := by
    show ∀ n ∈ graph.nodes.toList, _
    decide +kernel
  names := by
    show ∀ n ∈ graph.nodes.toList, _
    decide +kernel

end Ledger

/-- The ledger has a cycle that members close, and under no settings does a build refuse it. -/
theorem ledger_finds_no_missing_indirection :
    Ledger.graph.WellFormed ∧ Ledger.graph.Unambiguous ∧ Ledger.graph.operations.length = 1 ∧
      (InlineCycle.all Ledger.graph).length = 1 ∧
      ∀ settings ids, Build.run Ledger.graph settings ≠ .error (.missingIndirection ids) := by
  have wf : Ledger.graph.WellFormed := Graph.wellFormed_ofNodesD Ledger.nodes
  exact ⟨wf, Ledger.unambiguous, by decide +kernel, by decide +kernel,
    (build_finds_no_missing_indirection wf Ledger.unambiguous).2⟩

/-! ## A name that is used twice -/

namespace Shadow

/-- The identifier of a shape. -/
def shape (name : String) : ShapeId := ⟨"shadow", name, none⟩

/-- A note with two members of one name, of which the second one holds the note itself. -/
def nodes : List Node :=
  [ ⟨shape "Text", .primitive .string, .empty⟩,
    ⟨shape "Note", .record [⟨"next", shape "Text", .empty⟩, ⟨"next", shape "Note", .empty⟩],
      .empty⟩ ]

/-- The graph of the note. -/
def graph : Graph := .ofNodesD nodes

end Shadow

/-- The note is resolved, with a box for its second member, and refused all the same: the check
looks at the binding of the first one. -/
theorem shadow_finds_missing_indirection :
    Shadow.graph.WellFormed ∧
      (Settings.resolver {} Shadow.graph).resolveAll.endsWell {} = true ∧
      ((Settings.resolver {} Shadow.graph).resolveAll.leaves {}).table.boxedMembers.toList =
        [(Shadow.shape "Note").withMember "next"] ∧
      Build.run Shadow.graph {} = .error (.missingIndirection [Shadow.shape "Note"]) :=
  ⟨Graph.wellFormed_ofNodesD Shadow.nodes, by decide +kernel, by decide +kernel, by decide +kernel⟩

end SchemaSymbols
