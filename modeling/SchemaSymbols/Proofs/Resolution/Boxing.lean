/-
  Boxes break every cycle.

  A member that is bound without a box stores its target inline.  After any sequence of calls, also
  of calls that failed, no record or union stores itself inline, directly or through others, and
  whatever is stored inline is bound itself.

  1. **What is stored inline** is read off the bindings by position (`Graph.StoredIn`,
     `Graph.Inlines`), so two members of one name do not get into each other's way.

  2. **The order in which records and unions are bound.**  `Anchored` carries the proof.  It says
     that each bound record or union comes after all that it stores inline (`grounded`, as an
     accessibility), and that what is stored inline is bound.  A walk has not come that far, but
     almost: what its members store inline is bound, except for the one record or union that is
     walked next, further in.

  3. **The steps.**  A member that leads back to a walk is boxed, so it puts nothing in the way of
     this order (`storedIn_advance`).  When a walk is left, all that its members store inline is
     bound, hence the owner may come after it (`Anchored.leave`).  Walks that are given up were not
     part of the order.

  Accessibility rules out cycles (`Anchored.acyclic`).
-/
import SchemaSymbols.Proofs.Resolution.Run

namespace SchemaSymbols

open Relation

variable {r : Resolver} {R : ShapeId → Prop} {g : Graph} {t t' : SymbolTable} {s s' : Session}

/-! ## What is stored inline -/

/-- One of the bindings is not boxed, and its target is the given record or union. -/
def Graph.StoredIn (g : Graph) (bindings : List Binding) (target : ShapeId) : Prop :=
  ∃ (i : Nat) (b : Binding), bindings[i]? = some b ∧ b.symbol.boxed = false ∧
    b.symbol.shape = target ∧ g.isAggregate target = true

/-- The record or union `x` is bound and stores the record or union `y` inline. -/
def Graph.Inlines (g : Graph) (t : SymbolTable) (x y : ShapeId) : Prop :=
  ∃ bindings, t.members? x = some bindings ∧ g.StoredIn bindings y

theorem Graph.not_storedIn_nil {target : ShapeId} : ¬ g.StoredIn [] target := by
  rintro ⟨i, b, hb, -⟩
  cases hb

/-- What one more binding stores inline: what the others do, and its own target. -/
theorem Graph.storedIn_append {bindings : List Binding} {b : Binding} {target : ShapeId}
    (h : g.StoredIn (bindings ++ [b]) target) :
    g.StoredIn bindings target ∨
      (b.symbol.boxed = false ∧ b.symbol.shape = target ∧ g.isAggregate target = true) := by
  obtain ⟨i, c, hc, hboxed, hshape, haggregate⟩ := h
  rcases List.mem_append.1 (List.mem_of_getElem? hc) with hmem | hmem
  · obtain ⟨j, hj⟩ := List.mem_iff_getElem?.1 hmem
    exact Or.inl ⟨j, c, hj, hboxed, hshape, haggregate⟩
  · rw [List.mem_singleton.1 hmem] at hboxed hshape
    exact Or.inr ⟨hboxed, hshape, haggregate⟩

theorem Graph.isBound_of_inlines {x y : ShapeId} (h : g.Inlines t x y) : t.isBound x = true := by
  obtain ⟨bindings, hmembers, -⟩ := h
  exact SymbolTable.isBound_iff.2 ⟨bindings, hmembers⟩

/-- A record or union that was not bound adds only what it stores inline itself. -/
theorem Graph.inlines_bind {owner x y : ShapeId} {bindings : List Binding}
    (h : g.Inlines (t.bind owner bindings) x y) :
    (x = owner ∧ g.StoredIn bindings y) ∨ (x ≠ owner ∧ g.Inlines t x y) := by
  obtain ⟨members, hmembers, hstored⟩ := h
  rw [SymbolTable.members?_bind] at hmembers
  split at hmembers
  · rename_i he
    cases hmembers
    exact Or.inl ⟨he.symm, hstored⟩
  · rename_i hne
    exact Or.inr ⟨fun he => hne he.symm, members, hmembers, hstored⟩

/-! ## The order in which records and unions are bound -/

/-- Every record and union comes after those that it stores inline. -/
structure Anchored (g : Graph) (s : Session) : Prop where
  bound : ∀ x y, g.Inlines s.table x y → s.table.isBound y = true
  grounded : ∀ x, s.table.isBound x = true → Acc (fun y x => g.Inlines s.table x y) x
  innermost : ∀ f ∈ s.frames.head?, ∀ y, g.StoredIn f.bound y → s.table.isBound y = true
  nested : s.frames.IsChain fun inner outer =>
    ∀ y, g.StoredIn outer.bound y → s.table.isBound y = true ∨ y = inner.owner.id

theorem Anchored.new : Anchored g {} where
  bound := by
    rintro x y ⟨bindings, hmembers, -⟩
    cases hmembers
  grounded := fun _ hx => Bool.noConfusion hx
  innermost := by rintro f ⟨⟩
  nested := .nil

/-- Only bound members and walks matter. -/
theorem Anchored.congr (h : Anchored g s) (hb : s'.table.bindings = s.table.bindings)
    (hf : s'.frames = s.frames) : Anchored g s' := by
  have hbound : ∀ id, s'.table.isBound id = s.table.isBound id := fun id => by
    rw [SymbolTable.isBound, SymbolTable.isBound, hb]
  have hinlines : g.Inlines s'.table = g.Inlines s.table := by
    funext x y
    rw [Graph.Inlines, Graph.Inlines, SymbolTable.members?, SymbolTable.members?, hb]
  refine ⟨?_, ?_, ?_, ?_⟩
  · rw [hinlines]
    exact fun x y hxy => (hbound y).trans (h.bound x y hxy)
  · rw [hinlines]
    exact fun x hx => h.grounded x ((hbound x).symm.trans hx)
  · rw [hf]
    exact fun f hf y hy => (hbound y).trans (h.innermost f hf y hy)
  · rw [hf]
    exact h.nested.imp fun inner outer hnested y hy =>
      (hnested y hy).imp_left fun hy => (hbound y).trans hy

/-- The chain of walks looks at the owner of an inner walk only. -/
theorem isChain_advance {f : Frame} {rest : List Frame} {P : Frame → ShapeId → Prop} (b : Binding)
    (h : (f :: rest).IsChain fun inner outer => P outer inner.owner.id) :
    (f.advance b :: rest).IsChain fun inner outer => P outer inner.owner.id :=
  List.isChain_cons.2 (List.isChain_cons.1 h)

@[simp] theorem Resolver.boxed_memberSymbol (r : Resolver) (owner : Node) (m : Member)
    (target : Symbol) (boxed : Bool) : (r.memberSymbol owner m target boxed).boxed = boxed := by
  rw [memberSymbol]
  split <;> rfl

@[simp] theorem Resolver.shape_memberSymbol (r : Resolver) (owner : Node) (m : Member)
    (target : Symbol) (boxed : Bool) :
    (r.memberSymbol owner m target boxed).shape = target.shape := by
  rw [memberSymbol]
  split <;> rfl

/-- What the next binding stores inline is its target, which is not being walked. -/
theorem storedIn_advance {f : Frame} {rest : List Frame} {m : Member} {name : String}
    {target : Node} {symbol : Symbol} {y : ShapeId} (binds : Binds r s f rest m name target symbol)
    (h : r.graph.StoredIn (f.advance (nextBinding r s f m name symbol)).bound y) :
    r.graph.StoredIn f.bound y ∨
      (y = m.target ∧ s.isResolving m.target = false ∧ target.shape.isAggregate = true) := by
  refine (Graph.storedIn_append h).imp_right ?_
  rintro ⟨hboxed, hshape, haggregate⟩
  have hflag : (s.isResolving m.target || m.tags.contains .recursive) = false :=
    (r.boxed_memberSymbol _ _ _ _).symm.trans hboxed
  have htarget : y = m.target :=
    hshape.symm.trans ((r.shape_memberSymbol _ _ _ _).trans (SymbolTable.get?_shape binds.known))
  subst htarget
  rw [Graph.isAggregate_of_get? binds.node] at haggregate
  exact ⟨rfl, (Bool.or_eq_false_iff.1 hflag).1, haggregate⟩

/-- A member whose target needs no walk keeps the order: inline it stores what is bound. -/
theorem Anchored.bindNext {f : Frame} {rest : List Frame} {m : Member} {name : String}
    {target : Node} {symbol : Symbol} (h : Anchored r.graph s)
    (binds : Binds r s f rest m name target symbol)
    (stays : s.isResolving m.target = true ∨ target.shape.isAggregate = false ∨
      s.table.isBound m.target = true) :
    Anchored r.graph (s.bindNext (nextBinding r s f m name symbol)) := by
  have hinnermost := h.innermost f (by rw [binds.top]; rfl)
  rw [Session.bindNext_of_frames binds.top]
  refine ⟨h.bound, h.grounded, ?_, ?_⟩
  · rintro k ⟨⟩ y hy
    rcases storedIn_advance binds hy with hy | ⟨rfl, hresolving, haggregate⟩
    · exact hinnermost y hy
    · -- the target is not being walked and is a record or union, so it is bound
      rcases stays with hstays | hstays | hstays
      · rw [hresolving] at hstays
        cases hstays
      · rw [haggregate] at hstays
        cases hstays
      · exact hstays
  · exact isChain_advance (P := fun outer inner => ∀ y, r.graph.StoredIn outer.bound y →
      s.table.isBound y = true ∨ y = inner) _ (binds.top ▸ h.nested)

/-- A member whose target is entered may store it inline: it will be bound first. -/
theorem Anchored.descend {f : Frame} {rest : List Frame} {m : Member} {name : String}
    {target : Node} {symbol : Symbol} (h : Anchored r.graph s)
    (binds : Binds r s f rest m name target symbol) :
    Anchored r.graph
      ((s.bindNext (nextBinding r s f m name symbol)).enter target (r.memberNames target)) := by
  have hinnermost := h.innermost f (by rw [binds.top]; rfl)
  rw [Session.bindNext_of_frames binds.top]
  refine ⟨h.bound, h.grounded, ?_, List.isChain_cons.2 ⟨?_, ?_⟩⟩
  · rintro k ⟨⟩ y hy
    exact absurd hy Graph.not_storedIn_nil
  · rintro k ⟨⟩ y hy
    rcases storedIn_advance binds hy with hy | ⟨rfl, -, -⟩
    · exact Or.inl (hinnermost y hy)
    · exact Or.inr (Graph.get?_id binds.node).symm
  · exact isChain_advance (P := fun outer inner => ∀ y, r.graph.StoredIn outer.bound y →
      s.table.isBound y = true ∨ y = inner) _ (binds.top ▸ h.nested)

/-- What was in order stays so when another record or union is bound. -/
theorem acc_bind {owner x : ShapeId} {bindings : List Binding}
    (bound : ∀ x y, g.Inlines t x y → t.isBound y = true) (unbound : t.isBound owner = false)
    (h : Acc (fun y x => g.Inlines t x y) x) (hx : t.isBound x = true) :
    Acc (fun y x => g.Inlines (t.bind owner bindings) x y) x := by
  induction h with
  | intro x _ ih =>
    refine .intro x fun y hy => ?_
    rcases Graph.inlines_bind hy with ⟨rfl, -⟩ | ⟨-, hy⟩
    · rw [unbound] at hx
      cases hx
    · exact ih y hy (bound x y hy)

/-- The innermost walk is bound last, after all that it stores inline. -/
theorem Anchored.leave {f : Frame} {rest : List Frame} (h : Anchored g s)
    (top : s.frames = f :: rest) (unbound : s.table.isBound f.owner.id = false) :
    Anchored g s.leave := by
  have hinnermost := h.innermost f (by rw [top]; rfl)
  have hnested := h.nested
  rw [top, List.isChain_cons] at hnested
  have hstill : ∀ y, s.table.isBound y = true →
      (s.table.bind f.owner.id f.bound).isBound y = true :=
    fun y hy => SymbolTable.isBound_bind.2 (Or.inr hy)
  have hacc : ∀ y, s.table.isBound y = true →
      Acc (fun y x => g.Inlines (s.table.bind f.owner.id f.bound) x y) y :=
    fun y hy => acc_bind h.bound unbound (h.grounded y hy) hy
  rw [Session.leave_of_frames top]
  refine ⟨fun x y hxy => ?_, fun x hx => ?_, fun k hk y hy => ?_, ?_⟩
  · rcases Graph.inlines_bind hxy with ⟨-, hy⟩ | ⟨-, hxy⟩
    · exact hstill y (hinnermost y hy)
    · exact hstill y (h.bound x y hxy)
  · -- the new one comes after what it stores inline, and the others are as before
    rcases SymbolTable.isBound_bind.1 hx with rfl | hx
    · refine .intro _ fun y hy => ?_
      rcases Graph.inlines_bind hy with ⟨-, hy⟩ | ⟨hne, -⟩
      · exact hacc y (hinnermost y hy)
      · exact absurd rfl hne
    · exact hacc x hx
  · -- the next walk stored nothing inline that is not bound, except what was just bound
    rcases hnested.1 k hk y hy with hy | rfl
    · exact hstill y hy
    · exact SymbolTable.isBound_bind.2 (Or.inl rfl)
  · exact hnested.2.imp fun inner outer hall y hy => (hall y hy).imp_left (hstill y)

/-- Every step keeps the order. -/
theorem Step.anchored (h : Sound r R s) (step : Step r R s s') (ha : Anchored r.graph s) :
    Anchored r.graph s' := by
  cases step with
  | symbol step => exact ha.congr step.bindings step.frames
  | enter within node aggregate known unbound noWalk idle =>
    refine ⟨ha.bound, ha.grounded, ?_, ?_⟩
    · rintro k ⟨⟩ y hy
      exact absurd hy Graph.not_storedIn_nil
    · show (_ :: s.frames).IsChain _
      rw [noWalk]
      exact .singleton _
  | bind binds stays => exact ha.bindNext binds stays
  | descend binds => exact ha.descend binds
  | leave top done idle => exact ha.leave top (h.frames _ (top ▸ List.mem_cons_self)).unbound

/-- Every move keeps the order. -/
theorem Move.anchored (h : Sound r R s) (move : Move r R s s') (ha : Anchored r.graph s) :
    Anchored r.graph s' := by
  cases move with
  | step step => exact step.anchored h ha
  | dequeue queue => exact ha.congr rfl rfl
  | abandon => exact ⟨ha.bound, ha.grounded, by rintro f ⟨⟩, .nil⟩

/-! ## After any calls -/

/-- After any calls, records and unions are bound in such an order. -/
theorem anchored_after (wf : r.graph.WellFormed) (calls : List Call) :
    Anchored r.graph (r.after calls) := by
  have closed : r.graph.Closed fun _ => True := fun _ _ _ _ => trivial
  exact (after_moves wf calls).1.keep closed .new (fun _ _ h move ha => move.anchored h ha) .new

/-- A record or union that comes after all that it stores inline does not store itself. -/
theorem Anchored.acyclic (h : Anchored g s) (x : ShapeId) :
    ¬ TransGen (g.Inlines s.table) x x := by
  intro cycle
  obtain ⟨y, hxy, -⟩ := TransGen.head'_iff.1 cycle
  exact not_transGen_self_of_acc (h.grounded x (Graph.isBound_of_inlines hxy)) cycle

/-- Bindings follow the declared members one by one, and each is for the target of its member. -/
theorem Resolver.BoundAll.targets {x : ShapeId} {bindings : List Binding}
    (h : r.BoundAll t x bindings) :
    ∃ owner, r.graph.get? x = some owner ∧ owner.shape.isAggregate = true ∧
      List.Forall₂ (fun m b => b.symbol.shape = m.target) owner.shape.members bindings := by
  obtain ⟨owner, hget, haggregate, -, hall⟩ := h
  refine ⟨owner, hget, haggregate, ?_⟩
  rw [← r.map_fst_namedMembers, List.forall₂_map_left_iff]
  refine hall.imp ?_
  rintro declared b ⟨target, symbol, boxed, -, -, hknown, -, rfl⟩
  exact (r.shape_memberSymbol _ _ _ _).trans (SymbolTable.get?_shape hknown)

/-- After any calls, whether they end well or fail: no record or union stores itself inline, what
    is stored inline is bound, and bindings are those of the declared members by position. -/
theorem inlines_acyclic_after_calls (wf : r.graph.WellFormed) (calls : List Call) :
    (∀ x, ¬ TransGen (r.graph.Inlines (r.after calls).table) x x) ∧
      (∀ x y, r.graph.Inlines (r.after calls).table x y →
        (r.after calls).table.isBound y = true) ∧
      ∀ x bindings, (r.after calls).table.members? x = some bindings →
        ∃ owner, r.graph.get? x = some owner ∧ owner.shape.isAggregate = true ∧
          List.Forall₂ (fun m b => b.symbol.shape = m.target) owner.shape.members bindings := by
  have closed : r.graph.Closed fun _ => True := fun _ _ _ _ => trivial
  have anchored := anchored_after wf calls
  have sound := (after_moves wf calls).1.sound closed .new
  exact ⟨anchored.acyclic, anchored.bound, fun x bindings hmembers =>
    (sound.table.members x bindings hmembers).2.targets⟩

/-! ## A ring of records -/

namespace Ring

/-- The identifier of a shape of the ring. -/
def shape (name : String) : ShapeId := ⟨"ring", name, none⟩

/-- Three records and unions in a ring, and a record that leads into the ring and, after that, to a
service, for which it is refused. -/
def nodes : List Node :=
  [ ⟨shape "A", .record [⟨"b", shape "B", .empty⟩, ⟨"b", shape "B", .empty⟩], .empty⟩,
    ⟨shape "B", .union [⟨"c", shape "C", .empty⟩], .empty⟩,
    ⟨shape "C", .record [⟨"a", shape "A", .empty⟩, ⟨"c", shape "C", .empty⟩], .empty⟩,
    ⟨shape "Entry", .record [⟨"a", shape "A", .empty⟩, ⟨"s", shape "S", .empty⟩], .empty⟩,
    ⟨shape "S", .service [], .empty⟩ ]

/-- The graph of the ring. -/
def graph : Graph := .ofNodesD nodes

/-- The ring seen through a target language. -/
def resolver : Resolver := .new graph .rust (NullabilityMode.policy .structural) {}

/-- The call for the entry fails, after the ring was bound. -/
def calls : List Call := [.shape (shape "Entry"), .shape (shape "A"), .all]

end Ring

/-- The first call fails and leaves the entry unbound; after the others nothing in the ring stores
itself inline. -/
theorem inlines_acyclic_after_ring_calls :
    Ring.resolver.graph.WellFormed ∧
      (Ring.resolver.after Ring.calls).table.isBound (Ring.shape "Entry") = false ∧
      (Ring.resolver.after Ring.calls).table.isBound (Ring.shape "A") = true ∧
      ∀ x, ¬ TransGen (Ring.graph.Inlines (Ring.resolver.after Ring.calls).table) x x := by
  have wf : Ring.resolver.graph.WellFormed := Graph.wellFormed_ofNodesD Ring.nodes
  exact ⟨wf, by decide +kernel, by decide +kernel, (inlines_acyclic_after_calls wf Ring.calls).1⟩

end SchemaSymbols
