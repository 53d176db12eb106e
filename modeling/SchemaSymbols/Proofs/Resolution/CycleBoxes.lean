/-
  Boxes are there for a reason: one that is not asked for by a tag closes a cycle.

  A binding that is boxed without a tag is a cut.  The claim is that from the target of a cut a path
  of bindings that are no cuts leads back to its owner, so that without the box there would be a
  cycle.

  1. **While walks are under way** the path is the stack.  Each walk was entered through the last
     binding of the walk around it, which is no cut, so when a member leads back to a walk, bindings
     that are no cuts lead from that walk down the stack to the owner of the member
     (`Warranted.leads`).

  2. **When they are over** the bindings are in the table, and stay there.  `Warranted` speaks of
     what is bound so far, in the table or on the stack, so leaving a walk changes nothing
     (`Session.hasBound_leave`).

  3. **A walk that is given up** takes its bindings with it, and a path may go through them.
     Therefore all calls have to end well (`warranted_callEach`).

  4. **Boxes in the table.**  Un-boxing a binding of an idle session closes a cycle of inlined
     members (`Graph.CutAt.uncut_unbox`), and the owner and the target are in one group of the
     graph, as every inlined member is an edge of it (`Sound.keeps_of_uncut`).

  `untagged_boxes_close_cycles` states the three of them, by position, since two members of a shape
  may have one name.
-/
import SchemaSymbols.Proofs.InlineCycle
import SchemaSymbols.Proofs.Resolution.Boxing
import SchemaSymbols.Proofs.Resolution.Calls

namespace SchemaSymbols

open Relation ResolveM

variable {r : Resolver} {R : ShapeId → Prop} {g : Graph} {t : SymbolTable} {s s' : Session}
  {x y : ShapeId} {i : Nat} {m : Member} {b : Binding} {bindings : List Binding}

/-! ## Cuts -/

/-- A binding is boxed although its member is not tagged. -/
def Member.isCut (m : Member) (b : Binding) : Bool :=
  b.symbol.boxed && !m.tags.contains .recursive

/-- At a position of the members of `x` stands `m`, and at the same position of the bindings `b`. -/
def Graph.BoundAt (g : Graph) (x : ShapeId) (bindings : List Binding) (i : Nat) (m : Member)
    (b : Binding) : Prop :=
  ∃ owner, g.get? x = some owner ∧ owner.shape.members[i]? = some m ∧ bindings[i]? = some b

/-- One of the bindings of `x` is no cut, and its target is the record or union `y`. -/
def Graph.UncutIn (g : Graph) (x : ShapeId) (bindings : List Binding) (y : ShapeId) : Prop :=
  ∃ i m b, g.BoundAt x bindings i m b ∧ m.isCut b = false ∧ m.target = y ∧
    g.isAggregate y = true

/-- The record or union `x` is bound, and one of its members that is no cut has the target `y`. -/
def Graph.Uncut (g : Graph) (t : SymbolTable) (x y : ShapeId) : Prop :=
  ∃ bindings, t.members? x = some bindings ∧ g.UncutIn x bindings y

/-- The record or union `x` is bound, and its member at a position is a cut with the target `y`. -/
def Graph.CutAt (g : Graph) (t : SymbolTable) (x : ShapeId) (i : Nat) (y : ShapeId) : Prop :=
  ∃ bindings m b, t.members? x = some bindings ∧ g.BoundAt x bindings i m b ∧
    m.isCut b = true ∧ m.target = y

/-- A binding keeps its position when another one is added behind it. -/
theorem Graph.BoundAt.append (h : g.BoundAt x bindings i m b) (c : Binding) :
    g.BoundAt x (bindings ++ [c]) i m b := by
  obtain ⟨owner, hget, hm, hb⟩ := h
  have hi : i < bindings.length := (List.getElem?_eq_some_iff.1 hb).1
  exact ⟨owner, hget, hm, by rw [List.getElem?_append_left hi, hb]⟩

/-- A binding is one of the former ones or the one that was added, which stands last. -/
theorem Graph.BoundAt.of_append {c : Binding} (h : g.BoundAt x (bindings ++ [c]) i m b) :
    g.BoundAt x bindings i m b ∨ (i = bindings.length ∧ b = c) := by
  obtain ⟨owner, hget, hm, hb⟩ := h
  by_cases hi : i < bindings.length
  · rw [List.getElem?_append_left hi] at hb
    exact Or.inl ⟨owner, hget, hm, hb⟩
  · have hle : bindings.length ≤ i := by omega
    rw [List.getElem?_append_right hle] at hb
    have hlast : i - bindings.length = 0 := by
      have hlt := (List.getElem?_eq_some_iff.1 hb).1
      simp only [List.length_singleton] at hlt
      omega
    rw [hlast] at hb
    cases hb
    exact Or.inr ⟨by omega, rfl⟩

/-! ## What a session has bound so far -/

/-- The members of `x` are bound, or they are being bound and so far have the given bindings. -/
def Session.HasBound (s : Session) (x : ShapeId) (bindings : List Binding) : Prop :=
  s.table.members? x = some bindings ∨ ∃ f ∈ s.frames, f.owner.id = x ∧ f.bound = bindings

/-- A member of `x` that is bound already and is no cut has the target `y`. -/
def Session.Uncut (g : Graph) (s : Session) (x y : ShapeId) : Prop :=
  ∃ bindings, s.HasBound x bindings ∧ g.UncutIn x bindings y

/-- Every cut closes a cycle of members that are no cuts, and the walks lead inwards through such
members. -/
structure Warranted (g : Graph) (s : Session) : Prop where
  cuts : ∀ x bindings i m b, s.HasBound x bindings → g.BoundAt x bindings i m b →
    m.isCut b = true → ReflTransGen (s.Uncut g) m.target x
  nested : s.frames.IsChain fun inner outer => s.Uncut g outer.owner.id inner.owner.id

theorem Warranted.new : Warranted g {} where
  cuts := by
    rintro x bindings i m b (hmembers | ⟨f, hf, -⟩)
    · cases hmembers
    · cases hf
  nested := .nil

/-- From a walk that is under way, members that are no cuts lead to the innermost walk. -/
theorem Warranted.leads {f : Frame} {rest : List Frame} (h : Warranted g s)
    (top : s.frames = f :: rest) (hx : s.isResolving x = true) :
    ReflTransGen (s.Uncut g) x f.owner.id := by
  obtain ⟨k, hk, rfl⟩ := List.mem_map.1 (Session.isResolving_iff.1 hx)
  have hnested := h.nested
  rw [top] at hk hnested
  have hleads : ReflTransGen (fun a b : Frame => s.Uncut g a.owner.id b.owner.id) k f :=
    leads_of_isChain hnested k hk
  exact ReflTransGen.lift (fun frame : Frame => frame.owner.id) (fun _ _ huncut => huncut)
    _ _ hleads

/-- Only what is bound and what is being bound matters. -/
theorem Warranted.congr (h : Warranted g s) (hb : s'.table.bindings = s.table.bindings)
    (hf : s'.frames = s.frames) : Warranted g s' := by
  have hsame : s'.HasBound = s.HasBound := by
    funext x bindings
    rw [Session.HasBound, Session.HasBound, SymbolTable.members?, SymbolTable.members?, hb, hf]
  have huncut : s'.Uncut g = s.Uncut g := by
    funext x y
    rw [Session.Uncut, Session.Uncut, hsame]
  constructor
  · rw [hsame, huncut]
    exact h.cuts
  · rw [hf, huncut]
    exact h.nested

/-! ## Entering -/

theorem Session.HasBound.enter {n : Node} {names : List AssignedName}
    (h : s.HasBound x bindings) : (s.enter n names).HasBound x bindings := by
  rcases h with hmembers | ⟨f, hf, howner⟩
  · exact Or.inl hmembers
  · exact Or.inr ⟨f, List.mem_cons_of_mem _ hf, howner⟩

/-- A walk that starts has bound nothing, and an uncut member leads to it from the walk around. -/
theorem Warranted.enter {n : Node} {names : List AssignedName} (h : Warranted g s)
    (hinto : ∀ f ∈ s.frames.head?, s.Uncut g f.owner.id n.id) : Warranted g (s.enter n names) := by
  have huncut : ∀ x y, s.Uncut g x y → (s.enter n names).Uncut g x y := by
    rintro x y ⟨bindings, hbound, hin⟩
    exact ⟨bindings, hbound.enter, hin⟩
  constructor
  · rintro x bindings i m b hbound hat hcut
    have hold : s.HasBound x bindings → ReflTransGen ((s.enter n names).Uncut g) m.target x :=
      fun hbound => ReflTransGen.mono huncut _ _ (h.cuts x bindings i m b hbound hat hcut)
    rcases hbound with hmembers | ⟨f, hf, howner, hnil⟩
    · exact hold (Or.inl hmembers)
    · rcases List.mem_cons.1 hf with rfl | hf
      · obtain ⟨_, -, -, hb⟩ := hat
        rw [← hnil] at hb
        cases hb
      · exact hold (Or.inr ⟨f, hf, howner, hnil⟩)
  · refine List.isChain_cons.2 ⟨fun f hf => huncut _ _ (hinto f hf), ?_⟩
    exact h.nested.imp fun inner outer => huncut _ _

/-! ## Binding -/

/-- The next member of a walk stands where the next binding will stand. -/
theorem FrameSound.getElem?_members {f : Frame} {name : String} {todo : List (Member × String)}
    (h : FrameSound r R t f) (next : f.todo = (m, name) :: todo) :
    f.owner.shape.members[f.bound.length]? = some m := by
  obtain ⟨done, hdone, hall⟩ := h.progress
  have hlength : done.length = f.bound.length := hall.length_eq
  have hmembers : f.owner.shape.members = (done ++ (m, name) :: todo).map Prod.fst := by
    rw [← r.map_fst_namedMembers, hdone, next]
  rw [hmembers, List.getElem?_map, ← hlength, List.getElem?_append_right (Nat.le_refl _)]
  simp

/-- A member that is bound and no cut stays so when another one is bound. -/
theorem Session.Uncut.bindNext {f : Frame} {rest : List Frame} (top : s.frames = f :: rest)
    (h : s.Uncut g x y) (c : Binding) : (s.bindNext c).Uncut g x y := by
  obtain ⟨bindings, hbound, i, m, b, hat, hrest⟩ := h
  rw [Session.bindNext_of_frames top]
  rcases hbound with hmembers | ⟨k, hk, rfl, rfl⟩
  · exact ⟨bindings, Or.inl hmembers, i, m, b, hat, hrest⟩
  · rw [top] at hk
    rcases List.mem_cons.1 hk with rfl | hk
    · exact ⟨_, Or.inr ⟨_, List.mem_cons_self, rfl, rfl⟩, i, m, b, hat.append c, hrest⟩
    · exact ⟨_, Or.inr ⟨k, List.mem_cons_of_mem _ hk, rfl, rfl⟩, i, m, b, hat, hrest⟩

/-- A member is boxed without a tag only if its target is being walked. -/
theorem isResolving_of_isCut {f : Frame} {name : String} {symbol : Symbol}
    (h : m.isCut (nextBinding r s f m name symbol) = true) : s.isResolving m.target = true := by
  have hboxed : (nextBinding r s f m name symbol).symbol.boxed =
      (s.isResolving m.target || m.tags.contains .recursive) := r.boxed_memberSymbol _ _ _ _
  rw [Member.isCut, hboxed] at h
  cases hresolving : s.isResolving m.target with
  | true => rfl
  | false => simp [hresolving] at h

/-- A member is boxed without a tag only if its target is being walked, and then the stack leads
from the target to the owner. -/
theorem Warranted.bindNext {f : Frame} {rest : List Frame} {name : String} {target : Node}
    {symbol : Symbol} (h : Warranted r.graph s) (hs : Sound r R s)
    (binds : Binds r s f rest m name target symbol) (hb : b = nextBinding r s f m name symbol) :
    Warranted r.graph (s.bindNext b) := by
  have top := binds.top
  have hmem : f ∈ s.frames := by rw [top]; exact List.mem_cons_self
  have hf := hs.frames f hmem
  have hgrow : ∀ x y, s.Uncut r.graph x y → (s.bindNext b).Uncut r.graph x y :=
    fun _ _ huncut => huncut.bindNext top b
  constructor
  · intro x bindings i k c hbound hat hcut
    have hold : ∀ bindings, s.HasBound x bindings → r.graph.BoundAt x bindings i k c →
        ReflTransGen ((s.bindNext b).Uncut r.graph) k.target x :=
      fun bindings hbound hat =>
        ReflTransGen.mono hgrow _ _ (h.cuts x bindings i k c hbound hat hcut)
    rw [Session.bindNext_of_frames top] at hbound
    rcases hbound with hmembers | ⟨frame, hframe, howner, hbindings⟩
    · exact hold bindings (Or.inl hmembers) hat
    · rcases List.mem_cons.1 hframe with rfl | hframe
      · -- either an earlier binding of the walk, or the one that was added
        have howner : f.owner.id = x := howner
        have hbindings : f.bound ++ [b] = bindings := hbindings
        subst howner hbindings
        rcases hat.of_append with hat | ⟨rfl, rfl⟩
        · exact hold f.bound (Or.inr ⟨f, hmem, rfl, rfl⟩) hat
        · obtain ⟨owner, hget, hmember, -⟩ := hat
          obtain ⟨todo, htodo⟩ := binds.next
          rw [hf.node] at hget
          cases hget
          rw [hf.getElem?_members htodo] at hmember
          cases hmember
          have hresolving : s.isResolving m.target = true := isResolving_of_isCut (hb ▸ hcut)
          exact ReflTransGen.mono hgrow _ _ (h.leads top hresolving)
      · have hframe : frame ∈ s.frames := by rw [top]; exact List.mem_cons_of_mem _ hframe
        exact hold bindings (Or.inr ⟨frame, hframe, howner, hbindings⟩) hat
  · have hnested : (f :: rest).IsChain fun inner outer =>
        (s.bindNext b).Uncut r.graph outer.owner.id inner.owner.id := by
      rw [← top]
      exact h.nested.imp fun inner outer huncut => hgrow _ _ huncut
    have hframes : (s.bindNext b).frames = f.advance b :: rest := by
      rw [Session.bindNext_of_frames top]
    rw [hframes]
    exact isChain_advance
      (P := fun outer inner => (s.bindNext b).Uncut r.graph outer.owner.id inner) b hnested

/-- A member whose target is entered is no cut. -/
theorem uncut_descend {f : Frame} {rest : List Frame} {name : String} {target : Node}
    {symbol : Symbol} (hs : Sound r R s) (binds : Binds r s f rest m name target symbol)
    (hb : b = nextBinding r s f m name symbol) (apart : s.isResolving m.target = false)
    (aggregate : target.shape.isAggregate = true) :
    (s.bindNext b).Uncut r.graph f.owner.id target.id := by
  have hf := hs.frames f (binds.top ▸ List.mem_cons_self)
  obtain ⟨todo, htodo⟩ := binds.next
  have hid : target.id = m.target := Graph.get?_id binds.node
  have huncut : m.isCut b = false := by
    refine Bool.eq_false_iff.2 fun hcut => ?_
    have hresolving : s.isResolving m.target = true := isResolving_of_isCut (hb ▸ hcut)
    rw [apart] at hresolving
    cases hresolving
  have hlast : (f.bound ++ [b])[f.bound.length]? = some b := by simp
  rw [Session.bindNext_of_frames binds.top]
  refine ⟨f.bound ++ [b], Or.inr ⟨f.advance b, List.mem_cons_self, rfl, rfl⟩, f.bound.length, m, b,
    ⟨f.owner, hf.node, hf.getElem?_members htodo, hlast⟩, huncut, hid.symm, ?_⟩
  rw [hid, Graph.isAggregate_of_get? binds.node, aggregate]

/-! ## Leaving -/

/-- What a walk has bound is filed when it is left. -/
theorem Session.hasBound_leave {f : Frame} {rest : List Frame} (hs : Sound r R s)
    (top : s.frames = f :: rest) : s.leave.HasBound = s.HasBound := by
  have hunbound := (hs.frames f (top ▸ List.mem_cons_self)).unbound
  have howners := hs.owners
  rw [top] at howners
  have hapart := (List.nodup_cons.1 howners).1
  funext x bindings
  refine propext ⟨?_, ?_⟩
  · rw [Session.leave_of_frames top]
    rintro (hmembers | ⟨k, hk, howner⟩)
    · rw [SymbolTable.members?_bind] at hmembers
      split at hmembers
      · rename_i he
        cases hmembers
        exact Or.inr ⟨f, top ▸ List.mem_cons_self, he, rfl⟩
      · exact Or.inl hmembers
    · exact Or.inr ⟨k, top ▸ List.mem_cons_of_mem _ hk, howner⟩
  · rw [Session.leave_of_frames top]
    rintro (hmembers | ⟨k, hk, howner, hbound⟩)
    · left
      rw [SymbolTable.members?_bind, if_neg, hmembers]
      rintro rfl
      rw [SymbolTable.isBound_iff.2 ⟨bindings, hmembers⟩] at hunbound
      cases hunbound
    · rw [top] at hk
      rcases List.mem_cons.1 hk with rfl | hk
      · left
        rw [SymbolTable.members?_bind, if_pos howner, hbound]
      · exact Or.inr ⟨k, hk, howner, hbound⟩

/-- Leaving a walk moves its bindings to the table. -/
theorem Warranted.leave {f : Frame} {rest : List Frame} (h : Warranted g s) (hs : Sound r R s)
    (top : s.frames = f :: rest) : Warranted g s.leave := by
  have hsame := Session.hasBound_leave hs top
  have huncut : s.leave.Uncut g = s.Uncut g := by
    funext x y
    rw [Session.Uncut, Session.Uncut, hsame]
  constructor
  · rw [hsame, huncut]
    exact h.cuts
  · have hnested := h.nested
    rw [top] at hnested
    rw [huncut, Session.leave_of_frames top]
    exact hnested.tail

/-! ## All steps -/

/-- Every step keeps boxes warranted. -/
theorem Step.warranted (hs : Sound r R s) (step : Step r R s s') (h : Warranted r.graph s) :
    Warranted r.graph s' := by
  cases step with
  | symbol step => exact h.congr step.bindings step.frames
  | enter within node aggregate known unbound noWalk idle =>
    refine h.enter fun f hf => ?_
    rw [noWalk] at hf
    cases hf
  | bind binds stays => exact h.bindNext hs binds rfl
  | @descend f rest m name target symbol binds apart aggregate unbound =>
    refine (h.bindNext hs binds rfl).enter fun k hk => ?_
    rw [Session.bindNext_of_frames binds.top] at hk
    cases hk
    have huncut := uncut_descend hs binds rfl apart aggregate
    exact huncut
  | leave top done idle => exact h.leave hs top

/-! ## Calls that all end well -/

/-- After calls that all end well, boxes are warranted. -/
theorem warranted_callEach {calls : List Call} (wf : r.graph.WellFormed)
    (hrun : r.callEach calls {} = .ok () s) :
    Sound r (fun _ => True) s ∧ s.Idle ∧ Warranted r.graph s :=
  callEach_keep wf (fun _ _ hs step h => step.warranted hs h) (fun _ _ h => h.congr rfl rfl) .new
    ⟨rfl, rfl⟩ .new hrun

/-! ## Boxes in the table -/

/-- The binding without its box. -/
def Binding.unboxed (b : Binding) : Binding := { b with symbol := { b.symbol with boxed := false } }

/-- The table in which the binding of `x` at a position has lost its box. -/
def SymbolTable.unbox (t : SymbolTable) (x : ShapeId) (i : Nat) : SymbolTable :=
  match t.members? x with
  | some bindings => t.bind x (bindings.modify i Binding.unboxed)
  | none => t

theorem Member.isCut_unboxed (m : Member) (b : Binding) : m.isCut b.unboxed = false := rfl

/-- A binding that loses its box is no cut any more, and the others stay as they are. -/
theorem Graph.UncutIn.modify (h : g.UncutIn x bindings y) (i : Nat) :
    g.UncutIn x (bindings.modify i Binding.unboxed) y := by
  obtain ⟨j, m, b, ⟨owner, hget, hm, hb⟩, huncut, hrest⟩ := h
  by_cases hij : i = j
  · refine ⟨j, m, b.unboxed, ⟨owner, hget, hm, ?_⟩, m.isCut_unboxed b, hrest⟩
    rw [List.getElem?_modify, hb, hij]
    simp
  · refine ⟨j, m, b, ⟨owner, hget, hm, ?_⟩, huncut, hrest⟩
    rw [List.getElem?_modify, hb]
    simp [hij]

/-- What was no cut stays so when some binding is un-boxed. -/
theorem Graph.Uncut.unbox {z : ShapeId} (h : g.Uncut t x y) (i : Nat) :
    g.Uncut (t.unbox z i) x y := by
  obtain ⟨bindings, hmembers, hin⟩ := h
  rw [SymbolTable.unbox]
  split
  · rename_i others hothers
    by_cases hz : z = x
    · subst hz
      rw [hmembers] at hothers
      cases hothers
      exact ⟨_, by rw [SymbolTable.members?_bind, if_pos rfl], hin.modify i⟩
    · exact ⟨bindings, by rw [SymbolTable.members?_bind, if_neg hz, hmembers], hin⟩
  · exact ⟨bindings, hmembers, hin⟩

/-- A cut that loses its box is an uncut member. -/
theorem Graph.CutAt.uncut_unbox (h : g.CutAt t x i y) (hy : g.isAggregate y = true) :
    g.Uncut (t.unbox x i) x y := by
  obtain ⟨bindings, m, b, hmembers, ⟨owner, hget, hm, hb⟩, -, htarget⟩ := h
  have hunboxed : (bindings.modify i Binding.unboxed)[i]? = some b.unboxed := by
    rw [List.getElem?_modify, hb]
    simp
  refine ⟨bindings.modify i Binding.unboxed, ?_, i, m, b.unboxed, ⟨owner, hget, hm, hunboxed⟩,
    m.isCut_unboxed b, htarget, hy⟩
  rw [SymbolTable.unbox, hmembers]
  exact (SymbolTable.members?_bind ..).trans (if_pos rfl)

/-- A session without walks has bound what its table has. -/
theorem Session.Idle.uncut (h : s.Idle) : s.Uncut g = g.Uncut s.table := by
  funext x y
  refine propext ⟨?_, ?_⟩
  · rintro ⟨bindings, hmembers | ⟨f, hf, -⟩, hin⟩
    · exact ⟨bindings, hmembers, hin⟩
    · rw [h.1] at hf
      cases hf
  · rintro ⟨bindings, hmembers, hin⟩
    exact ⟨bindings, Or.inl hmembers, hin⟩

/-- Only records and unions are bound. -/
theorem Sound.isAggregate_of_members? {bindings : List Binding} (hs : Sound r R s)
    (h : s.table.members? x = some bindings) : r.graph.isAggregate x = true := by
  obtain ⟨-, owner, hget, haggregate, -⟩ := hs.table.members x bindings h
  rw [Graph.isAggregate_of_get? hget, haggregate]

/-- An uncut member is a member of a record or union whose target is one. -/
theorem Sound.keeps_of_uncut (hs : Sound r R s) (h : r.graph.Uncut s.table x y) :
    r.graph.Keeps (fun _ => false) x y := by
  obtain ⟨bindings, hmembers, i, m, b, ⟨owner, hget, hm, -⟩, -, htarget, hy⟩ := h
  have haggregate := hs.isAggregate_of_members? hmembers
  rw [Graph.isAggregate_of_get? hget] at haggregate
  exact ⟨owner, m, hget, haggregate, List.mem_of_getElem? hm, rfl, htarget, hy⟩

/-- After calls that all ended well, a box that no tag asks for closes a cycle.  From its target,
    members that are not boxed or are tagged lead to its owner; without the box there is a cycle
    without any other box that no tag asks for; and the member is inside one of the groups of
    records and unions that contain each other. -/
theorem untagged_boxes_close_cycles (wf : r.graph.WellFormed) {calls : List Call}
    (hrun : r.callEach calls {} = .ok () s) (hcut : r.graph.CutAt s.table x i y) :
    ReflTransGen (r.graph.Uncut s.table) y x ∧
      TransGen (r.graph.Uncut (s.table.unbox x i)) x x ∧
      ∃ owner m, r.graph.get? x = some owner ∧ owner.shape.members[i]? = some m ∧ m.target = y ∧
        ∃ group ∈ InlineCycle.all r.graph, x ∈ group.members ∧ y ∈ group.members ∧
          owner.memberId m ∈ group.internal := by
  obtain ⟨hs, idle, warranted⟩ := warranted_callEach wf hrun
  have hback : ReflTransGen (r.graph.Uncut s.table) y x := by
    obtain ⟨bindings, m, b, hmembers, hat, hboxed, rfl⟩ := hcut
    rw [← idle.uncut]
    exact warranted.cuts x bindings i m b (Or.inl hmembers) hat hboxed
  have hy : r.graph.isAggregate y = true := by
    rcases ReflTransGen.cases_head hback with rfl | ⟨z, ⟨bindings, hmembers, -⟩, -⟩
    · obtain ⟨bindings, -, -, hmembers, -⟩ := hcut
      exact hs.isAggregate_of_members? hmembers
    · exact hs.isAggregate_of_members? hmembers
  refine ⟨hback, ?_, ?_⟩
  · have hgrow : ReflTransGen (r.graph.Uncut (s.table.unbox x i)) y x :=
      ReflTransGen.mono (fun _ _ huncut => huncut.unbox i) _ _ hback
    exact TransGen.head' (hcut.uncut_unbox hy) hgrow
  · obtain ⟨bindings, m, b, hmembers, ⟨owner, hget, hm, -⟩, -, htarget⟩ := hcut
    have haggregate := hs.isAggregate_of_members? hmembers
    rw [Graph.isAggregate_of_get? hget] at haggregate
    have hedge : ⟨owner.id, owner.memberId m, y⟩ ∈ InlineCycle.edges r.graph fun _ => false := by
      simp only [InlineCycle.edges, List.mem_flatMap, List.mem_map, List.mem_filter]
      exact ⟨owner, ⟨Graph.mem_nodes hget, haggregate⟩, m,
        ⟨List.mem_of_getElem? hm, by simp [htarget, hy]⟩, by rw [htarget]⟩
    have hkeeps : ReflTransGen (r.graph.Keeps fun _ => false) y owner.id := by
      rw [Graph.get?_id hget]
      exact ReflTransGen.mono (fun _ _ huncut => hs.keeps_of_uncut huncut) _ _ hback
    obtain ⟨group, hgroup, hx, hy, hinternal⟩ := InlineCycle.exists_group hedge hkeeps
    exact ⟨owner, m, hget, hm, htarget, group, hgroup, Graph.get?_id hget ▸ hx, hy, hinternal⟩

namespace Ring

/-- The ring is bound from its first record on, and its last record leads back. -/
theorem exists_cut : ∃ s, resolver.callEach [.shape (shape "A")] {} = .ok () s ∧
    graph.CutAt s.table (shape "C") 0 (shape "A") := by
  obtain ⟨_, s, hrun⟩ := exists_of_endsWell (x := resolver.callEach [.shape (shape "A")]) (s := {})
    (by decide +kernel)
  refine ⟨s, hrun, ?_⟩
  have hleaves : (resolver.callEach [.shape (shape "A")]).leaves {} = s := by
    rw [leaves, hrun]
  have hboxed : (((resolver.callEach [.shape (shape "A")]).leaves {}).table.members?
      (shape "C")).any (fun bindings => (bindings[0]?).any fun b => b.symbol.boxed) = true := by
    decide +kernel
  rw [hleaves] at hboxed
  obtain ⟨bindings, hmembers, hfirst⟩ := (Option.any_eq_true _ _).1 hboxed
  obtain ⟨b, hb, hboxed⟩ := (Option.any_eq_true _ _).1 hfirst
  have hnode : graph.get? (shape "C") = some ⟨shape "C", .record
      [⟨"a", shape "A", .empty⟩, ⟨"c", shape "C", .empty⟩], .empty⟩ := by
    decide +kernel
  refine ⟨bindings, ⟨"a", shape "A", .empty⟩, b, hmembers, ⟨_, hnode, rfl, hb⟩, ?_, rfl⟩
  rw [Member.isCut, hboxed]
  rfl

end Ring

/-- The member that leads back to the start of the ring is boxed, and for good reason. -/
theorem ring_boxes_close_cycles :
    ∃ s, Ring.resolver.callEach [.shape (Ring.shape "A")] {} = .ok () s ∧
      Ring.graph.CutAt s.table (Ring.shape "C") 0 (Ring.shape "A") ∧
      ReflTransGen (Ring.graph.Uncut s.table) (Ring.shape "A") (Ring.shape "C") := by
  have wf : Ring.resolver.graph.WellFormed := Graph.wellFormed_ofNodesD Ring.nodes
  obtain ⟨s, hrun, hcut⟩ := Ring.exists_cut
  exact ⟨s, hrun, hcut, (untagged_boxes_close_cycles wf hrun hcut).1⟩

end SchemaSymbols
