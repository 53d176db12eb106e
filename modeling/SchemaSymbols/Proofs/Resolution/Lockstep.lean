/-
  Two resolutions of one graph, side by side.

  Names, types and defaults differ from language to language, and none of them decides where a
  resolution goes next.  So two resolvers of one graph take the same way through it, whatever their
  profiles, options and policies are, as long as neither fails.

  1. **Two steps at once.**  `Together x y s t Q` says what two steps end with, one started in `s`
     and the other in `t`, if both end well.  As for a single step there is one rule for each way to
     put steps together (`together_pure`, `together_bind`, `together_ite`, ...), and a step that
     fails on either side asks for nothing (`together_throw`).

  2. **What decides the way.**  Sessions are `Alike` if they differ in nothing that a step looks at:
     which shapes have symbols, which members are bound and boxed, and what the stacks and the queue
     hold.  Names of bindings and types of symbols are not part of it.  Each update of a session
     keeps sessions alike (`addLeaf`, `openContainer`, `closeContainer`, `enter`, `bindNext`,
     `leave`, `dequeue`).

  3. **Every step keeps sessions alike** (`prepare_together` up to `walk_together`), by the rules of
     1 and the updates of 2, and from there so do whole resolutions (`resolveAll_together`).  Both
     loops run with the budget of their own session, and the budgets are equal because the sessions
     are alike (`drainBudget_eq_of_alike`).

  The one step where the programs of the two resolvers say different things is `bindMember`: the
  bindings it makes have the same `Binding.mark`, the member and whether it is boxed, and no step
  reads more of a binding than that.
-/
import SchemaSymbols.Proofs.Resolution.Boxing

namespace SchemaSymbols

namespace ResolveM

variable {α β γ δ : Type} {x : ResolveM α} {y : ResolveM β} {s t : Session}

/-! ## Two steps -/

/-- If both steps end well, they do with `Q`. -/
def Together (x : ResolveM α) (y : ResolveM β) (s t : Session)
    (Q : α → β → Session → Session → Prop) : Prop :=
  ∀ a s' b t', x s = .ok a s' → y t = .ok b t' → Q a b s' t'

variable {Q Q' : α → β → Session → Session → Prop}

/-- What both steps end with may be weakened. -/
theorem Together.mono (h : Together x y s t Q) (hQ : ∀ a b s' t', Q a b s' t' → Q' a b s' t') :
    Together x y s t Q' :=
  fun a s' b t' hx hy => hQ a b s' t' (h a s' b t' hx hy)

@[simp] theorem together_pure {a : α} {b : β} : Together (pure a) (pure b) s t Q ↔ Q a b s t := by
  constructor
  · exact fun h => h a s b t rfl rfl
  · rintro h _ _ _ _ ⟨⟩ ⟨⟩
    exact h

@[simp] theorem together_get {Q : Session → Session → Session → Session → Prop} :
    Together get get s t Q ↔ Q s t s t := by
  constructor
  · exact fun h => h s s t t rfl rfl
  · rintro h _ _ _ _ ⟨⟩ ⟨⟩
    exact h

@[simp] theorem together_modify {f k : Session → Session}
    {Q : PUnit → PUnit → Session → Session → Prop} :
    Together (modify f) (modify k) s t Q ↔ Q ⟨⟩ ⟨⟩ (f s) (k t) := by
  constructor
  · exact fun h => h _ _ _ _ rfl rfl
  · rintro h _ _ _ _ ⟨⟩ ⟨⟩
    exact h

/-- Two steps in a row go on together from wherever the first ones ended. -/
@[simp] theorem together_bind {f : α → ResolveM γ} {k : β → ResolveM δ}
    {Q : γ → δ → Session → Session → Prop} :
    Together (x >>= f) (y >>= k) s t Q ↔
      Together x y s t fun a b s' t' => Together (f a) (k b) s' t' Q := by
  constructor
  · intro h a s' b t' hx hy c s'' d t'' hf hk
    refine h c s'' d t'' ?_ ?_
    · show EStateM.bind x f s = _
      rw [EStateM.bind, hx]
      exact hf
    · show EStateM.bind y k t = _
      rw [EStateM.bind, hy]
      exact hk
  · intro h c s'' d t'' hxf hyk
    obtain ⟨a, s', hx, hf⟩ := exists_of_bind_eq_ok hxf
    obtain ⟨b, t', hy, hk⟩ := exists_of_bind_eq_ok hyk
    exact h a s' b t' hx hy c s'' d t'' hf hk

/-- A step that fails does not end well. -/
theorem together_throw {e : Fault} : Together (throw e) y s t Q := by
  rintro _ _ _ _ ⟨⟩

/-- Two computations outside the session leave it alone and may both give a result. -/
theorem together_lift {v : Except Fault α} {w : Except Fault β}
    (h : ∀ a b, v = .ok a → w = .ok b → Q a b s t) : Together (lift v) (lift w) s t Q := by
  cases v with
  | error e => exact together_throw
  | ok a =>
    cases w with
    | error e => rintro _ _ _ _ _ ⟨⟩
    | ok b => exact together_pure.2 (h a b rfl rfl)

/-- A choice between two steps that both sides make alike. -/
theorem together_ite {c c' : Prop} [Decidable c] [Decidable c'] {x' : ResolveM α} {y' : ResolveM β}
    (hc : c ↔ c') (hthen : c → Together x y s t Q) (helse : ¬ c → Together x' y' s t Q) :
    Together (if c then x else x') (if c' then y else y') s t Q := by
  by_cases h : c
  · rw [if_pos h, if_pos (hc.1 h)]
    exact hthen h
  · rw [if_neg h, if_neg (mt hc.2 h)]
    exact helse h

/-- Steps that give up when they fail end well as they would without it. -/
theorem together_orAbandon (h : Together x y s t Q) :
    Together (orAbandon x) (orAbandon y) s t Q := by
  intro a s' b t' hx hy
  rw [orAbandon] at hx hy
  cases hxs : x s with
  | error e middle => rw [hxs] at hx; cases hx
  | ok a middle =>
    cases hyt : y t with
    | error e middle => rw [hyt] at hy; cases hy
    | ok b middle =>
      rw [hxs] at hx
      rw [hyt] at hy
      cases hx
      cases hy
      exact h _ _ _ _ hxs hyt

end ResolveM

open ResolveM

/-! ## Sessions that look alike -/

/-- What a binding tells a walk: which member is bound, and whether it is boxed. -/
def Binding.mark (b : Binding) : ShapeId × Bool := (b.id, b.symbol.boxed)

/-- Two frames walk one owner, and differ at most in names and symbols. -/
structure Frame.Alike (f k : Frame) : Prop where
  owner : f.owner = k.owner
  todo : f.todo.map Prod.fst = k.todo.map Prod.fst
  bound : f.bound.map Binding.mark = k.bound.map Binding.mark

/-- Two tables know the same shapes, and have bound and boxed the same members. -/
structure SymbolTable.Alike (t u : SymbolTable) : Prop where
  known : ∀ id, t.contains id = u.contains id
  marks : ∀ id, (t.members? id).map (List.map Binding.mark) =
    (u.members? id).map (List.map Binding.mark)

/-- Two sessions differ in nothing that a step looks at. -/
structure Session.Alike (s t : Session) : Prop where
  table : s.table.Alike t.table
  frames : List.Forall₂ Frame.Alike s.frames t.frames
  containers : s.containers = t.containers
  pending : s.pending = t.pending

namespace SymbolTable

variable {t u : SymbolTable}

/-- A shape has a symbol in both tables or in neither. -/
theorem Alike.cases_get? (h : t.Alike u) (id : ShapeId) :
    (t.get? id = none ∧ u.get? id = none) ∨ ∃ a b, t.get? id = some a ∧ u.get? id = some b := by
  have hknown := h.known id
  cases ht : t.get? id with
  | none =>
    rw [contains_eq_false_iff.2 ht, eq_comm, contains_eq_false_iff] at hknown
    exact Or.inl ⟨rfl, hknown⟩
  | some a =>
    rw [contains_of_get? ht, eq_comm, contains_iff] at hknown
    obtain ⟨b, hu⟩ := hknown
    exact Or.inr ⟨a, b, rfl, hu⟩

theorem Alike.isBound (h : t.Alike u) (id : ShapeId) : t.isBound id = u.isBound id := by
  have hmarks : ∀ v : SymbolTable, v.isBound id =
      ((v.members? id).map (List.map Binding.mark)).isSome := by
    intro v
    rw [Option.isSome_map, SymbolTable.members?, Option.isSome_map]
    rfl
  rw [hmarks, hmarks, h.marks]

theorem Alike.addSymbol (h : t.Alike u) {a b : Symbol} (shape : a.shape = b.shape) :
    (t.addSymbol a).Alike (u.addSymbol b) where
  known := fun id => by
    rw [Bool.eq_iff_iff, contains_addSymbol, contains_addSymbol, shape, h.known]
  marks := h.marks

/-- Bindings of one owner with the same marks may be added to alike tables. -/
theorem Alike.bind (h : t.Alike u) (owner : ShapeId) {members others : List Binding}
    (same : members.map Binding.mark = others.map Binding.mark) :
    (t.bind owner members).Alike (u.bind owner others) where
  known := h.known
  marks := fun id => by
    rw [members?_bind, members?_bind]
    split
    · exact congrArg some same
    · exact h.marks id

/-- The boxed members are those that some owner has marked so. -/
theorem mem_boxedMembers {x : ShapeId} : x ∈ t.boxedMembers ↔
    ∃ owner marks, (t.members? owner).map (List.map Binding.mark) = some marks ∧
      (x, true) ∈ marks := by
  rw [boxedMembers, Sorted.mem_ofList, List.mem_map]
  simp only [List.mem_filter, List.mem_flatMap]
  constructor
  · rintro ⟨b, ⟨⟨bindings, hmem, hb⟩, hboxed⟩, rfl⟩
    have hfind := Sorted.find?_of_mem hmem
    refine ⟨bindings.owner, bindings.members.map Binding.mark, ?_, ?_⟩
    · rw [members?, hfind, Option.map_some, Option.map_some]
    · exact List.mem_map.2 ⟨b, hb, by rw [Binding.mark, hboxed]⟩
  · rintro ⟨owner, marks, hmarks, hmem⟩
    obtain ⟨members, hmembers, rfl⟩ := Option.map_eq_some_iff.1 hmarks
    obtain ⟨bindings, hfind, rfl⟩ := Option.map_eq_some_iff.1 hmembers
    obtain ⟨b, hb, hmark⟩ := List.mem_map.1 hmem
    obtain ⟨hid, hboxed⟩ := Prod.mk.inj hmark
    exact ⟨b, ⟨⟨bindings, Sorted.mem_of_find? hfind, hb⟩, hboxed⟩, hid⟩

theorem Alike.boxedMembers_eq (h : t.Alike u) : t.boxedMembers = u.boxedMembers := by
  refine Sorted.ext_mem fun x => ?_
  rw [mem_boxedMembers, mem_boxedMembers]
  simp only [h.marks]

end SymbolTable

namespace Session.Alike

variable {s t : Session}

theorem refl (s : Session) : s.Alike s where
  table := ⟨fun _ => rfl, fun _ => rfl⟩
  frames := List.forall₂_same.2 fun _ _ => ⟨rfl, rfl, rfl⟩
  containers := rfl
  pending := rfl

/-- Alike sessions are in the middle of the same records and unions. -/
theorem isResolving (h : s.Alike t) (id : ShapeId) : s.isResolving id = t.isResolving id := by
  have hframes : ∀ {fs ks : List Frame}, List.Forall₂ Frame.Alike fs ks →
      (fs.any fun f => f.owner.id == id) = ks.any fun f => f.owner.id == id := by
    intro fs ks hall
    induction hall with
    | nil => exact rfl
    | cons hfirst _ ih => rw [List.any_cons, List.any_cons, hfirst.owner, ih]
  exact hframes h.frames

/-- Either no walk is under way on both sides, or the innermost ones are alike. -/
theorem cases_frames (h : s.Alike t) : (s.frames = [] ∧ t.frames = []) ∨
    ∃ f rest k others, s.frames = f :: rest ∧ t.frames = k :: others ∧ f.Alike k ∧
      List.Forall₂ Frame.Alike rest others := by
  have hframes := h.frames
  cases hs : s.frames with
  | nil =>
    rw [hs, List.forall₂_nil_left_iff] at hframes
    exact Or.inl ⟨rfl, hframes⟩
  | cons f rest =>
    rw [hs, List.forall₂_cons_left_iff] at hframes
    obtain ⟨k, others, hfirst, hrest, ht⟩ := hframes
    exact Or.inr ⟨f, rest, k, others, rfl, ht, hfirst, hrest⟩

theorem addLeaf (h : s.Alike t) {leaf other : Leaf} (shape : leaf.symbol.shape = other.symbol.shape)
    (queued : leaf.queued = other.queued) : (s.addLeaf leaf).Alike (t.addLeaf other) where
  table := h.table.addSymbol shape
  frames := h.frames
  containers := h.containers
  pending := congrArg₂ (· ++ ·) h.pending queued

/-- Opening one collection keeps sessions alike. -/
theorem openContainer (h : s.Alike t) (id : ShapeId) :
    (s.openContainer id).Alike (t.openContainer id) where
  table := h.table
  frames := h.frames
  containers := congrArg (id :: ·) h.containers
  pending := h.pending

/-- Closing a collection keeps sessions alike if its symbols are of one shape and queue the same
shapes. -/
theorem closeContainer (h : s.Alike t) {a b : Symbol} (shape : a.shape = b.shape)
    {queued others : List ShapeId} (same : queued = others) :
    (s.closeContainer a queued).Alike (t.closeContainer b others) where
  table := h.table.addSymbol shape
  frames := h.frames
  containers := congrArg List.tail h.containers
  pending := congrArg₂ (· ++ ·) h.pending same

/-- Starting to walk one record or union keeps sessions alike: the names that its members get may
differ, but not the members. -/
theorem enter (h : s.Alike t) (r r' : Resolver) (owner : Node) :
    (s.enter owner (r.memberNames owner)).Alike (t.enter owner (r'.memberNames owner)) where
  table := h.table
  frames := by
    have htodo : (r.namedMembers owner).map Prod.fst = (r'.namedMembers owner).map Prod.fst := by
      rw [Resolver.map_fst_namedMembers, Resolver.map_fst_namedMembers]
    exact .cons ⟨rfl, htodo, rfl⟩ h.frames
  containers := h.containers
  pending := h.pending

/-- Bindings with one mark may be added to the topmost walks of alike sessions. -/
theorem bindNext (h : s.Alike t) {a b : Binding} (same : a.mark = b.mark) :
    (s.bindNext a).Alike (t.bindNext b) := by
  rcases h.cases_frames with ⟨hs, ht⟩ | ⟨f, rest, k, others, hs, ht, hfirst, hrest⟩
  · rw [Session.bindNext, Session.bindNext, hs, ht]
    exact h
  · rw [Session.bindNext_of_frames hs, Session.bindNext_of_frames ht]
    refine { h with frames := .cons ⟨hfirst.owner, ?_, ?_⟩ hrest }
    · show f.todo.tail.map Prod.fst = k.todo.tail.map Prod.fst
      rw [List.map_tail, List.map_tail, hfirst.todo]
    · show (f.bound ++ [a]).map Binding.mark = (k.bound ++ [b]).map Binding.mark
      rw [List.map_append, List.map_append, hfirst.bound, List.map_singleton, List.map_singleton,
        same]

theorem leave (h : s.Alike t) : s.leave.Alike t.leave := by
  rcases h.cases_frames with ⟨hs, ht⟩ | ⟨f, rest, k, others, hs, ht, hfirst, hrest⟩
  · rw [Session.leave, Session.leave, hs, ht]
    exact h
  · rw [Session.leave_of_frames hs, Session.leave_of_frames ht, hfirst.owner]
    exact { h with table := h.table.bind _ hfirst.bound, frames := hrest }

/-- Taking the same shapes from the queue keeps sessions alike. -/
theorem dequeue (h : s.Alike t) (rest : List ShapeId) :
    Alike { s with pending := rest } { t with pending := rest } :=
  { h with pending := rfl }

end Session.Alike

/-! ## The steps of two resolvers -/

namespace Resolver

variable {r r' : Resolver} {s t : Session}

/-- Two resolvers of one graph find the same target for a member. -/
theorem together_valueTarget (same : r.graph = r'.graph) (memberId target : ShapeId)
    {Q : Node → Node → Session → Session → Prop}
    (h : ∀ n, r'.graph.get? target = some n → Q n n s t) :
    Together (lift (r.valueTarget memberId target)) (lift (r'.valueTarget memberId target)) s t
      Q := by
  refine together_lift fun a b ha hb => ?_
  obtain ⟨ha, -⟩ := valueTarget_eq_ok.1 ha
  obtain ⟨hb, -⟩ := valueTarget_eq_ok.1 hb
  rw [same, hb] at ha
  cases ha
  exact h a hb

/-- One shape is looked up in one graph, so both resolvers find the same node. -/
theorem together_require (same : r.graph = r'.graph) (id : ShapeId)
    {Q : Node → Node → Session → Session → Prop}
    (h : ∀ n, r'.graph.get? id = some n → Q n n s t) :
    Together (lift (r.graph.require id)) (lift (r'.graph.require id)) s t Q := by
  refine together_lift fun a b ha hb => ?_
  rw [same, hb] at ha
  cases ha
  exact h a (Graph.get?_of_require hb)

/-- Leaves of one node have symbols for it, and leave the same shapes for later. -/
theorem together_leaf (h : s.Alike t) (n : Node)
    {Q : Leaf → Leaf → Session → Session → Prop}
    (hQ : ∀ leaf other, (s.addLeaf leaf).Alike (t.addLeaf other) → Q leaf other s t) :
    Together (lift (r.leaf n)) (lift (r'.leaf n)) s t Q := by
  refine together_lift fun leaf other hleaf hother => ?_
  have made := made_of_leaf hleaf
  have made' := made_of_leaf hother
  exact hQ leaf other (h.addLeaf (made.shape.trans made'.shape.symm)
    (made.queued.trans made'.queued.symm))

/-- Preparing elements gives both resolvers the same elements to open. -/
theorem prepare_together (same : r.graph = r'.graph) (h : s.Alike t) (n : Node)
    (elements : List Member) :
    Together (r.prepare n elements) (r'.prepare n elements) s t fun a b s' t' =>
      a = b ∧ s'.Alike t' := by
  induction elements generalizing s t with
  | nil => exact together_pure.2 ⟨rfl, h⟩
  | cons m elements ih =>
    rw [prepare, prepare]
    simp only [together_bind]
    refine together_valueTarget same _ _ fun target _ => ?_
    simp only [together_get]
    refine together_ite (by rw [h.table.known]) (fun _ => ih h) fun _ => ?_
    refine together_ite Iff.rfl (fun _ => ?_) fun _ => ?_
    · simp only [together_bind, together_get]
      refine together_ite (by rw [h.containers]) (fun _ => together_throw) fun _ => ?_
      exact together_pure.2 ⟨rfl, h⟩
    · simp only [together_bind]
      refine together_leaf h target fun leaf other h' => ?_
      exact together_modify.2 (ih h')

/-- One step at the topmost collection keeps sessions alike. -/
theorem containerStep_together (same : r.graph = r'.graph) (h : s.Alike t) (top : ShapeId) :
    Together (r.containerStep top) (r'.containerStep top) s t fun _ _ => Session.Alike := by
  rw [containerStep, containerStep]
  simp only [together_bind]
  refine together_require same top fun n _ => ?_
  refine (prepare_together same h n _).mono ?_
  rintro found _ s' t' ⟨rfl, h'⟩
  cases found with
  | some inner => exact together_modify.2 (h'.openContainer inner)
  | none =>
    simp only [together_bind, together_get]
    refine together_lift fun a b ha hb => ?_
    have built := built_of_collection ha
    have built' := built_of_collection hb
    refine together_modify.2 (h'.closeContainer (built.shape.trans built'.shape.symm) ?_)
    rw [built.queued, built'.queued, walked, walked, same]

/-- The loop of the collections keeps sessions alike, by induction on its fuel. -/
theorem buildContainers_together (same : r.graph = r'.graph) (h : s.Alike t) (fuel : Nat) :
    Together (r.buildContainers fuel) (r'.buildContainers fuel) s t fun _ _ => Session.Alike := by
  induction fuel generalizing s t with
  | zero => exact together_pure.2 h
  | succ fuel ih =>
    rw [buildContainers, buildContainers]
    simp only [together_bind, together_get, h.containers]
    cases t.containers with
    | nil => exact together_pure.2 h
    | cons top rest =>
      simp only [together_bind]
      exact (containerStep_together same h top).mono fun _ _ _ _ h' => ih h'

/-- Both sides look a symbol up, and find one or none. -/
theorem together_lookup (h : s.Alike t) (id : ShapeId) {α β : Type} {found : Symbol → ResolveM α}
    {found' : Symbol → ResolveM β} {missing : ResolveM α} {missing' : ResolveM β}
    {Q : α → β → Session → Session → Prop}
    (hfound : ∀ a b, Together (found a) (found' b) s t Q)
    (hmissing : Together missing missing' s t Q) :
    Together
      (match s.table.get? id with
        | some a => found a
        | none => missing)
      (match t.table.get? id with
        | some b => found' b
        | none => missing') s t Q := by
  rcases h.table.cases_get? id with ⟨hs, ht⟩ | ⟨a, b, hs, ht⟩
  · rw [hs, ht]
    exact hmissing
  · rw [hs, ht]
    exact hfound a b

/-- Making the symbol of a shape keeps sessions alike. -/
theorem symbol_together (same : r.graph = r'.graph) (h : s.Alike t) (id : ShapeId) :
    Together (r.symbol id) (r'.symbol id) s t fun _ _ => Session.Alike := by
  rw [symbol, symbol]
  simp only [together_bind, together_get]
  refine together_lookup h id (fun _ _ => together_pure.2 h) ?_
  simp only [together_bind]
  refine together_require same id fun n _ => ?_
  refine together_ite Iff.rfl (fun _ => ?_) fun _ => ?_
  · simp only [together_bind, together_modify, together_get, containerBudget, same]
    refine (buildContainers_together same (h.openContainer id) _).mono fun _ _ s' t' h' => ?_
    exact together_lookup h' id (fun _ _ => together_pure.2 h') together_throw
  · simp only [together_bind]
    refine together_leaf h n fun leaf other h' => ?_
    simp only [together_modify, together_get]
    exact together_lookup h' id (fun _ _ => together_pure.2 h') together_throw

/-- The mark of a binding depends on the member and on whether it is boxed only. -/
theorem mark_memberBinding (r : Resolver) (owner : Node) (m : Member) (name : String)
    (target : Symbol) (boxed : Bool) :
    (r.memberBinding owner m name target boxed).mark = (owner.memberId m, boxed) := by
  rw [Binding.mark, memberBinding, r.boxed_memberSymbol]

/-- The next member is bound on both sides, and is boxed on both or on neither. -/
theorem bindMember_together (same : r.graph = r'.graph) (h : s.Alike t) (owner : Node) (m : Member)
    (name name' : String) :
    Together (r.bindMember owner m name) (r'.bindMember owner m name') s t
      fun _ _ => Session.Alike := by
  rw [bindMember, bindMember]
  simp only [together_bind]
  refine together_valueTarget same _ _ fun target _ => ?_
  refine (symbol_together same h target.id).mono fun a b s' t' h' => ?_
  simp only [together_get, together_modify, h'.isResolving]
  have marks : ∀ boxed, (r.memberBinding owner m name a boxed).mark =
      (r'.memberBinding owner m name' b boxed).mark := by
    intro boxed
    rw [mark_memberBinding, mark_memberBinding]
  have hbound := h'.bindNext (marks (t'.isResolving target.id || m.tags.contains .recursive))
  -- whether the target is entered depends on what is bound and being walked
  refine together_ite (by rw [hbound.table.isBound]) (fun _ => ?_) fun _ => together_pure.2 hbound
  exact together_modify.2 (hbound.enter r r' target)

/-- One step of a walk keeps sessions alike: both finish the walk or bind the same member. -/
theorem walkStep_together (same : r.graph = r'.graph) (h : s.Alike t) {f k : Frame}
    (alike : f.Alike k) :
    Together (r.walkStep f) (r'.walkStep k) s t fun _ _ => Session.Alike := by
  have htodo := alike.todo
  rw [walkStep, walkStep, alike.owner]
  cases hf : f.todo with
  | nil =>
    rw [hf, List.map_nil, eq_comm, List.map_eq_nil_iff] at htodo
    rw [htodo]
    exact together_modify.2 h.leave
  | cons next rest =>
    rw [hf, List.map_cons, eq_comm, List.map_eq_cons_iff] at htodo
    obtain ⟨next', rest', hk, hmember, -⟩ := htodo
    obtain ⟨m, name⟩ := next
    obtain ⟨m', name'⟩ := next'
    obtain rfl : m' = m := hmember
    rw [hk]
    exact bindMember_together same h k.owner m' name name'

/-- The loop of the walks keeps sessions alike, by induction on its fuel. -/
theorem walk_together (same : r.graph = r'.graph) (h : s.Alike t) (fuel : Nat) :
    Together (r.walk fuel) (r'.walk fuel) s t fun _ _ => Session.Alike := by
  induction fuel generalizing s t with
  | zero => exact together_pure.2 h
  | succ fuel ih =>
    rw [walk, walk]
    simp only [together_bind, together_get]
    rcases h.cases_frames with ⟨hs, ht⟩ | ⟨f, rest, k, others, hs, ht, alike, -⟩
    · rw [hs, ht]
      exact together_pure.2 h
    · rw [hs, ht]
      simp only [together_bind]
      exact (walkStep_together same h alike).mono fun _ _ _ _ h' => ih h'

/-! ## Whole resolutions -/

/-- So does a visit of one shape. -/
theorem visit_together (same : r.graph = r'.graph) (h : s.Alike t) (id : ShapeId) :
    Together (r.visit id) (r'.visit id) s t fun _ _ => Session.Alike := by
  rw [visit, visit]
  refine together_orAbandon ?_
  simp only [together_bind]
  refine (symbol_together same h id).mono fun a b s' t' h' => ?_
  refine together_require same id fun n _ => ?_
  simp only [together_get]
  refine together_ite (by rw [h'.table.isBound, h'.isResolving]) (fun _ => ?_)
    fun _ => together_pure.2 h'
  simp only [together_bind, enter, together_modify, walkBudget, same]
  exact (walk_together same (h'.enter r r' n) _).mono fun _ _ _ _ h'' => together_pure.2 h''

/-- So does working off the queue, by induction on its fuel. -/
theorem drain_together (same : r.graph = r'.graph) (h : s.Alike t) (fuel : Nat) :
    Together (r.drain fuel) (r'.drain fuel) s t fun _ _ => Session.Alike := by
  induction fuel generalizing s t with
  | zero => exact together_pure.2 h
  | succ fuel ih =>
    rw [drain, drain]
    simp only [together_bind, together_get, h.pending]
    cases t.pending with
    | nil => exact together_pure.2 h
    | cons next rest =>
      simp only [together_bind, together_modify]
      exact (visit_together same (h.dequeue rest) next).mono fun _ _ _ _ h' => ih h'

/-- Alike sessions get the same budget for the queue: it counts queued shapes and shapes without
symbols. -/
theorem drainBudget_eq_of_alike (same : r.graph = r'.graph) (h : s.Alike t) :
    r.drainBudget s = r'.drainBudget t := by
  rw [drainBudget, drainBudget, same, h.pending]
  simp only [h.table.known]

/-- Resolving one shape keeps sessions alike. -/
theorem resolve_together (same : r.graph = r'.graph) (h : s.Alike t) (id : ShapeId) :
    Together (r.resolve id) (r'.resolve id) s t fun _ _ => Session.Alike := by
  rw [resolve, resolve]
  simp only [together_bind]
  refine (visit_together same h id).mono fun a b s' t' h' => ?_
  simp only [together_get, drainBudget_eq_of_alike same h']
  exact (drain_together same h' _).mono fun _ _ _ _ h'' => together_pure.2 h''

/-- Resolving shapes one after the other keeps sessions alike, by induction on the shapes. -/
theorem resolveEach_together (same : r.graph = r'.graph) (h : s.Alike t) (ids : List ShapeId) :
    Together (r.resolveEach ids) (r'.resolveEach ids) s t fun _ _ => Session.Alike := by
  induction ids generalizing s t with
  | nil => exact together_pure.2 h
  | cons id ids ih =>
    rw [resolveEach, resolveEach]
    simp only [together_bind]
    exact (resolve_together same h id).mono fun _ _ _ _ h' => ih h'

/-- Two resolutions of one graph that both end well leave sessions that look alike. -/
theorem resolveAll_together (same : r.graph = r'.graph) (h : s.Alike t) :
    Together r.resolveAll r'.resolveAll s t fun _ _ => Session.Alike := by
  have hroots : r.roots = r'.roots := by rw [roots, roots, same]
  rw [resolveAll, resolveAll, hroots]
  simp only [together_bind]
  refine (resolveEach_together same h _).mono fun _ _ s' t' h' => ?_
  exact together_get.2 (together_lift fun _ _ _ _ => h')

end Resolver

end SchemaSymbols
