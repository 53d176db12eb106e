/-
  Two resolvers that differ in their policies, side by side.

  A policy decides whether a member is nullable and nothing else, so two resolvers that differ in it
  alone give the same answers, whether they end well or fail.  That is more than being in lockstep,
  where both have to end well, and it needs a relation of its own.

  1. **Steps that answer alike.**  `InStep R x y s t` says that two steps have the same outcome and
     leave sessions behind that `R` relates.  There is one rule for each way to put steps together;
     the one for binds (`inStep_bind`) says what has to hold after a failure, since then the rest of
     the step is not taken.

  2. **Twins.**  Sessions of the two resolvers are `Twins` if they have the same symbols, queues and
     remarks, and where one of them has bound a member, so has the other, to the same symbol.  Their
     bindings agree but for nullability and what follows from it (`Binding.Twins`).

  3. **A policy is asked in one step only**, when a member is bound.  Every other step is the same
     program for both resolvers (`withPolicy_symbol`), so it is enough that it runs on twins.  While
     such a step runs the walks are out of reach, which is what `Session.Paused` remembers.  When a
     member is bound the programs differ, and `bindMember_inStep` compares what they make of it.

  4. **Whole runs.**  From there it goes through the loops by induction on the fuel and through any
     list of calls, failing ones included (`twins_after`): a call that fails abandons its walks in
     both sessions.
-/
import SchemaSymbols.Proofs.Resolution.Lockstep

namespace SchemaSymbols

namespace ResolveM

variable {α β : Type} {x y : ResolveM α} {s t : Session} {R R' : Session → Session → Prop}

/-! ## Steps that answer alike -/

/-- What a step answers: its result, or the fault that it ends with. -/
def outcome (x : ResolveM α) (s : Session) : Except Fault α :=
  match x s with
  | .ok a _ => .ok a
  | .error e _ => .error e

/-- Two steps answer alike, and leave sessions behind that `R` relates. -/
def InStep (R : Session → Session → Prop) (x y : ResolveM α) (s t : Session) : Prop :=
  x.outcome s = y.outcome t ∧ R (x.leaves s) (y.leaves t)

theorem inStep_pure {a : α} (h : R s t) : InStep R (pure a) (pure a) s t := ⟨rfl, h⟩

theorem inStep_throw {e : Fault} (h : R s t) : InStep R (throw e : ResolveM α) (throw e) s t :=
  ⟨rfl, h⟩

/-- Updates are in step if they keep the sessions related. -/
theorem inStep_modify {f k : Session → Session} (h : R (f s) (k t)) :
    InStep R (modify f) (modify k) s t :=
  ⟨rfl, h⟩

/-- Both sides look at their own session. -/
theorem inStep_get {f k : Session → ResolveM α} (h : InStep R (f s) (k t) s t) :
    InStep R (get >>= f) (get >>= k) s t :=
  h

/-- Two steps that answer alike both end well or both fail. -/
theorem InStep.cases (h : InStep R x y s t) :
    (∃ a s' t', x s = .ok a s' ∧ y t = .ok a t' ∧ R s' t') ∨
      ∃ e s' t', x s = .error e s' ∧ y t = .error e t' ∧ R s' t' := by
  obtain ⟨hanswer, hleft⟩ := h
  rw [outcome, outcome] at hanswer
  rw [leaves, leaves] at hleft
  cases hx : x s with
  | ok a s' =>
    cases hy : y t with
    | ok b t' =>
      rw [hx, hy] at hanswer hleft
      cases hanswer
      exact Or.inl ⟨a, s', t', rfl, rfl, hleft⟩
    | error e t' => rw [hx, hy] at hanswer; cases hanswer
  | error e s' =>
    cases hy : y t with
    | ok b t' => rw [hx, hy] at hanswer; cases hanswer
    | error e' t' =>
      rw [hx, hy] at hanswer hleft
      cases hanswer
      exact Or.inr ⟨e, s', t', rfl, rfl, hleft⟩

theorem inStep_ok {a : α} {s' t' : Session} (hx : x s = .ok a s') (hy : y t = .ok a t')
    (h : R s' t') : InStep R x y s t := by
  rw [InStep, outcome, outcome, leaves, leaves, hx, hy]
  exact ⟨rfl, h⟩

theorem inStep_error {e : Fault} {s' t' : Session} (hx : x s = .error e s')
    (hy : y t = .error e t') (h : R s' t') : InStep R x y s t := by
  rw [InStep, outcome, outcome, leaves, leaves, hx, hy]
  exact ⟨rfl, h⟩

/-- Steps after steps that answer alike have the same result to go on with. -/
theorem inStep_bind {f k : α → ResolveM β} (h : InStep R' x y s t) (hR : ∀ s t, R' s t → R s t)
    (hf : ∀ a s' t', R' s' t' → InStep R (f a) (k a) s' t') :
    InStep R (x >>= f) (y >>= k) s t := by
  rcases h.cases with ⟨a, s', t', hx, hy, h'⟩ | ⟨e, s', t', hx, hy, h'⟩
  · have hxf : (x >>= f) s = f a s' := by
      show EStateM.bind x f s = _
      rw [EStateM.bind, hx]
    have hyk : (y >>= k) t = k a t' := by
      show EStateM.bind y k t = _
      rw [EStateM.bind, hy]
    rw [InStep, outcome, outcome, leaves, leaves, hxf, hyk]
    exact hf a s' t' h'
  · have hxf : (x >>= f) s = .error e s' := by
      show EStateM.bind x f s = _
      rw [EStateM.bind, hx]
    have hyk : (y >>= k) t = .error e t' := by
      show EStateM.bind y k t = _
      rw [EStateM.bind, hy]
    exact inStep_error hxf hyk (hR s' t' h')

/-- Two steps in a row are in step if both parts are, with one relation all along. -/
theorem InStep.bind {f k : α → ResolveM β} (h : InStep R x y s t)
    (hf : ∀ a s' t', R s' t' → InStep R (f a) (k a) s' t') : InStep R (x >>= f) (y >>= k) s t :=
  inStep_bind h (fun _ _ h => h) hf

/-- Both sides compute the same without their sessions. -/
theorem inStep_lift {v : Except Fault α} {f k : α → ResolveM β} (h : R s t)
    (hf : ∀ a, v = .ok a → InStep R (f a) (k a) s t) :
    InStep R (lift v >>= f) (lift v >>= k) s t := by
  cases v with
  | error e => exact ⟨rfl, h⟩
  | ok a => exact hf a rfl

/-- A choice that both sides make alike. -/
theorem inStep_ite {c c' : Prop} [Decidable c] [Decidable c'] {x' y' : ResolveM α} (hc : c ↔ c')
    (hthen : c → InStep R x y s t) (helse : ¬ c → InStep R x' y' s t) :
    InStep R (if c then x else x') (if c' then y else y') s t := by
  by_cases h : c
  · rw [if_pos h, if_pos (hc.1 h)]
    exact hthen h
  · rw [if_neg h, if_neg (mt hc.2 h)]
    exact helse h

/-- Steps that give up on failure are in step if giving up keeps the relation. -/
theorem inStep_orAbandon (h : InStep R x y s t) (hR : ∀ s t, R s t → R s.abandon t.abandon) :
    InStep R (orAbandon x) (orAbandon y) s t := by
  rcases h.cases with ⟨a, s', t', hx, hy, h'⟩ | ⟨e, s', t', hx, hy, h'⟩
  · refine inStep_ok (a := a) ?_ ?_ h'
    · rw [orAbandon, hx]
    · rw [orAbandon, hy]
  · refine inStep_error (e := e) ?_ ?_ (hR s' t' h')
    · rw [orAbandon, hx]
    · rw [orAbandon, hy]

end ResolveM

open ResolveM

/-! ## Another policy -/

namespace Resolver

/-- The resolver with another policy. -/
def withPolicy (r : Resolver) (q : NullabilityPolicy) : Resolver := { r with policy := q }

variable (r : Resolver) (q : NullabilityPolicy)

theorem withPolicy_prepare (n : Node) (elements : List Member) :
    (r.withPolicy q).prepare n elements = r.prepare n elements := by
  induction elements with
  | nil => rfl
  | cons m elements ih =>
    rw [prepare, prepare, ih]
    rfl

/-- Collections are built by the same program, by induction on the fuel. -/
theorem withPolicy_buildContainers (fuel : Nat) :
    (r.withPolicy q).buildContainers fuel = r.buildContainers fuel := by
  have hstep : (r.withPolicy q).containerStep = r.containerStep := by
    funext top
    simp only [containerStep, withPolicy_prepare]
    rfl
  induction fuel with
  | zero => rfl
  | succ fuel ih => rw [buildContainers, buildContainers, ih, hstep]

/-- No policy is asked for the symbol of a shape. -/
theorem withPolicy_symbol (id : ShapeId) : (r.withPolicy q).symbol id = r.symbol id := by
  rw [symbol, symbol, withPolicy_buildContainers]
  rfl

end Resolver

/-! ## Twins -/

section Twins

variable (r : Resolver) (q : NullabilityPolicy)

/-- One member of an owner, bound to one symbol under both policies. -/
def Binding.Twins (owner : Node) (b c : Binding) : Prop :=
  ∃ m name target boxed, (m, name) ∈ r.namedMembers owner ∧
    b = r.memberBinding owner m name target boxed ∧
    c = (r.withPolicy q).memberBinding owner m name target boxed

/-- Two walks of one owner that have come equally far. -/
structure Frame.Twins (f k : Frame) : Prop where
  owner : f.owner = k.owner
  node : r.graph.get? f.owner.id = some f.owner
  todo : f.todo = k.todo
  named : f.todo ⊆ r.namedMembers f.owner
  bound : List.Forall₂ (Binding.Twins r q f.owner) f.bound k.bound

/-- Two tables with the same symbols, in which the same members are bound. -/
structure SymbolTable.Twins (t u : SymbolTable) : Prop where
  symbols : t.symbols = u.symbols
  members : ∀ id, Option.Rel (fun bs cs => ∃ owner, r.graph.get? id = some owner ∧
    List.Forall₂ (Binding.Twins r q owner) bs cs) (t.members? id) (u.members? id)

/-- Two sessions in which the policies show in bindings only. -/
structure Session.Twins (s t : Session) : Prop where
  table : s.table.Twins r q t.table
  frames : List.Forall₂ (Frame.Twins r q) s.frames t.frames
  containers : s.containers = t.containers
  pending : s.pending = t.pending
  maxDepth : s.maxDepth = t.maxDepth
  diagnostics : s.diagnostics = t.diagnostics

end Twins

variable {r : Resolver} {q : NullabilityPolicy} {s t : Session}

/-- Bindings of one member differ in nothing that a walk looks at. -/
theorem Binding.Twins.mark_eq {owner : Node} {b c : Binding} (h : b.Twins r q owner c) :
    b.mark = c.mark := by
  obtain ⟨m, name, target, boxed, -, rfl, rfl⟩ := h
  rw [Resolver.mark_memberBinding, Resolver.mark_memberBinding]

theorem Binding.map_mark_eq {owner : Node} {bs cs : List Binding}
    (h : List.Forall₂ (Binding.Twins r q owner) bs cs) :
    bs.map Binding.mark = cs.map Binding.mark := by
  induction h with
  | nil => rfl
  | cons hfirst _ ih => rw [List.map_cons, List.map_cons, hfirst.mark_eq, ih]

namespace Session.Twins

theorem get? (h : s.Twins r q t) (id : ShapeId) : s.table.get? id = t.table.get? id := by
  rw [SymbolTable.get?, SymbolTable.get?, h.table.symbols]

/-- Twins look alike. -/
theorem alike (h : s.Twins r q t) : s.Alike t where
  table := {
    known := fun id => by
      rw [SymbolTable.contains, SymbolTable.contains, h.table.symbols]
    marks := fun id => by
      have hmembers := h.table.members id
      generalize s.table.members? id = a, t.table.members? id = b at hmembers
      cases hmembers with
      | none => rfl
      | some htwins =>
        obtain ⟨owner, -, hall⟩ := htwins
        exact congrArg some (Binding.map_mark_eq hall) }
  frames := h.frames.imp fun f k twins =>
    ⟨twins.owner, congrArg _ twins.todo, Binding.map_mark_eq twins.bound⟩
  containers := h.containers
  pending := h.pending

/-- Either no walk is under way on both sides, or the innermost ones are twins. -/
theorem cases_frames (h : s.Twins r q t) : (s.frames = [] ∧ t.frames = []) ∨
    ∃ f rest k others, s.frames = f :: rest ∧ t.frames = k :: others ∧ f.Twins r q k ∧
      List.Forall₂ (Frame.Twins r q) rest others := by
  have hframes := h.frames
  cases hs : s.frames with
  | nil =>
    rw [hs, List.forall₂_nil_left_iff] at hframes
    exact Or.inl ⟨rfl, hframes⟩
  | cons f rest =>
    rw [hs, List.forall₂_cons_left_iff] at hframes
    obtain ⟨k, others, hfirst, hrest, ht⟩ := hframes
    exact Or.inr ⟨f, rest, k, others, rfl, ht, hfirst, hrest⟩

/-- Members that both sides have bound are twins. -/
theorem forall₂_members (h : s.Twins r q t) {id : ShapeId} {bs cs : List Binding}
    (hs : s.table.members? id = some bs) (ht : t.table.members? id = some cs) :
    ∃ owner, r.graph.get? id = some owner ∧ List.Forall₂ (Binding.Twins r q owner) bs cs := by
  have hmembers := h.table.members id
  rw [hs, ht] at hmembers
  cases hmembers with
  | some htwins => exact htwins

/-- A member that one side has bound has a twin. -/
theorem exists_twin (h : s.Twins r q t) {id : ShapeId} {bs : List Binding}
    (hs : s.table.members? id = some bs) {b : Binding} (hb : b ∈ bs) :
    ∃ owner c, r.graph.get? id = some owner ∧ b.Twins r q owner c := by
  have hmembers := h.table.members id
  rw [hs] at hmembers
  generalize t.table.members? id = found at hmembers
  cases hmembers with
  | some htwins =>
    obtain ⟨owner, howner, hall⟩ := htwins
    obtain ⟨c, -, hbc⟩ := exists_of_forall₂ hall hb
    exact ⟨owner, c, howner, hbc⟩

theorem new : Session.Twins r q {} {} where
  table := ⟨rfl, fun _ => .none⟩
  frames := .nil
  containers := rfl
  pending := rfl
  maxDepth := rfl
  diagnostics := rfl

theorem addSymbol (h : s.Twins r q t) (symbol : Symbol) :
    (s.table.addSymbol symbol).Twins r q (t.table.addSymbol symbol) where
  symbols := by rw [SymbolTable.addSymbol, SymbolTable.addSymbol, h.table.symbols]
  members := h.table.members

theorem addLeaf (h : s.Twins r q t) (leaf : Leaf) : (s.addLeaf leaf).Twins r q (t.addLeaf leaf) :=
  { h with
    table := h.addSymbol leaf.symbol
    pending := congrArg (· ++ leaf.queued) h.pending
    diagnostics := congrArg (· ++ leaf.remarks) h.diagnostics }

/-- Twins stay twins when a collection is opened. -/
theorem openContainer (h : s.Twins r q t) (id : ShapeId) :
    (s.openContainer id).Twins r q (t.openContainer id) :=
  { h with containers := congrArg (id :: ·) h.containers }

theorem closeContainer (h : s.Twins r q t) (symbol : Symbol) (queued : List ShapeId) :
    (s.closeContainer symbol queued).Twins r q (t.closeContainer symbol queued) :=
  { h with
    table := h.addSymbol symbol
    containers := congrArg List.tail h.containers
    pending := congrArg (· ++ queued) h.pending }

/-- Twins stay twins when a record or union of the graph is entered: no member is bound yet. -/
theorem enter (h : s.Twins r q t) {n : Node} (node : r.graph.get? n.id = some n) :
    (s.enter n (r.memberNames n)).Twins r q (t.enter n (r.memberNames n)) :=
  { h with
    frames := .cons ⟨rfl, node, rfl, List.Subset.refl _, .nil⟩ h.frames
    maxDepth := by
      show max s.maxDepth (s.frames.length + 1) = max t.maxDepth (t.frames.length + 1)
      rw [h.maxDepth, h.frames.length_eq]
    diagnostics := congrArg (· ++ _) h.diagnostics }

/-- Both walks bind their next member, which is the same one. -/
theorem bindNext (h : s.Twins r q t) {f : Frame} {rest : List Frame} (top : s.frames = f :: rest)
    {b c : Binding} (hbc : b.Twins r q f.owner c) :
    (s.bindNext b).Twins r q (t.bindNext c) := by
  rcases h.cases_frames with ⟨hs, -⟩ | ⟨f', rest', k, others, hs, ht, hfirst, hrest⟩
  · rw [hs] at top
    cases top
  · rw [hs] at top
    cases top
    rw [Session.bindNext_of_frames hs, Session.bindNext_of_frames ht]
    have hadvance : (f.advance b).Twins r q (k.advance c) := {
      owner := hfirst.owner
      node := hfirst.node
      todo := congrArg List.tail hfirst.todo
      named := fun _ hmem => hfirst.named (List.mem_of_mem_tail hmem)
      bound := List.rel_append hfirst.bound (.cons hbc .nil) }
    exact { h with frames := .cons hadvance hrest }

/-- Twins stay twins when a walk is finished: its bindings, twins one by one, go to the table. -/
theorem leave (h : s.Twins r q t) : s.leave.Twins r q t.leave := by
  rcases h.cases_frames with ⟨hs, ht⟩ | ⟨f, rest, k, others, hs, ht, hfirst, hrest⟩
  · rw [Session.leave, Session.leave, hs, ht]
    exact h
  · rw [Session.leave_of_frames hs, Session.leave_of_frames ht]
    refine { h with
      table := ⟨h.table.symbols, fun id => ?_⟩
      frames := hrest }
    rw [SymbolTable.members?_bind, SymbolTable.members?_bind, ← hfirst.owner]
    split
    · rename_i hid
      exact .some ⟨f.owner, hid ▸ hfirst.node, hfirst.bound⟩
    · exact h.table.members id

/-- Twins stay twins when a shape is taken from the queue. -/
theorem dequeue (h : s.Twins r q t) (rest : List ShapeId) :
    Twins r q { s with pending := rest } { t with pending := rest } :=
  { h with pending := rfl }

theorem abandon (h : s.Twins r q t) : s.abandon.Twins r q t.abandon :=
  { h with
    frames := .nil
    containers := rfl }

end Session.Twins

/-! ## The steps of both resolvers -/

/-- Twins on the first side of which the walks are `fs`; they stand still while symbols are made. -/
def Session.Paused (r : Resolver) (q : NullabilityPolicy) (fs : List Frame) (s t : Session) :
    Prop :=
  s.Twins r q t ∧ s.frames = fs

namespace Resolver

variable {fs : List Frame}

/-- Elements are prepared in step. -/
theorem prepare_inStep (n : Node) (elements : List Member) (h : s.Paused r q fs t) :
    InStep (Session.Paused r q fs) (r.prepare n elements) (r.prepare n elements) s t := by
  induction elements generalizing s t with
  | nil => exact inStep_pure h
  | cons m elements ih =>
    rw [prepare]
    refine inStep_lift h fun target _ => inStep_get ?_
    refine inStep_ite (by rw [h.1.alike.table.known]) (fun _ => ih h) fun _ => ?_
    refine inStep_ite Iff.rfl (fun _ => inStep_get ?_) fun _ => ?_
    · refine inStep_ite (by rw [h.1.containers]) (fun _ => inStep_throw h) fun _ => ?_
      exact inStep_pure h
    · refine inStep_lift h fun leaf _ => ?_
      have hleaf : (s.addLeaf leaf).Paused r q fs (t.addLeaf leaf) := ⟨h.1.addLeaf leaf, h.2⟩
      exact (inStep_modify hleaf).bind fun _ _ _ => ih

/-- A step at the topmost collection is in step. -/
theorem containerStep_inStep (top : ShapeId) (h : s.Paused r q fs t) :
    InStep (Session.Paused r q fs) (r.containerStep top) (r.containerStep top) s t := by
  rw [containerStep]
  refine inStep_lift h fun n _ => ?_
  refine (prepare_inStep n _ h).bind fun found s' t' h' => ?_
  cases found with
  | some inner => exact inStep_modify ⟨h'.1.openContainer inner, h'.2⟩
  | none =>
    refine inStep_get ?_
    -- a collection is made from symbols, and bindings have no part in it
    have hsame : r.collection s'.table n = r.collection t'.table n := by
      have helement : r.element s'.table = r.element t'.table := by
        funext container m nullable
        simp only [element, h'.1.get?]
      simp only [collection, helement]
    rw [hsame]
    exact inStep_lift h' fun built _ => inStep_modify ⟨h'.1.closeContainer _ _, h'.2⟩

/-- The loop of the collections is in step, by induction on its fuel. -/
theorem buildContainers_inStep (fuel : Nat) (h : s.Paused r q fs t) :
    InStep (Session.Paused r q fs) (r.buildContainers fuel) (r.buildContainers fuel) s t := by
  induction fuel generalizing s t with
  | zero => exact inStep_pure h
  | succ fuel ih =>
    rw [buildContainers]
    refine inStep_get ?_
    rw [h.1.containers]
    cases t.containers with
    | nil => exact inStep_pure h
    | cons top _ => exact (containerStep_inStep top h).bind fun _ _ _ => ih

/-- Both sides look a symbol up, and find the same. -/
theorem lookup_inStep (id : ShapeId) (h : s.Paused r q fs t) :
    InStep (Session.Paused r q fs)
      (match s.table.get? id with
        | some a => pure a
        | none => throw (.missingShape id))
      (match t.table.get? id with
        | some a => pure a
        | none => throw (.missingShape id)) s t := by
  rw [h.1.get?]
  cases t.table.get? id with
  | some a => exact inStep_pure h
  | none => exact inStep_throw h

/-- Making the symbol of a shape is in step. -/
theorem symbol_inStep (id : ShapeId) (h : s.Paused r q fs t) :
    InStep (Session.Paused r q fs) (r.symbol id) (r.symbol id) s t := by
  rw [symbol]
  refine inStep_get ?_
  rw [h.1.get?]
  cases t.table.get? id with
  | some a => exact inStep_pure h
  | none =>
    refine inStep_lift h fun n _ => ?_
    refine inStep_ite Iff.rfl (fun _ => ?_) fun _ => ?_
    · have hopen : (s.openContainer id).Paused r q fs (t.openContainer id) :=
        ⟨h.1.openContainer id, h.2⟩
      refine (inStep_modify hopen).bind fun _ _ _ h' => ?_
      refine (buildContainers_inStep _ h').bind fun _ _ _ h'' => ?_
      exact inStep_get (lookup_inStep id h'')
    · refine inStep_lift h fun leaf _ => ?_
      have hleaf : (s.addLeaf leaf).Paused r q fs (t.addLeaf leaf) := ⟨h.1.addLeaf leaf, h.2⟩
      refine (inStep_modify hleaf).bind fun _ _ _ h' => ?_
      exact inStep_get (lookup_inStep id h')

/-- The next member is bound on both sides to one symbol, boxed on both or on neither. -/
theorem bindMember_inStep {f : Frame} {rest : List Frame} {m : Member} {name : String}
    (named : (m, name) ∈ r.namedMembers f.owner) (top : s.frames = f :: rest)
    (h : s.Twins r q t) :
    InStep (Session.Twins r q) (r.bindMember f.owner m name)
      ((r.withPolicy q).bindMember f.owner m name) s t := by
  rw [bindMember, bindMember]
  refine inStep_lift (v := r.valueTarget (f.owner.memberId m) m.target) h fun target htarget => ?_
  obtain ⟨hget, -⟩ := valueTarget_eq_ok.1 htarget
  have hnode : r.graph.get? target.id = some target := by
    rw [Graph.get?_id hget]
    exact hget
  rw [withPolicy_symbol]
  -- the walk waits while the symbol of the target is made
  have hpaused : s.Paused r q (f :: rest) t := ⟨h, top⟩
  refine inStep_bind (symbol_inStep target.id hpaused) (fun _ _ h' => h'.1) ?_
  rintro symbol s' t' ⟨h', top'⟩
  refine inStep_get ?_
  rw [h'.alike.isResolving]
  have hbound := h'.bindNext top' ⟨m, name, symbol,
    t'.isResolving target.id || m.tags.contains .recursive, named, rfl, rfl⟩
  refine (inStep_modify hbound).bind fun _ s'' t'' h'' => inStep_get ?_
  refine inStep_ite (by rw [h''.alike.table.isBound]) (fun _ => ?_) fun _ => inStep_pure h''
  exact inStep_modify (h''.enter hnode)

/-- A step of a walk is in step: both finish the walk, or both bind the next member. -/
theorem walkStep_inStep {f k : Frame} {rest : List Frame} (top : s.frames = f :: rest)
    (twins : f.Twins r q k) (h : s.Twins r q t) :
    InStep (Session.Twins r q) (r.walkStep f) ((r.withPolicy q).walkStep k) s t := by
  rw [walkStep, walkStep, ← twins.todo, ← twins.owner]
  cases htodo : f.todo with
  | nil => exact inStep_modify h.leave
  | cons next todo =>
    have named : next ∈ r.namedMembers f.owner := twins.named (htodo ▸ List.mem_cons_self)
    exact bindMember_inStep named top h

/-- The loop of the walks is in step, by induction on its fuel. -/
theorem walk_inStep (fuel : Nat) (h : s.Twins r q t) :
    InStep (Session.Twins r q) (r.walk fuel) ((r.withPolicy q).walk fuel) s t := by
  induction fuel generalizing s t with
  | zero => exact inStep_pure h
  | succ fuel ih =>
    rw [walk, walk]
    refine inStep_get ?_
    rcases h.cases_frames with ⟨hs, ht⟩ | ⟨f, rest, k, others, hs, ht, twins, -⟩
    · rw [hs, ht]
      exact inStep_pure h
    · rw [hs, ht]
      exact (walkStep_inStep hs twins h).bind fun _ _ _ => ih

/-- A visit of one shape is in step. -/
theorem visit_inStep (id : ShapeId) (h : s.Twins r q t) :
    InStep (Session.Twins r q) (r.visit id) ((r.withPolicy q).visit id) s t := by
  rw [visit, visit, withPolicy_symbol]
  refine inStep_orAbandon ?_ fun _ _ => Session.Twins.abandon
  have hpaused : s.Paused r q s.frames t := ⟨h, rfl⟩
  refine inStep_bind (symbol_inStep id hpaused) (fun _ _ h' => h'.1) ?_
  rintro symbol s' t' ⟨h', -⟩
  refine inStep_lift (v := r.graph.require id) h' fun n hn => inStep_get ?_
  have hget := Graph.get?_of_require hn
  have hnode : r.graph.get? n.id = some n := by
    rw [Graph.get?_id hget]
    exact hget
  refine inStep_ite (by rw [h'.alike.table.isBound, h'.alike.isResolving]) (fun _ => ?_)
    fun _ => inStep_pure h'
  refine (inStep_modify (h'.enter hnode)).bind fun _ _ _ hentered => ?_
  exact (walk_inStep _ hentered).bind fun _ _ _ h'' => inStep_pure h''

/-- Working off the queue is in step, by induction on its fuel. -/
theorem drain_inStep (fuel : Nat) (h : s.Twins r q t) :
    InStep (Session.Twins r q) (r.drain fuel) ((r.withPolicy q).drain fuel) s t := by
  induction fuel generalizing s t with
  | zero => exact inStep_pure h
  | succ fuel ih =>
    rw [drain, drain]
    refine inStep_get ?_
    rw [h.pending]
    cases t.pending with
    | nil => exact inStep_pure h
    | cons next rest =>
      refine (inStep_modify (h.dequeue rest)).bind fun _ _ _ h' => ?_
      exact (visit_inStep next h').bind fun _ _ _ => ih

/-- Resolving one shape is in step. -/
theorem resolve_inStep (id : ShapeId) (h : s.Twins r q t) :
    InStep (Session.Twins r q) (r.resolve id) ((r.withPolicy q).resolve id) s t := by
  rw [resolve, resolve]
  refine (visit_inStep id h).bind fun symbol s' t' h' => inStep_get ?_
  have hbudget : (r.withPolicy q).drainBudget t' = r.drainBudget s' :=
    (drainBudget_eq_of_alike rfl h'.alike).symm
  rw [hbudget]
  exact (drain_inStep _ h').bind fun _ _ _ h'' => inStep_pure h''

/-- Resolving shapes one after the other is in step, by induction on the shapes. -/
theorem resolveEach_inStep (ids : List ShapeId) (h : s.Twins r q t) :
    InStep (Session.Twins r q) (r.resolveEach ids) ((r.withPolicy q).resolveEach ids) s t := by
  induction ids generalizing s t with
  | nil => exact inStep_pure h
  | cons id ids ih =>
    rw [resolveEach, resolveEach]
    exact (resolve_inStep id h).bind fun _ _ _ => ih

/-- Resolving a whole graph is in step. -/
theorem resolveAll_inStep (h : s.Twins r q t) :
    InStep (Session.Twins r q) r.resolveAll (r.withPolicy q).resolveAll s t := by
  rw [resolveAll, resolveAll]
  refine (resolveEach_inStep r.roots h).bind fun _ s' t' h' => inStep_get ?_
  have hnames : s'.table.checkNames = t'.table.checkNames := by
    rw [SymbolTable.checkNames, SymbolTable.checkNames, SymbolTable.declared,
      SymbolTable.declared, h'.table.symbols]
  rw [hnames]
  cases t'.table.checkNames with
  | ok _ => exact inStep_pure h'
  | error e => exact inStep_throw h'

/-- Every call is in step. -/
theorem call_inStep (c : Call) (h : s.Twins r q t) :
    InStep (Session.Twins r q) (r.call c) ((r.withPolicy q).call c) s t := by
  cases c with
  | shape id => exact (resolve_inStep id h).bind fun _ _ _ h' => inStep_pure h'
  | all => exact resolveAll_inStep h

/-- Whatever was called for and however it ended, the sessions of both resolvers are twins. -/
theorem twins_after (r : Resolver) (q : NullabilityPolicy) (calls : List Call) :
    (r.after calls).Twins r q ((r.withPolicy q).after calls) := by
  have hfold : ∀ s t : Session, s.Twins r q t →
      (calls.foldl (fun s c => (r.call c).leaves s) s).Twins r q
        (calls.foldl (fun t c => ((r.withPolicy q).call c).leaves t) t) := by
    induction calls with
    | nil => exact fun s t h => h
    | cons c calls ih =>
      intro s t h
      exact ih _ _ (call_inStep c h).2
  exact hfold {} {} .new

end Resolver

end SchemaSymbols
