/-
  Every step keeps a session sound.

  `Sound` has a clause for each part of a session: the table, the walks, the open collections and
  the queue.  Each kind of step has its own lemma here, named for what the step does to a session,
  and `SymbolStep.sound`, `Step.sound` and `Move.sound` are the case analyses over the kinds.

  1. **A new symbol** only extends the table, and everything that was said of the smaller table
     stays true of the larger one (`Explains.extends`, `BoundAll.extends`, `Faithful.of_extends`).
     What is left is to show that the symbol is explained by its node and that it belongs to no open
     collection: a leaf is none, and a collection that is closed was the innermost one, which is
     different from all others (`Sound.addLeaf`, `Sound.closeContainer`).

  2. **A walk** changes at its innermost frame.  `Faithful` is the part of a frame that says how far
     it is: the bindings so far are those of the first members, in order.  It moves along by one
     member (`Faithful.advance`), and once no member is left, it is what the table asks of a bound
     record or union (`Faithful.boundAll`).

  3. **A member that is bound and entered** is a single step (`Sound.descend`), since in between the
     record or union it leads to would be neither bound nor walked.

  Abandoning walks and collections keeps a session sound, as nothing in the table depends on them.
-/
import SchemaSymbols.Proofs.Resolution.Step

namespace SchemaSymbols

open Relation

variable {r : Resolver} {R : ShapeId → Prop} {t t' : SymbolTable} {s s' : Session}

/-! ## Sessions -/

theorem Session.isResolving_iff {id : ShapeId} :
    s.isResolving id = true ↔ id ∈ s.frames.map fun f => f.owner.id := by
  simp [Session.isResolving]

theorem Session.isResolving_eq_false {id : ShapeId} :
    s.isResolving id = false ↔ id ∉ s.frames.map fun f => f.owner.id := by
  rw [← Session.isResolving_iff, Bool.not_eq_true]

/-- The innermost frame when its next member is bound. -/
def Frame.advance (f : Frame) (b : Binding) : Frame :=
  { f with todo := f.todo.tail, bound := f.bound ++ [b] }

/-- Binding a member advances the innermost walk and changes nothing else. -/
theorem Session.bindNext_of_frames {f : Frame} {rest : List Frame} (h : s.frames = f :: rest)
    (b : Binding) : s.bindNext b = { s with frames := f.advance b :: rest } := by
  rw [Session.bindNext, h]
  rfl

/-- Leaving a walk takes it from the stack and its bindings to the table. -/
theorem Session.leave_of_frames {f : Frame} {rest : List Frame} (h : s.frames = f :: rest) :
    s.leave = { s with frames := rest, table := s.table.bind f.owner.id f.bound } := by
  rw [Session.leave, h]

/-- The owners of the walks stay the same when a member is bound. -/
theorem Session.isResolving_bindNext {f : Frame} {rest : List Frame} (h : s.frames = f :: rest)
    (b : Binding) (id : ShapeId) : (s.bindNext b).isResolving id = s.isResolving id := by
  rw [Session.bindNext_of_frames h, Session.isResolving, Session.isResolving, h]
  rfl

/-! ## Larger tables -/

/-- A symbol is explained by a larger table too: its parts are still there. -/
theorem Resolver.Explains.extends {id : ShapeId} {symbol : Symbol} (h : r.Explains t id symbol)
    (hext : t'.Extends t) : r.Explains t' id symbol := by
  obtain ⟨n, hn, hleaf | ⟨queued, hbuilt⟩⟩ := h
  · exact ⟨n, hn, Or.inl hleaf⟩
  · exact ⟨n, hn, Or.inr ⟨queued, collection_extends hbuilt hext⟩⟩

theorem Resolver.BoundTo.extends {owner : Node} {declared : Member × String} {b : Binding}
    (h : r.BoundTo t owner declared b) (hext : t'.Extends t) : r.BoundTo t' owner declared b := by
  obtain ⟨target, symbol, boxed, hget, hvalue, hsymbol, hb⟩ := h
  exact ⟨target, symbol, boxed, hget, hvalue, hext _ _ hsymbol, hb⟩

theorem Resolver.BoundAll.extends {id : ShapeId} {members : List Binding}
    (h : r.BoundAll t id members) (hext : t'.Extends t) : r.BoundAll t' id members := by
  obtain ⟨owner, hget, hagg, hcontains, hall⟩ := h
  exact ⟨owner, hget, hagg, hext.contains hcontains, hall.imp fun _ _ h => h.extends hext⟩

/-- The bindings of a walk are those of the first members of its owner, in the order of declaration;
the other ones are still to come. -/
structure Frame.Faithful (r : Resolver) (t : SymbolTable) (f : Frame) : Prop where
  node : r.graph.get? f.owner.id = some f.owner
  aggregate : f.owner.shape.isAggregate = true
  known : t.contains f.owner.id = true
  progress : ∃ done, r.namedMembers f.owner = done ++ f.todo ∧
    List.Forall₂ (r.BoundTo t f.owner) done f.bound

namespace Frame.Faithful

variable {f : Frame}

theorem of_extends (h : f.Faithful r t) (hext : t'.Extends t) : f.Faithful r t' := by
  obtain ⟨done, hdone, hall⟩ := h.progress
  exact {
    node := h.node
    aggregate := h.aggregate
    known := hext.contains h.known
    progress := ⟨done, hdone, hall.imp fun _ _ hb => hb.extends hext⟩ }

/-- When the next member is bound, it is done, and its binding comes last. -/
theorem advance {m : Member} {name : String} {todo : List (Member × String)} {b : Binding}
    (h : f.Faithful r t) (next : f.todo = (m, name) :: todo)
    (bound : r.BoundTo t f.owner (m, name) b) : (f.advance b).Faithful r t := by
  obtain ⟨done, hdone, hall⟩ := h.progress
  have hnext : r.namedMembers f.owner = done ++ [(m, name)] ++ f.todo.tail := by
    rw [hdone, next, List.append_assoc]
    rfl
  have hbound : List.Forall₂ (r.BoundTo t f.owner) (done ++ [(m, name)]) (f.bound ++ [b]) :=
    List.rel_append hall (.cons bound .nil)
  exact { h with progress := ⟨done ++ [(m, name)], hnext, hbound⟩ }

/-- With no member to come, the bindings are those of all members. -/
theorem boundAll (h : f.Faithful r t) (done : f.todo = []) :
    r.BoundAll t f.owner.id f.bound := by
  obtain ⟨bound, hbound, hall⟩ := h.progress
  rw [done, List.append_nil] at hbound
  exact ⟨f.owner, h.node, h.aggregate, h.known, hbound ▸ hall⟩

end Frame.Faithful

/-- A sound walk is as far as it says. -/
theorem FrameSound.faithful {f : Frame} (h : FrameSound r R t f) : f.Faithful r t :=
  { h with progress := h.progress }

/-- A walk goes on in a larger table, as long as its own members are not bound there. -/
theorem FrameSound.extends {f : Frame} (h : FrameSound r R t f) (hext : t'.Extends t)
    (hbound : t'.isBound f.owner.id = false) : FrameSound r R t' f :=
  { h.faithful.of_extends hext with
    within := h.within
    unbound := hbound }

/-- The next member of a walk is one that its owner declares. -/
theorem FrameSound.mem_members {f : Frame} {m : Member} {name : String}
    {todo : List (Member × String)} (h : FrameSound r R t f) (next : f.todo = (m, name) :: todo) :
    m ∈ f.owner.shape.members := by
  obtain ⟨done, hdone, -⟩ := h.progress
  rw [← r.map_fst_namedMembers, hdone, next]
  exact List.mem_map.2 ⟨(m, name), List.mem_append_right _ List.mem_cons_self, rfl⟩

/-! ## New symbols -/

/-- A symbol that is explained can be added to a sound table, if its shape has none. -/
theorem TableSound.addSymbol {symbol : Symbol} (h : TableSound r R t) (within : R symbol.shape)
    (fresh : t.contains symbol.shape = false)
    (explained : r.Explains (t.addSymbol symbol) symbol.shape symbol) :
    TableSound r R (t.addSymbol symbol) := by
  have hext := SymbolTable.extends_addSymbol fresh
  refine ⟨fun id other hget => ?_, fun id members hget => ?_⟩
  · rw [SymbolTable.get?_addSymbol] at hget
    split at hget
    · rename_i hid
      cases hget
      exact hid ▸ ⟨within, explained⟩
    · exact (h.symbols id other hget).imp_right fun he => he.extends hext
  · exact (h.members id members hget).imp_right fun hb => hb.extends hext

/-- The part of a session that a new symbol does not touch. -/
theorem Sound.frames_addSymbol {symbol : Symbol} (h : Sound r R s)
    (fresh : s.table.contains symbol.shape = false) :
    ∀ f ∈ s.frames, FrameSound r R (s.table.addSymbol symbol) f :=
  fun f hf => (h.frames f hf).extends (SymbolTable.extends_addSymbol fresh) (h.frames f hf).unbound

/-- An open collection stays open when another shape gets its symbol. -/
theorem OpenSound.addSymbol {symbol : Symbol} {id : ShapeId} (h : OpenSound r R t id)
    (hne : symbol.shape ≠ id) : OpenSound r R (t.addSymbol symbol) id where
  within := h.within
  node := h.node
  fresh := by
    rw [← Bool.not_eq_true, SymbolTable.contains_addSymbol]
    rintro (he | hc)
    · exact hne he
    · rw [h.fresh] at hc
      cases hc

/-- A leaf that had no symbol gets one, and what it refers to is queued. -/
theorem Sound.addLeaf {n : Node} {leaf : Leaf} (closed : r.graph.Closed R) (h : Sound r R s)
    (within : R n.id) (node : r.graph.get? n.id = some n)
    (fresh : s.table.contains n.id = false) (hleaf : r.leaf n = .ok leaf) :
    Sound r R (s.addLeaf leaf) := by
  have made := Resolver.made_of_leaf hleaf
  rw [← made.shape] at within fresh
  refine {
    table := h.table.addSymbol within fresh ⟨n, made.shape ▸ node, Or.inl ⟨leaf, hleaf, rfl⟩⟩
    frames := h.frames_addSymbol fresh
    owners := h.owners
    containers := fun id hid => ?_
    distinct := h.distinct
    nested := h.nested
    pending := fun id hid => ?_ }
  · refine (h.containers id hid).addSymbol fun he => ?_
    -- an open shape is a collection, and the new symbol is a leaf's
    obtain ⟨k, hk, hcontainer⟩ := (h.containers id hid).node
    rw [← he, made.shape, node] at hk
    cases hk
    rw [made.isContainer] at hcontainer
    cases hcontainer
  · rcases List.mem_append.1 hid with hid | hid
    · exact h.pending id hid
    · rw [made.queued] at hid
      exact closed _ _ (made.shape ▸ within) ⟨n, node, Shape.exists_reference_of_mem_links hid⟩

/-- A collection without a symbol may be opened inside one that holds it. -/
theorem Sound.openContainer {n : Node} (h : Sound r R s) (within : R n.id)
    (node : r.graph.get? n.id = some n) (container : n.shape.isContainer = true)
    (fresh : s.table.contains n.id = false) (notOpen : n.id ∉ s.containers)
    (inside : ∀ top ∈ s.containers.head?, r.graph.Holds top n.id) :
    Sound r R (s.openContainer n.id) where
  table := h.table
  frames := h.frames
  owners := h.owners
  containers := by
    intro id hid
    rcases List.mem_cons.1 hid with rfl | hid
    · exact ⟨within, ⟨n, node, container⟩, fresh⟩
    · exact h.containers id hid
  distinct := List.nodup_cons.2 ⟨notOpen, h.distinct⟩
  nested := List.isChain_cons.2 ⟨inside, h.nested⟩
  pending := h.pending

/-- The innermost collection gets the symbol that its elements make. -/
theorem Sound.closeContainer {n : Node} {rest queued : List ShapeId} {symbol : Symbol}
    (closed : r.graph.Closed R) (h : Sound r R s) (node : r.graph.get? n.id = some n)
    (top : s.containers = n.id :: rest)
    (hbuilt : r.collection s.table n = .ok (symbol, queued)) :
    Sound r R (s.closeContainer symbol queued) := by
  have built := Resolver.built_of_collection hbuilt
  have hn : n.id ∈ s.containers := top ▸ List.mem_cons_self
  have within : R symbol.shape := built.shape ▸ (h.containers _ hn).within
  have fresh : s.table.contains symbol.shape = false := built.shape ▸ (h.containers _ hn).fresh
  have hext := SymbolTable.extends_addSymbol fresh
  have hdistinct := h.distinct
  have hnested := h.nested
  rw [top] at hdistinct hnested
  -- the stack of collections loses its top
  have htail : (s.closeContainer symbol queued).containers = rest := by
    show s.containers.tail = rest
    rw [top]
    rfl
  refine {
    table := h.table.addSymbol within fresh
      ⟨n, built.shape ▸ node, Or.inr ⟨queued, Resolver.collection_extends hbuilt hext⟩⟩
    frames := h.frames_addSymbol fresh
    owners := h.owners
    containers := fun id hid => ?_
    distinct := htail ▸ (List.nodup_cons.1 hdistinct).2
    nested := htail ▸ hnested.tail
    pending := fun id hid => ?_ }
  · rw [htail] at hid
    refine (h.containers id (top ▸ List.mem_cons_of_mem _ hid)).addSymbol fun he => ?_
    -- the collection that was closed is open no more
    rw [← he, built.shape] at hid
    exact (List.nodup_cons.1 hdistinct).1 hid
  · rcases List.mem_append.1 hid with hid | hid
    · exact h.pending id hid
    · rw [built.queued] at hid
      obtain ⟨m, hm, rfl⟩ := List.mem_map.1 (List.mem_of_mem_filter hid)
      exact closed _ _ (built.shape ▸ within) (Graph.refers_of_mem_elements node hm)

/-! ## Walks -/

theorem SymbolTable.isBound_eq_false_of_bind {owner id : ShapeId} {members : List Binding}
    (hne : owner ≠ id) (h : t.isBound id = false) : (t.bind owner members).isBound id = false := by
  rw [← Bool.not_eq_true, SymbolTable.isBound_bind]
  rintro (he | hb)
  · exact hne he
  · rw [h] at hb
    cases hb

/-- A record or union that is neither bound nor walked may be entered. -/
theorem Sound.enter {n : Node} (h : Sound r R s) (within : R n.id)
    (node : r.graph.get? n.id = some n) (aggregate : n.shape.isAggregate = true)
    (known : s.table.contains n.id = true) (unbound : s.table.isBound n.id = false)
    (apart : s.isResolving n.id = false) : Sound r R (s.enter n (r.memberNames n)) where
  table := h.table
  frames := by
    intro f hf
    rcases List.mem_cons.1 hf with rfl | hf
    · exact ⟨within, node, aggregate, known, unbound, [], rfl, .nil⟩
    · exact h.frames f hf
  owners := List.nodup_cons.2 ⟨Session.isResolving_eq_false.1 apart, h.owners⟩
  containers := h.containers
  distinct := h.distinct
  nested := h.nested
  pending := h.pending

/-- The next binding is that of the next member, with the symbol of its target. -/
theorem boundTo_nextBinding {f : Frame} {m : Member} {name : String} {target : Node}
    {symbol : Symbol} (node : r.graph.get? m.target = some target)
    (value : target.shape.isValue = true) (known : s.table.get? m.target = some symbol) :
    r.BoundTo s.table f.owner (m, name) (nextBinding r s f m name symbol) := by
  refine ⟨target, symbol, _, node, value, known, fun htag => ?_, rfl⟩
  rw [htag, Bool.or_true]

/-- The innermost walk binds its next member. -/
theorem Sound.bindNext {f : Frame} {rest : List Frame} {m : Member} {name : String}
    {target : Node} {symbol : Symbol} (h : Sound r R s)
    (binds : Binds r s f rest m name target symbol) :
    Sound r R (s.bindNext (nextBinding r s f m name symbol)) := by
  have hframes := h.frames
  have howners := h.owners
  rw [binds.top] at hframes howners
  rw [Session.bindNext_of_frames binds.top]
  refine { h with frames := fun k hk => ?_, owners := howners }
  rcases List.mem_cons.1 hk with rfl | hk
  · have hf := hframes f List.mem_cons_self
    obtain ⟨todo, htodo⟩ := binds.next
    have hadvance : (f.advance (nextBinding r s f m name symbol)).Faithful r s.table :=
      hf.faithful.advance htodo (boundTo_nextBinding binds.node binds.value binds.known)
    exact { hadvance with
      within := hf.within
      unbound := hf.unbound }
  · exact hframes k (List.mem_cons_of_mem _ hk)

/-- The next member is bound, and the record or union it leads to is entered. -/
theorem Sound.descend {f : Frame} {rest : List Frame} {m : Member} {name : String}
    {target : Node} {symbol : Symbol} (closed : r.graph.Closed R) (h : Sound r R s)
    (binds : Binds r s f rest m name target symbol) (apart : s.isResolving m.target = false)
    (aggregate : target.shape.isAggregate = true) (unbound : s.table.isBound m.target = false) :
    Sound r R
      ((s.bindNext (nextBinding r s f m name symbol)).enter target (r.memberNames target)) := by
  have hid : target.id = m.target := Graph.get?_id binds.node
  have hf := h.frames f (binds.top ▸ List.mem_cons_self)
  obtain ⟨todo, htodo⟩ := binds.next
  -- the member that is bound is a declared one, so its target is in `R`
  have hwithin : R m.target :=
    closed _ _ hf.within (Graph.refers_of_mem_members hf.node (hf.mem_members htodo))
  have hbound := h.bindNext binds
  refine hbound.enter (hid ▸ hwithin) (hid ▸ binds.node) aggregate ?_ ?_ ?_
  · rw [Session.bindNext_of_frames binds.top, hid]
    exact SymbolTable.contains_of_get? binds.known
  · rw [Session.bindNext_of_frames binds.top, hid]
    exact unbound
  · rw [Session.isResolving_bindNext binds.top, hid]
    exact apart

/-- A walk without members left is finished. -/
theorem Sound.leave {f : Frame} {rest : List Frame} (h : Sound r R s) (top : s.frames = f :: rest)
    (done : f.todo = []) : Sound r R s.leave := by
  have hframes := h.frames
  have howners := h.owners
  rw [top] at hframes howners
  have hf := hframes f List.mem_cons_self
  obtain ⟨hfirst, hrest⟩ := List.nodup_cons.1 howners
  rw [Session.leave_of_frames top]
  refine {
    table := ⟨h.table.symbols, fun id members hget => ?_⟩
    frames := fun k hk => ?_
    owners := hrest
    containers := fun id hid => { h.containers id hid with fresh := (h.containers id hid).fresh }
    distinct := h.distinct
    nested := h.nested
    pending := h.pending }
  · rw [SymbolTable.members?_bind] at hget
    split at hget
    · rename_i hid
      cases hget
      exact hid ▸ ⟨hf.within, hf.faithful.boundAll done⟩
    · exact h.table.members id members hget
  · -- the other walks have owners of their own, which are still not bound
    have hk' := hframes k (List.mem_cons_of_mem _ hk)
    have hne : f.owner.id ≠ k.owner.id := fun he => hfirst (List.mem_map.2 ⟨k, hk, he.symm⟩)
    exact hk'.extends SymbolTable.Extends.rfl
      (SymbolTable.isBound_eq_false_of_bind hne hk'.unbound)

/-! ## All steps -/

/-- Giving a shape its symbol keeps a session sound, whichever way it goes. -/
theorem SymbolStep.sound (closed : r.graph.Closed R) (h : Sound r R s)
    (step : SymbolStep r R s s') : Sound r R s' := by
  cases step with
  | leaf within node fresh made => exact h.addLeaf closed within node fresh made
  | opened within node container fresh notOpen inside =>
    exact h.openContainer within node container fresh notOpen inside
  | closed node top built => exact h.closeContainer closed node top built

/-- Every step keeps a session sound. -/
theorem Step.sound (closed : r.graph.Closed R) (h : Sound r R s) (step : Step r R s s') :
    Sound r R s' := by
  cases step with
  | symbol step => exact step.sound closed h
  | enter within node aggregate known unbound noWalk idle =>
    have apart : ∀ id, s.isResolving id = false := fun id => by
      rw [Session.isResolving, noWalk]
      rfl
    exact h.enter within node aggregate known unbound (apart _)
  | bind binds stays => exact h.bindNext binds
  | descend binds apart aggregate unbound => exact h.descend closed binds apart aggregate unbound
  | leave top done idle => exact h.leave top done

/-- Giving up all walks and open collections keeps a session sound. -/
theorem Sound.abandon (h : Sound r R s) : Sound r R s.abandon where
  table := h.table
  frames := fun _ hf => absurd hf List.not_mem_nil
  owners := .nil
  containers := fun _ hid => absurd hid List.not_mem_nil
  distinct := .nil
  nested := .nil
  pending := h.pending

/-- Every move keeps a session sound. -/
theorem Move.sound (closed : r.graph.Closed R) (h : Sound r R s) (move : Move r R s s') :
    Sound r R s' := by
  cases move with
  | step step => exact step.sound closed h
  | dequeue queue =>
    exact { h with pending := fun id hid => h.pending id (queue ▸ List.mem_cons_of_mem _ hid) }
  | abandon => exact h.abandon

/-- A session in which nothing was resolved is sound. -/
theorem Sound.new : Sound r R {} where
  table := ⟨fun _ _ hget => (nomatch hget), fun _ _ hget => (nomatch hget)⟩
  frames := fun _ hf => absurd hf List.not_mem_nil
  owners := .nil
  containers := fun _ hid => absurd hid List.not_mem_nil
  distinct := .nil
  nested := .nil
  pending := fun _ hid => absurd hid List.not_mem_nil

end SchemaSymbols
