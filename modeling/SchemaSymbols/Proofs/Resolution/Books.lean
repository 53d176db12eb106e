/-
  The machine keeps its books in order.

  1. **What a session sees.**  `Context.session` forgets the books of a context: a walk becomes a
     frame with its owner looked up in the graph, the members still to be bound, and those that are
     bound.  So what is known of sessions holds of contexts, and a change of a context is the change
     of the same name of its session (`session_enter`, `session_push`, `session_leave`), but for
     `advance`, which no session sees (`session_advance`).

  2. **How deep walks are nested.**  No record or union is walked twice at a time, so there are at
     most as many walks as there are records and unions (`Sound.length_frames_le`).

  3. **The books.**  `Books` adds to a sound session what ties the books to it: the set of shapes
     that are being walked is the stack of walks, every walk has the names of all its members, and
     every walk but the innermost one is as far as the members it has bound.  Of the innermost one
     nothing is said, because how far it is depends on what the machine is doing: between `advance`
     and `push` it is one member ahead, and `AtMember` says which.

  4. **Each change of a context keeps the books** (`Books.enter`, `advance`, `push`, `leave`,
     `dequeue`, `abandon`).  The soundness of the session comes from the step that the session
     takes; what is left to show is about the books alone (`Books.of_sound`).
-/
import SchemaSymbols.Proofs.Resolution.Machine

namespace SchemaSymbols

open Relation

variable {r : Resolver} {c c' : Context} {s : Session}

/-! ## What a session sees of a context -/

/-- The frame of a walk: its members in the graph, from the first one that is not bound. -/
def Resolver.frameOf (r : Resolver) (w : OpenWalk) : Frame :=
  let owner := (r.graph.get? w.id).getD default
  ⟨owner, (r.namedMembers owner).drop w.bound.length, w.bound⟩

theorem Resolver.frameOf_eq {w : OpenWalk} {owner : Node} (node : r.graph.get? w.id = some owner) :
    r.frameOf w = ⟨owner, (r.namedMembers owner).drop w.bound.length, w.bound⟩ := by
  rw [Resolver.frameOf, node]
  rfl

/-- The members from one on begin with that one. -/
theorem Resolver.drop_namedMembers {owner : Node} {k : Nat} {m : Member} {name : String}
    (hm : owner.shape.members[k]? = some m)
    (hname : ((r.memberNames owner).map AssignedName.name)[k]? = some name) :
    (r.namedMembers owner).drop k = (m, name) :: (r.namedMembers owner).drop (k + 1) := by
  have hget : (r.namedMembers owner)[k]? = some (m, name) :=
    List.getElem?_zip_eq_some.2 ⟨hm, hname⟩
  obtain ⟨hk, heq⟩ := List.getElem?_eq_some_iff.1 hget
  rw [List.drop_eq_getElem_cons hk, heq]

/-- Without a next member there is nothing to come. -/
theorem Resolver.todo_frameOf {w : OpenWalk} {owner : Node} (node : r.graph.get? w.id = some owner)
    (done : owner.shape.members[w.bound.length]? = none) : (r.frameOf w).todo = [] := by
  rw [Resolver.frameOf_eq node]
  refine List.drop_eq_nil_of_le ?_
  rw [← List.length_map Prod.fst, r.map_fst_namedMembers]
  exact List.getElem?_eq_none_iff.1 done

namespace Context

/-- The session of a context, without the books. -/
def session (r : Resolver) (c : Context) : Session where
  table := c.table
  frames := c.walks.map r.frameOf
  containers := c.containers
  pending := c.pending
  maxDepth := c.maxDepth
  diagnostics := c.diagnostics

@[simp] theorem session_table : (c.session r).table = c.table := rfl

@[simp] theorem session_containers : (c.session r).containers = c.containers := rfl

@[simp] theorem session_pending : (c.session r).pending = c.pending := rfl

theorem session_dequeue :
    c.dequeue.session r = { c.session r with pending := (c.session r).pending.tail } := rfl

theorem session_enter {n : Node} (node : r.graph.get? n.id = some n) :
    (c.enter n (r.memberNames n)).session r = (c.session r).enter n (r.memberNames n) := by
  simp only [session, enter, Session.enter, List.map_cons, Resolver.frameOf, node, List.length_map]
  rfl

/-- Which member comes next is not said in the session, where it is the first one not bound. -/
theorem session_advance : c.advance.session r = c.session r := by
  rw [advance]
  split
  · rfl
  · rename_i w rest top
    simp only [session, top]
    rfl

theorem session_push (b : Binding) : (c.push b).session r = (c.session r).bindNext b := by
  rw [push, Session.bindNext]
  cases top : c.walks with
  | nil => simp only [session, top, List.map_nil]
  | cons w rest =>
    simp only [session, top, List.map_cons, Resolver.frameOf, List.length_append,
      List.length_singleton, List.tail_drop]

theorem session_leave {w : OpenWalk} {rest : List OpenWalk} {owner : Node}
    (top : c.walks = w :: rest) (node : r.graph.get? w.id = some owner) :
    c.leave.session r = (c.session r).leave := by
  have hid : owner.id = w.id := Graph.get?_id node
  simp only [leave, Session.leave, session, top, List.map_cons, Resolver.frameOf_eq node, hid]

theorem session_ofIdle (idle : s.Idle) : (ofIdle s).session r = s := by
  obtain ⟨hframes, hcontainers⟩ := idle
  cases s
  cases hframes
  cases hcontainers
  rfl

end Context

/-! ## How deep walks are nested -/

/-- The records and unions of a graph. -/
def Graph.aggregates (g : Graph) : List Node := g.nodes.toList.filter fun n => n.shape.isAggregate

variable {R : ShapeId → Prop} {s' : Session}

/-- Walks are those of different records and unions. -/
theorem Sound.length_frames_le (h : Sound r R s) : s.frames.length ≤ r.graph.aggregates.length := by
  have hsub : s.frames.map (fun f => f.owner.id) ⊆ r.graph.aggregates.map Node.id := by
    intro id hid
    obtain ⟨f, hf, rfl⟩ := List.mem_map.1 hid
    have hmem : f.owner ∈ r.graph.aggregates :=
      List.mem_filter.2 ⟨Graph.mem_nodes (h.frames f hf).node, (h.frames f hf).aggregate⟩
    exact List.mem_map_of_mem hmem
  have hle := (h.owners.subperm hsub).length_le
  rwa [List.length_map, List.length_map] at hle

/-- No step makes the greatest depth exceed the number of records and unions. -/
theorem Step.maxDepth_le (closed : r.graph.Closed R) (h : Sound r R s) (step : Step r R s s')
    (hle : s.maxDepth ≤ r.graph.aggregates.length) : s'.maxDepth ≤ r.graph.aggregates.length := by
  have hnested := (step.sound closed h).length_frames_le
  cases step with
  | symbol step => cases step <;> exact hle
  | enter => exact max_le hle hnested
  | bind binds => rw [Session.bindNext_of_frames binds.top]; exact hle
  | descend binds =>
    rw [Session.bindNext_of_frames binds.top] at hnested ⊢
    exact max_le hle hnested
  | leave top => rw [Session.leave_of_frames top]; exact hle

/-- Neither does a move. -/
theorem Move.maxDepth_le (closed : r.graph.Closed R) (h : Sound r R s) (move : Move r R s s')
    (hle : s.maxDepth ≤ r.graph.aggregates.length) : s'.maxDepth ≤ r.graph.aggregates.length := by
  cases move with
  | step step => exact step.maxDepth_le closed h hle
  | dequeue => exact hle
  | abandon => exact hle

/-! ## The books -/

theorem Graph.closed_true (g : Graph) : g.Closed fun _ => True := fun _ _ _ _ => trivial

namespace Context

/-- The books agree with the session and with each other. -/
structure Books (r : Resolver) (c : Context) : Prop where
  sound : Sound r (fun _ => True) (c.session r)
  named : ∀ w ∈ c.walks, ∃ owner, r.graph.get? w.id = some owner ∧
    w.names = (r.memberNames owner).map AssignedName.name
  onStack : c.onStack = (c.walks.map OpenWalk.id).toFinset
  outer : ∀ w ∈ c.walks.tail, w.next = w.bound.length
  depth : c.maxDepth ≤ r.graph.aggregates.length

/-- The member that comes next in the innermost walk is just being bound. -/
def AtMember (r : Resolver) (c : Context) (owner : Node) (m : Member) (name : String) : Prop :=
  ∃ w rest, c.walks = w :: rest ∧ r.graph.get? w.id = some owner ∧ w.next = w.bound.length + 1 ∧
    owner.shape.members[w.bound.length]? = some m ∧ w.names[w.bound.length]? = some name

namespace Books

/-- The frames are those of the walks. -/
theorem map_owner (h : c.Books r) :
    ((c.session r).frames.map fun f => f.owner.id) = c.walks.map OpenWalk.id := by
  rw [session, List.map_map]
  refine List.map_congr_left fun w hw => ?_
  obtain ⟨owner, node, -⟩ := h.named w hw
  show (r.frameOf w).owner.id = w.id
  rw [Resolver.frameOf_eq node]
  exact Graph.get?_id node

/-- No shape is walked twice at a time. -/
theorem distinct (h : c.Books r) : (c.walks.map OpenWalk.id).Nodup :=
  h.map_owner ▸ h.sound.owners

theorem unbound (h : c.Books r) {w : OpenWalk} (hw : w ∈ c.walks) :
    c.table.isBound w.id = false := by
  obtain ⟨owner, node, -⟩ := h.named w hw
  have hunbound := (h.sound.frames _ (List.mem_map_of_mem hw)).unbound
  rw [Resolver.frameOf_eq node] at hunbound
  exact Graph.get?_id node ▸ hunbound

/-- The set holds the shapes that are being walked. -/
theorem mem_onStack (h : c.Books r) {id : ShapeId} :
    id ∈ c.onStack ↔ id ∈ c.walks.map OpenWalk.id := by
  rw [h.onStack, List.mem_toFinset]

/-- Every member has a name, so the next one has one. -/
theorem getElem?_names (h : c.Books r) {w : OpenWalk} (hw : w ∈ c.walks) {owner : Node} {k : Nat}
    {m : Member} (node : r.graph.get? w.id = some owner) (next : owner.shape.members[k]? = some m) :
    w.names[k]? = some (w.names.getD k "") := by
  obtain ⟨owner', node', hnames⟩ := h.named w hw
  obtain rfl : owner' = owner := Option.some.inj (node'.symm.trans node)
  obtain ⟨hlt, -⟩ := List.getElem?_eq_some_iff.1 next
  have hlen : k < w.names.length := by
    rw [hnames, List.length_map, r.length_memberNames]
    exact hlt
  rw [List.getD_eq_getElem?_getD, List.getElem?_eq_getElem hlen, Option.getD_some]

/-- The set answers what the stack would. -/
theorem isResolving (h : c.Books r) (id : ShapeId) :
    c.isResolving id = (c.session r).isResolving id := by
  rw [Bool.eq_iff_iff, Context.isResolving, decide_eq_true_iff, h.mem_onStack,
    Session.isResolving_iff, h.map_owner]

/-- A session that goes on without a change to the walks. -/
theorem of_sound (h : c.Books r) (sound : Sound r (fun _ => True) (c'.session r))
    (walks : c'.walks = c.walks) (onStack : c'.onStack = c.onStack)
    (depth : c'.maxDepth = c.maxDepth) : c'.Books r where
  sound := sound
  named := by rw [walks]; exact h.named
  onStack := by rw [walks, onStack]; exact h.onStack
  outer := by rw [walks]; exact h.outer
  depth := depth ▸ h.depth

/-- Entering a record or union keeps the books: it is added to the stack and to the set, and the
walk around it is as far as the members it has bound. -/
theorem enter {n : Node} (h : c.Books r) (node : r.graph.get? n.id = some n)
    (aggregate : n.shape.isAggregate = true) (known : c.table.contains n.id = true)
    (unbound : c.table.isBound n.id = false) (apart : c.isResolving n.id = false)
    (level : ∀ w ∈ c.walks, w.next = w.bound.length) :
    (c.enter n (r.memberNames n)).Books r := by
  rw [h.isResolving] at apart
  have hsound : Sound r (fun _ => True) ((c.enter n (r.memberNames n)).session r) := by
    rw [session_enter node]
    exact h.sound.enter trivial node aggregate known unbound apart
  refine {
    sound := hsound
    named := List.forall_mem_cons.2 ⟨⟨n, node, rfl⟩, h.named⟩
    onStack := ?_
    outer := level
    depth := max_le h.depth ?_ }
  · show insert n.id c.onStack = (n.id :: c.walks.map OpenWalk.id).toFinset
    rw [h.onStack, List.toFinset_cons]
  · have hnested := hsound.length_frames_le
    rwa [session, List.length_map] at hnested

/-- A session in which the innermost walk goes on, as that of the same shape. -/
theorem of_first {w w' : OpenWalk} {rest : List OpenWalk} (h : c.Books r)
    (top : c.walks = w :: rest) (sound : Sound r (fun _ => True) (c'.session r))
    (walks : c'.walks = w' :: rest) (id : w'.id = w.id) (names : w'.names = w.names)
    (onStack : c'.onStack = c.onStack) (depth : c'.maxDepth = c.maxDepth) : c'.Books r where
  sound := sound
  named := by
    have hnamed := h.named
    rw [top, List.forall_mem_cons] at hnamed
    rw [walks, List.forall_mem_cons, id, names]
    exact hnamed
  onStack := by
    rw [walks, onStack, h.onStack, top, List.map_cons, List.map_cons, id]
  outer := by
    have houter := h.outer
    rw [top] at houter
    rw [walks]
    exact houter
  depth := depth ▸ h.depth

/-- Going on to the next member keeps the books, which say nothing of the innermost walk. -/
theorem advance (h : c.Books r) : c.advance.Books r := by
  cases top : c.walks with
  | nil =>
    have hsame : c.advance = c := by rw [Context.advance, top]
    rwa [hsame]
  | cons w rest =>
    have hsound := h.sound
    rw [← session_advance] at hsound
    refine h.of_first top hsound (walks_advance top) rfl rfl ?_ ?_ <;>
      rw [Context.advance, top]

/-- Binding the member that is due keeps the books. -/
theorem push {owner target : Node} {m : Member} {name : String} {symbol : Symbol}
    (h : c.Books r) (binding : c.AtMember r owner m name) (idle : c.containers = [])
    (node : r.graph.get? m.target = some target) (value : target.shape.isValue = true)
    (known : c.table.get? target.id = some symbol) :
    (c.push (r.memberBinding owner m name symbol
      (c.isResolving target.id || m.tags.contains .recursive))).Books r := by
  obtain ⟨w, rest, top, hget, -, hm, hname⟩ := binding
  have hid : target.id = m.target := Graph.get?_id node
  obtain ⟨owner', hget', hnames⟩ := h.named w (top ▸ List.mem_cons_self)
  obtain rfl : owner' = owner := Option.some.inj (hget'.symm.trans hget)
  have hframe := Resolver.frameOf_eq hget
  have binds : Binds r (c.session r) (r.frameOf w) (rest.map r.frameOf) m name target symbol := {
    top := by rw [session, top]; rfl
    next := ⟨_, by rw [hframe]; exact Resolver.drop_namedMembers hm (hnames ▸ hname)⟩
    idle := idle
    node := node
    value := value
    known := hid ▸ known }
  have hsound := h.sound.bindNext binds
  rw [nextBinding, ← session_push, ← h.isResolving, ← hid, hframe] at hsound
  refine h.of_first top hsound (walks_push _ top) rfl rfl ?_ ?_ <;>
    rw [Context.push, top]

/-- Leaving a walk keeps the books: its owner was on the stack once, so it is gone from the set. -/
theorem leave {w : OpenWalk} {rest : List OpenWalk} {owner : Node} (h : c.Books r)
    (top : c.walks = w :: rest) (node : r.graph.get? w.id = some owner)
    (level : w.next = w.bound.length) (done : owner.shape.members[w.next]? = none) :
    c.leave.Books r := by
  have hnamed := h.named
  have honStack := h.onStack
  have houter := h.outer
  have hdistinct := h.distinct
  rw [top] at hnamed honStack houter hdistinct
  have htodo : (r.frameOf w).todo = [] := Resolver.todo_frameOf node (level ▸ done)
  have htop : (c.session r).frames = r.frameOf w :: rest.map r.frameOf := by
    rw [session, top]
    rfl
  have hsound := h.sound.leave htop htodo
  rw [← session_leave top node] at hsound
  revert hsound
  rw [Context.leave, top]
  intro hsound
  refine {
    sound := hsound
    named := (List.forall_mem_cons.1 hnamed).2
    onStack := ?_
    outer := fun k hk => houter k (List.mem_of_mem_tail hk)
    depth := h.depth }
  -- the shape that is left is on the stack once
  have hleft : w.id ∉ (rest.map OpenWalk.id).toFinset := fun hmem =>
    (List.nodup_cons.1 hdistinct).1 (List.mem_toFinset.1 hmem)
  rw [honStack, List.map_cons, List.toFinset_cons]
  exact Finset.erase_insert hleft

/-- Taking a shape from the queue does not touch the books. -/
theorem dequeue (h : c.Books r) : c.dequeue.Books r :=
  h.of_sound { h.sound with pending := fun _ _ => trivial } rfl rfl rfl

theorem abandon (h : c.Books r) : c.abandon.Books r where
  sound := h.sound.abandon
  named := fun _ hw => absurd hw List.not_mem_nil
  onStack := rfl
  outer := fun _ hw => absurd hw List.not_mem_nil
  depth := h.depth

/-- With nothing on the stacks there is nothing to give up. -/
theorem abandon_eq (h : c.Books r) (walks : c.walks = []) (containers : c.containers = []) :
    c.abandon = c := by
  have honStack := h.onStack
  rw [walks] at honStack
  cases c
  cases walks
  cases containers
  cases honStack
  rfl

/-- Between two calls there is nothing in the books. -/
theorem ofIdle (h : Sound r (fun _ => True) s) (idle : s.Idle)
    (depth : s.maxDepth ≤ r.graph.aggregates.length) : (Context.ofIdle s).Books r where
  sound := by rwa [session_ofIdle idle]
  named := fun _ hw => absurd hw List.not_mem_nil
  onStack := rfl
  outer := fun _ hw => absurd hw List.not_mem_nil
  depth := depth

end Books

end Context

end SchemaSymbols
