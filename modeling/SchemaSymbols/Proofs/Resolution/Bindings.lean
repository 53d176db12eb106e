/-
  Bound members are faithful to the declared ones.

  Walks of different owners are interleaved: a member may lead into another record, and what its own
  owner has bound so far waits below on the stack.

  1. **The invariant** (`Session.Faithful`) is that in each walk the declared members, with the
     names that they were assigned, are split into those that are done and those to come, and that
     the bindings so far are those of the members done, one by one.  A step changes the innermost
     walk only, and a walk that leaves files what it has.

  2. **Symbols stay.**  A binding holds a copy of the symbol that its target had when it was bound.
     The copy stays right because symbols are canonical: whatever is filed for the target later on
     is the same symbol (`Session.Canonical.extends`).  So nothing has to be known about the graph,
     nor about how the calls ended (`keeps_faithful`).

  3. **What a binding tells about its member** is listed in `Binding.Faithful`: its identifier and
     wire name, whether it is sensitive, nullable or boxed, and its default.  The default of a type
     is the zero literal of a primitive and of nothing else (`Graph.default?_of_canonical`).

  `bindings_faithful_after_calls` states it position by position, after any calls.
-/
import SchemaSymbols.Proofs.Resolution.Canonical

namespace SchemaSymbols

variable {g : Graph} {p : Profile} {o : ResolverOptions} {policy : NullabilityPolicy}
  {r : Resolver} {s s' : Session} {t t' : SymbolTable} {id : ShapeId}

/-! ## Symbols stay -/

/-- If no symbol is lost between canonical sessions, all stay what they are. -/
theorem Session.Canonical.extends (h : s.Canonical g p o) (h' : s'.Canonical g p o)
    (kept : ∀ id, s.table.contains id = true → s'.table.contains id = true) :
    s'.table.Extends s.table := by
  intro id a hget
  obtain ⟨b, hget'⟩ := SymbolTable.contains_iff.1 (kept id (SymbolTable.contains_of_get? hget))
  have hsame : some a = some b := (h.canonical hget).symm.trans (h'.canonical hget')
  rw [hget', hsame]

/-! ## The invariant -/

/-- The bindings in the table are those of all members of their owners, and the walks are on the way
there. -/
structure Session.Faithful (r : Resolver) (s : Session) : Prop where
  members : ∀ id bindings, s.table.members? id = some bindings → r.BoundAll s.table id bindings
  frames : ∀ f ∈ s.frames, f.Faithful r s.table

namespace Session.Faithful

theorem new : Session.Faithful r {} where
  members := fun _ _ hget => nomatch hget
  frames := fun _ hf => absurd hf List.not_mem_nil

/-- A larger table with the same bindings does the walks no harm. -/
theorem of_extends (h : s.Faithful r) (hext : s'.table.Extends s.table)
    (hbindings : s'.table.bindings = s.table.bindings) (hframes : s'.frames = s.frames) :
    s'.Faithful r where
  members := by
    intro id bindings hget
    rw [SymbolTable.members?, hbindings] at hget
    exact (h.members id bindings hget).extends hext
  frames := by
    intro f hf
    rw [hframes] at hf
    exact (h.frames f hf).of_extends hext

/-- A walk begins with all members to come. -/
theorem enter {n : Node} (h : s.Faithful r) (node : r.graph.get? n.id = some n)
    (aggregate : n.shape.isAggregate = true) (known : s.table.contains n.id = true) :
    (s.enter n (r.memberNames n)).Faithful r where
  members := h.members
  frames := by
    intro f hf
    rcases List.mem_cons.1 hf with rfl | hf
    · exact ⟨node, aggregate, known, [], rfl, .nil⟩
    · exact h.frames f hf

/-- The next member is done, with its binding, and the others are as far as they were. -/
theorem bindNext {f : Frame} {rest : List Frame} {m : Member} {name : String}
    {todo : List (Member × String)} {target : Node} {symbol : Symbol} (h : s.Faithful r)
    (top : s.frames = f :: rest) (next : f.todo = (m, name) :: todo)
    (node : r.graph.get? m.target = some target) (value : target.shape.isValue = true)
    (known : s.table.get? m.target = some symbol) :
    (s.bindNext (nextBinding r s f m name symbol)).Faithful r := by
  have hframes := h.frames
  rw [top] at hframes
  rw [Session.bindNext_of_frames top]
  refine { members := h.members, frames := ?_ }
  intro k hk
  rcases List.mem_cons.1 hk with rfl | hk
  · have hf := hframes f List.mem_cons_self
    exact hf.advance next (boundTo_nextBinding node value known)
  · exact hframes k (List.mem_cons_of_mem _ hk)

/-- A walk leaves with the bindings of all members. -/
theorem leave {f : Frame} {rest : List Frame} (h : s.Faithful r) (top : s.frames = f :: rest)
    (done : f.todo = []) : s.leave.Faithful r := by
  have hframes := h.frames
  rw [top] at hframes
  have hf := hframes f List.mem_cons_self
  rw [Session.leave_of_frames top]
  refine { members := ?_, frames := ?_ }
  · intro id bindings hget
    rw [SymbolTable.members?_bind] at hget
    split at hget
    · rename_i hid
      cases hget
      exact hid ▸ hf.boundAll done
    · exact h.members id bindings hget
  · intro k hk
    exact (hframes k (List.mem_cons_of_mem _ hk)).of_extends SymbolTable.Extends.rfl

end Session.Faithful

/-- Nothing a resolution does harms the bindings, as long as symbols are canonical. -/
theorem keeps_faithful (g : Graph) (p : Profile) (policy : NullabilityPolicy)
    (o : ResolverOptions) :
    (Resolver.new g p policy o).Keeps fun s =>
      s.Canonical g p o ∧ s.Faithful (Resolver.new g p policy o) where
  leaf := by
    rintro s n leaf ⟨hcanonical, hfaithful⟩ node - made
    have hcanonical' := hcanonical.addLeaf node made
    have hext := hcanonical.extends hcanonical' fun id hid =>
      SymbolTable.contains_addSymbol.2 (Or.inr hid)
    exact ⟨hcanonical', hfaithful.of_extends hext rfl rfl⟩
  opened := fun _ h => ⟨h.1, h.2.of_extends SymbolTable.Extends.rfl rfl rfl⟩
  closed := by
    rintro s n symbol queued ⟨hcanonical, hfaithful⟩ node built
    have hcanonical' := hcanonical.closeContainer node built
    have hext := hcanonical.extends hcanonical' fun id hid =>
      SymbolTable.contains_addSymbol.2 (Or.inr hid)
    exact ⟨hcanonical', hfaithful.of_extends hext rfl rfl⟩
  entered := fun h node aggregate known => ⟨h.1, h.2.enter node aggregate known⟩
  bound := fun h top next node value known =>
    ⟨h.1.bindNext _, h.2.bindNext top next node value known⟩
  left := fun h top done => ⟨h.1.leave, h.2.leave top done⟩
  dequeued := fun _ h => ⟨h.1, h.2.of_extends SymbolTable.Extends.rfl rfl rfl⟩
  abandoned := fun h => ⟨h.1, h.2.members, fun _ hf => absurd hf List.not_mem_nil⟩

/-! ## What a binding tells about its member -/

/-- The default that a shape has of its own: the zero literal of a primitive, if the language has
one. -/
def Graph.zeroDefault? (g : Graph) (p : Profile) (id : ShapeId) : Option String :=
  match (g.get? id).map Node.shape with
  | some (.primitive kind) => p.zeroLiteral? kind
  | _ => none

/-- The binding of a member of a record or union, under its name, where the member's target has a
symbol of its own. -/
structure Binding.Faithful (policy : NullabilityPolicy) (owner : Node) (m : Member)
    (name : String) (target : Symbol) (b : Binding) : Prop where
  id : b.id = owner.id.withMember m.name
  wireName : b.wireName = m.name
  name : b.name = name
  sensitive : b.sensitive = m.tags.contains .sensitive
  /-- The symbol is that of the target, apart from what depends on the use. -/
  symbol : b.symbol = { target with
    nullable := b.symbol.nullable, default? := b.symbol.default?, boxed := b.symbol.boxed }
  /-- A variant of a union is there or not, and has no default. -/
  variant : owner.shape.isUnion = true → b.symbol.nullable = false ∧ b.symbol.default? = none
  nullable : owner.shape.isUnion = false → b.symbol.nullable =
    ((!m.tags.contains .required && (TagSet.default? m.tags).isNone) || policy owner m)
  default? : owner.shape.isUnion = false → b.symbol.default? =
    match TagSet.default? m.tags with
    | some literal => some literal
    | none => if b.symbol.nullable then none else target.default?
  boxed : m.tags.contains .recursive = true → b.symbol.boxed = true

/-- The binding that a member gets tells all of this about it. -/
theorem Resolver.faithful_memberBinding (owner : Node) (m : Member) (name : String)
    (target : Symbol) {boxed : Bool} (tagged : m.tags.contains .recursive = true → boxed = true) :
    (r.memberBinding owner m name target boxed).Faithful r.policy owner m name target := by
  have hsymbol : (r.memberBinding owner m name target boxed).symbol =
      if owner.shape.isUnion then target.atUse false none boxed
      else target.atUse (r.policy.makesNullable owner m)
        (memberDefault? m target (r.policy.makesNullable owner m)) boxed := rfl
  exact {
    id := rfl
    wireName := rfl
    name := rfl
    sensitive := rfl
    symbol := by
      rw [hsymbol]
      split
      · rfl
      · rfl
    variant := by
      intro hunion
      rw [hsymbol, if_pos hunion]
      exact ⟨rfl, rfl⟩
    nullable := by
      intro hrecord
      rw [hsymbol, hrecord]
      rfl
    default? := by
      intro hrecord
      rw [hsymbol, hrecord]
      rfl
    boxed := by
      intro htag
      rw [hsymbol]
      split
      · exact tagged htag
      · exact tagged htag }

/-! ## Own defaults -/

/-- A leaf has a default if it is a primitive with a zero literal. -/
theorem Resolver.default?_of_leaf {n : Node} {leaf : Leaf} (h : r.leaf n = .ok leaf) :
    leaf.symbol.default? =
      match n.shape with
      | .primitive kind => r.profile.zeroLiteral? kind
      | _ => none := by
  cases leafOf_of_leaf h with
  | primitive shape => rw [shape]
  | record shape => rw [shape]; rfl
  | union shape => rw [shape]; rfl
  | enum shape => rw [shape]; rfl
  | operation shape => rw [shape]; rfl
  | service shape => rw [shape]; rfl

/-- The default of a symbol is the zero literal, or there is none. -/
theorem Graph.default?_of_canonical {a : Symbol} (h : g.canonical p o id = some a) :
    a.default? = g.zeroDefault? p id := by
  have hcases := g.leaf_or_collection_of_canonical (NullabilityMode.policy .structural) h
  obtain ⟨n, hn, ⟨leaf, hleaf, rfl⟩ | ⟨hcontainer, -, ha⟩⟩ := hcases
  · rw [Resolver.default?_of_leaf hleaf, zeroDefault?, hn]
    obtain ⟨id, shape, tags⟩ := n
    cases shape with
    | _ => rfl
  · rw [ha, zeroDefault?, hn]
    obtain ⟨id, shape, tags⟩ := n
    cases shape with
    | primitive kind => cases hcontainer
    | _ => rfl

/-! ## After any calls -/

/-- Bindings that follow the members of their owner, with the symbols of a table. -/
theorem Resolver.BoundAll.faithful {bindings : List Binding} (h : r.BoundAll t id bindings) :
    ∃ owner, r.graph.get? id = some owner ∧ owner.shape.isAggregate = true ∧
      bindings.length = owner.shape.members.length ∧
      ∀ (i : Nat) (m : Member) (b : Binding), owner.shape.members[i]? = some m →
        bindings[i]? = some b → ∃ assigned target, (r.memberNames owner)[i]? = some assigned ∧
          t.get? m.target = some target ∧
          b.Faithful r.policy owner m assigned.name target := by
  obtain ⟨owner, hget, haggregate, -, hall⟩ := h
  have hlength : bindings.length = owner.shape.members.length := by
    rw [← hall.length_eq, ← r.map_fst_namedMembers, List.length_map]
  refine ⟨owner, hget, haggregate, hlength, ?_⟩
  intro i m b hm hb
  -- a member stands where its name and its binding stand
  obtain ⟨hi, hm'⟩ := List.getElem?_eq_some_iff.1 hm
  have hnames : i < (r.memberNames owner).length := by
    rw [r.length_memberNames]
    exact hi
  obtain ⟨hib, hb'⟩ := List.getElem?_eq_some_iff.1 hb
  have hnamed : i < (r.namedMembers owner).length := by
    rw [hall.length_eq]
    exact hib
  have hbound := hall.get hnamed hib
  have hpair : (r.namedMembers owner).get ⟨i, hnamed⟩ = (m, (r.memberNames owner)[i].name) := by
    simp only [namedMembers, List.get_eq_getElem, List.getElem_zip, List.getElem_map, hm']
  rw [hpair] at hbound
  obtain ⟨target, symbol, boxed, -, -, hsymbol, htag, hbinding⟩ := hbound
  refine ⟨_, symbol, List.getElem?_eq_getElem hnames, hsymbol, ?_⟩
  have hbinding' : b = r.memberBinding owner m (r.memberNames owner)[i].name symbol boxed := by
    rw [← hb']
    exact hbinding
  rw [hbinding']
  exact faithful_memberBinding owner m _ symbol htag

/-- The name of a binding is one that was assigned to the members of its owner. -/
theorem Resolver.BoundAll.exists_assigned {bindings : List Binding} {b : Binding}
    (h : r.BoundAll t id bindings) (hb : b ∈ bindings) :
    ∃ owner, ∃ assigned ∈ r.memberNames owner, b.name = assigned.name := by
  obtain ⟨owner, -, -, hlength, hall⟩ := h.faithful
  obtain ⟨i, hi, hb⟩ := List.getElem_of_mem hb
  rw [hlength] at hi
  obtain ⟨assigned, target, hassigned, -, hfaithful⟩ :=
    hall i _ b (List.getElem?_eq_getElem hi) (List.getElem?_eq_some_iff.2 ⟨_, hb⟩)
  exact ⟨owner, assigned, List.mem_of_getElem? hassigned, hfaithful.name⟩

/-- Bound members are faithful to the declared ones.  After any calls, whether they ended well or
    failed, what is bound is a record or union of the graph, and its bindings are those of its
    members, one by one and in the order of declaration.  A binding has the identifier of its
    member, the name in the schema, the name that was assigned at this place, and the symbol of the
    member's target, in which nothing is replaced but nullability, default and box.  The default
    that a member takes over from its target is that of a primitive; no other symbol has one. -/
theorem bindings_faithful_after_calls (g : Graph) (p : Profile) (policy : NullabilityPolicy)
    (o : ResolverOptions) (calls : List Call) :
    let r := Resolver.new g p policy o
    let t := (r.after calls).table
    (∀ id bindings, t.members? id = some bindings →
      ∃ owner, g.get? id = some owner ∧ owner.id = id ∧ owner.shape.isAggregate = true ∧
        bindings.length = owner.shape.members.length ∧
        ∀ (i : Nat) (m : Member) (b : Binding), owner.shape.members[i]? = some m →
          bindings[i]? = some b →
            let casing := if owner.shape.isUnion then p.variantCasing else p.memberCasing
            let names := r.namer.assign casing (owner.shape.members.map Member.name)
            ∃ assigned target, names[i]? = some assigned ∧ t.get? m.target = some target ∧
              b.Faithful policy owner m assigned.name target) ∧
    ∀ id a, t.get? id = some a → a.default? = g.zeroDefault? p id := by
  intro r t
  obtain ⟨hcanonical, hfaithful⟩ := (keeps_faithful g p policy o).after ⟨.new, .new⟩ calls
  constructor
  · intro id bindings hmembers
    have hbound := hfaithful.members id bindings hmembers
    obtain ⟨owner, hget, haggregate, hlength, hall⟩ := hbound.faithful
    exact ⟨owner, hget, Graph.get?_id hget, haggregate, hlength, hall⟩
  · intro id a hget
    exact Graph.default?_of_canonical (hcanonical.canonical hget)

/-! ## A bakery -/

namespace Bakery

/-- The identifier of a shape of the bakery. -/
def shape (name : String) : ShapeId := ⟨"bakery", name, none⟩

/-- A cake has a filling, in which there can be another cake. -/
def cake : Node where
  id := shape "Cake"
  shape := .record
    [ ⟨"Name", shape "Text", Sorted.ofList [.required]⟩,
      ⟨"name", shape "Text", Sorted.ofList [.sensitive]⟩,
      ⟨"pieces", shape "Count", Sorted.ofList [.default "8"]⟩,
      ⟨"price", shape "Count", Sorted.ofList [.required]⟩,
      ⟨"filling", shape "Filling", Sorted.ofList [.required, .recursive]⟩ ]
  tags := .empty

/-- What can be in a cake: cream, or another cake. -/
def filling : List Member :=
  [ ⟨"cream", shape "Text", Sorted.ofList [.default "milk"]⟩, ⟨"cake", shape "Cake", .empty⟩ ]

/-- A box holds a cake and a shop, for which it is refused. -/
def nodes : List Node :=
  [ ⟨shape "Text", .primitive .string, .empty⟩,
    ⟨shape "Count", .primitive .integer, .empty⟩,
    cake,
    ⟨shape "Filling", .union filling, .empty⟩,
    ⟨shape "Shop", .service [], .empty⟩,
    ⟨shape "Box", .record [⟨"cake", shape "Cake", .empty⟩, ⟨"shop", shape "Shop", .empty⟩],
      .empty⟩ ]

/-- The bakery, seen through a target language. -/
def resolver : Resolver := .new (.ofNodesD nodes) .swift (NullabilityMode.policy .structural) {}

/-- What is bound after a box was called for: names, nullability, defaults and boxes. -/
def bound (name : String) : List (String × Bool × Option String × Bool) :=
  let bindings := (resolver.after [.shape (shape "Box")]).table.members? (shape name)
  (bindings.getD []).map fun b =>
    (b.name, b.symbol.nullable, b.symbol.default?, b.symbol.boxed)

/-- The names that the members of a cake get. -/
def names : List String :=
  (resolver.namer.assign Profile.swift.memberCasing (cake.shape.members.map Member.name)).map
    AssignedName.name

end Bakery

/-- Boxes are refused, but the cake in them was bound by then: two of its names would have been the
same, its price is zero if nothing is said, and its filling is boxed, as is the cake inside it. -/
theorem bakery_bindings_faithful :
    (Bakery.resolver.call (.shape (Bakery.shape "Box"))).endsWell {} = false ∧
    ["Box", "Cake", "Filling"].map Bakery.bound =
      [ [],
        [ ("name", false, some "\"\"", false), ("name2", true, none, false),
          ("pieces", false, some "8", false), ("price", false, some "0", false),
          ("filling", false, none, true) ],
        [("cream", false, none, false), ("cake", false, none, true)] ] ∧
    ∃ bindings, (Bakery.resolver.after [.shape (Bakery.shape "Box")]).table.members?
        (Bakery.shape "Cake") = some bindings ∧
      bindings.length = 5 ∧
      ∀ (i : Nat) (m : Member) (b : Binding), Bakery.cake.shape.members[i]? = some m →
        bindings[i]? = some b → ∃ name target, Bakery.names[i]? = some name ∧
          (Bakery.resolver.after [.shape (Bakery.shape "Box")]).table.get? m.target = some target ∧
          b.Faithful (NullabilityMode.policy .structural) Bakery.cake m name target ∧
          target.default? = (Graph.ofNodesD Bakery.nodes).zeroDefault? .swift m.target := by
  have hisBound : (Bakery.resolver.after [.shape (Bakery.shape "Box")]).table.isBound
      (Bakery.shape "Cake") = true := by decide +kernel
  have hget : (Graph.ofNodesD Bakery.nodes).get? (Bakery.shape "Cake") = some Bakery.cake := by
    decide +kernel
  obtain ⟨hfaithful, hdefault⟩ := bindings_faithful_after_calls (.ofNodesD Bakery.nodes) .swift
    (NullabilityMode.policy .structural) {} [.shape (Bakery.shape "Box")]
  obtain ⟨bindings, hmembers⟩ := SymbolTable.isBound_iff.1 hisBound
  obtain ⟨owner, howner, -, -, hlength, hall⟩ := hfaithful (Bakery.shape "Cake") bindings hmembers
  obtain rfl : Bakery.cake = owner := Option.some.inj (hget.symm.trans howner)
  refine ⟨by decide +kernel, by decide +kernel, bindings, hmembers, hlength, ?_⟩
  intro i m b hm hb
  obtain ⟨assigned, target, hassigned, htarget, hbinding⟩ := hall i m b hm hb
  have hname : Bakery.names[i]? = some assigned.name := by
    rw [Bakery.names, List.getElem?_map]
    exact congrArg (Option.map AssignedName.name) hassigned
  exact ⟨assigned.name, target, hname, htarget, hbinding, hdefault m.target target htarget⟩

end SchemaSymbols
