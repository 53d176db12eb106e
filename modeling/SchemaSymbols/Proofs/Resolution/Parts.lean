/-
  The parts of a resolution that change no session: leaves, collections and names.

  For each part, when it succeeds, what it gives and what it leaves for later.

  1. **Shapes.**  Some references of a shape are followed when its symbol is made: those to elements
     and the links of operations and services.  Those to members are followed by walks.  `parts`
     are the members and elements of a shape, whichever it has.

  2. **Names.**  There is a name for each member, in order, so members and names can be paired
     (`namedMembers`).

  3. **Values.**  A member or element may refer to anything but an operation or a service, and a
     target is refused if it is one of these, or missing (`valueTarget_eq_error`).

  4. **Collections.**  `CollectionOf` lists the symbols that collections get, one constructor for
     each kind of collection.  Both directions are proved once (`collection_eq_ok`), and whatever is
     said of a collection later is read off the cases (`built_of_collection`).  A collection whose
     elements are `Ready` does not fail at all, and it gives the same symbol in a larger table.

  5. **Leaves.**  `LeafOf` does the same for the other shapes.  In a graph without dangling
     references a leaf fails for one reason only, a primitive that the language has no type for
     (`leaf_eq_error`).
-/
import SchemaSymbols.Proofs.Graph.Levels
import SchemaSymbols.Proofs.Outcome
import SchemaSymbols.Proofs.Symbol.Table
import SchemaSymbols.Resolution.Collection
import SchemaSymbols.Resolution.Leaf

namespace SchemaSymbols

/-! ## Shapes -/

namespace Shape

/-- Whether a shape can be the value of a member: it is neither an operation nor a service. -/
def isValue (s : Shape) : Bool := !(s.isOperation || s.isService)

/-- The shapes that an operation or service leads to. -/
def links (s : Shape) : List ShapeId :=
  match s with
  | operation input output errors => input.toList ++ output.toList ++ errors
  | service operations => operations
  | _ => []

/-- What a record, union or collection holds. -/
def parts (s : Shape) : List Member := s.members ++ s.elements

/-- A link of a shape is one of its references. -/
theorem exists_reference_of_mem_links {s : Shape} {id : ShapeId} (h : id ∈ s.links) :
    ∃ r ∈ s.references, r.2 = id := by
  cases s with
  | operation input output errors =>
    simp only [links, List.mem_append] at h
    simp only [references, List.mem_append, List.mem_map]
    rcases h with (h | h) | h
    · exact ⟨(.input, id), Or.inl (Or.inl ⟨id, h, rfl⟩), rfl⟩
    · exact ⟨(.output, id), Or.inl (Or.inr ⟨id, h, rfl⟩), rfl⟩
    · exact ⟨(.error, id), Or.inr ⟨id, h, rfl⟩, rfl⟩
  | service operations => exact ⟨(.operation, id), List.mem_map.2 ⟨id, h, rfl⟩, rfl⟩
  | _ => exact absurd h List.not_mem_nil

/-- A record or union refers to the targets of its members. -/
theorem exists_member_of_mem_references {s : Shape} {r : EdgeKind × ShapeId}
    (hs : s.isAggregate = true) (h : r ∈ s.references) : ∃ m ∈ s.members, m.target = r.2 := by
  cases s with
  | record members =>
    obtain ⟨m, hm, rfl⟩ := List.mem_map.1 h
    exact ⟨m, hm, rfl⟩
  | union members =>
    obtain ⟨m, hm, rfl⟩ := List.mem_map.1 h
    exact ⟨m, hm, rfl⟩
  | _ => cases hs

/-- A collection refers to the targets of its elements. -/
theorem exists_element_of_mem_references {s : Shape} {r : EdgeKind × ShapeId}
    (hs : s.isContainer = true) (h : r ∈ s.references) : ∃ m ∈ s.elements, m.target = r.2 := by
  cases s with
  | list m => exact ⟨m, List.mem_cons_self, by rw [List.mem_singleton.1 h]⟩
  | set m => exact ⟨m, List.mem_cons_self, by rw [List.mem_singleton.1 h]⟩
  | map key value =>
    rcases List.mem_cons.1 h with rfl | h
    · exact ⟨key, List.mem_cons_self, rfl⟩
    · exact ⟨value, List.mem_cons_of_mem _ List.mem_cons_self, by rw [List.mem_singleton.1 h]⟩
  | _ => cases hs

/-- Any other shape refers to its links. -/
theorem mem_links_of_mem_references {s : Shape} {r : EdgeKind × ShapeId}
    (haggregate : s.isAggregate = false) (hcontainer : s.isContainer = false)
    (h : r ∈ s.references) : r.2 ∈ s.links := by
  cases s with
  | operation input output errors =>
    simp only [references, List.mem_append, List.mem_map] at h
    simp only [links, List.mem_append]
    rcases h with (⟨id, hid, rfl⟩ | ⟨id, hid, rfl⟩) | ⟨id, hid, rfl⟩
    · exact Or.inl (Or.inl hid)
    · exact Or.inl (Or.inr hid)
    · exact Or.inr hid
  | service operations =>
    obtain ⟨id, hid, rfl⟩ := List.mem_map.1 h
    exact hid
  | primitive kind => exact absurd h List.not_mem_nil
  | enum values => exact absurd h List.not_mem_nil
  | record members => cases haggregate
  | union members => cases haggregate
  | _ => cases hcontainer

theorem length_links_le (s : Shape) : s.links.length ≤ s.references.length := by
  cases s <;> simp [links, references]

theorem length_elements_le (s : Shape) : s.elements.length ≤ s.references.length := by
  cases s <;> simp [elements, references]

/-- Collections are not declared. -/
theorem isDeclared_eq_false_of_isContainer {s : Shape} (h : s.isContainer = true) :
    s.isDeclared = false := by
  cases s <;> first | rfl | cases h

end Shape

/-! ## Names -/

theorem Namer.length_assignFrom (n : Namer) (casing : Casing) (taken wires : List String) :
    (n.assignFrom casing taken wires).length = wires.length := by
  induction wires generalizing taken with
  | nil => rfl
  | cons wire rest ih =>
    rw [Namer.assignFrom, List.length_cons, ih, List.length_cons]

namespace Resolver

variable {r : Resolver} {t t' : SymbolTable} {n : Node}

theorem length_memberNames (r : Resolver) (n : Node) :
    (r.memberNames n).length = n.shape.members.length := by
  rw [memberNames, Namer.assign, Namer.length_assignFrom, List.length_map]

/-- The members of a record or union, each with its name. -/
def namedMembers (r : Resolver) (n : Node) : List (Member × String) :=
  n.shape.members.zip ((r.memberNames n).map AssignedName.name)

/-- Every member has a name. -/
theorem map_fst_namedMembers (r : Resolver) (n : Node) :
    (r.namedMembers n).map Prod.fst = n.shape.members := by
  refine List.map_fst_zip (Nat.le_of_eq ?_)
  rw [List.length_map, length_memberNames]

/-! ## Values -/

/-- A target is accepted if it is there and is neither an operation nor a service. -/
theorem valueTarget_eq_ok {memberId target : ShapeId} :
    r.valueTarget memberId target = .ok n ↔
      r.graph.get? target = some n ∧ n.shape.isValue = true := by
  rw [valueTarget, Graph.require]
  cases hget : r.graph.get? target with
  | none => simp [bind, Except.bind]
  | some k =>
    -- what is left is the test whether the target is a value
    show (if _ then _ else _) = _ ↔ _
    split
    · rename_i h
      constructor
      · intro e
        cases e
      · rintro ⟨e, hv⟩
        cases e
        rw [Shape.isValue, h] at hv
        cases hv
    · rename_i h
      simp only [Bool.not_eq_true] at h
      constructor
      · intro e
        cases e
        exact ⟨rfl, by rw [Shape.isValue, h]; rfl⟩
      · rintro ⟨e, -⟩
        cases e
        rfl

/-- A target is refused if it is not there, or if it is no value. -/
theorem valueTarget_eq_error {memberId target : ShapeId} {e : Fault}
    (h : r.valueTarget memberId target = .error e) :
    (r.graph.get? target = none ∧ e = .missingShape target) ∨
      ∃ n, r.graph.get? target = some n ∧ n.shape.isValue = false ∧
        e = .unsupportedMemberTarget memberId target n.shape.word := by
  rw [valueTarget, Graph.require] at h
  cases hget : r.graph.get? target with
  | none =>
    rw [hget] at h
    cases h
    exact Or.inl ⟨rfl, rfl⟩
  | some k =>
    rw [hget] at h
    change (if _ then _ else _) = _ at h
    split at h
    · rename_i hv
      cases h
      exact Or.inr ⟨k, rfl, by rw [Shape.isValue, hv]; rfl, rfl⟩
    · cases h

/-! ## Collections -/

/-- A member is ready: its target is a value and has a symbol. -/
def Ready (r : Resolver) (t : SymbolTable) (m : Member) : Prop :=
  ∃ target, r.graph.get? m.target = some target ∧ target.shape.isValue = true ∧
    t.contains m.target = true

/-- The shapes of a list that start a walk of their own. -/
def walked (r : Resolver) (ids : List ShapeId) : List ShapeId := ids.filter r.graph.isAggregate

theorem walked_singleton {id : ShapeId} (h : r.graph.get? id = some n) :
    r.walked [id] = if n.shape.isAggregate then [id] else [] := by
  rw [walked, List.filter_cons, List.filter_nil, Graph.isAggregate_of_get? h]

/-- An element is looked up in the table, and is taken for one that may be null or not. -/
theorem element_eq_ok {container : Node} {m : Member} {nullable : Bool}
    {result : Symbol × List ShapeId} :
    r.element t container m nullable = .ok result ↔
      r.Ready t m ∧ ∃ a, t.get? m.target = some a ∧
        result = (a.atUse nullable none false, r.walked [m.target]) := by
  rw [element, bind_eq_ok]
  constructor
  · rintro ⟨target, htarget, h⟩
    obtain ⟨hget, hvalue⟩ := valueTarget_eq_ok.1 htarget
    rw [Graph.get?_id hget] at h
    cases hsymbol : t.get? m.target with
    | none => rw [hsymbol] at h; cases h
    | some a =>
      rw [hsymbol] at h
      cases h
      exact ⟨⟨target, hget, hvalue, SymbolTable.contains_of_get? hsymbol⟩, a, rfl,
        by rw [walked_singleton hget]⟩
  · rintro ⟨⟨target, hget, hvalue, -⟩, a, hsymbol, rfl⟩
    refine ⟨target, valueTarget_eq_ok.2 ⟨hget, hvalue⟩, ?_⟩
    rw [Graph.get?_id hget, hsymbol, walked_singleton hget]
    rfl

/-- What a collection is made into, one case for each kind of collection: its elements are ready,
and the type and the kind of its symbol come from their symbols as they are used there. -/
inductive CollectionOf (r : Resolver) (t : SymbolTable) (n : Node) : Symbol × List ShapeId → Prop
  | list {m : Member} {a element : Symbol} (shape : n.shape = .list m) (ready : r.Ready t m)
      (found : t.get? m.target = some a) (used : element = a.atUse (isSparse n m) none false) :
      CollectionOf r t n (
        containerSymbol n (r.profile.language.listOf (element.typeExpr r.profile.language))
          (.list element.toSymbolFacts element.kind (isSparse n m)),
        r.walked [m.target])
  | set {m : Member} {a element : Symbol} (shape : n.shape = .set m) (ready : r.Ready t m)
      (found : t.get? m.target = some a) (used : element = a.atUse (isSparse n m) none false) :
      CollectionOf r t n (
        containerSymbol n (r.profile.language.setOf (element.typeExpr r.profile.language))
          (.set element.toSymbolFacts element.kind (isSparse n m)),
        r.walked [m.target])
  | map {key value : Member} {a b k v : Symbol} (shape : n.shape = .map key value)
      (readyKey : r.Ready t key) (foundKey : t.get? key.target = some a)
      (usedKey : k = a.atUse false none false)
      (readyValue : r.Ready t value) (foundValue : t.get? value.target = some b)
      (usedValue : v = b.atUse (isSparse n value) none false) :
      CollectionOf r t n (
        containerSymbol n (r.profile.language.mapOf (k.typeExpr r.profile.language)
            (v.typeExpr r.profile.language))
          (.map k.toSymbolFacts k.kind v.toSymbolFacts v.kind (isSparse n value)),
        r.walked [key.target] ++ r.walked [value.target])

/-- The symbol of a collection is the one that its kind asks for. -/
theorem collection_eq_ok {result : Symbol × List ShapeId} :
    r.collection t n = .ok result ↔ r.CollectionOf t n result := by
  constructor
  · intro h
    obtain ⟨id, shape, tags⟩ := n
    cases shape with
    | list m =>
      obtain ⟨_, hel, hret⟩ := bind_eq_ok.1 h
      obtain ⟨ready, a, ha, rfl⟩ := element_eq_ok.1 hel
      cases hret
      exact .list rfl ready ha rfl
    | set m =>
      obtain ⟨_, hel, hret⟩ := bind_eq_ok.1 h
      obtain ⟨ready, a, ha, rfl⟩ := element_eq_ok.1 hel
      cases hret
      exact .set rfl ready ha rfl
    | map key value =>
      -- the key is looked at first, and what both leave for later is joined
      obtain ⟨_, hkey, hrest⟩ := bind_eq_ok.1 h
      obtain ⟨readyKey, a, ha, rfl⟩ := element_eq_ok.1 hkey
      obtain ⟨_, hvalue, hret⟩ := bind_eq_ok.1 hrest
      obtain ⟨readyValue, b, hb, rfl⟩ := element_eq_ok.1 hvalue
      cases hret
      exact .map rfl readyKey ha rfl readyValue hb rfl
    | _ => cases h
  · intro h
    obtain ⟨id, shape, tags⟩ := n
    cases h with
    | list hshape ready found used =>
      cases hshape
      subst used
      exact bind_eq_ok.2 ⟨_, element_eq_ok.2 ⟨ready, _, found, rfl⟩, rfl⟩
    | set hshape ready found used =>
      cases hshape
      subst used
      exact bind_eq_ok.2 ⟨_, element_eq_ok.2 ⟨ready, _, found, rfl⟩, rfl⟩
    | map hshape readyKey foundKey usedKey readyValue foundValue usedValue =>
      cases hshape
      subst usedKey usedValue
      exact bind_eq_ok.2 ⟨_, element_eq_ok.2 ⟨readyKey, _, foundKey, rfl⟩,
        bind_eq_ok.2 ⟨_, element_eq_ok.2 ⟨readyValue, _, foundValue, rfl⟩, rfl⟩⟩

/-- What is known about a collection that was built: its symbol is that of the node, it is not
    declared, its elements were ready, and those that start a walk are left for later. -/
structure Built (r : Resolver) (t : SymbolTable) (n : Node) (symbol : Symbol)
    (queued : List ShapeId) : Prop where
  shape : symbol.shape = n.id
  file : symbol.file? = none
  isContainer : n.shape.isContainer = true
  queued : queued = r.walked (n.shape.elements.map Member.target)
  ready : ∀ m ∈ n.shape.elements, r.Ready t m

/-- The symbol of a collection is filed under it, declares nothing, and queues the elements that
have members. -/
theorem built_of_collection {symbol : Symbol} {queued : List ShapeId}
    (h : r.collection t n = .ok (symbol, queued)) : r.Built t n symbol queued := by
  obtain ⟨id, shape, tags⟩ := n
  cases collection_eq_ok.1 h with
  | list hshape ready =>
    cases hshape
    exact ⟨rfl, rfl, rfl, rfl, List.forall_mem_singleton.2 ready⟩
  | set hshape ready =>
    cases hshape
    exact ⟨rfl, rfl, rfl, rfl, List.forall_mem_singleton.2 ready⟩
  | map hshape readyKey _ _ readyValue =>
    cases hshape
    exact ⟨rfl, rfl, rfl, (List.filter_append _ _).symm,
      List.forall_mem_cons.2 ⟨readyKey, List.forall_mem_singleton.2 readyValue⟩⟩

theorem exists_symbol_of_ready {m : Member} (h : r.Ready t m) :
    ∃ a, t.get? m.target = some a := by
  obtain ⟨-, -, -, hcontains⟩ := h
  exact SymbolTable.contains_iff.1 hcontains

/-- A collection whose elements are ready can be built. -/
theorem exists_collection (hc : n.shape.isContainer = true)
    (h : ∀ m ∈ n.shape.elements, r.Ready t m) :
    ∃ symbol queued, r.collection t n = .ok (symbol, queued) := by
  obtain ⟨id, shape, tags⟩ := n
  cases shape with
  | list m =>
    have ready := h m List.mem_cons_self
    obtain ⟨a, ha⟩ := exists_symbol_of_ready ready
    exact ⟨_, _, collection_eq_ok.2 (.list rfl ready ha rfl)⟩
  | set m =>
    have ready := h m List.mem_cons_self
    obtain ⟨a, ha⟩ := exists_symbol_of_ready ready
    exact ⟨_, _, collection_eq_ok.2 (.set rfl ready ha rfl)⟩
  | map key value =>
    have readyKey := h key List.mem_cons_self
    have readyValue := h value (List.mem_cons_of_mem _ List.mem_cons_self)
    obtain ⟨a, ha⟩ := exists_symbol_of_ready readyKey
    obtain ⟨b, hb⟩ := exists_symbol_of_ready readyValue
    exact ⟨_, _, collection_eq_ok.2 (.map rfl readyKey ha rfl readyValue hb rfl)⟩
  | _ => cases hc

theorem Ready.extends {m : Member} (h : r.Ready t m) (hext : t'.Extends t) : r.Ready t' m := by
  obtain ⟨target, hget, hvalue, hcontains⟩ := h
  obtain ⟨a, ha⟩ := SymbolTable.contains_iff.1 hcontains
  exact ⟨target, hget, hvalue, SymbolTable.contains_of_get? (hext _ _ ha)⟩

/-- A collection that can be built looks the same in every larger table. -/
theorem collection_extends {result : Symbol × List ShapeId}
    (h : r.collection t n = .ok result) (hext : t'.Extends t) :
    r.collection t' n = .ok result := by
  refine collection_eq_ok.2 ?_
  cases collection_eq_ok.1 h with
  | list hshape ready found used =>
    exact .list hshape (ready.extends hext) (hext _ _ found) used
  | set hshape ready found used =>
    exact .set hshape (ready.extends hext) (hext _ _ found) used
  | map hshape readyKey foundKey usedKey readyValue foundValue usedValue =>
    exact .map hshape (readyKey.extends hext) (hext _ _ foundKey) usedKey
      (readyValue.extends hext) (hext _ _ foundValue) usedValue

/-! ## Leaves -/

/-- The leaf of a node, one case for each kind of shape that has one. -/
inductive LeafOf (r : Resolver) (n : Node) : Leaf → Prop
  | primitive {kind : PrimitiveKind} {type : String} (shape : n.shape = .primitive kind)
      (mapped : r.profile.primitiveType? kind = some type) :
      LeafOf r n { symbol := {
        shape := n.id, displayName := type, nullable := (r.profile.zeroLiteral? kind).isNone
        default? := r.profile.zeroLiteral? kind, kind := .builtin kind } }
  | record {members : List Member} (shape : n.shape = .record members) :
      LeafOf r n { symbol := r.declaredSymbol n .record, remarks := r.nameRemarks n }
  | union {members : List Member} {fallback : String} (shape : n.shape = .union members)
      (named : fallback =
        r.namer.fallback r.fallbackVariant ((r.memberNames n).map AssignedName.name)) :
      LeafOf r n {
        symbol := r.declaredSymbol n (.union fallback)
        remarks := r.fallbackRemarks n fallback ++ r.nameRemarks n }
  | enum {values : List EnumValue} {names : List AssignedName} {fallback : String}
      (shape : n.shape = .enum values)
      (assigned : names = r.namer.assign r.profile.variantCasing (values.map EnumValue.name))
      (named : fallback = r.namer.fallback r.fallbackVariant (names.map AssignedName.name)) :
      LeafOf r n {
        symbol := r.declaredSymbol n (.enum (names.zipWith (⟨·.name, ·.value⟩) values) fallback)
        remarks := names.flatMap (AssignedName.remarks n.id) ++ r.fallbackRemarks n fallback
          ++ r.nameRemarks n }
  | operation {input output : Option ShapeId} {errors : List ShapeId}
      {inputRef outputRef : Option SymbolRef} {errorRefs : List SymbolRef}
      (shape : n.shape = .operation input output errors)
      (inputLinked : input.mapM r.linked = .ok inputRef)
      (outputLinked : output.mapM r.linked = .ok outputRef)
      (errorsLinked : errors.mapM r.linked = .ok errorRefs) :
      LeafOf r n {
        symbol := r.plainSymbol n (.operation inputRef outputRef errorRefs)
        queued := input.toList ++ output.toList ++ errors }
  | service {operations : List ShapeId} {refs : List SymbolRef}
      (shape : n.shape = .service operations) (linked : operations.mapM r.linked = .ok refs) :
      LeafOf r n {
        symbol := r.plainSymbol n (.service refs), remarks := r.nameRemarks n
        queued := operations }

/-- The symbol of a leaf is the one that its kind asks for. -/
theorem leafOf_of_leaf {leaf : Leaf} (h : r.leaf n = .ok leaf) : r.LeafOf n leaf := by
  obtain ⟨id, shape, tags⟩ := n
  cases shape with
  | primitive kind =>
    obtain ⟨symbol, hsymbol, hret⟩ := bind_eq_ok.1 h
    cases hret
    rw [primitiveSymbol] at hsymbol
    split at hsymbol
    · cases hsymbol
    · rename_i type htype
      cases hsymbol
      exact .primitive rfl htype
  | record members => cases h; exact .record rfl
  | union members => cases h; exact .union rfl rfl
  | enum values => cases h; exact .enum rfl rfl rfl
  | operation input output errors =>
    obtain ⟨_, hinput, h⟩ := bind_eq_ok.1 h
    obtain ⟨_, houtput, h⟩ := bind_eq_ok.1 h
    obtain ⟨_, herrors, hret⟩ := bind_eq_ok.1 h
    cases hret
    exact .operation rfl hinput houtput herrors
  | service operations =>
    obtain ⟨_, hrefs, hret⟩ := bind_eq_ok.1 h
    cases hret
    exact .service rfl hrefs
  | _ => cases h

/-- What is known about a leaf that was made: its symbol is that of the node, only a record, union
    or enumeration has a declaration, under the name that its node gives it, and the shapes that an
    operation or service leads to are left for later. -/
structure Made (r : Resolver) (n : Node) (leaf : Leaf) : Prop where
  shape : leaf.symbol.shape = n.id
  isContainer : n.shape.isContainer = false
  declared : leaf.symbol.isDeclared = n.shape.isDeclared
  scope : n.shape.isDeclared = true → leaf.symbol.scope = r.scopeOf n
  name : n.shape.isDeclared = true → leaf.symbol.displayName = r.namer.typeName n.id.name
  queued : leaf.queued = n.shape.links

/-- The symbol of a leaf is filed under it, and queues what it links to. -/
theorem made_of_leaf {leaf : Leaf} (h : r.leaf n = .ok leaf) : r.Made n leaf := by
  obtain ⟨id, shape, tags⟩ := n
  cases leafOf_of_leaf h with
  | primitive hshape => cases hshape; exact ⟨rfl, rfl, rfl, nofun, nofun, rfl⟩
  | operation hshape => cases hshape; exact ⟨rfl, rfl, rfl, nofun, nofun, rfl⟩
  | service hshape => cases hshape; exact ⟨rfl, rfl, rfl, nofun, nofun, rfl⟩
  | record hshape => cases hshape; exact ⟨rfl, rfl, rfl, fun _ => rfl, fun _ => rfl, rfl⟩
  | union hshape => cases hshape; exact ⟨rfl, rfl, rfl, fun _ => rfl, fun _ => rfl, rfl⟩
  | enum hshape => cases hshape; exact ⟨rfl, rfl, rfl, fun _ => rfl, fun _ => rfl, rfl⟩

theorem exists_linked {id : ShapeId} (h : r.graph.contains id = true) :
    ∃ reference, r.linked id = .ok reference := by
  obtain ⟨n, hn⟩ := Graph.contains_iff.1 h
  exact ⟨r.reference n, bind_eq_ok.2 ⟨n, Graph.require_of_get? hn, rfl⟩⟩

/-- If no link dangles, a leaf fails only for a primitive without a type. -/
theorem leaf_eq_error {e : Fault} (hlinks : ∀ id ∈ n.shape.links, r.graph.contains id = true)
    (hc : n.shape.isContainer = false) (h : r.leaf n = .error e) :
    ∃ kind, n.shape = .primitive kind ∧ r.profile.primitiveType? kind = none ∧
      e = .unmappedPrimitive n.id kind r.profile.language := by
  obtain ⟨id, shape, tags⟩ := n
  cases shape with
  | primitive kind =>
    refine ⟨kind, rfl, ?_⟩
    change (r.primitiveSymbol _ kind >>= _) = _ at h
    rw [primitiveSymbol] at h
    cases htype : r.profile.primitiveType? kind with
    | none => rw [htype] at h; cases h; exact ⟨rfl, rfl⟩
    | some type => rw [htype] at h; cases h
  | operation input output errors =>
    -- all three groups of links are there, so the leaf is made
    have hin := exists_option_mapM_eq_ok (f := r.linked) fun id hid => exists_linked
      (hlinks id (List.mem_append_left _ (List.mem_append_left _ (Option.mem_toList.2 hid))))
    have hout := exists_option_mapM_eq_ok (f := r.linked) fun id hid => exists_linked
      (hlinks id (List.mem_append_left _ (List.mem_append_right _ (Option.mem_toList.2 hid))))
    have herr := exists_mapM_eq_ok (f := r.linked) fun id hid => exists_linked
      (hlinks id (List.mem_append_right _ hid))
    obtain ⟨_, hin⟩ := hin
    obtain ⟨_, hout⟩ := hout
    obtain ⟨_, herr⟩ := herr
    have hok : ∃ leaf, r.leaf ⟨id, .operation input output errors, tags⟩ = .ok leaf :=
      ⟨_, bind_eq_ok.2 ⟨_, hin, bind_eq_ok.2 ⟨_, hout, bind_eq_ok.2 ⟨_, herr, rfl⟩⟩⟩⟩
    obtain ⟨leaf, hleaf⟩ := hok
    rw [hleaf] at h
    cases h
  | service operations =>
    obtain ⟨_, hops⟩ := exists_mapM_eq_ok (f := r.linked) fun id hid =>
      exists_linked (hlinks id hid)
    have hok : ∃ leaf, r.leaf ⟨id, .service operations, tags⟩ = .ok leaf :=
      ⟨_, bind_eq_ok.2 ⟨_, hops, rfl⟩⟩
    obtain ⟨leaf, hleaf⟩ := hok
    rw [hleaf] at h
    cases h
  | record members => cases h
  | union members => cases h
  | enum values => cases h
  | _ => cases hc

end Resolver

end SchemaSymbols
