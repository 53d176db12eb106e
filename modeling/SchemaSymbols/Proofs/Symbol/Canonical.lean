/-
  Canonical symbols: what the symbol of a shape is, apart from any resolution.

  1. **The recursion.**  `Graph.canonical` goes down through collections by plain recursion; it
     knows no table, no stack and no queue, and where collections only hold each other it has no
     value.  The symbol of a collection is put together here anew from those of its elements
     (`canonicalFrom`), so that comparing it with what a resolution does says something.

  2. **The bound does not show.**  Lean wants a bound on the recursion.  The number of shapes is
     enough: as long as one step more finds something, it finds a new shape
     (`length_foundWithin_lt`), so after that many steps nothing changes any more (`canonical_eq`).

  3. **Leaves and collections.**  A leaf, and a collection of a table whose elements have canonical
     symbols, get their canonical symbols from a resolver (`canonicalFrom_of_leaf`,
     `canonicalFrom_of_collection`), whatever its policy is.

  4. **What a symbol looks at.**  Outside collections a symbol has no other symbol in it.  It looks
     at other nodes only to refer to them, and `canonical_congr` says which ones these are
     (`LooksAt`).
-/
import SchemaSymbols.Proofs.Resolution.Parts

namespace SchemaSymbols

open Relation

variable {g g' : Graph} {p : Profile} {o : ResolverOptions} {policy : NullabilityPolicy} {n : Node}
  {id y : ShapeId}

/-- Whether a symbol is that of a collection. -/
def SymbolKind.isCollection : SymbolKind → Bool
  | .list _ _ _ => true
  | .set _ _ _ => true
  | .map _ _ _ _ _ => true
  | _ => false

/-! ## The recursion -/

namespace Graph

/-- The symbol of a shape, given the symbols that the elements of a collection have.  A collection
embeds these: an element or value may be null if it or the collection is tagged so, a key never, and
the type wraps the types of these.  Any other shape has the symbol that its node gets by itself, in
which there is no other symbol; no policy has a say in it. -/
def canonicalFrom (g : Graph) (p : Profile) (o : ResolverOptions)
    (element? : ShapeId → Option Symbol) (id : ShapeId) : Option Symbol := do
  let n ← g.get? id
  let l := p.language
  match n.shape with
  | .list m =>
    let sparse := m.tags.contains .elementNullable || n.tags.contains .elementNullable
    let element := (← element? m.target).atUse sparse none false
    return {
      shape := id, displayName := l.listOf (element.typeExpr l), nullable := true
      kind := .list element.toSymbolFacts element.kind sparse }
  | .set m =>
    let sparse := m.tags.contains .elementNullable || n.tags.contains .elementNullable
    let element := (← element? m.target).atUse sparse none false
    return {
      shape := id, displayName := l.setOf (element.typeExpr l), nullable := true
      kind := .set element.toSymbolFacts element.kind sparse }
  | .map k v =>
    let sparse := v.tags.contains .elementNullable || n.tags.contains .elementNullable
    let key := (← element? k.target).atUse false none false
    let value := (← element? v.target).atUse sparse none false
    return {
      shape := id, displayName := l.mapOf (key.typeExpr l) (value.typeExpr l), nullable := true
      kind := .map key.toSymbolFacts key.kind value.toSymbolFacts value.kind sparse }
  | _ =>
    let r := Resolver.new g p (NullabilityMode.policy .structural) o
    (r.leaf n).toOption.map Leaf.symbol

/-- The symbol of a shape under which collections are nested less than so deep. -/
def canonicalWithin (g : Graph) (p : Profile) (o : ResolverOptions) : Nat → ShapeId → Option Symbol
  | 0, _ => none
  | steps + 1, id => g.canonicalFrom p o (g.canonicalWithin p o steps) id

/-- The symbol of a shape.  Collections that are nested deeper than there are shapes hold each
other. -/
def canonical (g : Graph) (p : Profile) (o : ResolverOptions) (id : ShapeId) : Option Symbol :=
  g.canonicalWithin p o g.size id

variable {element? : ShapeId → Option Symbol}

theorem contains_of_canonicalFrom {a : Symbol} (h : g.canonicalFrom p o element? id = some a) :
    g.contains id = true := by
  obtain ⟨n, hn, -⟩ := Option.bind_eq_some_iff.1 h
  exact contains_of_get? hn

/-- A symbol that was found is found if more elements have symbols. -/
theorem canonicalFrom_mono {more? : ShapeId → Option Symbol} {a : Symbol}
    (hmore : ∀ k a, element? k = some a → more? k = some a)
    (h : g.canonicalFrom p o element? id = some a) : g.canonicalFrom p o more? id = some a := by
  obtain ⟨n, hn, h⟩ := Option.bind_eq_some_iff.1 h
  rw [canonicalFrom, hn]
  obtain ⟨nid, shape, tags⟩ := n
  cases shape with
  | list m =>
    obtain ⟨element, helement, h⟩ := Option.bind_eq_some_iff.1 h
    simp only [Option.bind_eq_bind, Option.bind_some, hmore _ _ helement]
    exact h
  | set m =>
    obtain ⟨element, helement, h⟩ := Option.bind_eq_some_iff.1 h
    simp only [Option.bind_eq_bind, Option.bind_some, hmore _ _ helement]
    exact h
  | map k v =>
    obtain ⟨key, hkey, h⟩ := Option.bind_eq_some_iff.1 h
    obtain ⟨value, hvalue, h⟩ := Option.bind_eq_some_iff.1 h
    simp only [Option.bind_eq_bind, Option.bind_some, hmore _ _ hkey, hmore _ _ hvalue]
    exact h
  | _ => exact h

/-- More steps leave a symbol as it is. -/
theorem canonicalWithin_mono {steps more : Nat} {a : Symbol}
    (h : g.canonicalWithin p o steps id = some a) (hle : steps ≤ more) :
    g.canonicalWithin p o more id = some a := by
  induction steps generalizing more id a with
  | zero => cases h
  | succ steps ih =>
    obtain ⟨more, rfl⟩ : ∃ k, more = k + 1 := ⟨more - 1, by omega⟩
    have hle : steps ≤ more := by omega
    exact canonicalFrom_mono (fun k a hk => ih hk hle) h

theorem contains_of_canonicalWithin {steps : Nat} {a : Symbol}
    (h : g.canonicalWithin p o steps id = some a) : g.contains id = true := by
  cases steps with
  | zero => cases h
  | succ steps => exact contains_of_canonicalFrom h

/-! ## The bound does not show -/

/-- Once a step finds nothing new, no later step does. -/
theorem canonicalWithin_stable {steps more : Nat}
    (h : g.canonicalWithin p o (steps + 1) = g.canonicalWithin p o steps) (hle : steps ≤ more) :
    g.canonicalWithin p o (more + 1) = g.canonicalWithin p o more := by
  induction hle with
  | refl => exact h
  | @step more _ ih =>
    funext id
    show g.canonicalFrom p o (g.canonicalWithin p o (more + 1)) id =
      g.canonicalFrom p o (g.canonicalWithin p o more) id
    rw [ih]

/-- The shapes whose symbols are found within so many steps. -/
def foundWithin (g : Graph) (p : Profile) (o : ResolverOptions) (steps : Nat) : List ShapeId :=
  g.nodes.keys.filter fun id => (g.canonicalWithin p o steps id).isSome

/-- A step that changes anything finds a new symbol. -/
theorem length_foundWithin_lt {steps : Nat}
    (h : g.canonicalWithin p o (steps + 1) ≠ g.canonicalWithin p o steps) :
    (g.foundWithin p o steps).length < (g.foundWithin p o (steps + 1)).length := by
  obtain ⟨id, hid⟩ := Function.ne_iff.1 h
  -- what was found before stays, so the difference is a symbol that is new
  have hnone : g.canonicalWithin p o steps id = none := by
    refine Option.eq_none_iff_forall_ne_some.2 fun a ha => hid ?_
    rw [ha, canonicalWithin_mono ha (Nat.le_succ steps)]
  obtain ⟨a, ha⟩ := Option.ne_none_iff_exists'.1 (hnone ▸ hid)
  have hkept : ∀ x ∈ g.nodes.keys, (g.canonicalWithin p o steps x).isSome = true →
      (g.canonicalWithin p o (steps + 1) x).isSome = true := by
    intro x _ hx
    obtain ⟨b, hb⟩ := Option.isSome_iff_exists.1 hx
    rw [canonicalWithin_mono hb (Nat.le_succ steps)]
    rfl
  refine length_filter_lt hkept (Sorted.mem_keys.2 (contains_of_canonicalWithin ha)) ?_ ?_
  · rw [ha]
    rfl
  · rw [hnone]
    rfl

/-- As long as steps find something new, there is a symbol for each step. -/
theorem le_length_foundWithin {steps : Nat}
    (h : g.canonicalWithin p o (steps + 1) ≠ g.canonicalWithin p o steps) :
    steps ≤ (g.foundWithin p o steps).length := by
  induction steps with
  | zero => exact Nat.zero_le _
  | succ steps ih =>
    have hbefore : g.canonicalWithin p o (steps + 1) ≠ g.canonicalWithin p o steps :=
      fun hsame => h (canonicalWithin_stable hsame (Nat.le_succ steps))
    exact Nat.lt_of_le_of_lt (ih hbefore) (length_foundWithin_lt hbefore)

/-- The canonical symbol of a shape is made from the canonical symbols of its elements. -/
theorem canonical_eq (g : Graph) (p : Profile) (o : ResolverOptions) (id : ShapeId) :
    g.canonical p o id = g.canonicalFrom p o (g.canonical p o) id := by
  have hstable : g.canonicalWithin p o (g.size + 1) = g.canonicalWithin p o g.size := by
    by_contra hnew
    have hmany := le_length_foundWithin hnew
    have hmore := length_foundWithin_lt hnew
    have hfound : (g.foundWithin p o (g.size + 1)).length ≤ g.nodes.keys.length :=
      List.length_filter_le ..
    have hkeys : g.nodes.keys.length = g.size := List.length_map _
    omega
  exact (congrFun hstable id).symm

/-! ## Leaves and collections -/

/-- Outside collections the symbols of other shapes do not matter. -/
theorem canonicalFrom_eq_leaf (node : g.get? n.id = some n) (leaf : n.shape.isContainer = false) :
    g.canonicalFrom p o element? n.id =
      ((Resolver.new g p (NullabilityMode.policy .structural) o).leaf n).toOption.map
        Leaf.symbol := by
  obtain ⟨id, shape, tags⟩ := n
  rw [canonicalFrom, node]
  cases shape with
  | list m => cases leaf
  | set m => cases leaf
  | map k v => cases leaf
  | _ => rfl

/-- A leaf has the canonical symbol of its node, under every policy. -/
theorem canonicalFrom_of_leaf {leaf : Leaf} (node : g.get? n.id = some n)
    (made : (Resolver.new g p policy o).leaf n = .ok leaf) :
    g.canonicalFrom p o element? n.id = some leaf.symbol := by
  -- no leaf looks at the policy
  have made' : (Resolver.new g p (NullabilityMode.policy .structural) o).leaf n = .ok leaf := made
  rw [canonicalFrom_eq_leaf node (Resolver.made_of_leaf made).isContainer, made']
  rfl

/-- A collection that is built from canonical symbols has its canonical symbol. -/
theorem canonicalFrom_of_collection {t : SymbolTable} {symbol : Symbol}
    {queued : List ShapeId} (node : g.get? n.id = some n)
    (elements : ∀ k a, t.get? k = some a → element? k = some a)
    (built : (Resolver.new g p policy o).collection t n = .ok (symbol, queued)) :
    g.canonicalFrom p o element? n.id = some symbol := by
  obtain ⟨id, shape, tags⟩ := n
  rw [canonicalFrom, node]
  cases Resolver.collection_eq_ok.1 built with
  | list hshape _ found used =>
    cases hshape
    simp only [Option.bind_eq_bind, Option.bind_some, elements _ _ found, used]
    rfl
  | set hshape _ found used =>
    cases hshape
    simp only [Option.bind_eq_bind, Option.bind_some, elements _ _ found, used]
    rfl
  | map hshape _ foundKey usedKey _ foundValue usedValue =>
    cases hshape
    simp only [Option.bind_eq_bind, Option.bind_some, elements _ _ foundKey, usedKey,
      elements _ _ foundValue, usedValue]
    rfl

/-- A canonical symbol is that of a leaf, under every policy, or it was put together for a
collection. -/
theorem leaf_or_collection_of_canonical (policy : NullabilityPolicy) {a : Symbol}
    (h : g.canonical p o id = some a) :
    ∃ n, g.get? id = some n ∧
      ((∃ leaf, (Resolver.new g p policy o).leaf n = .ok leaf ∧ leaf.symbol = a) ∨
        (n.shape.isContainer = true ∧ a.kind.isCollection = true ∧
          a = Resolver.containerSymbol n a.displayName a.kind)) := by
  rw [g.canonical_eq] at h
  obtain ⟨n, hn, h⟩ := Option.bind_eq_some_iff.1 h
  obtain rfl := get?_id hn
  refine ⟨n, hn, ?_⟩
  obtain ⟨id, shape, tags⟩ := n
  cases shape with
  | list m =>
    obtain ⟨element, -, hret⟩ := Option.bind_eq_some_iff.1 h
    cases hret
    exact Or.inr ⟨rfl, rfl, rfl⟩
  | set m =>
    obtain ⟨element, -, hret⟩ := Option.bind_eq_some_iff.1 h
    cases hret
    exact Or.inr ⟨rfl, rfl, rfl⟩
  | map k v =>
    obtain ⟨key, -, hrest⟩ := Option.bind_eq_some_iff.1 h
    obtain ⟨value, -, hret⟩ := Option.bind_eq_some_iff.1 hrest
    cases hret
    exact Or.inr ⟨rfl, rfl, rfl⟩
  | _ =>
    obtain ⟨leaf, hleaf, rfl⟩ := Option.map_eq_some_iff.1 h
    -- no leaf looks at the policy
    exact Or.inl ⟨leaf, toOption_eq_some.1 hleaf, rfl⟩

/-! ## What a symbol looks at -/

/-- The other shapes that the symbol of a shape looks at, if the shape is no collection: those that
an operation or service leads to, and those that the members of a record or union lead to through
collections.  Primitives and enumerations look at none. -/
def LooksAt (g : Graph) (n : Node) (y : ShapeId) : Prop :=
  y ∈ n.shape.links ∨
    ∃ m ∈ n.shape.members, ReflTransGen (fun x z => z ∈ Resolver.elementTargets g x) m.target y

end Graph

namespace Resolver

/-- Where the nodes are the same, collections lead to the same shapes. -/
theorem leads_congr (same : ∀ y, g.LooksAt n y → g'.get? y = g.get? y) {m : Member}
    (hm : m ∈ n.shape.members) :
    ReflTransGen (fun x z => z ∈ elementTargets g' x) m.target y ↔
      ReflTransGen (fun x z => z ∈ elementTargets g x) m.target y := by
  have hstep : ∀ x, ReflTransGen (fun x z => z ∈ elementTargets g x) m.target x →
      elementTargets g' x = elementTargets g x := by
    intro x hx
    rw [elementTargets, elementTargets, same x (Or.inr ⟨m, hm, hx⟩)]
  constructor
  · intro hreach
    induction hreach with
    | refl => exact .refl
    | tail _ hyz ih => exact ih.tail (hstep _ ih ▸ hyz)
  · intro hreach
    induction hreach with
    | refl => exact .refl
    | tail hxy hyz ih => exact ih.tail ((hstep _ hxy).symm ▸ hyz)

/-- The references of a type depend on what it looks at only. -/
theorem dependencies_congr (wf : g.WellFormed) (wf' : g'.WellFormed) (node : g.get? n.id = some n)
    (node' : g'.get? n.id = some n) (same : ∀ y, g.LooksAt n y → g'.get? y = g.get? y) :
    (new g' p policy o).dependencies n = (new g p policy o).dependencies n := by
  have hreached : ∀ k, k ∈ (memberReach g' n).filterMap g'.get? ↔
      k ∈ (memberReach g n).filterMap g.get? := by
    intro k
    simp only [List.mem_filterMap, mem_memberReach wf node, mem_memberReach wf' node']
    refine exists_congr fun y => ?_
    constructor
    · rintro ⟨⟨m, hm, hreach⟩, hk⟩
      have hreach := (leads_congr same hm).1 hreach
      exact ⟨⟨m, hm, hreach⟩, same y (Or.inr ⟨m, hm, hreach⟩) ▸ hk⟩
    · rintro ⟨⟨m, hm, hreach⟩, hk⟩
      exact ⟨⟨m, hm, (leads_congr same hm).2 hreach⟩,
        (same y (Or.inr ⟨m, hm, hreach⟩)).trans hk⟩
  refine Sorted.ext_mem fun ref => ?_
  rw [dependencies, dependencies, Sorted.mem_ofList, Sorted.mem_ofList, List.mem_map, List.mem_map]
  refine exists_congr fun k => and_congr_left fun _ => ?_
  rw [List.mem_filter, List.mem_filter]
  exact and_congr_left fun _ => hreached k

theorem linked_congr (same : g'.get? y = g.get? y) :
    (new g' p policy o).linked y = (new g p policy o).linked y := by
  have hrequire : g'.require y = g.require y := by
    rw [Graph.require, Graph.require, same]
  show g'.require y >>= _ = g.require y >>= _
  rw [hrequire]
  rfl

/-- A leaf looks at its own node and at the nodes that it refers to. -/
theorem leaf_congr (wf : g.WellFormed) (wf' : g'.WellFormed) (node : g.get? n.id = some n)
    (node' : g'.get? n.id = some n) (same : ∀ y, g.LooksAt n y → g'.get? y = g.get? y) :
    (new g' p policy o).leaf n = (new g p policy o).leaf n := by
  have hdependencies : (new g' p policy o).dependencies n = (new g p policy o).dependencies n :=
    dependencies_congr wf wf' node node' same
  have hlinked : ∀ y ∈ n.shape.links,
      (new g' p policy o).linked y = (new g p policy o).linked y :=
    fun y hy => linked_congr (same y (Or.inl hy))
  obtain ⟨id, shape, tags⟩ := n
  cases shape with
  | record members =>
    simp only [leaf, declaredSymbol, hdependencies]
    rfl
  | union members =>
    simp only [leaf, declaredSymbol, hdependencies]
    rfl
  | enum values =>
    simp only [leaf, declaredSymbol, hdependencies]
    rfl
  | operation input output errors =>
    simp only [Shape.links, List.mem_append, Option.mem_toList] at hlinked
    have hinput : input.mapM (new g' p policy o).linked = input.mapM (new g p policy o).linked :=
      option_mapM_congr fun y hy => hlinked y (Or.inl (Or.inl hy))
    have houtput : output.mapM (new g' p policy o).linked = output.mapM (new g p policy o).linked :=
      option_mapM_congr fun y hy => hlinked y (Or.inl (Or.inr hy))
    have herrors : errors.mapM (new g' p policy o).linked = errors.mapM (new g p policy o).linked :=
      mapM_congr fun y hy => hlinked y (Or.inr hy)
    simp only [leaf, hinput, houtput, herrors]
    rfl
  | service operations =>
    have hoperations : operations.mapM (new g' p policy o).linked =
        operations.mapM (new g p policy o).linked :=
      mapM_congr hlinked
    simp only [leaf, hoperations]
    rfl
  | _ => rfl

end Resolver

namespace Graph

/-- Outside collections, a canonical symbol looks at its own node and at the nodes it refers to. -/
theorem canonical_congr (wf : g.WellFormed) (wf' : g'.WellFormed) (node : g.get? n.id = some n)
    (node' : g'.get? n.id = some n) (leaf : n.shape.isContainer = false)
    (same : ∀ y, g.LooksAt n y → g'.get? y = g.get? y) :
    g'.canonical p o n.id = g.canonical p o n.id := by
  rw [canonical_eq, canonical_eq, canonicalFrom_eq_leaf node leaf, canonicalFrom_eq_leaf node' leaf,
    Resolver.leaf_congr wf wf' node node' same]

end Graph

end SchemaSymbols
