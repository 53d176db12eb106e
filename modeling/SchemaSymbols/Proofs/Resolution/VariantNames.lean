/-
  The variants of a type and its fallback have distinct names.

  An enumeration names its variants and its fallback in one go, and they are together in its symbol
  (`nodup_variants_of_leaf`).  A union does not: its symbol has the fallback, chosen when the symbol
  was made, and the variants get their names when the union is entered.  Both times the names are
  assigned to the same members in the same casing, so the fallback differs from the names that are
  bound in the end (`nodup_memberNames_of_leaf`, `BoundAll.map_name`).

  `assigned_names_distinct` states what names have in common: there is one for each wire name, they
  are distinct, later ones leave earlier ones alone, and the search for each ends after no more
  candidates than there are names taken and words reserved; then the same for the tables that any
  calls leave.
-/
import SchemaSymbols.Proofs.Naming.Assignment
import SchemaSymbols.Proofs.Resolution.Bindings

namespace SchemaSymbols

variable {g : Graph} {p : Profile} {o : ResolverOptions} {policy : NullabilityPolicy}
  {r : Resolver} {t : SymbolTable} {n owner : Node} {id : ShapeId} {fallback : String}

/-! ## What leaves have -/

/-- Names that are assigned together and their fallback are distinct. -/
theorem Namer.nodup_append_fallback (n : Namer) (casing : Casing) (wires : List String)
    (wanted : String) :
    ((n.assign casing wires).map AssignedName.name ++
      [n.fallback wanted ((n.assign casing wires).map AssignedName.name)]).Nodup := by
  rw [← List.concat_eq_append, List.nodup_concat]
  exact ⟨n.fallback_not_mem wanted _, n.nodup_assign casing wires⟩

namespace Resolver

/-- The variants of an enumeration have the names assigned to its values. -/
theorem map_name_variants {names : List AssignedName} {values : List EnumValue}
    (h : names.length = values.length) :
    (names.zipWith (fun a v => (⟨a.name, v.value⟩ : EnumValue)) values).map EnumValue.name =
      names.map AssignedName.name := by
  rw [List.map_zipWith]
  refine List.ext_getElem (by simp [h]) fun i _ _ => ?_
  rw [List.getElem_zipWith, List.getElem_map]

/-- The variants of an enumeration and its fallback are distinct. -/
theorem nodup_variants_of_leaf {leaf : Leaf} {variants : List EnumValue}
    (h : r.leaf n = .ok leaf) (hkind : leaf.symbol.kind = .enum variants fallback) :
    (variants.map EnumValue.name ++ [fallback]).Nodup := by
  cases leafOf_of_leaf h with
  | enum shape assigned named =>
    subst assigned named
    cases hkind
    rw [map_name_variants (by rw [Namer.assign, Namer.length_assignFrom, List.length_map])]
    exact r.namer.nodup_append_fallback _ _ _
  | _ => cases hkind

/-- The fallback of a union differs from the names that its members get when it is entered. -/
theorem nodup_memberNames_of_leaf {leaf : Leaf} (h : r.leaf n = .ok leaf)
    (hkind : leaf.symbol.kind = .union fallback) :
    ((r.memberNames n).map AssignedName.name ++ [fallback]).Nodup := by
  cases leafOf_of_leaf h with
  | union shape named =>
    subst named
    cases hkind
    exact r.namer.nodup_append_fallback _ _ _
  | _ => cases hkind

/-! ## What walks have bound -/

/-- Bindings have the names that their members were assigned. -/
theorem map_name_of_boundTo {declared : List (Member × String)} {bindings : List Binding}
    (h : List.Forall₂ (r.BoundTo t owner) declared bindings) :
    bindings.map Binding.name = declared.map Prod.snd := by
  induction h with
  | nil => rfl
  | cons first _ ih =>
    obtain ⟨target, symbol, boxed, -, -, -, -, rfl⟩ := first
    rw [List.map_cons, List.map_cons, ih]
    rfl

/-- Bound members have the names that were assigned to the members of their owner. -/
theorem BoundAll.map_name {bindings : List Binding} (h : r.BoundAll t n.id bindings)
    (node : r.graph.get? n.id = some n) :
    bindings.map Binding.name = (r.memberNames n).map AssignedName.name := by
  obtain ⟨owner, howner, -, -, hall⟩ := h
  obtain rfl : n = owner := Option.some.inj (node.symm.trans howner)
  have hlength : ((r.memberNames n).map AssignedName.name).length ≤ n.shape.members.length := by
    rw [List.length_map, r.length_memberNames]
  rw [map_name_of_boundTo hall, namedMembers, List.map_snd_zip hlength]

end Resolver

/-! ## After any calls -/

/-- A symbol with variants or a fallback is that of a leaf. -/
theorem Graph.exists_leaf_of_kind (policy : NullabilityPolicy) {a : Symbol}
    (h : g.canonical p o id = some a) (hkind : a.kind.isCollection = false) :
    ∃ n leaf, g.get? n.id = some n ∧ n.id = id ∧
      (Resolver.new g p policy o).leaf n = .ok leaf ∧ leaf.symbol = a := by
  obtain ⟨n, hn, ⟨leaf, hleaf⟩ | ⟨-, hcollection, -⟩⟩ :=
    g.leaf_or_collection_of_canonical policy h
  · obtain rfl := get?_id hn
    exact ⟨n, leaf, hn, rfl, hleaf⟩
  · rw [hkind] at hcollection
    cases hcollection

/-- Names are distinct, stay what they are, and are found in bounded time.

    The names assigned to a list are as many as the list has items, and distinct, whatever is
    escaped and however.  The search for the name of one more item ends after no more candidates
    than there are names taken and words reserved, at the first that is free, and changes no name
    before it.  The search for a fallback ends in the same way, and what it finds is no variant.

    So after any calls, whether they ended well or failed, the variants of an enumeration and its
    fallback are distinct, and so are the bound variants of a union and the fallback in its
    symbol. -/
theorem assigned_names_distinct :
    (∀ (n : Namer) casing wires,
      (n.assign casing wires).length = wires.length ∧
      ((n.assign casing wires).map AssignedName.name).Nodup ∧
      ∀ wire, ∃ k ≤ wires.length + n.escaper.reserved.length,
        let cased := n.casedName casing wire
        n.EndsAt (Namer.numbered cased) ((n.assign casing wires).map AssignedName.name) k ∧
          n.assign casing (wires ++ [wire]) = n.assign casing wires ++
            [⟨wire, cased, Namer.numbered cased k,
              n.escaper.escape (Namer.numbered cased k)⟩]) ∧
    (∀ (n : Namer) wanted variants, ∃ k ≤ variants.length + n.escaper.reserved.length,
      n.EndsAt (Namer.underscored wanted) variants k ∧
        n.fallback wanted variants = n.escaper.escape (Namer.underscored wanted k) ∧
        n.fallback wanted variants ∉ variants) ∧
    ∀ g p policy o calls id a,
      let t := ((Resolver.new g p policy o).after calls).table
      t.get? id = some a →
        (∀ variants fallback, a.kind = .enum variants fallback →
          (variants.map EnumValue.name ++ [fallback]).Nodup) ∧
        ∀ fallback bindings, a.kind = .union fallback → t.members? id = some bindings →
          (bindings.map Binding.name ++ [fallback]).Nodup := by
  refine ⟨?_, ?_, ?_⟩
  · intro n casing wires
    have hlength : (n.assign casing wires).length = wires.length :=
      n.length_assignFrom casing [] wires
    refine ⟨hlength, n.nodup_assign casing wires, fun wire => ?_⟩
    obtain ⟨k, hk, ends, hassigned⟩ :=
      n.exists_assignOne casing ((n.assign casing wires).map AssignedName.name) wire
    rw [List.length_map, hlength] at hk
    refine ⟨k, hk, ends, ?_⟩
    rw [n.assign_concat, hassigned]
  · intro n wanted variants
    obtain ⟨k, hk, ends, hfallback⟩ := n.exists_fallback wanted variants
    exact ⟨k, hk, ends, hfallback, n.fallback_not_mem wanted variants⟩
  · intro g p policy o calls id a t hget
    obtain ⟨hcanonical, hfaithful⟩ := (keeps_faithful g p policy o).after ⟨.new, .new⟩ calls
    have hcanonical := hcanonical.canonical hget
    constructor
    · intro variants fallback hkind
      obtain ⟨n, leaf, -, -, hleaf, rfl⟩ :=
        Graph.exists_leaf_of_kind policy hcanonical (by rw [hkind]; rfl)
      exact Resolver.nodup_variants_of_leaf hleaf hkind
    · intro fallback bindings hkind hmembers
      obtain ⟨n, leaf, node, rfl, hleaf, rfl⟩ :=
        Graph.exists_leaf_of_kind policy hcanonical (by rw [hkind]; rfl)
      have hbound := hfaithful.members n.id bindings hmembers
      rw [hbound.map_name node]
      exact Resolver.nodup_memberNames_of_leaf hleaf hkind

/-! ## An observatory -/

namespace Observatory

/-- The identifier of a shape of the observatory. -/
def shape (name : String) : ShapeId := ⟨"observatory", name, none⟩

/-- The states of the sky and the parts of a report have the same names, up to case. -/
def nodes : List Node :=
  [ ⟨shape "Text", .primitive .string, .empty⟩,
    ⟨shape "Sky", .enum [⟨"default", "d"⟩, ⟨"DEFAULT", "D"⟩], .empty⟩,
    ⟨shape "Report",
      .union [⟨"Default", shape "Sky", .empty⟩, ⟨"default", shape "Text", .empty⟩], .empty⟩ ]

/-- The observatory, seen through a target language that reserves the name of the fallback. -/
def resolver : Resolver :=
  .new (.ofNodesD nodes) .swift (NullabilityMode.policy .structural)
    { fallbackVariant := some "default" }

/-- The table after a report was called for. -/
def table : SymbolTable := (resolver.after [.shape (shape "Report")]).table

/-- A namer whose decorated word looks like a name with a number. -/
def namer : Namer := ⟨⟨.trailing "2", ["name"]⟩, {}⟩

/-- The names of four items; the last one has no words. -/
def names : List String :=
  (namer.assign .camel ["name2", "Name", "NAME", "__"]).map AssignedName.name

end Observatory

/-- All of these names clash, before they are escaped or after it, and so do the fallbacks. -/
theorem observatory_names_distinct :
    (Observatory.names = ["name2", "name3", "name4", "value"] ∧ Observatory.names.Nodup) ∧
    (∃ variants fallback, (Observatory.table.get? (Observatory.shape "Sky")).map Symbol.kind =
        some (.enum variants fallback) ∧
      variants.map EnumValue.name ++ [fallback] =
        ["`default`", "default2", "default_"] ∧
      (variants.map EnumValue.name ++ [fallback]).Nodup) ∧
    ∃ fallback bindings, (Observatory.table.get? (Observatory.shape "Report")).map Symbol.kind =
        some (.union fallback) ∧
      Observatory.table.members? (Observatory.shape "Report") = some bindings ∧
      bindings.map Binding.name ++ [fallback] = ["`default`", "default2", "default_"] ∧
      (bindings.map Binding.name ++ [fallback]).Nodup := by
  obtain ⟨hassign, -, hcalls⟩ := assigned_names_distinct
  have hsky : (Observatory.table.get? (Observatory.shape "Sky")).map Symbol.kind =
      some (.enum [⟨"`default`", "d"⟩, ⟨"default2", "D"⟩] "default_") := by decide +kernel
  have hreport : (Observatory.table.get? (Observatory.shape "Report")).map Symbol.kind =
      some (.union "default_") := by decide +kernel
  have hbound : (Observatory.table.members? (Observatory.shape "Report")).map
      (List.map Binding.name) = some ["`default`", "default2"] := by decide +kernel
  obtain ⟨sky, hget, hkind⟩ := Option.map_eq_some_iff.1 hsky
  obtain ⟨report, hget', hkind'⟩ := Option.map_eq_some_iff.1 hreport
  obtain ⟨bindings, hmembers, hnames⟩ := Option.map_eq_some_iff.1 hbound
  refine ⟨⟨by decide +kernel, (hassign _ _ _).2.1⟩, ⟨_, _, hsky, rfl, ?_⟩,
    _, bindings, hreport, hmembers, by rw [hnames]; rfl, ?_⟩
  · exact (hcalls _ _ _ _ _ _ sky hget).1 _ _ hkind
  · exact (hcalls _ _ _ _ _ _ report hget').2 _ bindings hkind' hmembers

end SchemaSymbols
