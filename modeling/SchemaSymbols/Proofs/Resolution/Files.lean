/-
  One file for each declared type.

  Types are told apart by their namespaces and displayed names, but a path has neither of them as
  they are: it is a directory for the namespace, if the type is nested, and a stem for the name,
  both trimmed.

  1. **Paths.**  For regular names neither part has a slash in it, so the first slash of a path ends
     the directory (`slash_not_mem_directoryOf`, `slash_not_mem_stemOf`), and directory and stem
     show the names that they were made from (`typeName_eq_of_directoryOf_eq`,
     `typeName_eq_of_stemOf_eq`).  So types with one path have one namespace and one name
     (`eq_of_fileOf_eq`).

  2. **Tables.**  A resolution of all roots has checked that no two declared types have both
     (`checkNames_of_resolveAll`), hence no two of them have one file
     (`declared_files_distinct`).

  A name without letters and digits is displayed as it is, with whatever marks it has of its own,
  and then two types may have one file (`scraps_share_file`).
-/
import SchemaSymbols.Proofs.Resolution.EmittedNames
import SchemaSymbols.Proofs.Resolution.FileNames

namespace SchemaSymbols

open ResolveM

/-! ## Paths -/

/-- Whether the names that a node's file depends on are regular: its own, and that of the service
that it is nested under. -/
def Node.HasRegularNames (n : Node) : Prop :=
  IsRegularName n.id.name ∧ ∀ service ∈ TagSet.nestedUnder? n.tags, IsRegularName service.name

instance (n : Node) : Decidable n.HasRegularNames := inferInstanceAs (Decidable (_ ∧ _))

namespace Resolver

variable {r : Resolver} {n k : Node} {v w : String}

/-- The part of a path that the name of a type leaves. -/
def stemOf (r : Resolver) (name : String) : List Char :=
  trimRaw (trimBoth backtick (r.namer.typeName name).toList)

/-- The part of a path that the name of a service leaves. -/
def directoryOf (r : Resolver) (name : String) : List Char :=
  trimBoth backtick (r.namer.typeName name).toList

/-- The first mark of a text divides it in one way. -/
theorem eq_of_append_cons_eq {mark : Char} {a b s t : List Char} (ha : mark ∉ a) (hb : mark ∉ b)
    (h : a ++ mark :: s = b ++ mark :: t) : a = b ∧ s = t := by
  have hcut : Text.cut? mark (b ++ mark :: t) = some (a, s) := Text.cut?_eq_some_iff.2 ⟨h.symm, ha⟩
  have hcut' : Text.cut? mark (b ++ mark :: t) = some (b, t) := Text.cut?_eq_some_iff.2 ⟨rfl, hb⟩
  rw [hcut'] at hcut
  obtain ⟨hbefore, hafter⟩ := Prod.mk.inj (Option.some.inj hcut)
  exact ⟨hbefore.symm, hafter.symm⟩

/-- A path below the directory of all files. -/
def pathOf (r : Resolver) (n : Node) : List Char :=
  match TagSet.nestedUnder? n.tags with
  | none => r.stemOf n.id.name ++ '.' :: r.profile.fileExtension.toList
  | some service =>
    r.directoryOf service.name ++
      '/' :: (r.stemOf n.id.name ++ '.' :: r.profile.fileExtension.toList)

/-- A file is the path below the directory of all models, if there is one. -/
theorem toList_fileOf (r : Resolver) (n : Node) :
    (r.fileOf n).toList =
      (if r.modelsDir = [] then [] else r.modelsDir ++ ['/']) ++ r.pathOf n := by
  rw [fileOf, String.toList_ofList, nesting, pathOf]
  by_cases hdir : r.modelsDir = []
  · cases TagSet.nestedUnder? n.tags with
    | none => simp [hdir, List.intercalate, stemOf]
    | some service => simp [hdir, List.intercalate, stemOf, directoryOf]
  · cases TagSet.nestedUnder? n.tags with
    | none => simp [hdir, List.intercalate, stemOf]
    | some service => simp [hdir, List.intercalate, stemOf, directoryOf]

section Regular

variable (hstyle : r.namer.escaper.style.IsPlain)

include hstyle

theorem slash_not_mem_directoryOf (hw : IsRegularName w) : '/' ∉ r.directoryOf w := by
  intro hc
  exact Escaper.not_mem_escape (hw.isPlain_typeName _).2 hstyle.slash_not_mem
    (mem_of_mem_trimBoth hc)

theorem slash_not_mem_stemOf (hw : IsRegularName w) : '/' ∉ r.stemOf w := by
  intro hc
  exact slash_not_mem_directoryOf hstyle hw (mem_of_mem_trimRaw hc)

/-- Types with one stem have one name. -/
theorem typeName_eq_of_stemOf_eq (hv : IsRegularName v) (hw : IsRegularName w)
    (h : r.stemOf v = r.stemOf w) : r.namer.typeName v = r.namer.typeName w := by
  have hbare : ∀ {name}, IsRegularName name → r.stemOf name =
      (r.namer.escaper.bare (r.namer.options.typeName name)).toList := fun hname =>
    Escaper.trimRaw_escape hstyle (hname.isPlain_typeName _)
      (NamingOptions.hash_not_mem_or_r_not_mem _ _)
  rw [hbare hv, hbare hw, String.toList_inj] at h
  exact Escaper.escape_eq_of_bare_eq
    (fun _ => NamingOptions.typeName_ne_append_underscore _ v)
    (fun _ => NamingOptions.typeName_ne_append_underscore _ w) h

/-- Services with one directory have one name. -/
theorem typeName_eq_of_directoryOf_eq (hv : IsRegularName v) (hw : IsRegularName w)
    (h : r.directoryOf v = r.directoryOf w) : r.namer.typeName v = r.namer.typeName w :=
  Escaper.escape_eq_of_trimBoth_eq hstyle (hv.isPlain_typeName _) (hw.isPlain_typeName _) h

/-- A path shows where a type belongs and what it is called. -/
theorem eq_of_pathOf_eq (hn : n.HasRegularNames) (hk : k.HasRegularNames)
    (h : r.pathOf n = r.pathOf k) :
    r.nesting n = r.nesting k ∧ r.namer.typeName n.id.name = r.namer.typeName k.id.name := by
  rw [pathOf, pathOf] at h
  rw [nesting, nesting]
  cases hnservice : TagSet.nestedUnder? n.tags with
  | none =>
    cases hkservice : TagSet.nestedUnder? k.tags with
    | none =>
      rw [hnservice, hkservice] at h
      have hstem := List.append_cancel_right h
      exact ⟨rfl, typeName_eq_of_stemOf_eq hstyle hn.1 hk.1 hstem⟩
    | some service =>
      -- a stem has no slash, so it is not a path
      rw [hnservice, hkservice] at h
      simp only [← List.cons_append, ← List.append_assoc] at h
      have hstem := List.append_cancel_right h
      exact absurd (hstem ▸ by simp) (slash_not_mem_stemOf hstyle hn.1)
  | some service =>
    cases hkservice : TagSet.nestedUnder? k.tags with
    | none =>
      rw [hnservice, hkservice] at h
      simp only [← List.cons_append, ← List.append_assoc] at h
      have hstem := List.append_cancel_right h
      exact absurd (hstem ▸ by simp) (slash_not_mem_stemOf hstyle hk.1)
    | some service' =>
      rw [hnservice, hkservice] at h
      have hregular := hn.2 _ hnservice
      have hregular' := hk.2 _ hkservice
      obtain ⟨hdirectory, hfile⟩ := eq_of_append_cons_eq (slash_not_mem_directoryOf hstyle hregular)
        (slash_not_mem_directoryOf hstyle hregular') h
      have hservice := typeName_eq_of_directoryOf_eq hstyle hregular hregular' hdirectory
      have hstem := List.append_cancel_right hfile
      refine ⟨?_, typeName_eq_of_stemOf_eq hstyle hn.1 hk.1 hstem⟩
      show [r.namer.typeName service.name] = [r.namer.typeName service'.name]
      rw [hservice]

end Regular

/-- A path shows the namespace and the name of a declared type. -/
theorem eq_of_fileOf_eq (hstyle : r.namer.escaper.style.IsPlain) (hn : n.HasRegularNames)
    (hk : k.HasRegularNames) (h : r.fileOf n = r.fileOf k) :
    r.scopeOf n = r.scopeOf k ∧ r.namer.typeName n.id.name = r.namer.typeName k.id.name := by
  have hpath : r.pathOf n = r.pathOf k := by
    have hlist := congrArg String.toList h
    rw [toList_fileOf, toList_fileOf] at hlist
    exact List.append_cancel_left hlist
  obtain ⟨hnesting, hname⟩ := eq_of_pathOf_eq hstyle hn hk hpath
  refine ⟨?_, hname⟩
  rw [scopeOf, scopeOf, hnesting]

/-- A declared symbol has the place that its node gives it. -/
theorem exists_declaredSymbol {leaf : Leaf} (h : r.leaf n = .ok leaf)
    (hdeclared : leaf.symbol.isDeclared = true) :
    ∃ kind, leaf.symbol = r.declaredSymbol n kind := by
  cases leafOf_of_leaf h with
  | record => exact ⟨_, rfl⟩
  | union => exact ⟨_, rfl⟩
  | enum => exact ⟨_, rfl⟩
  | _ => cases hdeclared

/-- A resolution of all roots that ends well has checked the names. -/
theorem checkNames_of_resolveAll {s s' : Session} (h : r.resolveAll s = .ok () s') :
    s'.table.checkNames = .ok () := by
  obtain ⟨_, middle, -, hcheck⟩ := exists_of_bind_eq_ok h
  change lift middle.table.checkNames middle = .ok () s' at hcheck
  cases hnames : middle.table.checkNames with
  | error e =>
    rw [hnames] at hcheck
    cases hcheck
  | ok _ =>
    rw [hnames] at hcheck
    cases hcheck
    exact hnames

end Resolver

variable {g : Graph} {p : Profile} {policy : NullabilityPolicy} {o : ResolverOptions} {s : Session}

/-- The declared symbols of a new session are those of the nodes of the graph. -/
theorem Resolver.exists_declaredSymbol_of_resolveAll
    (h : (Resolver.new g p policy o).resolveAll {} = .ok () s) {a : Symbol}
    (ha : a ∈ s.table.declared) :
    ∃ n kind, g.get? a.shape = some n ∧ a = (Resolver.new g p policy o).declaredSymbol n kind := by
  obtain ⟨hget, hdeclared⟩ := SymbolTable.get?_of_mem_declared ha
  have hafter : (Resolver.new g p policy o).after [.all] = s := by
    show (Resolver.new g p policy o).resolveAll.leaves {} = s
    rw [leaves, h]
  rw [← hafter] at hget
  have hown : a.displayName ∈ a.emittedNames := by
    rw [Symbol.emittedNames, hdeclared]
    exact List.mem_append_left _ List.mem_cons_self
  obtain ⟨n, leaf, hn, hleaf, rfl⟩ := Graph.exists_leaf_of_canonical policy
    ((canonical_after rfl [.all]).canonical hget) hown
  obtain ⟨kind, hkind⟩ := exists_declaredSymbol hleaf hdeclared
  exact ⟨n, kind, hn, hkind⟩

/-- Declared types have files of their own, if those of their names that have no letters and digits
    have no backtick and no slash either, and if the escape style brings in none. -/
theorem declared_files_distinct (hstyle : p.escapeStyle.IsPlain)
    (h : (Resolver.new g p policy o).resolveAll {} = .ok () s) {a b : Symbol} {n k : Node}
    (ha : a ∈ s.table.declared) (hb : b ∈ s.table.declared) (hn : g.get? a.shape = some n)
    (hk : g.get? b.shape = some k) (regular : n.HasRegularNames) (regular' : k.HasRegularNames)
    (hne : a.shape ≠ b.shape) : a.file? ≠ b.file? := by
  intro hfile
  obtain ⟨n', kind, hn', ha'⟩ := Resolver.exists_declaredSymbol_of_resolveAll h ha
  obtain ⟨k', kind', hk', hb'⟩ := Resolver.exists_declaredSymbol_of_resolveAll h hb
  rw [hn] at hn'
  rw [hk] at hk'
  cases hn'
  cases hk'
  rw [ha', hb'] at hfile
  obtain ⟨hscope, hname⟩ := Resolver.eq_of_fileOf_eq hstyle regular regular' (Option.some.inj hfile)
  refine hne (SymbolTable.shape_eq_of_checkNames (Resolver.checkNames_of_resolveAll h) ha hb ?_ ?_)
  · rw [ha', hb']
    exact hscope
  · rw [ha', hb']
    exact hname

/-! ## An attic -/

namespace Attic

/-- The identifier of a shape of the attic. -/
def shape (name : String) : ShapeId := ⟨"attic", name, none⟩

/-- Two types have one name but for their service, and most names have to be escaped. -/
def nodes : List Node :=
  [ ⟨shape "match", .service [shape "sort"], .empty⟩,
    ⟨shape "sort", .operation (some (shape "type")) (some (shape "Type")) [], .empty⟩,
    ⟨shape "type", .record [], Sorted.ofList [.nestedUnder (shape "match")]⟩,
    ⟨shape "Type", .record [⟨"self", shape "self", .empty⟩, ⟨"scrap", shape "_", .empty⟩], .empty⟩,
    ⟨shape "self", .union [], .empty⟩,
    ⟨shape "_", .enum [⟨"One", "1"⟩], .empty⟩ ]

/-- The attic in Rust, where types may not be called `Type` or `Match` either. -/
def resolver : Resolver :=
  .new (.ofNodesD nodes) .rust (NullabilityMode.policy .structural)
    { reservedWords := ["Type", "Match"] }

/-- The attic in Swift, with nothing in it but two names without letters and digits. -/
def scraps : Resolver :=
  .new (.ofNodesD [⟨shape "_", .record [], .empty⟩, ⟨shape "`_`", .record [], .empty⟩]) .swift
    (NullabilityMode.policy .structural) {}

/-- The declared shapes with their files, after all roots are resolved. -/
def files (r : Resolver) : List (String × Option String) :=
  (r.resolveAll.leaves {}).table.declared.map fun a => (a.shape.name, a.file?)

end Attic

/-- Both types called `Type` have files of their own, and so have all other types. -/
theorem attic_files_distinct :
    ∃ s, Attic.resolver.resolveAll {} = .ok () s ∧
      (s.table.declared.map fun a => (a.shape.name, a.file?)) =
        [ ("Type", some "Sources/Models/Type.rs"), ("_", some "Sources/Models/_.rs"),
          ("self", some "Sources/Models/Self_.rs"),
          ("type", some "Sources/Models/r#Match/Type.rs") ] ∧
      ∀ a ∈ s.table.declared, ∀ b ∈ s.table.declared, a.shape ≠ b.shape → a.file? ≠ b.file? := by
  obtain ⟨_, s, hrun⟩ := exists_of_endsWell (x := Attic.resolver.resolveAll) (s := {})
    (by decide +kernel)
  have hfiles : Attic.files Attic.resolver =
      [ ("Type", some "Sources/Models/Type.rs"), ("_", some "Sources/Models/_.rs"),
        ("self", some "Sources/Models/Self_.rs"),
        ("type", some "Sources/Models/r#Match/Type.rs") ] := by
    decide +kernel
  have hregular : ∀ n ∈ (Graph.ofNodesD Attic.nodes).nodes.toList, n.HasRegularNames := by
    decide +kernel
  have hleaves : Attic.resolver.resolveAll.leaves {} = s := by
    rw [leaves, hrun]
  rw [Attic.files, hleaves] at hfiles
  refine ⟨s, hrun, hfiles, ?_⟩
  intro a ha b hb hne
  obtain ⟨n, _, hn, -⟩ := Resolver.exists_declaredSymbol_of_resolveAll hrun ha
  obtain ⟨k, _, hk, -⟩ := Resolver.exists_declaredSymbol_of_resolveAll hrun hb
  exact declared_files_distinct (Profile.isPlain_escapeStyle .rust) hrun ha hb hn hk
    (hregular n (Graph.mem_nodes hn)) (hregular k (Graph.mem_nodes hk)) hne

/-- The names of both scraps are displayed apart, and leave one file. -/
theorem scraps_share_file :
    Attic.scraps.resolveAll.endsWell {} = true ∧
      Attic.files Attic.scraps =
        [("_", some "Sources/Models/_.swift"), ("`_`", some "Sources/Models/_.swift")] := by
  decide +kernel

end SchemaSymbols
