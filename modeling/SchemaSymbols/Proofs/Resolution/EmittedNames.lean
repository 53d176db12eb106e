/-
  The names that a resolution hands to its users.

  These are the names of declared types, operations and services, those of variants and fallbacks,
  and those of bound members.

  All of them come out of the escaper.  The symbols of a table are those that their nodes get, so
  for a symbol it is a matter of how leaves are named (`isEscaped_of_leaf`), and a bound member has
  the name that it was assigned when its owner was entered
  (`Resolver.isEscaped_of_mem_emittedNames`).

  So what holds of escaped names holds of them: none is reserved, unless a decorated word was
  reserved itself (`emitted_names_not_reserved`).  That can happen: `School` is resolved with a word
  reserved besides the keywords that is the decorated form of one of them
  (`school_emits_reserved_name`).
-/
import SchemaSymbols.Proofs.Naming.Escaping
import SchemaSymbols.Proofs.Resolution.Bindings

namespace SchemaSymbols

open ResolveM

/-! ## Emitted names -/

/-- The names of variants, the fallback included. -/
def SymbolKind.variantNames : SymbolKind → List String
  | .union fallback => [fallback]
  | .enum variants fallback => variants.map EnumValue.name ++ [fallback]
  | _ => []

/-- Whether a symbol is that of an operation or service. -/
def SymbolKind.isCallable : SymbolKind → Bool
  | .operation _ _ _ => true
  | .service _ => true
  | _ => false

/-- The names that a symbol brings along: its own, if it is declared or called, and those of its
variants. -/
def Symbol.emittedNames (s : Symbol) : List String :=
  (if s.isDeclared || s.kind.isCallable then [s.displayName] else []) ++ s.kind.variantNames

/-- The names in a table: those of symbols, and those of bound members. -/
def SymbolTable.emittedNames (t : SymbolTable) : List String :=
  t.symbols.toList.flatMap Symbol.emittedNames ++
    (t.bindings.toList.flatMap Bindings.members).map Binding.name

/-! ## All of them are escaped -/

variable {r : Resolver} {n : Node} {name : String}

/-- A symbol emits its displayed name and those of its variants. -/
theorem Symbol.mem_emittedNames {s : Symbol} (h : name ∈ s.emittedNames) :
    name = s.displayName ∨ name ∈ s.kind.variantNames := by
  rw [emittedNames] at h
  rcases List.mem_append.1 h with hown | hvariant
  · split at hown
    · exact Or.inl (List.mem_singleton.1 hown)
    · cases hown
  · exact Or.inr hvariant

namespace Resolver

theorem isEscaped_symbolName (r : Resolver) (n : Node) :
    r.namer.escaper.IsEscaped (r.symbolName n) := by
  rw [symbolName]
  split
  · exact Escaper.isEscaped_escape _ _
  · exact Escaper.isEscaped_escape _ _

/-- What a leaf emits is escaped. -/
theorem isEscaped_of_leaf {leaf : Leaf} (h : r.leaf n = .ok leaf)
    (hname : name ∈ leaf.symbol.emittedNames) : r.namer.escaper.IsEscaped name := by
  cases leafOf_of_leaf h with
  | primitive => cases hname
  | record =>
    rcases Symbol.mem_emittedNames hname with rfl | hvariant
    · exact Escaper.isEscaped_escape _ _
    · cases hvariant
  | union shape named =>
    rcases Symbol.mem_emittedNames hname with rfl | hvariant
    · exact Escaper.isEscaped_escape _ _
    · rw [List.mem_singleton.1 hvariant, named]
      exact Escaper.isEscaped_escape _ _
  | enum shape assigned named =>
    rcases Symbol.mem_emittedNames hname with rfl | hvariant
    · exact Escaper.isEscaped_escape _ _
    · rcases List.mem_append.1 hvariant with hdeclared | hfallback
      · -- the variants take their names from the list of assigned ones
        obtain ⟨v, hv, rfl⟩ := List.mem_map.1 hdeclared
        rw [← List.map_uncurry_zip_eq_zipWith, assigned] at hv
        obtain ⟨⟨a, value⟩, hpair, rfl⟩ := List.mem_map.1 hv
        exact Namer.isEscaped_of_mem_assignFrom (List.of_mem_zip hpair).1
      · rw [List.mem_singleton.1 hfallback, named]
        exact Escaper.isEscaped_escape _ _
  | operation =>
    rcases Symbol.mem_emittedNames hname with rfl | hvariant
    · exact r.isEscaped_symbolName n
    · cases hvariant
  | service =>
    rcases Symbol.mem_emittedNames hname with rfl | hvariant
    · exact r.isEscaped_symbolName n
    · cases hvariant

end Resolver

variable {g : Graph} {p : Profile} {o : ResolverOptions} {policy : NullabilityPolicy} {id : ShapeId}

/-- Collections emit no names, so a symbol that does is that of a leaf. -/
theorem Graph.exists_leaf_of_canonical (policy : NullabilityPolicy) {a : Symbol}
    (h : g.canonical p o id = some a) (hname : name ∈ a.emittedNames) :
    ∃ n leaf, g.get? id = some n ∧ (Resolver.new g p policy o).leaf n = .ok leaf ∧
      leaf.symbol = a := by
  obtain ⟨n, hn, ⟨leaf, hleaf⟩ | ⟨-, hkind, ha⟩⟩ := g.leaf_or_collection_of_canonical policy h
  · exact ⟨n, leaf, hn, hleaf⟩
  · have hnone : a.emittedNames = [] := by
      generalize a.displayName = type, a.kind = kind at ha hkind
      subst ha
      cases kind with
      | list _ _ _ => rfl
      | set _ _ _ => rfl
      | map _ _ _ _ _ => rfl
      | _ => cases hkind
    rw [hnone] at hname
    cases hname

/-- Whatever was called for, all names in the table are escaped. -/
theorem Resolver.isEscaped_of_mem_emittedNames (calls : List Call)
    (h : name ∈ ((Resolver.new g p policy o).after calls).table.emittedNames) :
    (p.escaper o.reservedWords).IsEscaped name := by
  rcases List.mem_append.1 h with hsymbol | hbound
  · obtain ⟨a, ha, hname⟩ := List.mem_flatMap.1 hsymbol
    have hget : ((Resolver.new g p policy o).after calls).table.get? a.key = some a :=
      Sorted.find?_of_mem ha
    have hcanonical := (canonical_after rfl calls).canonical hget
    obtain ⟨n, leaf, -, hleaf, rfl⟩ := Graph.exists_leaf_of_canonical policy hcanonical hname
    exact isEscaped_of_leaf hleaf hname
  · obtain ⟨b, hb, rfl⟩ := List.mem_map.1 hbound
    obtain ⟨bindings, hbindings, hb⟩ := List.mem_flatMap.1 hb
    have hmembers : ((Resolver.new g p policy o).after calls).table.members? bindings.owner =
        some bindings.members := by
      rw [SymbolTable.members?, Sorted.find?_of_mem hbindings]
      rfl
    have hbound := (keeps_faithful g p policy o).after ⟨.new, .new⟩ calls
    obtain ⟨owner, assigned, hassigned, hname⟩ :=
      (hbound.2.members _ _ hmembers).exists_assigned hb
    rw [hname]
    exact Namer.isEscaped_of_mem_assignFrom hassigned

/-- No emitted name is reserved, as long as no decorated form of a reserved word was reserved
    besides the keywords of the language.  In every case an emitted name that is reserved is such a
    form: escaping decorates a word once, and does not look at the result. -/
theorem emitted_names_not_reserved (g : Graph) (l : Language) (policy : NullabilityPolicy)
    (o : ResolverOptions) (calls : List Call) :
    let e := (Profile.forLanguage l).escaper o.reservedWords
    let names := ((Resolver.new g (.forLanguage l) policy o).after calls).table.emittedNames
    ((∀ word, e.isReserved word = true → e.style.decorate word ∉ o.reservedWords) →
      ∀ name ∈ names, e.isReserved name = false) ∧
    ∀ name ∈ names, e.isReserved name = true → name ∈ o.reservedWords ∧
      ∃ word, e.isReserved word = true ∧ e.style.decorate word = name := by
  intro e names
  have hdecorated : ∀ name ∈ names, e.isReserved name = true → name ∈ o.reservedWords ∧
      ∃ word, e.isReserved word = true ∧ e.style.decorate word = name := by
    intro name hname hreserved
    have hescaped : e.IsEscaped name := Resolver.isEscaped_of_mem_emittedNames calls hname
    exact Profile.mem_extra_of_isReserved hescaped hreserved
  refine ⟨?_, hdecorated⟩
  intro hforms name hname
  by_contra hreserved
  obtain ⟨hextra, word, hword, rfl⟩ := hdecorated name hname (by simpa using hreserved)
  exact hforms word hword hextra

/-! ## A school -/

namespace School

/-- The identifier of a shape of the school. -/
def shape (name : String) : ShapeId := ⟨"school", name, none⟩

/-- Most names of the school are keywords of some language. -/
def nodes : List Node :=
  [ ⟨shape "Text", .primitive .string, .empty⟩,
    ⟨shape "lesson", .record
      [ ⟨"class", shape "Text", .empty⟩, ⟨"Class", shape "grade", .empty⟩,
        ⟨"match", shape "result", .empty⟩ ], .empty⟩,
    ⟨shape "grade", .enum [⟨"Pass", "p"⟩, ⟨"None", "n"⟩], .empty⟩,
    ⟨shape "result", .union [⟨"try", shape "grade", .empty⟩], .empty⟩,
    ⟨shape "import", .operation (some (shape "lesson")) none [], .empty⟩,
    ⟨shape "staff", .service [shape "import"], .empty⟩ ]

/-- The school in one of the languages, with further words to escape. -/
def resolver (l : Language) (extra : List String) (fallback : Option String) : Resolver :=
  .new (.ofNodesD nodes) (.forLanguage l) (NullabilityMode.policy .structural)
    { reservedWords := extra, fallbackVariant := fallback }

/-- The names of the school, when everything is resolved. -/
def names (l : Language) (extra : List String) (fallback : Option String) : List String :=
  ((resolver l extra fallback).after [.all]).table.emittedNames

end School

/-- With one more word to escape and a keyword for the fallback, no name of the school is reserved;
`Pass` is not, since Python writes variants in capitals. -/
theorem school_names_not_reserved :
    School.names .python ["match"] (some "pass") =
      [ "Grade", "PASS", "NONE", "pass_", "import_", "Lesson", "Result", "pass_", "Staff", "class_",
        "class2", "match_", "TRY" ] ∧
    (∀ word, (Profile.python.escaper ["match"]).isReserved word = true →
      EscapeStyle.decorate (.trailing "_") word ∉ ["match"]) ∧
    ∀ name ∈ School.names .python ["match"] (some "pass"),
      (Profile.python.escaper ["match"]).isReserved name = false := by
  have hforms : ∀ word, (Profile.python.escaper ["match"]).isReserved word = true →
      EscapeStyle.decorate (.trailing "_") word ∉ ["match"] := by
    have hall : ∀ word ∈ Language.python.reservedWords ++ ["match"],
        EscapeStyle.decorate (.trailing "_") word ∉ ["match"] := by decide +kernel
    intro word hword
    exact hall word (List.contains_iff_mem.1 hword)
  have hschool := emitted_names_not_reserved (.ofNodesD School.nodes) .python
    (NullabilityMode.policy .structural)
    { reservedWords := ["match"], fallbackVariant := some "pass" } [.all]
  exact ⟨by decide +kernel, hforms, hschool.1 hforms⟩

/-- If `class_` is to be escaped too, the school still has a member of this name. -/
theorem school_emits_reserved_name :
    (School.resolver .python ["class_"] none).resolveAll.endsWell {} = true ∧
    "class_" ∈ School.names .python ["class_"] none ∧
    (Profile.python.escaper ["class_"]).isReserved "class_" = true := by
  decide +kernel

end SchemaSymbols
