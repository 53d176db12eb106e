/-
  Symbols: what a shape is in the target language.

  A symbol has a name, a place, a default and a kind.  A record or union does not hold its members,
  so a symbol is finite even if the shape is recursive; a collection does hold the symbols of its
  elements.  A symbol that describes a shape can be adjusted to one use of it: whether that use may
  be null, has a default, or is boxed.
-/
import SchemaSymbols.Profile.Basic

namespace SchemaSymbols

open Std

/-- A reference to a symbol: its shape, the namespace it lives in, and its name. -/
structure SymbolRef where
  shape : ShapeId
  scope : List String
  name : String
deriving DecidableEq, Repr, Inhabited

namespace SymbolRef

/-- Compares shapes, then namespaces, then names. -/
def order : SymbolRef → SymbolRef → Ordering :=
  compareLex (compareOn shape) (compareLex (compareOn scope) (compareOn name))

instance : Ord SymbolRef := ⟨order⟩

instance : TransOrd SymbolRef := inferInstanceAs <| TransCmp <|
  compareLex (compareOn shape) (compareLex (compareOn scope) (compareOn name))

instance : LawfulEqOrd SymbolRef where
  compare_self := ReflCmp.compare_self
  eq_of_compare {a b} h := by
    change order a b = .eq at h
    simp only [order, compareLex, compareOn, Ordering.then_eq_eq, Std.compare_eq_iff_eq] at h
    cases a; cases b; simp_all

end SymbolRef

/-- What a declared type must support. -/
inductive Conformance where
  | equatable
  | hashable
  | error
deriving DecidableEq, Repr, Inhabited

/-- The word for a conformance. -/
def Conformance.text : Conformance → String
  | equatable => "Equatable"
  | hashable => "Hashable"
  | error => "Error"

/-- What symbols of all kinds have. -/
structure SymbolFacts where
  shape : ShapeId
  displayName : String
  scope : List String := []
  nullable : Bool
  default? : Option String := none
  /-- Whether the value is kept behind a reference. -/
  boxed : Bool := false
  /-- The file that declares the type, for records, unions and enumerations. -/
  file? : Option String := none
  /-- The declared types that the type refers to. -/
  dependencies : SortedSet SymbolRef := .empty
  conformances : List Conformance := []
deriving DecidableEq, Repr, Inhabited

/-- What a symbol stands for.  The kind of a collection holds the symbols of its elements, the
facts and the kind of each. -/
inductive SymbolKind where
  | builtin (primitive : PrimitiveKind)
  | record
  | union (fallback : String)
  | enum (variants : List EnumValue) (fallback : String)
  | list (element : SymbolFacts) (elementKind : SymbolKind) (sparse : Bool)
  | set (element : SymbolFacts) (elementKind : SymbolKind) (sparse : Bool)
  | map (key : SymbolFacts) (keyKind : SymbolKind) (value : SymbolFacts) (valueKind : SymbolKind)
    (sparse : Bool)
  | operation (input output : Option SymbolRef) (errors : List SymbolRef)
  | service (operations : List SymbolRef)
deriving DecidableEq, Repr, Inhabited

/-- The word for a kind of symbol. -/
def SymbolKind.word : SymbolKind → String
  | builtin _ => "builtin"
  | record => "record"
  | union _ => "union"
  | enum _ _ => "enum"
  | list _ _ _ => "list"
  | set _ _ _ => "set"
  | map _ _ _ _ _ => "map"
  | operation _ _ _ => "operation"
  | service _ => "service"

/-- A type, operation or service in the target language. -/
structure Symbol extends SymbolFacts where
  kind : SymbolKind
deriving DecidableEq, Repr, Inhabited

namespace SymbolFacts

/-- The type in full: boxed and optional where it is so. -/
def typeExpr (s : SymbolFacts) (l : Language) : String :=
  let type := if s.boxed then l.boxOf s.displayName else s.displayName
  if s.nullable then l.optionalOf type else type

end SymbolFacts

namespace Symbol

/-- The shape that a symbol is for, by which symbols are filed. -/
def key (s : Symbol) : ShapeId := s.shape

/-- A reference to a symbol. -/
def reference (s : Symbol) : SymbolRef := ⟨s.shape, s.scope, s.displayName⟩

/-- Whether a symbol has a declaration of its own. -/
def isDeclared (s : Symbol) : Bool := s.file?.isSome

/-- The symbol as it is used in one place. -/
def atUse (s : Symbol) (nullable : Bool) (default? : Option String) (boxed : Bool) : Symbol :=
  { s with nullable, default?, boxed }

end Symbol

/-- A record member or union variant, bound to the symbol of its target. -/
structure Binding where
  id : ShapeId
  /-- The name in the target language. -/
  name : String
  /-- The name in the schema. -/
  wireName : String
  sensitive : Bool
  symbol : Symbol
deriving DecidableEq, Repr, Inhabited

/-- The members of a record or union, bound. -/
structure Bindings where
  owner : ShapeId
  members : List Binding
deriving DecidableEq, Repr, Inhabited

end SchemaSymbols
