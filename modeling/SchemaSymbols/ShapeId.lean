/-
  Shape identifiers.

  A shape is named by a namespace and a name, written `namespace#Name`; a member of a shape adds
  its own name, as in `namespace#Name$member`.  Identifiers are ordered part by part, and a shape
  comes before its members, which is not the order of the written forms.
-/
import SchemaSymbols.Json.Decode
import SchemaSymbols.Sorted
import SchemaSymbols.Text.Split

namespace SchemaSymbols

open Std

/-- The identifier of a shape, or of a member of a shape. -/
structure ShapeId where
  scope : String
  name : String
  member : Option String := none
deriving DecidableEq, Repr, Inhabited

namespace ShapeId

/-- The identifier of a member of this shape. -/
def withMember (id : ShapeId) (member : String) : ShapeId := { id with member := some member }

/-- The identifier of the shape that a member belongs to; a shape is its own root. -/
def root (id : ShapeId) : ShapeId := { id with member := none }

/-! ## The written form -/

/-- The written form of an identifier. -/
def text (id : ShapeId) : String :=
  match id.member with
  | none => id.scope ++ "#" ++ id.name
  | some member => id.scope ++ "#" ++ id.name ++ "$" ++ member

instance : ToString ShapeId := ⟨text⟩

/-- Reads the part of a written form after the namespace. -/
def parseRest? (scope rest : List Char) : Option ShapeId :=
  match Text.cut? '$' rest with
  | none => if rest = [] then none else some ⟨String.ofList scope, String.ofList rest, none⟩
  | some (name, member) =>
    if name = [] ∨ member = [] then none
    else some ⟨String.ofList scope, String.ofList name, some (String.ofList member)⟩

/-- Reads a written form: a non-empty namespace up to the first `#`, a non-empty name up to the
first `$` after it, and, if there is such a mark, a non-empty member. -/
def parse? (s : String) : Option ShapeId := do
  let (scope, rest) ← Text.cut? '#' s.toList
  if scope = [] then none else parseRest? scope rest

/-- Reads an identifier from JSON. -/
def ofJson? (v : Json) : Option ShapeId := v.text? >>= parse?

/-- The JSON form of an identifier. -/
def toJson (id : ShapeId) : Json := .string id.text

/-! ## The order -/

/-- Compares namespaces, then names, then members. -/
def order : ShapeId → ShapeId → Ordering :=
  compareLex (compareOn scope) (compareLex (compareOn name) (compareOn member))

instance : Ord ShapeId := ⟨order⟩

instance : TransOrd ShapeId := inferInstanceAs <| TransCmp <|
  compareLex (compareOn scope) (compareLex (compareOn name) (compareOn member))

instance : LawfulEqOrd ShapeId where
  compare_self := ReflCmp.compare_self
  eq_of_compare {a b} h := by
    change order a b = .eq at h
    simp only [order, compareLex, compareOn, Ordering.then_eq_eq, Std.compare_eq_iff_eq] at h
    cases a; cases b; simp_all

/-- Whether `a` does not come after `b`. -/
def le (a b : ShapeId) : Bool := (compare a b).isLE

/-- The identifiers of a list in increasing order, repetitions kept. -/
def sort (ids : List ShapeId) : List ShapeId := ids.mergeSort le

end ShapeId

end SchemaSymbols
