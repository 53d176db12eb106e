/-
  Tags: the annotations that shapes and members carry.

  A tag set is ordered by the kind of tag and then by its payload, so a lookup that asks for the
  payload of one kind finds the least of several.
-/
import SchemaSymbols.ShapeId

namespace SchemaSymbols

open Std

/-- Who is to blame for an error. -/
inductive Blame where
  | client
  | server
deriving DecidableEq, Repr, Inhabited

namespace Blame

/-- The word for a side. -/
def text : Blame → String
  | client => "client"
  | server => "server"

/-- The sides by their words. -/
def byText : List (String × Blame) := [client, server].map fun b => (b.text, b)

end Blame

/-- An annotation of a shape or of a member. -/
inductive Tag where
  /-- Values of the record must be comparable and hashable. -/
  | equality
  /-- The record is an error of an operation. -/
  | error (blame : Blame)
  /-- The value must not show up in logs. -/
  | sensitive
  /-- Elements of the collection may be null. -/
  | elementNullable
  /-- The member closes a cycle and is always boxed. -/
  | recursive
  /-- The member is always present. -/
  | required
  /-- The value of an absent member, as a literal of the target language. -/
  | default (literal : String)
  /-- The shape belongs into the namespace of a service. -/
  | nestedUnder (service : ShapeId)
  /-- The record is a copy of another one. -/
  | cloneOf (source : ShapeId)
  /-- The shape was made, not declared. -/
  | synthetic
  /-- The record is the input of an operation. -/
  | input
  /-- The record is the output of an operation. -/
  | output
  /-- Anything else. -/
  | custom (key : String) (value : Option String)
deriving DecidableEq, Repr, Inhabited

namespace Tag

/-- The position of a tag's kind among the kinds. -/
def rank : Tag → Nat
  | equality => 0
  | error _ => 1
  | sensitive => 2
  | elementNullable => 3
  | recursive => 4
  | required => 5
  | default _ => 6
  | nestedUnder _ => 7
  | cloneOf _ => 8
  | synthetic => 9
  | input => 10
  | output => 11
  | custom _ _ => 12

/-- The payload of a tag, as texts in the order in which they are compared. -/
def payload : Tag → List String
  | error blame => [blame.text]
  | default literal => [literal]
  | nestedUnder id => id.scope :: id.name :: id.member.toList
  | cloneOf id => id.scope :: id.name :: id.member.toList
  | custom key value => key :: value.toList
  | _ => []

/-- Compares kinds, then payloads. -/
def order : Tag → Tag → Ordering := compareLex (compareOn rank) (compareOn payload)

instance : Ord Tag := ⟨order⟩

instance : TransOrd Tag := inferInstanceAs <| TransCmp <|
  compareLex (compareOn rank) (compareOn payload)

/-- Tags of one kind with one payload are the same. -/
theorem ext_rank_payload {a b : Tag} (hr : a.rank = b.rank) (hp : a.payload = b.payload) :
    a = b := by
  have id_eq : ∀ {i j : ShapeId}, i.scope = j.scope → i.name = j.name →
      i.member.toList = j.member.toList → i = j := by
    intro i j h1 h2 h3
    cases i with | mk s n m => cases j with | mk s' n' m' =>
      cases m <;> cases m' <;> simp_all
  cases a <;> cases b <;> simp_all [rank, payload]
  · next x y => cases x <;> cases y <;> simp_all [Blame.text]
  · exact id_eq hp.1 hp.2.1 hp.2.2
  · exact id_eq hp.1 hp.2.1 hp.2.2
  · next v _ w => cases v <;> cases w <;> simp_all

instance : LawfulEqOrd Tag where
  compare_self := ReflCmp.compare_self
  eq_of_compare {a b} h := by
    change order a b = .eq at h
    simp only [order, compareLex, compareOn, Ordering.then_eq_eq, Std.compare_eq_iff_eq] at h
    exact ext_rank_payload h.1 h.2

/-! ## JSON -/

/-- The word for a tag's kind. -/
def word : Tag → String
  | equality => "derived-equality-required"
  | error _ => "error-marker"
  | sensitive => "sensitive"
  | elementNullable => "element-nullable"
  | recursive => "structurally-recursive"
  | required => "required"
  | default _ => "default"
  | nestedUnder _ => "nested-under"
  | cloneOf _ => "clone-of"
  | synthetic => "synthetic"
  | input => "input"
  | output => "output"
  | custom _ _ => "custom"

/-- The tags without payload, by their words. -/
def plainByWord : List (String × Tag) :=
  [equality, sensitive, elementNullable, recursive, required, synthetic, input, output].map
    fun t => (t.word, t)

/-- The JSON form of a tag. -/
def toJson (t : Tag) : Json :=
  match t with
  | error blame => .object [(t.word, .string blame.text)]
  | default literal => .object [(t.word, .string literal)]
  | nestedUnder id => .object [(t.word, id.toJson)]
  | cloneOf id => .object [(t.word, id.toJson)]
  | custom key none => .object [(t.word, .object [("key", .string key)])]
  | custom key (some value) =>
    .object [(t.word, .object [("key", .string key), ("value", .string value)])]
  | _ => .string t.word

/-- Reads the key and value of a custom tag. -/
def custom? (lenient : Json.Leniency) (v : Json) : Option Tag := do
  guard (v.isRecord lenient)
  let [key, value] ← v.record? ["key", "value"] | none
  return custom (← Json.required? Json.text? key) (← Json.optional? Json.text? value)

/-- Reads a tag with a payload, given its word and payload. -/
def loaded? (lenient : Json.Leniency) (word : String) (v : Json) : Option Tag :=
  if word = "error-marker" then (v.choice? lenient Blame.byText).map error
  else if word = "default" then v.text?.map default
  else if word = "nested-under" then (ShapeId.ofJson? v).map nestedUnder
  else if word = "clone-of" then (ShapeId.ofJson? v).map cloneOf
  else if word = "custom" then custom? lenient v
  else none

/-- Reads a tag. -/
def ofJson? (lenient : Json.Leniency) (v : Json) : Option Tag :=
  match v.choice? lenient plainByWord with
  | some t => some t
  | none =>
    match v with
    | .object [(word, payload)] => loaded? lenient word payload
    | _ => none

end Tag

/-- A set of tags. -/
abbrev TagSet := SortedSet Tag

namespace TagSet

/-- The literal for an absent member. -/
def default? (tags : TagSet) : Option String :=
  tags.toList.findSome? fun | .default literal => some literal | _ => none

/-- Who is to blame for the error that a record describes. -/
def blame? (tags : TagSet) : Option Blame :=
  tags.toList.findSome? fun | .error blame => some blame | _ => none

/-- The record that a record is a copy of. -/
def cloneOf? (tags : TagSet) : Option ShapeId :=
  tags.toList.findSome? fun | .cloneOf id => some id | _ => none

/-- The service in whose namespace a shape belongs. -/
def nestedUnder? (tags : TagSet) : Option ShapeId :=
  tags.toList.findSome? fun | .nestedUnder id => some id | _ => none

/-- The JSON form of a tag set. -/
def toJson (tags : TagSet) : Json := .array (tags.toList.map Tag.toJson)

/-- Reads a tag set; repetitions count once. -/
def ofJson? (lenient : Json.Leniency) (v : Json) : Option TagSet :=
  (v.list? (Tag.ofJson? lenient)).map Sorted.ofList

/-- The field of a tag set, left out when it is empty. -/
def fields (tags : TagSet) : List (String × Json) :=
  if tags.isEmpty then [] else [("tags", toJson tags)]

end TagSet

end SchemaSymbols
