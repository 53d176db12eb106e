/-
  Reading typed values out of JSON.

  Records are written as objects or, field by field, as arrays; choices as the word for the chosen
  alternative or as an object with that one field.  Fields that a record does not know are skipped,
  whatever they hold; a known field that occurs twice is an error.  Every reader is a partial
  function `Json → Option α`.
-/
import SchemaSymbols.Json.Basic
import SchemaSymbols.Text.Digits

namespace SchemaSymbols.Json

/-- A text. -/
def text? : Json → Option String
  | string s => some s
  | _ => none

/-- A truth value. -/
def bool? : Json → Option Bool
  | bool b => some b
  | _ => none

/-- A number written with digits alone. -/
def natural? : Json → Option Nat
  | number n =>
    if n.toList.all Char.isDigit then some (Text.decimalValue n.toList) else none
  | _ => none

/-- A list of values that `read` accepts. -/
def list? {α : Type} (read : Json → Option α) : Json → Option (List α)
  | array items => items.mapM read
  | _ => none

/-- A value or `null`. -/
def nullable? {α : Type} (read : Json → Option α) : Json → Option (Option α)
  | null => some none
  | v => (read v).map some

/-! ## Records -/

/-- The only value of a field: `none` if the field occurs twice, `some none` if it is absent. -/
def field? (fields : List (String × Json)) (name : String) : Option (Option Json) :=
  match fields.filter (fun f => f.1 == name) with
  | [] => some none
  | [f] => some (some f.2)
  | _ => none

/-- The values of the fields `names` of a record, absent ones as `none`.  An array gives the first
fields by position and may not be longer than the record. -/
def record? (names : List String) : Json → Option (List (Option Json))
  | object fields => names.mapM (field? fields)
  | array items =>
    if items.length ≤ names.length then
      some (items.map some ++ List.replicate (names.length - items.length) none)
    else none
  | _ => none

/-- A field that must be there. -/
def required? {α : Type} (read : Json → Option α) (field : Option Json) : Option α := field >>= read

/-- A field with a value for its absence. -/
def defaulted? {α : Type} (absent : α) (read : Json → Option α) : Option Json → Option α
  | none => some absent
  | some v => read v

/-- A field that may be absent or `null`. -/
def optional? {α : Type} (read : Json → Option α) : Option Json → Option (Option α)
  | none => some none
  | some v => nullable? read v

/-! ## Choices -/

/-- Which forms of a choice's payload are accepted besides the plain one: no payload is plainly
`null`, and a record is plainly an object. -/
structure Leniency where
  /-- An empty object may stand for no payload. -/
  emptyObject : Bool := false
  /-- An array may give the fields of a record by position. -/
  positional : Bool := false
deriving DecidableEq, Repr, Inhabited

namespace Leniency

/-- Of values that stand alone, only the plain forms are accepted. -/
def plain : Leniency := {}

/-- In a snapshot, records may be given by position. -/
def snapshot : Leniency := { positional := true }

/-- Inside the fields of a shape, both other forms are accepted. -/
def nested : Leniency := { emptyObject := true, positional := true }

end Leniency

/-- Whether a value stands for no payload. -/
def isUnit (lenient : Leniency) : Json → Bool
  | null => true
  | object [] => lenient.emptyObject
  | _ => false

/-- Whether a value may stand for the record that is a payload. -/
def isRecord (lenient : Leniency) : Json → Bool
  | object _ => true
  | array _ => lenient.positional
  | _ => false

/-- One of several alternatives without payload. -/
def choice? {α : Type} (lenient : Leniency) (alternatives : List (String × α)) : Json → Option α
  | string s => alternatives.lookup s
  | object [(s, payload)] => if payload.isUnit lenient then alternatives.lookup s else none
  | _ => none

end SchemaSymbols.Json
