/-
  Key paths: keys that lead into a configuration.

  A path starts with a name.  A point and a name lead on to a field of a table, and a number in
  brackets to an item of an array, counted from the end if it is negative.  What is missing on the
  way is made, and what stands in the way gives way; only an index that no array can have, because
  it lies before the start or too far from it, leads nowhere.
-/
import SchemaSymbols.Settings.Value
import SchemaSymbols.Text.Digits
import SchemaSymbols.Text.Reader

namespace SchemaSymbols

/-- One step of a key path. -/
inductive KeyStep where
  /-- Into a field of a table. -/
  | field (name : String)
  /-- Into an item of an array. -/
  | item (index : Int)
deriving DecidableEq, Repr

namespace KeyPath

/-- Whether a character may stand in a name. -/
def isNameChar (c : Char) : Bool := c.isAlphanum || c = ' ' || c = '_' || c = '-'

/-- A name. -/
def name : Reader String := do
  match ← Reader.span isNameChar with
  | [] => failure
  | chars => return String.ofList chars

/-- Skips blanks. -/
def blanks : Reader Unit := discard <| Reader.span fun c => c = ' ' || c = '\t'

/-- A number in the bounds of integers, perhaps with a minus, and blanks around it. -/
def index : Reader Int := do
  blanks
  let negative ← Reader.accept ['-']
  let digits ← Reader.span Char.isDigit
  blanks
  let n : Int := Text.decimalValue digits
  let n := if negative then -n else n
  if digits = [] ∨ n < Toml.minInteger ∨ Toml.maxInteger < n then failure
  return n

/-- A step that is not the first. -/
def step : Reader KeyStep := do
  if ← Reader.accept ['.'] then return .field (← name)
  Reader.expect ['[']
  let i ← index
  Reader.expect [']']
  return .item i

/-- The steps up to the end of a text. -/
def steps : Nat → Reader (List KeyStep)
  | 0 => failure
  | n + 1 => do
    if (← get).isEmpty then return []
    return (← step) :: (← steps n)

/-- The steps of a key; a key that is no path leads to the field of that name. -/
def ofKey (key : String) : List KeyStep :=
  let path : Reader (List KeyStep) := do
    let first ← name
    return .field first :: (← steps (← Reader.rounds))
  (path.whole? key.toList).getD [.field key]

end KeyPath

namespace ConfigValue

/-- The number of items that an array can be made to hold. -/
def maxItems : Nat := 0x4000000

/-- The place of an index in an array of a length.  A negative index counts from the end and must
not lie before the start; another one may lie behind the end. -/
def place? (length : Nat) (index : Int) : Option Nat :=
  let fromEnd := (-index).toNat
  if 0 ≤ index then
    if index.toNat < maxItems then some index.toNat else none
  else if fromEnd ≤ length then some (length - fromEnd)
  else none

/-- Changes the item at an index, in an array that is made as long as it takes. -/
def changeItem? (index : Int) (f : ConfigValue → Option ConfigValue) (items : List ConfigValue) :
    Option (List ConfigValue) := do
  let i ← place? items.length index
  let longer := items ++ List.replicate (i + 1 - items.length) nothing
  return longer.set i (← f (longer.getD i nothing))

/-- Puts a value at the end of a path.  In a table it is merged with what is there, and in an array
it takes the place of what is there. -/
def setAt? (new : ConfigValue) : List KeyStep → ConfigValue → Option ConfigValue
  | [], _ => some new
  | [.field name], old => some (table (merge old.fields name new))
  | .field name :: rest, old => do
    let key := Text.lower name
    let inner ← setAt? new rest ((old.fields.lookup key).getD nothing)
    return table (put old.fields key inner)
  | .item index :: rest, old => do
    return array (← changeItem? index (setAt? new rest) old.items)

/-- Puts a layer over a configuration; the keys of a layer are paths, and all must lead somewhere.
-/
def overlay? (base : ConfigValue) (layer : List (String × ConfigValue)) : Option ConfigValue :=
  layer.foldlM (fun base f => setAt? f.2 (KeyPath.ofKey f.1) base) base

end ConfigValue

end SchemaSymbols
