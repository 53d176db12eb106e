/-
  Configuration values, and how one is merged into another.

  Tables are merged key by key, and any other value takes the place of what was there; keys count in
  any case.
-/
import SchemaSymbols.Text.Lowercase
import SchemaSymbols.Toml.Basic

namespace SchemaSymbols

/-- A configuration value.  Positions of an array that were never given a value hold `nothing`. -/
inductive ConfigValue where
  | nothing
  | bool (value : Bool)
  | integer (value : Int)
  | float (value : Binary64)
  | text (value : String)
  | array (items : List ConfigValue)
  | table (fields : List (String × ConfigValue))
deriving Inhabited

namespace ConfigValue

/-- The fields of a table; other values have none. -/
def fields : ConfigValue → List (String × ConfigValue)
  | table fields => fields
  | _ => []

/-- The items of an array; other values have none. -/
def items : ConfigValue → List ConfigValue
  | array items => items
  | _ => []

/-! ## From TOML -/

mutual

/-- What a TOML value says; dates and times are texts. -/
def ofToml : Toml → ConfigValue
  | .bool b => bool b
  | .integer n => integer n
  | .float x => float x
  | .text s => text s
  | .moment s => text s
  | .array items => array (ofItems items)
  | .table fields => table (ofFields fields)

/-- What the items of an array say. -/
def ofItems : List Toml → List ConfigValue
  | [] => []
  | v :: rest => ofToml v :: ofItems rest

/-- What the fields of a table say. -/
def ofFields : List (String × Toml) → List (String × ConfigValue)
  | [] => []
  | (key, v) :: rest => (key, ofToml v) :: ofFields rest

end

/-! ## Merging -/

/-- Files a value under a key, in the place of a value that stands there. -/
def put (fields : List (String × ConfigValue)) (key : String) (v : ConfigValue) :
    List (String × ConfigValue) :=
  if fields.any fun f => f.1 == key then
    fields.map fun f => if f.1 == key then (key, v) else f
  else fields ++ [(key, v)]

mutual

/-- Merges a value into the field `key` of a table. -/
def merge (fields : List (String × ConfigValue)) (key : String) :
    ConfigValue → List (String × ConfigValue)
  | table more =>
    let key := Text.lower key
    put fields key (mergeAll ((fields.lookup key).getD (table [])) more)
  | v => put fields (Text.lower key) v

/-- Merges fields into a value one after the other; a value that is no table gives way to one. -/
def mergeAll (base : ConfigValue) : List (String × ConfigValue) → ConfigValue
  | [] => base
  | (key, v) :: rest => mergeAll (table (merge base.fields key v)) rest

end

end ConfigValue

end SchemaSymbols
