/-
  Dates and times that are spelled as tables.

  A table whose first key is a certain mark stands for the date or time that the text under this
  key spells, whatever else it holds.
-/
import SchemaSymbols.Toml.Scalar

namespace SchemaSymbols.Toml

/-- The key that marks a table as a date or time. -/
def momentMark : String := "$__toml_private_datetime"

mutual

/-- Puts dates and times in the place of the tables that spell them.  A table that has the mark and
spells none is refused. -/
def readMoments? : Toml → Option Toml
  | table fields =>
    match fields with
    | [] => some (table [])
    | (key, v) :: rest =>
      if key = momentMark then
        match v with
        | text s => moment? s.toList
        | _ => none
      else do return table ((key, ← readMoments? v) :: (← readFields? rest))
  | array items => do return array (← readItems? items)
  | v => some v

/-- The same in all items of an array. -/
def readItems? : List Toml → Option (List Toml)
  | [] => some []
  | v :: rest => do return (← readMoments? v) :: (← readItems? rest)

/-- The same in all fields of a table. -/
def readFields? : List (String × Toml) → Option (List (String × Toml))
  | [] => some []
  | (key, v) :: rest => do return (key, ← readMoments? v) :: (← readFields? rest)

end

end SchemaSymbols.Toml
