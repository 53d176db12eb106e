/-
  The tree that the lines of a TOML text build.

  How a table came about decides what may be added to it: a table with a header of its own is closed
  to dotted keys from outside, one that dotted keys made takes no header, and one that is only on
  the way to another table takes a header once.  Values, tables in braces included, take nothing.
-/
import SchemaSymbols.Toml.Basic

namespace SchemaSymbols.Toml

/-- How a table came about. -/
inductive Origin where
  /-- By a header of its own. -/
  | header
  /-- On the way to another table with a header. -/
  | passage
  /-- By a dotted key. -/
  | dotted
deriving DecidableEq, Repr

/-- What stands under a key while a text is being read.  Of a list of tables the last comes first,
and that is the one that later lines refer to. -/
inductive Entry where
  | value (v : Toml)
  | table (origin : Origin) (entries : List (String × Entry))
  | tables (items : List (List (String × Entry)))
deriving Inhabited

namespace Entry

mutual

/-- The value of an entry. -/
def toToml : Entry → Toml
  | value v => v
  | table _ entries => .table (fieldsOf entries)
  | tables items => .array (tablesOf items [])

/-- The values of entries. -/
def fieldsOf : List (String × Entry) → List (String × Toml)
  | [] => []
  | (k, e) :: rest => (k, toToml e) :: fieldsOf rest

/-- The values of tables, in reverse and before `done`. -/
def tablesOf : List (List (String × Entry)) → List Toml → List Toml
  | [], done => done
  | entries :: rest, done => tablesOf rest (.table (fieldsOf entries) :: done)

end

end Entry

/-- The entries of a table. -/
abbrev Entries := List (String × Entry)

namespace Entries

/-- Puts an entry under a key, in the place of an entry that stands there. -/
def put (entries : Entries) (key : String) (e : Entry) : Entries :=
  if entries.any fun f => f.1 == key then
    entries.map fun f => if f.1 == key then (key, e) else f
  else entries ++ [(key, e)]

/-- Changes the table at the end of a path.  Tables that are missing on the way are made, with the
given origin; a dotted key may not pass a table with a header.  The change sees how the table came
about. -/
def change (making : Origin) (f : Origin → Entries → Option Entries) :
    List String → Origin → Entries → Option Entries
  | [], origin, entries => f origin entries
  | key :: path, _, entries =>
    match entries.lookup key with
    | none => do
      return entries.put key (.table making (← change making f path making []))
    | some (.table origin inner) =>
      if making = .dotted ∧ origin = .header then none
      else do return entries.put key (.table origin (← change making f path origin inner))
    | some (.tables (last :: earlier)) => do
      return entries.put key (.tables ((← change making f path .header last) :: earlier))
    | some _ => none

/-- Adds an entry under a key that is free. -/
def add (key : String) (e : Entry) (entries : Entries) : Option Entries :=
  if entries.any fun f => f.1 == key then none else some (entries ++ [(key, e)])

/-- Adds a value under a dotted key, `path` being its parts but the last.  The table it goes to must
be made by dotted keys, if it is not the table at hand. -/
def addValue (path : List String) (key : String) (v : Toml) (entries : Entries) : Option Entries :=
  change .dotted (fun origin inner =>
    if path ≠ [] ∧ origin ≠ .dotted then none else add key (.value v) inner) path .header entries

/-- Opens the table of a header.  It comes last, also if it was on the way to another table
before. -/
def openTable (path : List String) (key : String) (entries : Entries) : Option Entries :=
  change .passage (fun _ inner =>
    match inner.lookup key with
    | none => some (inner ++ [(key, .table .header [])])
    | some (.table .passage found) =>
      some ((inner.filter fun f => f.1 != key) ++ [(key, .table .header found)])
    | some _ => none) path .header entries

/-- Opens one more table of a list of tables. -/
def openItem (path : List String) (key : String) (entries : Entries) : Option Entries :=
  change .passage (fun _ inner =>
    match inner.lookup key with
    | none => some (inner.put key (.tables [[]]))
    | some (.tables items) => some (inner.put key (.tables ([] :: items)))
    | some _ => none) path .header entries

end Entries

end SchemaSymbols.Toml
