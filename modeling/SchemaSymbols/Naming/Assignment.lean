/-
  Assigning names: distinct identifiers for the members or variants of one type.

  Names are taken in turn.  Each is cased and escaped; if an earlier one has the result already, a
  number from 2 up is added to the cased name until the result is free.  The escaper changes at
  most as many candidates as it has reserved words, and the others are distinct, so one more than
  the names taken and the words reserved is enough candidates to try.
-/
import SchemaSymbols.Naming.Casing
import SchemaSymbols.Naming.Escaper

namespace SchemaSymbols

/-- How names become identifiers. -/
structure Namer where
  escaper : Escaper
  options : NamingOptions
deriving DecidableEq, Repr, Inhabited

/-- A name on its way: as declared, cased, with a number if need be, and escaped. -/
structure AssignedName where
  wire : String
  cased : String
  candidate : String
  name : String
deriving DecidableEq, Repr, Inhabited

namespace Namer

/-- The first of `candidates 0, candidates 1, …` whose escaped form is not taken. -/
def firstFree (n : Namer) (candidates : Nat → String) (taken : List String) : String :=
  let enough := taken.length + n.escaper.reserved.length + 1
  let free (k : Nat) : Bool := !taken.contains (n.escaper.escape (candidates k))
  candidates (((List.range enough).find? free).getD enough)

/-- The candidates for a cased name: the name itself, then with 2, 3, … after it. -/
def numbered (cased : String) : Nat → String
  | 0 => cased
  | k + 1 => cased ++ toString (k + 2)

/-- A cased name; names without words are called `value`. -/
def casedName (n : Namer) (casing : Casing) (wire : String) : String :=
  let cased := n.options.apply casing wire
  if cased.isEmpty then "value" else cased

/-- Assigns a name that is not taken. -/
def assignOne (n : Namer) (casing : Casing) (taken : List String) (wire : String) : AssignedName :=
  let cased := n.casedName casing wire
  let candidate := n.firstFree (numbered cased) taken
  { wire, cased, candidate, name := n.escaper.escape candidate }

/-- Assigns names one after the other. -/
def assignFrom (n : Namer) (casing : Casing) (taken : List String) :
    List String → List AssignedName
  | [] => []
  | wire :: rest =>
    let a := n.assignOne casing taken wire
    a :: n.assignFrom casing (taken ++ [a.name]) rest

/-- Assigns distinct names. -/
def assign (n : Namer) (casing : Casing) (wires : List String) : List AssignedName :=
  n.assignFrom casing [] wires

/-- The candidates for a fallback: the name itself, then with one, two, … underscores after it. -/
def underscored (name : String) (k : Nat) : String :=
  name ++ String.ofList (List.replicate k '_')

/-- A fallback name that none of the variants has. -/
def fallback (n : Namer) (wanted : String) (variants : List String) : String :=
  n.escaper.escape (n.firstFree (underscored wanted) variants)

/-- The escaped type name for a shape of this name. -/
def typeName (n : Namer) (name : String) : String := n.escaper.escape (n.options.typeName name)

end Namer

end SchemaSymbols
