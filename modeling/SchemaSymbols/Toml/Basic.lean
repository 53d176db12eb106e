/-
  TOML values: what a configuration file can say.
-/
import SchemaSymbols.Decimal.Binary64

namespace SchemaSymbols

/-- A TOML value; a date or time is kept as its normal text. -/
inductive Toml where
  | bool (value : Bool)
  | integer (value : Int)
  | float (value : Binary64)
  | text (value : String)
  | moment (text : String)
  | array (items : List Toml)
  | table (fields : List (String × Toml))
deriving Inhabited

namespace Toml

/-- The least integer. -/
def minInteger : Int := -9223372036854775808

/-- The greatest integer. -/
def maxInteger : Int := 9223372036854775807

/-- An integer that lies within bounds. -/
def integer? (n : Int) : Option Toml :=
  if minInteger ≤ n ∧ n ≤ maxInteger then some (integer n) else none

end Toml

end SchemaSymbols
