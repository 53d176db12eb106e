/-
  Escaping: identifiers that a language reserves are decorated, and all others stay as they are.
-/
import SchemaSymbols.Language

namespace SchemaSymbols

/-- How a reserved word is made usable as an identifier. -/
inductive EscapeStyle where
  /-- The word between backticks. -/
  | backticks
  /-- The word after `r#`, or, where that is not allowed, before an underscore. -/
  | raw
  /-- The word after a fixed text. -/
  | leading (text : String)
  /-- The word before a fixed text. -/
  | trailing (text : String)
deriving DecidableEq, Repr, Inhabited

/-- The words that cannot follow `r#`. -/
def EscapeStyle.neverRaw : List String := ["self", "Self", "super", "crate"]

/-- A reserved word in a style. -/
def EscapeStyle.decorate (style : EscapeStyle) (word : String) : String :=
  match style with
  | backticks => "`" ++ word ++ "`"
  | raw => if word ∈ neverRaw then word ++ "_" else "r#" ++ word
  | leading text => text ++ word
  | trailing text => word ++ text

/-- The words to escape, and how. -/
structure Escaper where
  style : EscapeStyle
  reserved : List String
deriving DecidableEq, Repr, Inhabited

namespace Escaper

/-- Whether a word is reserved. -/
def isReserved (e : Escaper) (word : String) : Bool := e.reserved.contains word

/-- The word, decorated if it is reserved. -/
def escape (e : Escaper) (word : String) : String :=
  if e.isReserved word then e.style.decorate word else word

end Escaper

end SchemaSymbols
