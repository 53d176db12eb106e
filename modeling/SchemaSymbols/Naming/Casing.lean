/-
  Casing: how the words of a name are joined into an identifier.
-/
import SchemaSymbols.Naming.Words
import SchemaSymbols.Sorted

namespace SchemaSymbols

/-- A way to join words. -/
inductive Casing where
  | pascal
  | camel
  | snake
  | screamingSnake
deriving DecidableEq, Repr, Inhabited

namespace Casing

/-- The word for a casing. -/
def text : Casing → String
  | pascal => "pascal_case"
  | camel => "camel_case"
  | snake => "snake_case"
  | screamingSnake => "screaming_snake_case"

/-- The casings by their words. -/
def byText : List (String × Casing) :=
  [pascal, camel, snake, screamingSnake].map fun c => (c.text, c)

end Casing

/-- Which words keep their capitals. -/
structure NamingOptions where
  /-- Words that are always written in capitals. -/
  acronyms : SortedSet String :=
    Sorted.ofList ["ID", "URL", "UUID", "API", "HTTP", "JSON", "XML", "SQL", "URI", "UI", "IO"]
  /-- Whether other words that consist of capitals keep them. -/
  keepCapitals : Bool := true
deriving DecidableEq, Repr, Inhabited

namespace NamingOptions

/-- A word in capitals. -/
def upper (w : List Char) : List Char := w.map Char.toUpper

/-- A word in small letters. -/
def lower (w : List Char) : List Char := w.map Char.toLower

/-- A word with its first letter in upper case and the others in lower case. -/
def capitalized : List Char → List Char
  | [] => []
  | c :: rest => c.toUpper :: lower rest

/-- A word inside a name.  An acronym is written in capitals; other words in capitals keep them
only when `mixed`, that is, when the name has small letters besides. -/
def caseWord (o : NamingOptions) (mixed : Bool) (w : List Char) : List Char :=
  if o.acronyms.contains (String.ofList (upper w)) then upper w
  else if mixed && o.keepCapitals && w.length > 1 && w.all Char.isUpper then w
  else capitalized w

/-- Whether a name has small letters. -/
def isMixed (s : List Char) : Bool := s.any Char.isLower

/-- All words capitalized. -/
def pascal (o : NamingOptions) (s : List Char) : List Char :=
  (Naming.words s).flatMap (o.caseWord (isMixed s))

/-- All words capitalized but the first, which is in small letters. -/
def camel (o : NamingOptions) (s : List Char) : List Char :=
  match Naming.words s with
  | [] => []
  | first :: rest => lower first ++ rest.flatMap (o.caseWord (isMixed s))

/-- All words changed by `f` and joined with underscores. -/
def joined (f : List Char → List Char) (s : List Char) : List Char :=
  List.intercalate ['_'] ((Naming.words s).map f)

/-- An identifier does not start with a digit. -/
def guardDigit (s : List Char) : List Char :=
  if s.head?.any Char.isDigit then '_' :: s else s

/-- A name in a casing, as an identifier; empty if the name has no words. -/
def apply (o : NamingOptions) (casing : Casing) (s : String) : String :=
  String.ofList <| guardDigit <|
    match casing with
    | .pascal => o.pascal s.toList
    | .camel => o.camel s.toList
    | .snake => joined lower s.toList
    | .screamingSnake => joined upper s.toList

/-- The type name for a shape of this name; a name without words stays as it is. -/
def typeName (o : NamingOptions) (name : String) : String :=
  match o.pascal name.toList with
  | [] => name
  | cased => String.ofList (guardDigit cased)

end NamingOptions

end SchemaSymbols
