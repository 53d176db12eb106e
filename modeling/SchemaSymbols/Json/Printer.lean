/-
  From values to JSON text, in two layouts.

  The compact layout has no blanks; the indented one puts every item and field on a line of its
  own, two spaces deeper than the bracket around it.  In strings the quote, the backslash and the
  control characters are escaped, and everything else stands for itself.
-/
import SchemaSymbols.Json.Basic

namespace SchemaSymbols.Json

/-- The lower-case hexadecimal digit of a number below 16. -/
def hexChar (n : Nat) : Char :=
  if n < 10 then Char.ofNat ('0'.toNat + n) else Char.ofNat ('a'.toNat + (n - 10))

/-- A character as it is written inside a string. -/
def escapeChar (c : Char) : List Char :=
  if c = '"' then ['\\', '"']
  else if c = '\\' then ['\\', '\\']
  else if c = '\x08' then ['\\', 'b']
  else if c = '\x0c' then ['\\', 'f']
  else if c = '\n' then ['\\', 'n']
  else if c = '\r' then ['\\', 'r']
  else if c = '\t' then ['\\', 't']
  else if c.toNat < 0x20 then ['\\', 'u', '0', '0', hexChar (c.toNat / 16), hexChar (c.toNat % 16)]
  else [c]

/-- A text in quotes. -/
def quoted (s : String) : List Char := '"' :: s.toList.flatMap escapeChar ++ ['"']

/-- A value that takes no brackets, or the word for a literal without value. -/
def scalarChars : Json → List Char
  | bool true => ['t', 'r', 'u', 'e']
  | bool false => ['f', 'a', 'l', 's', 'e']
  | number n => n.toList
  | string s => quoted s
  | _ => ['n', 'u', 'l', 'l']

mutual

/-- The compact text of a value. -/
def compactChars : Json → List Char
  | array [] => ['[', ']']
  | array (v :: rest) => '[' :: compactChars v ++ compactItems rest ++ [']']
  | object [] => ['\x7b', '\x7d']
  | object ((k, v) :: rest) =>
    '\x7b' :: quoted k ++ ':' :: compactChars v ++ compactFields rest ++ ['\x7d']
  | v => scalarChars v

/-- The items of an array after the first. -/
def compactItems : List Json → List Char
  | [] => []
  | v :: rest => ',' :: compactChars v ++ compactItems rest

/-- The fields of an object after the first. -/
def compactFields : List (String × Json) → List Char
  | [] => []
  | (k, v) :: rest => ',' :: quoted k ++ ':' :: compactChars v ++ compactFields rest

end

/-- A new line that starts `level` steps in. -/
def newLine (level : Nat) : List Char := '\n' :: List.replicate (2 * level) ' '

mutual

/-- The indented text of a value that stands `level` steps in. -/
def indentedChars (level : Nat) : Json → List Char
  | array [] => ['[', ']']
  | array (v :: rest) =>
    '[' :: newLine (level + 1) ++ indentedChars (level + 1) v ++ indentedItems (level + 1) rest
      ++ newLine level ++ [']']
  | object [] => ['\x7b', '\x7d']
  | object ((k, v) :: rest) =>
    '\x7b' :: newLine (level + 1) ++ quoted k ++ ':' :: ' ' :: indentedChars (level + 1) v
      ++ indentedFields (level + 1) rest ++ newLine level ++ ['\x7d']
  | v => scalarChars v

/-- The items of an array after the first. -/
def indentedItems (level : Nat) : List Json → List Char
  | [] => []
  | v :: rest => ',' :: newLine level ++ indentedChars level v ++ indentedItems level rest

/-- The fields of an object after the first. -/
def indentedFields (level : Nat) : List (String × Json) → List Char
  | [] => []
  | (k, v) :: rest =>
    ',' :: newLine level ++ quoted k ++ ':' :: ' ' :: indentedChars level v
      ++ indentedFields level rest

end

/-- The compact text of a value. -/
def compact (v : Json) : String := String.ofList (compactChars v)

/-- The indented text of a value. -/
def indented (v : Json) : String := String.ofList (indentedChars 0 v)

end SchemaSymbols.Json
