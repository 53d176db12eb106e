/-
  Small letters, for the comparison of names that consist of ASCII characters.

  Among all other characters only the Kelvin sign has an ASCII character as its small letter, so a
  text has an ASCII name as its small form exactly if it has it here.
-/

namespace SchemaSymbols.Text

/-- The small form of a character. -/
def lowerChar (c : Char) : Char := if c = '\u212a' then 'k' else c.toLower

/-- A text in small letters. -/
def lower (s : String) : String := String.ofList (s.toList.map lowerChar)

end SchemaSymbols.Text
