/-
  Splitting a name into words.

  Only ASCII letters and digits make up words; everything else separates.  A word starts at a
  capital that follows a small letter or a digit, and a row of capitals in front of a small letter
  gives its last capital to the word that the small letter belongs to: `HTTPServer` is `HTTP` and
  `Server`.
-/

namespace SchemaSymbols.Naming

/-- Whether a character can follow the capitals of a word. -/
def isSmall (c : Char) : Bool := c.isLower || c.isDigit

/-- The runs of a text: capitals and then small letters and digits, as long as they go on.  The
first part is the run that starts with the text. -/
def scanRuns : List Char → List Char × List (List Char)
  | [] => ([], [])
  | c :: rest =>
    let (run, more) := scanRuns rest
    if c.isUpper then (c :: run, more)
    else if isSmall c then
      if run.head?.any Char.isUpper then ([c], run :: more) else (c :: run, more)
    else ([], if run.isEmpty then more else run :: more)

/-- The runs of a text. -/
def runs (s : List Char) : List (List Char) :=
  let (run, more) := scanRuns s
  if run.isEmpty then more else run :: more

/-- The words of a run. -/
def splitRun (run : List Char) : List (List Char) :=
  let capitals := (run.takeWhile Char.isUpper).length
  if capitals > 1 ∧ (run.drop capitals).head?.any Char.isLower then
    [run.take (capitals - 1), run.drop (capitals - 1)]
  else [run]

/-- The words of a text. -/
def words (s : List Char) : List (List Char) := (runs s).flatMap splitRun

end SchemaSymbols.Naming
