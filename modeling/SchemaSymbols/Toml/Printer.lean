/-
  Values written as TOML.

  Of the four kinds of string literals the first is taken that shows the text without escapes; only
  a text that none of them can show has escapes.
-/
import SchemaSymbols.Toml.Literal

namespace SchemaSymbols.Toml

/-- The length of the longest run of a character in a text. -/
def longestRun (mark : Char) (s : List Char) : Nat :=
  (s.foldl (fun (longest, run) c =>
    let run := if c = mark then run + 1 else 0
    (max longest run, run)) (0, 0)).1

/-- Whether a text has control characters other than tabs and line feeds. -/
def hasControl (s : List Char) : Bool := s.any fun c => !isPrintable c && c ≠ '\n'

/-- The kinds of string literals. -/
inductive LiteralKind where
  | basic
  | literal
  | basicLines
  | literalLines
deriving DecidableEq, Repr

/-- Whether a literal of a kind shows a text as it is. -/
def LiteralKind.shows (kind : LiteralKind) (s : List Char) : Bool :=
  !hasControl s &&
    match kind with
    | basic => !s.contains '\\' && !s.contains '"' && !s.contains '\n'
    | literal => !s.contains apostrophe && !s.contains '\n'
    | basicLines => !s.contains '\\' && longestRun '"' s ≤ 2
    | literalLines => longestRun apostrophe s ≤ 2

/-- The kind of literal for a text. -/
def LiteralKind.choose (s : List Char) : LiteralKind :=
  match [basic, literal, basicLines, literalLines].find? fun kind => kind.shows s with
  | some kind => kind
  | none => if s.contains '\n' then basicLines else basic

/-- A hexadecimal digit. -/
def hexDigit (n : Nat) : Char := "0123456789ABCDEF".toList.getD n '0'

/-- A character of a basic string, escaped if need be. -/
def escaped (lines : Bool) (c : Char) : List Char :=
  if c = '\x08' then ['\\', 'b']
  else if c = '\t' then ['\\', 't']
  else if c = '\n' then if lines then ['\n'] else ['\\', 'n']
  else if c = '\x0c' then ['\\', 'f']
  else if c = '\r' then ['\\', 'r']
  else if c = '\\' then ['\\', '\\']
  else if isPrintable c then [c]
  else ['\\', 'u', '0', '0', hexDigit (c.toNat / 16), hexDigit (c.toNat % 16)]

/-- The body of a basic string.  Of the quotes in a run of them, `allowed` may stand without escape;
an escape starts a new run, and `run` counts the quotes before the text. -/
def basicText (lines : Bool) (allowed : Nat) : Nat → List Char → List Char
  | _, [] => []
  | run, c :: rest =>
    if c = '"' then
      if run < allowed then '"' :: basicText lines allowed (run + 1) rest
      else '\\' :: '"' :: basicText lines allowed 0 rest
    else escaped lines c ++ basicText lines allowed 0 rest

/-- A text as a string literal; in one of several lines, a text with a newline starts on a line of
its own. -/
def quoted (text : String) : String :=
  let s := text.toList
  let start := if s.contains '\n' then ['\n'] else []
  let ends (quotes body : List Char) : String := String.ofList (quotes ++ body ++ quotes)
  match LiteralKind.choose s with
  | .basic => ends ['"'] (basicText false 0 0 s)
  | .literal => ends [apostrophe] s
  | .basicLines => ends ['"', '"', '"'] (start ++ basicText true 2 0 s)
  | .literalLines => ends [apostrophe, apostrophe, apostrophe] (start ++ s)

/-- A truth value. -/
def boolText (b : Bool) : String := if b then "true" else "false"

/-- A list of texts: at most one on one line, more on lines of their own. -/
def textList : List String → String
  | [] => "[]"
  | [s] => "[" ++ quoted s ++ "]"
  | items => "[\n" ++ String.join (items.map fun s => "    " ++ quoted s ++ ",\n") ++ "]"

/-- A section: its header, and its fields with their written values. -/
def sectionText (name : String) (fields : List (String × String)) : String :=
  "[" ++ name ++ "]\n" ++ String.join (fields.map fun f => f.1 ++ " = " ++ f.2 ++ "\n")

end SchemaSymbols.Toml
