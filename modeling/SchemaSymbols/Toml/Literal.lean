/-
  The string literals of TOML.

  There are four kinds: basic and literal strings, each on one line or on several.  Basic strings
  have escapes.  A newline right after the opening of a literal of several lines is dropped, and
  every newline inside one counts as a line feed.
-/
import SchemaSymbols.Text.Digits
import SchemaSymbols.Text.Reader

namespace SchemaSymbols.Toml

/-- The quote of literal strings. -/
def apostrophe : Char := '\x27'

/-- Whether a character may stand for itself: a tab, or anything that is not a control character of
ASCII. -/
def isPrintable (c : Char) : Bool := c = '\t' || (0x20 ≤ c.toNat && c.toNat ≠ 0x7f)

/-- Whether a character is a blank within a line. -/
def isBlank (c : Char) : Bool := c = ' ' || c = '\t'

/-- The character of a simple escape. -/
def simpleEscape? : Char → Option Char
  | 'b' => some '\x08'
  | 't' => some '\t'
  | 'n' => some '\n'
  | 'f' => some '\x0c'
  | 'r' => some '\r'
  | '"' => some '"'
  | '\\' => some '\\'
  | _ => none

/-- The character of a code point, given by hexadecimal digits. -/
def codePoint? (digits : List Char) : Option Char := do
  let n ← Text.valueOfBase? 16 digits
  if n.isValidChar then some (Char.ofNat n) else none

/-- The closing of a literal of several lines after its three quotes: up to two more quotes belong
to the text. -/
def closing (quote : Char) : List Char → List Char × List Char
  | a :: b :: rest =>
    if a = quote then if b = quote then ([quote, quote], rest) else ([quote], b :: rest)
    else ([], a :: b :: rest)
  | [a] => if a = quote then ([quote], []) else ([], [a])
  | [] => ([], [])

/-- Whether a backslash before `s` ends a line, with nothing but blanks between. -/
def endsLine (s : List Char) : Bool :=
  match s.dropWhile isBlank with
  | '\n' :: _ => true
  | '\r' :: '\n' :: _ => true
  | _ => false

/-- Where a reader of a literal stands: in the text, or in the gap after a backslash that ends a
line, where blanks and newlines are dropped. -/
inductive Place where
  | text
  | gap
deriving DecidableEq

/-- A reading result with a character put before its text. -/
def before (c : Char) (read : Option (List Char × List Char)) : Option (List Char × List Char) :=
  read.map fun (body, rest) => (c :: body, rest)

/-- The text of a basic string up to its closing quotes, and the rest; `lines` says whether it may
have several lines. -/
def basicBody? (lines : Bool) : Place → List Char → Option (List Char × List Char)
  | _, [] => none
  | _, '\\' :: 'u' :: a :: b :: c :: d :: rest => do
    before (← codePoint? [a, b, c, d]) (basicBody? lines .text rest)
  | _, '\\' :: 'U' :: a :: b :: c :: d :: e :: f :: g :: h :: rest => do
    before (← codePoint? [a, b, c, d, e, f, g, h]) (basicBody? lines .text rest)
  | _, '\\' :: c :: rest =>
    if lines && endsLine (c :: rest) then basicBody? lines .gap (c :: rest)
    else do before (← simpleEscape? c) (basicBody? lines .text rest)
  | place, '\r' :: '\n' :: rest =>
    if !lines then none
    else if place = .gap then basicBody? lines .gap rest
    else before '\n' (basicBody? lines .text rest)
  | place, c :: rest =>
    if c = '"' then
      if !lines then some ([], rest)
      else if ['"', '"'].isPrefixOf rest then some (closing '"' (rest.drop 2))
      else before c (basicBody? lines .text rest)
    else if place = .gap && (isBlank c || c = '\n') then basicBody? lines .gap rest
    else if c ≠ '\\' && (isPrintable c || (lines && c = '\n')) then
      before c (basicBody? lines .text rest)
    else none

/-- The text of a literal string of one line up to its closing quote, and the rest. -/
def literalBody? : List Char → Option (List Char × List Char)
  | [] => none
  | c :: rest =>
    if c = apostrophe then some ([], rest)
    else if isPrintable c then before c (literalBody? rest)
    else none

/-- The text of a literal string of several lines up to its closing quotes, and the rest. -/
def literalLines? : List Char → Option (List Char × List Char)
  | [] => none
  | '\r' :: '\n' :: rest => before '\n' (literalLines? rest)
  | c :: rest =>
    if c = apostrophe && [apostrophe, apostrophe].isPrefixOf rest then
      some (closing apostrophe (rest.drop 2))
    else if c = '\n' || isPrintable c then before c (literalLines? rest)
    else none

/-- Drops a newline at the front of a text. -/
def dropNewline : List Char → List Char
  | '\n' :: rest => rest
  | '\r' :: '\n' :: rest => rest
  | rest => rest

/-- A basic string of one line. -/
def basicString : Reader String := do
  Reader.expect ['"']
  let (body, rest) ← (basicBody? false .text (← get)).getDM failure
  set rest
  return String.ofList body

/-- A literal string of one line. -/
def literalString : Reader String := do
  Reader.expect [apostrophe]
  let (body, rest) ← (literalBody? (← get)).getDM failure
  set rest
  return String.ofList body

/-- A string of any kind. -/
def anyString : Reader String := do
  if ← Reader.accept ['"', '"', '"'] then
    let (body, rest) ← (basicBody? true .text (dropNewline (← get))).getDM failure
    set rest
    return String.ofList body
  else if ← Reader.accept [apostrophe, apostrophe, apostrophe] then
    let (body, rest) ← (literalLines? (dropNewline (← get))).getDM failure
    set rest
    return String.ofList body
  else basicString <|> literalString

end SchemaSymbols.Toml
