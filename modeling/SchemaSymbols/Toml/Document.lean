/-
  From TOML text to a table.

  A text is a list of lines, each of which opens a table, gives a value to a key, or says nothing.
  The lines are read first and then carried out one after the other on the tree of entries.
-/
import SchemaSymbols.Toml.Entry
import SchemaSymbols.Toml.Literal
import SchemaSymbols.Toml.Moment
import SchemaSymbols.Toml.Scalar

namespace SchemaSymbols.Toml

/-- Values and keys are nested less deep than this. -/
def depthLimit : Nat := 80

/-! ## Blanks and comments -/

/-- Skips blanks within a line. -/
def blanks : Reader Unit := discard <| Reader.span isBlank

/-- Skips a comment, if there is one. -/
def comment : Reader Unit := do
  if ← Reader.accept ['#'] then discard <| Reader.span isPrintable

/-- Takes a newline, if there is one, and says whether there was. -/
def newline : Reader Bool := do
  if ← Reader.accept ['\n'] then return true else Reader.accept ['\r', '\n']

/-- The end of a line, where only blanks and a comment may stand. -/
def lineEnd : Reader Unit := do
  blanks
  comment
  if ← newline then return ()
  if (← get).isEmpty then return () else failure

/-- The text after blanks, newlines and comments; a comment, inside which the text may start, ends
with a newline. -/
def afterGap? (inComment : Bool) : List Char → Option (List Char)
  | [] => if inComment then none else some []
  | '\n' :: rest => afterGap? false rest
  | '\r' :: '\n' :: rest => afterGap? false rest
  | c :: rest =>
    if inComment then if isPrintable c then afterGap? true rest else none
    else if isBlank c then afterGap? false rest
    else if c = '#' then afterGap? true rest
    else some (c :: rest)

/-- Skips blanks, newlines and comments. -/
def gap : Reader Unit := do set (← (afterGap? false (← get)).getDM failure)

/-! ## Keys -/

/-- Whether a character may stand in a key without quotes. -/
def isKeyChar (c : Char) : Bool := c.isAlphanum || c = '-' || c = '_'

/-- One part of a key. -/
def keyPart : Reader String := do
  blanks
  let part ← match ← Reader.peek? with
    | some '"' => basicString
    | some '\x27' => literalString
    | _ => do
      match ← Reader.span isKeyChar with
      | [] => failure
      | part => pure (String.ofList part)
  blanks
  return part

/-- A key, as the parts before the last and the last. -/
def key : Reader (List String × String) := do
  let parts ← Reader.separated ['.'] keyPart
  if depthLimit ≤ parts.length then failure
  match parts.reverse with
  | [] => failure
  | last :: path => return (path.reverse, last)

/-! ## Values -/

/-- A key and what `value` reads after the equals sign. -/
def pair (value : Reader Toml) : Reader (List String × String × Toml) := do
  let (path, last) ← key
  Reader.expect ['=']
  blanks
  return (path, last, ← value)

/-- The table that pairs in braces make. -/
def tableOf? (pairs : List (List String × String × Toml)) : Option Toml := do
  let entries ← pairs.foldlM (fun entries (path, key, v) => Entries.addValue path key v entries) []
  return .table (Entry.fieldsOf entries)

/-- The fields of a table in braces, after the opening brace. -/
def braced (value : Reader Toml) : Reader Toml := do
  blanks
  if ← Reader.accept ['\x7d'] then return .table []
  let pairs ← Reader.separated [','] do
    let p ← pair value
    blanks
    return p
  Reader.expect ['\x7d']
  (tableOf? pairs).getDM failure

/-- A value that contains no others. -/
def simpleValue : Reader Toml := do
  match ← Reader.peek? with
  | some '"' => return text (← anyString)
  | some '\x27' => return text (← anyString)
  | _ => scalar

/-- A value in which arrays and tables are nested at most `depth` deep. -/
def valueWithin : Nat → Reader Toml
  | 0 => simpleValue
  | depth + 1 => do
    match ← Reader.peek? with
    | some '[' =>
      Reader.expect ['[']
      return array (← Reader.listed gap [','] [']'] (valueWithin depth))
    | some '\x7b' =>
      Reader.expect ['\x7b']
      braced (valueWithin depth)
    | _ => simpleValue

/-! ## Lines -/

/-- What a line says. -/
inductive Line where
  | blank
  | pair (path : List String) (key : String) (value : Toml)
  | header (path : List String) (key : String)
  | item (path : List String) (key : String)

/-- A line without its end. -/
def line : Reader Line := do
  blanks
  if ← Reader.accept ['[', '['] then
    let (path, last) ← key
    Reader.expect [']', ']']
    return .item path last
  else if ← Reader.accept ['['] then
    let (path, last) ← key
    Reader.expect [']']
    return .header path last
  else
    match ← Reader.peek? with
    | none => return .blank
    | some '#' => return .blank
    | some '\n' => return .blank
    | some '\r' => return .blank
    | some _ =>
      let (path, last, v) ← pair (valueWithin (depthLimit - 1))
      return .pair path last v

/-- All lines of a text. -/
def lines : Reader (List Line) := do loop (← Reader.rounds)
where
  loop : Nat → Reader (List Line)
    | 0 => failure
    | n + 1 => do
      if (← get).isEmpty then return []
      let l ← line
      lineEnd
      return l :: (← loop n)

/-! ## Documents -/

/-- What has been read of a document: the entries of its root, and the path of the table that pairs
go to. -/
structure Draft where
  current : List String := []
  root : Entries := []

/-- Carries out a line. -/
def Draft.take? (d : Draft) : Line → Option Draft
  | .blank => some d
  | .header path key => do
    return { current := path ++ [key], root := ← d.root.openTable path key }
  | .item path key => do
    return { current := path ++ [key], root := ← d.root.openItem path key }
  | .pair path key v => do
    let add (_ : Origin) : Entries → Option Entries := Entries.addValue path key v
    return { d with root := ← Entries.change .passage add d.current .header d.root }

/-- Drops the mark that may stand in front of a text to show its encoding. -/
def dropMark : List Char → List Char
  | '\ufeff' :: rest => rest
  | rest => rest

/-- The table of a text. -/
def parse? (s : String) : Option (List (String × Toml)) := do
  let lines ← lines.whole? (dropMark s.toList)
  let draft ← lines.foldlM Draft.take? {}
  match ← readMoments? (.table (Entry.fieldsOf draft.root)) with
  | .table fields => return fields
  | _ => none

end SchemaSymbols.Toml
