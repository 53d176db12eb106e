/-
  Readers: steps that take something off the front of a text, or fail.

  A repetition is bounded by the length of the text, since each round takes at least one character.
-/

namespace SchemaSymbols

/-- A step that reads an `α` off the front of a text. -/
abbrev Reader := StateT (List Char) Option

namespace Reader

variable {α : Type}

/-- The value of a whole text. -/
def whole? (r : Reader α) (s : List Char) : Option α :=
  match r s with
  | some (a, []) => some a
  | _ => none

/-- The next character, which stays in the text. -/
def peek? : Reader (Option Char) := return (← get).head?

/-- The characters that pass a test, up to the first that does not. -/
def span (p : Char → Bool) : Reader (List Char) := do
  let s ← get
  set (s.dropWhile p)
  return s.takeWhile p

/-- Takes `word` off the text if the text starts with it, and says whether it did. -/
def accept (word : List Char) : Reader Bool := do
  let s ← get
  if word.isPrefixOf s then
    set (s.drop word.length)
    return true
  else return false

/-- Takes `word` off the text. -/
def expect (word : List Char) : Reader Unit := do
  if ← accept word then return () else failure

/-- A character that passes a test. -/
def one (p : Char → Bool) : Reader Char := do
  match ← get with
  | c :: rest =>
    if p c then
      set rest
      return c
    else failure
  | [] => failure

/-- A bound on the number of rounds of a repetition. -/
def rounds : Reader Nat := return (← get).length + 1

/-- One or more values with `mark` between them. -/
def separated (mark : List Char) (item : Reader α) : Reader (List α) := do loop (← rounds)
where
  loop : Nat → Reader (List α)
    | 0 => failure
    | n + 1 => do
      let a ← item
      if ← accept mark then return a :: (← loop n) else return [a]

/-- Values up to `close`, each followed by `mark` but perhaps the last; `gap` may stand around the
values. -/
def listed (gap : Reader Unit) (mark close : List Char) (item : Reader α) : Reader (List α) := do
  loop (← rounds)
where
  loop : Nat → Reader (List α)
    | 0 => failure
    | n + 1 => do
      gap
      if ← accept close then return []
      let a ← item
      gap
      if ← accept mark then return a :: (← loop n)
      expect close
      return [a]

end Reader

end SchemaSymbols
