/-
  Numbers, truth values, dates and times of TOML.

  All of them are single words, so each grammar here is that of a whole word.  Underscores may stand
  between digits.  A date and its time may also be divided by a blank; then they are two words.
-/
import SchemaSymbols.Text.Reader
import SchemaSymbols.Text.Split
import SchemaSymbols.Toml.Basic

namespace SchemaSymbols.Toml

/-! ## Numbers -/

/-- The digits of a group that may have single underscores between them; all pass `isDigit`. -/
def ungrouped? (isDigit : Char → Bool) (s : List Char) : Option (List Char) :=
  let groups := Text.pieces '_' s
  if groups.all fun g => g ≠ [] && g.all isDigit then some groups.flatten else none

/-- The digits of a whole number, which has no zero in front. -/
def wholeDigits? (s : List Char) : Option (List Char) := do
  let digits ← ungrouped? Char.isDigit s
  if digits.head? = some '0' ∧ digits.length ≠ 1 then none else some digits

/-- A number in another base than ten. -/
def ofBase? (base : Nat) (s : List Char) : Option Toml := do
  let digits ← ungrouped? (fun c => (Text.digitOfBase? base c).isSome) s
  integer? (← Text.valueOfBase? base digits)

/-- A whole number. -/
def whole? : List Char → Option Toml
  | '0' :: 'x' :: s => ofBase? 16 s
  | '0' :: 'o' :: s => ofBase? 8 s
  | '0' :: 'b' :: s => ofBase? 2 s
  | s => do
    let (negative, digits) := Binary64.splitSign s
    let n : Int := Text.decimalValue (← wholeDigits? digits)
    integer? (if negative then -n else n)

/-- The exponent of a number, after its mark. -/
def exponent? (s : List Char) : Option Int := do
  let (negative, digits) := Binary64.splitSign s
  let n : Int := Text.decimalValue (← ungrouped? Char.isDigit digits)
  return if negative then -n else n

/-- A number with a fraction, an exponent, or both.  It may not be too large, though it may be too
far below zero. -/
def fractional? (s : List Char) : Option Toml := do
  let (negative, s) := Binary64.splitSign s
  let isMark (c : Char) : Bool := c = 'e' || c = 'E'
  let (base, power) := (s.takeWhile (!isMark ·), s.dropWhile (!isMark ·))
  let exponent ← if power = [] then some 0 else exponent? (power.drop 1)
  let (whole, fraction) ←
    match Text.cut? '.' base with
    | some (whole, fraction) => do pure (← wholeDigits? whole, ← ungrouped? Char.isDigit fraction)
    | none => if power = [] then none else do pure (← wholeDigits? base, [])
  let value :=
    Binary64.ofDecimal negative (Text.decimalValue (whole ++ fraction)) (exponent - fraction.length)
  if value = .infinite false then none else some (float value)

/-- The words for numbers that digits cannot write. -/
def special? (s : List Char) : Option Toml :=
  let (negative, word) := Binary64.splitSign s
  if word = ['i', 'n', 'f'] then some (float (.infinite negative))
  else if word = ['n', 'a', 'n'] then some (float .nan)
  else none

/-! ## Dates and times -/

/-- A number of exactly `n` digits. -/
def digits : Nat → Reader (List Char)
  | 0 => return []
  | n + 1 => do return (← Reader.one Char.isDigit) :: (← digits n)

/-- A number of exactly `n` digits between two bounds, as it is written. -/
def bounded (n low high : Nat) : Reader (List Char) := do
  let written ← digits n
  let value := Text.decimalValue written
  if low ≤ value ∧ value ≤ high then return written else failure

/-- The number of days of a month. -/
def monthLength (year month : Nat) : Nat :=
  if month = 2 then
    if year % 4 = 0 ∧ (year % 100 ≠ 0 ∨ year % 400 = 0) then 29 else 28
  else if month = 4 ∨ month = 6 ∨ month = 9 ∨ month = 11 then 30
  else 31

/-- A date. -/
def date : Reader (List Char) := do
  let year ← digits 4
  Reader.expect ['-']
  let month ← bounded 2 1 12
  Reader.expect ['-']
  let day ← bounded 2 1 (monthLength (Text.decimalValue year) (Text.decimalValue month))
  return year ++ '-' :: month ++ '-' :: day

/-- The fraction of a second, to nine places and without zeros at the end. -/
def secondFraction : Reader (List Char) := do
  if ← Reader.accept ['.'] then
    let written ← Reader.span Char.isDigit
    if written = [] then failure
    match (written.take 9).reverse.dropWhile (· = '0') with
    | [] => return []
    | kept => return '.' :: kept.reverse
  else return []

/-- A time of day. -/
def time : Reader (List Char) := do
  let hour ← bounded 2 0 23
  Reader.expect [':']
  let minute ← bounded 2 0 59
  Reader.expect [':']
  let second ← bounded 2 0 60
  return hour ++ ':' :: minute ++ ':' :: second ++ (← secondFraction)

/-- The distance from universal time, if given; the distance zero is written with a plus. -/
def offset : Reader (List Char) := do
  match ← Reader.peek? with
  | none => return []
  | some 'Z' => Reader.expect ['Z']; return ['Z']
  | some 'z' => Reader.expect ['z']; return ['Z']
  | some _ =>
    let sign ← Reader.one fun c => c = '+' || c = '-'
    let hour ← bounded 2 0 23
    Reader.expect [':']
    let minute ← bounded 2 0 59
    let shown := if Text.decimalValue (hour ++ minute) = 0 then '+' else sign
    return shown :: hour ++ ':' :: minute

/-- A time, and perhaps its distance from universal time. -/
def offsetTime : Reader (List Char) := return (← time) ++ (← offset)

/-- A date with a time, divided by a letter or a blank. -/
def dateTime : Reader (List Char) := do
  let date ← date
  discard <| Reader.one fun c => c = 'T' || c = 't' || c = ' '
  return date ++ 'T' :: (← offsetTime)

/-- A date, a time, or a date with a time. -/
def moment? (s : List Char) : Option Toml :=
  let read := (dateTime.whole? s <|> date.whole? s) <|> time.whole? s
  read.map fun written => moment (String.ofList written)

/-! ## Words -/

/-- Whether a character may stand in the word of a number, truth value, date or time. -/
def isWordChar (c : Char) : Bool :=
  c.isAlphanum || c = '+' || c = '-' || c = '_' || c = '.' || c = ':'

/-- The value of a word. -/
def ofWord? (s : List Char) : Option Toml :=
  if s = ['t', 'r', 'u', 'e'] then some (bool true)
  else if s = ['f', 'a', 'l', 's', 'e'] then some (bool false)
  else moment? s <|> fractional? s <|> special? s <|> whole? s

/-- Reads a value that is a word, or a date and a time with a blank between them. -/
def scalar : Reader Toml := do
  let word ← Reader.span isWordChar
  if (date.whole? word).isSome ∧ ((← get).drop 1).head?.any Char.isDigit then
    if ← Reader.accept [' '] then
      let time ← Reader.span isWordChar
      return ← (moment? (word ++ ' ' :: time)).getDM failure
  (ofWord? word).getDM failure

end SchemaSymbols.Toml
