/-
  The tokens of a JSON text.

  Words, numbers and strings are read by the longest match of their grammar, blanks are dropped,
  and anything else is refused.  Reading a token hands back the rest of the text, which is always
  shorter, so the reading of a whole text ends.
-/
import SchemaSymbols.Decimal.Binary64
import SchemaSymbols.Text.Digits

namespace SchemaSymbols.Json

/-- A token; `noText` and `noNumber` are literals that denote no value. -/
inductive Token where
  | openBrace
  | closeBrace
  | openBracket
  | closeBracket
  | comma
  | colon
  | null
  | bool (value : Bool)
  | number (spelling : String)
  | text (value : String)
  | noNumber
  | noText
deriving DecidableEq, Repr

/-! ## Strings -/

/-- The character of a simple escape. -/
def simpleEscape? : Char → Option Char
  | '"' => some '"'
  | '\\' => some '\\'
  | '/' => some '/'
  | 'b' => some '\x08'
  | 'f' => some '\x0c'
  | 'n' => some '\n'
  | 'r' => some '\r'
  | 't' => some '\t'
  | _ => none

/-- Whether a code unit is the first half of a surrogate pair. -/
def isHighSurrogate (n : Nat) : Bool := 0xD800 ≤ n && n ≤ 0xDBFF

/-- Whether a code unit is the second half of a surrogate pair. -/
def isLowSurrogate (n : Nat) : Bool := 0xDC00 ≤ n && n ≤ 0xDFFF

/-- The character that a surrogate pair stands for. -/
def pairedChar (high low : Nat) : Char :=
  Char.ofNat (0x10000 + (high - 0xD800) * 0x400 + (low - 0xDC00))

/-- A piece of a string literal: a character, or one half of a surrogate pair. -/
inductive Piece where
  | char (c : Char)
  | half (unit : Nat)

/-- The piece that a code unit stands for. -/
def Piece.ofUnit (unit : Nat) : Piece :=
  if isHighSurrogate unit || isLowSurrogate unit then .half unit else .char (Char.ofNat unit)

/-- The pieces of a string literal up to its closing quote, and the rest of the text. -/
def pieces? : List Char → Option (List Piece × List Char)
  | [] => none
  | '"' :: rest => some ([], rest)
  | '\\' :: 'u' :: a :: b :: c :: d :: rest => do
    let unit ← Text.valueOfBase? 16 [a, b, c, d]
    let (pieces, rest) ← pieces? rest
    return (.ofUnit unit :: pieces, rest)
  | '\\' :: c :: rest => do
    let c ← simpleEscape? c
    let (pieces, rest) ← pieces? rest
    return (.char c :: pieces, rest)
  | c :: rest =>
    if c = '\\' ∨ c.toNat < 0x20 then none
    else do
      let (pieces, rest) ← pieces? rest
      return (.char c :: pieces, rest)

/-- The text that pieces spell; there is none when half of a surrogate pair is missing. -/
def joinPieces? : List Piece → Option (List Char)
  | [] => some []
  | .char c :: rest => (joinPieces? rest).map (c :: ·)
  | .half high :: .half low :: rest =>
    if isHighSurrogate high && isLowSurrogate low then
      (joinPieces? rest).map (pairedChar high low :: ·)
    else none
  | .half _ :: _ => none

/-- The token of a string literal after its opening quote, and the rest of the text. -/
def stringToken? (s : List Char) : Option (Token × List Char) := do
  let (pieces, rest) ← pieces? s
  match joinPieces? pieces with
  | some text => return (.text (String.ofList text), rest)
  | none => return (.noText, rest)

/-! ## Numbers -/

/-- The digits of a number count as long as they spell a number below `2 ^ 64`. -/
def wordBound : Nat := 18446744073709551616

/-- Appends digits to a number as far as they count, and gives the digits that do not. -/
def takeDigits (n : Nat) : List Char → Nat × List Char
  | [] => (n, [])
  | c :: rest =>
    let longer := n * 10 + Text.digitValue c
    if longer < wordBound then takeDigits longer rest else (n, c :: rest)

/-- Whether a number is too large for double precision.  The digits that count and the power of ten
behind them are rounded first, and then their product. -/
def overflows (whole fraction : List Char) (exponent : Int) : Bool :=
  let (n, skipped) := takeDigits 0 whole
  let (n, beyond) := takeDigits n fraction
  let scale := exponent + skipped.length - (fraction.length - beyond.length : Nat)
  let factor := Binary64.ofDecimal false 1 scale
  n ≠ 0 && 0 ≤ scale && (Binary64.ofDecimal false n 0).mul factor = .infinite false

/-- The fraction of a number: nothing, or a point and at least one digit. -/
def fraction? : List Char → Option (List Char × List Char)
  | '.' :: rest =>
    match Text.spanDigits rest with
    | ([], _) => none
    | (digits, rest) => some (digits, rest)
  | rest => some ([], rest)

/-- The exponent of a number with its spelling: nothing, or a mark, perhaps a sign, and at least
one digit. -/
def exponent? : List Char → Option (Int × List Char × List Char)
  | [] => some (0, [], [])
  | mark :: rest =>
    if mark = 'e' ∨ mark = 'E' then
      let (negative, sign, rest) :=
        match rest with
        | '+' :: rest => (false, ['+'], rest)
        | '-' :: rest => (true, ['-'], rest)
        | rest => (false, [], rest)
      match Text.spanDigits rest with
      | ([], _) => none
      | (digits, rest) =>
        let value : Int := Text.decimalValue digits
        some (if negative then -value else value, mark :: sign ++ digits, rest)
    else some (0, [], mark :: rest)

/-- A number without its sign, and the rest of the text. -/
def unsigned? (sign : List Char) (s : List Char) : Option (Token × List Char) := do
  let (whole, rest) := Text.spanDigits s
  if whole = [] then none
  let (whole, rest) := if whole.head? = some '0' then (['0'], s.drop 1) else (whole, rest)
  let (fraction, rest) ← fraction? rest
  let (exponent, mark, rest) ← exponent? rest
  let point := if fraction = [] then [] else '.' :: fraction
  if overflows whole fraction exponent then
    return (.noNumber, rest)
  else
    return (.number (String.ofList (sign ++ whole ++ point ++ mark)), rest)

/-! ## Tokens -/

/-- Whether a character only separates tokens. -/
def isBlank (c : Char) : Bool := c = ' ' || c = '\n' || c = '\r' || c = '\t'

/-- The first token of a text that starts with `c`, and the rest of the text. -/
def token? (c : Char) (rest : List Char) : Option (Token × List Char) :=
  if c = '\x7b' then some (.openBrace, rest)
  else if c = '\x7d' then some (.closeBrace, rest)
  else if c = '[' then some (.openBracket, rest)
  else if c = ']' then some (.closeBracket, rest)
  else if c = ',' then some (.comma, rest)
  else if c = ':' then some (.colon, rest)
  else if c = '"' then stringToken? rest
  else if c = '-' then unsigned? ['-'] rest
  else if c.isDigit then unsigned? [] (c :: rest)
  else
    match c, rest with
    | 'n', 'u' :: 'l' :: 'l' :: rest => some (.null, rest)
    | 't', 'r' :: 'u' :: 'e' :: rest => some (.bool true, rest)
    | 'f', 'a' :: 'l' :: 's' :: 'e' :: rest => some (.bool false, rest)
    | _, _ => none

/-- The tokens of a text of at most `fuel` characters. -/
def tokensWithin : Nat → List Char → Option (List Token)
  | _, [] => some []
  | 0, _ :: _ => none
  | fuel + 1, c :: rest =>
    if isBlank c then tokensWithin fuel rest
    else do
      let (token, rest) ← token? c rest
      return token :: (← tokensWithin fuel rest)

/-- The tokens of a text. -/
def tokens? (s : List Char) : Option (List Token) := tokensWithin s.length s

end SchemaSymbols.Json
