/-
  Numbers of double precision, as exact fractions.

  A finite number is a mantissa below `2 ^ 53` times a power of two from `2 ^ -1074` to `2 ^ 971`.
  Decimals are rounded to the nearest such number, a half to the even mantissa; what rounds beyond
  the greatest of them is infinite.  All arithmetic is on whole numbers.
-/
import SchemaSymbols.Text.Digits

namespace SchemaSymbols

/-- A number of double precision; a finite one is `mantissa * 2 ^ exponent` with a sign. -/
inductive Binary64 where
  | finite (negative : Bool) (mantissa : Nat) (exponent : Int)
  | infinite (negative : Bool)
  | nan
deriving DecidableEq, Repr, Inhabited

namespace Binary64

/-- The least exponent of a number. -/
def minExponent : Int := -1074

/-- The greatest exponent of a number. -/
def maxExponent : Int := 971

/-- Mantissas are below `2 ^ 53`. -/
def mantissaBound : Nat := 9007199254740992

/-- From `2 ^ 52` up, a mantissa has as many binary digits as there can be. -/
def leastNormal : Nat := 4503599627370496

/-- Zero, which has a sign. -/
def zero (negative : Bool) : Binary64 := finite negative 0 minExponent

/-- Whether a number is zero. -/
def isZero : Binary64 → Bool
  | finite _ mantissa _ => mantissa == 0
  | _ => false

/-- Whether a number has a minus in front. -/
def isNegative : Binary64 → Bool
  | finite negative _ _ => negative
  | infinite negative => negative
  | nan => false

/-! ## Rounding -/

/-- The whole number nearest to `n / d`; a half goes to the even neighbour. -/
def roundDiv (n d : Nat) : Nat :=
  if 2 * (n % d) < d ∨ (2 * (n % d) = d ∧ n / d % 2 = 0) then n / d else n / d + 1

/-- The fraction `n / d` in units of `2 ^ e`. -/
def inUnits (n d : Nat) (e : Int) : Nat × Nat :=
  if 0 ≤ e then (n, d * Nat.pow 2 e.toNat) else (n * Nat.pow 2 (-e).toNat, d)

/-- The exponent of the number nearest to `n / d`: the least one for which the mantissa stays in
bounds. -/
def exponentFor (n d : Nat) : Int :=
  let e := max ((n.log2 : Int) - d.log2 - 53) minExponent
  let (a, b) := inUnits n d e
  if a / b < mantissaBound then e else e + 1

/-- The number nearest to `n / d`. -/
def ofFraction (negative : Bool) (n d : Nat) : Binary64 :=
  if n = 0 then zero negative
  else
    let e := exponentFor n d
    let (a, b) := inUnits n d e
    let m := roundDiv a b
    let (m, e) := if m < mantissaBound then (m, e) else (leastNormal, e + 1)
    if e ≤ maxExponent then finite negative m e else infinite negative

/-- The number nearest to `digits * 10 ^ scale`.  Far outside the range of finite numbers the answer
is given without computing the power. -/
def ofDecimal (negative : Bool) (digits : Nat) (scale : Int) : Binary64 :=
  if digits = 0 then zero negative
  else if 400 < scale then infinite negative
  else if (digits.log2 : Int) / 3 + scale < -400 then zero negative
  else if 0 ≤ scale then ofFraction negative (digits * Nat.pow 10 scale.toNat) 1
  else ofFraction negative digits (Nat.pow 10 (-scale).toNat)

/-! ## Arithmetic -/

/-- The product of two numbers, rounded to the nearest number. -/
def mul : Binary64 → Binary64 → Binary64
  | nan, _ => nan
  | _, nan => nan
  | infinite s, y => if y.isZero then nan else infinite (s != y.isNegative)
  | x, infinite t => if x.isZero then nan else infinite (x.isNegative != t)
  | finite s m e, finite t n f =>
    let shift := e + f
    if 0 ≤ shift then ofFraction (s != t) (m * n * Nat.pow 2 shift.toNat) 1
    else ofFraction (s != t) (m * n) (Nat.pow 2 (-shift).toNat)

/-! ## Text -/

/-- Takes the sign off a text. -/
def splitSign : List Char → Bool × List Char
  | '+' :: rest => (false, rest)
  | '-' :: rest => (true, rest)
  | rest => (false, rest)

/-- The exponent at the end of a number: nothing, or a mark, perhaps a sign, and digits. -/
def exponent? : List Char → Option Int
  | [] => some 0
  | mark :: rest =>
    let (negative, digits) := splitSign rest
    if (mark = 'e' ∨ mark = 'E') ∧ digits ≠ [] ∧ digits.all Char.isDigit then
      let value : Int := Text.decimalValue digits
      some (if negative then -value else value)
    else none

/-- A number without its sign: digits with at most one point among them, and an exponent. -/
def unsigned? (negative : Bool) (s : List Char) : Option Binary64 := do
  let (whole, rest) := Text.spanDigits s
  let (fraction, rest) :=
    match rest with
    | '.' :: rest => Text.spanDigits rest
    | rest => ([], rest)
  if whole = [] ∧ fraction = [] then none
  let exponent ← exponent? rest
  return ofDecimal negative (Text.decimalValue (whole ++ fraction)) (exponent - fraction.length)

/-- Reads a number: perhaps a sign, and then digits or a word for infinity or for no number, in
capitals or small letters. -/
def parse? (s : String) : Option Binary64 :=
  let (negative, rest) := splitSign s.toList
  let word := String.ofList (rest.map Char.toLower)
  if word = "inf" ∨ word = "infinity" then some (infinite negative)
  else if word = "nan" then some nan
  else unsigned? negative rest

end Binary64

end SchemaSymbols
