/-
  The shortest decimal for a number of double precision.

  A decimal stands for the number it rounds to.  Of the decimals that stand for a number, those with
  the fewest digits are the shortest, and of these the nearest is written; of two equally near ones,
  the greater.  It is written out in full, without an exponent.
-/
import SchemaSymbols.Decimal.Binary64

namespace SchemaSymbols.Binary64

/-- The decimals that stand for the positive number `value / unit`: those between `low / unit` and
`high / unit`, with the ends if `closed`. -/
structure Basin where
  low : Nat
  value : Nat
  high : Nat
  unit : Nat
  closed : Bool
deriving Repr

namespace Basin

/-- The decimals that round to `m * 2 ^ e`.  Below a power of two the numbers lie closer, so there
the lower end is nearer.  The ends are halves, which go to an even mantissa. -/
def ofNumber (m : Nat) (e : Int) : Basin :=
  let below := if m = leastNormal ∧ minExponent < e then 1 else 2
  let (factor, unit) := if 2 ≤ e then (Nat.pow 2 (e - 2).toNat, 1) else (1, Nat.pow 2 (2 - e).toNat)
  { low := (4 * m - below) * factor
    value := 4 * m * factor
    high := (4 * m + 2) * factor
    unit
    closed := m % 2 = 0 }

/-- The number of decimal digits of a number. -/
def digitCount (n : Nat) : Nat := (Nat.toDigits 10 n).length

/-- The least `p` with `value / unit < 10 ^ p`. -/
def magnitude (b : Basin) : Int :=
  if b.unit ≤ b.value then digitCount (b.value / b.unit)
  else 1 - digitCount ((b.unit - 1) / b.value)

/-- The multiple of `10 ^ p` that stands for the number and is nearest to it, as a multiple of
`10 ^ p`.  If there is one, then one of the two next to the number is. -/
def nearest? (b : Basin) (p : Int) : Option Nat :=
  let scale := if 0 ≤ p then 1 else Nat.pow 10 (-p).toNat
  let unit := if 0 ≤ p then b.unit * Nat.pow 10 p.toNat else b.unit
  let stands (c : Nat) : Bool :=
    if b.closed then b.low * scale ≤ c * unit && c * unit ≤ b.high * scale
    else b.low * scale < c * unit && c * unit < b.high * scale
  let value := b.value * scale
  let below := value / unit
  let above := below + 1
  if stands below && (!stands above || value - below * unit < above * unit - value) then
    some below
  else if stands above then some above
  else none

/-- The shortest decimal, as `digits * 10 ^ p`; seventeen digits always suffice. -/
def shortest (b : Basin) : Nat × Int :=
  let attempts := (List.range 17).findSome? fun (k : Nat) =>
    let p := b.magnitude - 1 - k
    (b.nearest? p).map fun c => (c, p)
  attempts.getD (0, 0)

end Basin

/-- The decimal `digits * 10 ^ p` written out, without zeros at the end of a fraction. -/
def positional (digits : Nat) (p : Int) : List Char :=
  let written := Nat.toDigits 10 digits
  if 0 ≤ p then written ++ List.replicate p.toNat '0'
  else
    let places := (-p).toNat
    let written := List.replicate (places + 1 - written.length) '0' ++ written
    let whole := written.take (written.length - places)
    let fraction := ((written.drop (written.length - places)).reverse.dropWhile (· = '0')).reverse
    if fraction = [] then whole else whole ++ '.' :: fraction

/-- The text of a number. -/
def text : Binary64 → String
  | nan => "NaN"
  | infinite negative => if negative then "-inf" else "inf"
  | finite negative m e =>
    let digits :=
      if m = 0 then ['0']
      else
        let (digits, p) := (Basin.ofNumber m e).shortest
        positional digits p
    String.ofList (if negative then '-' :: digits else digits)

end SchemaSymbols.Binary64
