import Unboxing.Number.Binary
import Unboxing.Number.Numeral

/-
  This file defines the text of floating-point constants: any
  decimal is read as the nearest value of the format, and a
  value is written with the fewest digits that read back.

  Key definitions include:
    * `Decimal`
    * `Decimal.nearest`
    * `Decimal.shortest`
    * `Decimal.read?`
    * `Decimal.render`
-/

namespace Unboxing

-- Decimals

/- The number `digits * 10 ^ exponent`. -/
structure Decimal where
  digits : Nat
  exp : Int
deriving DecidableEq, Repr

namespace Decimal

/- The digits in order, without leading zeros. -/
def digitChars (d : Decimal) : List Char :=
  Nat.toDigits 10 d.digits

/- The power of ten of the leading digit. -/
def leading (d : Decimal) : Int :=
  d.exp + d.digitChars.length - 1

/-
  The value of a format nearest to a decimal. Beyond a leading
  power of 400 either way the answer is infinite or zero in
  both formats, so no large power is computed there.
-/
def nearest (format : Binary.Format) (negative : Bool) (d : Decimal) : Binary.Value :=
  if d.digits = 0 then
    .zero format negative
  else if 400 < d.leading then
    .infinite negative
  else if d.leading < -400 then
    .zero format negative
  else if 0 ≤ d.exp then
    Binary.nearest format negative (d.digits * Nat.pow 10 d.exp.toNat) 1
  else
    Binary.nearest format negative d.digits (Nat.pow 10 (-d.exp).toNat)

-- Fewest digits

/- The number `significand * 2 ^ exponent` as an exact decimal. -/
def exact (significand : Nat) (exp : Int) : Decimal :=
  if 0 ≤ exp then
    ⟨significand * Nat.pow 2 exp.toNat, 0⟩
  else
    ⟨significand * Nat.pow 5 (-exp).toNat, exp⟩

/- The decimal with `count` digits just below `d`, and the one just above. -/
def neighbours (d : Decimal) (count : Nat) : Decimal × Decimal :=
  let unit := d.leading - count + 1
  let below :=
    if unit ≤ d.exp then
      d.digits * Nat.pow 10 (d.exp - unit).toNat
    else
      d.digits / Nat.pow 10 (unit - d.exp).toNat
  (⟨below, unit⟩, ⟨below + 1, unit⟩)

/-
  Whether `d` is nearer to `above` than to `below`, where both
  are on a grid of the unit of `below`. A tie goes up.
-/
def closerAbove (d below : Decimal) : Bool :=
  if below.exp ≤ d.exp then
    false
  else
    let unit := Nat.pow 10 (below.exp - d.exp).toNat
    decide (unit ≤ 2 * (d.digits - below.digits * unit))

/-
  Of the two decimals with `count` digits around `d`, the one
  that reads back as the value; of two, the one nearer to `d`.
-/
def candidate? (format : Binary.Format) (value : Binary.Value) (d : Decimal)
    (count : Nat) : Option Decimal :=
  let (below, above) := d.neighbours count
  let belowHits := below.nearest format false == value
  let aboveHits := above.nearest format false == value
  if belowHits && aboveHits then
    some (if d.closerAbove below then above else below)
  else if belowHits then
    some below
  else if aboveHits then
    some above
  else
    none

/-
  The decimal with the fewest digits, at most 17, that reads
  back as `significand * 2 ^ exponent`, or the exact decimal.
-/
def shortest (format : Binary.Format) (significand : Nat) (exp : Int) : Decimal :=
  let d := exact significand exp
  let value := Binary.Value.finite false significand exp
  ((List.range 17).findSome? fun n => candidate? format value d (n + 1)).getD d

-- Reading

/- Lower an ASCII capital. -/
def lowered (text : List Char) : List Char :=
  text.map Char.toLower

/- The exponent part of a decimal: none, or a mark and a signed integer. -/
def exponent? : List Char → Option Int
  | [] => some 0
  | mark :: text =>
      if mark = 'e' ∨ mark = 'E' then
        match text with
        | '-' :: digits => (Numeral.natural? digits).map fun n => -(n : Int)
        | '+' :: digits => (Numeral.natural? digits).map fun n => (n : Int)
        | digits => (Numeral.natural? digits).map fun n => (n : Int)
      else
        none

/- An unsigned decimal: digits with an optional point and exponent. -/
def unsigned? (text : List Char) : Option Decimal := do
  let whole := text.takeWhile Char.isDigit
  let (fraction, tail) := match text.dropWhile Char.isDigit with
    | '.' :: tail => (tail.takeWhile Char.isDigit, tail.dropWhile Char.isDigit)
    | tail => ([], tail)
  let digits ← Numeral.natural? (whole ++ fraction)
  let exp ← exponent? tail
  some ⟨digits, exp - fraction.length⟩

/- An unsigned value: a decimal, or the name of one that is not finite. -/
def magnitude? (format : Binary.Format) (negative : Bool)
    (text : List Char) : Option Binary.Value :=
  match unsigned? text with
  | some d => some (d.nearest format negative)
  | none =>
      let name := lowered text
      if name = "nan".toList then some .nan
      else if name = "inf".toList ∨ name = "infinity".toList then
        some (.infinite negative)
      else none

def read? (format : Binary.Format) (text : List Char) : Option Binary.Value :=
  match text with
  | '-' :: text => magnitude? format true text
  | '+' :: text => magnitude? format false text
  | text => magnitude? format false text

-- Writing

/- Drop trailing zeros, as long as `fuel` lasts. -/
def stripZeros : Nat → Decimal → Decimal
  | 0, d => d
  | fuel + 1, d =>
      if d.digits ≠ 0 ∧ d.digits % 10 = 0 then
        stripZeros fuel ⟨d.digits / 10, d.exp + 1⟩
      else
        d

/- The same number without trailing zeros. -/
def normal (d : Decimal) : Decimal :=
  stripZeros d.digitChars.length d

/- Leading powers of ten that are written without an exponent. -/
def isPositional (leading : Int) : Bool :=
  -4 ≤ leading && leading ≤ 15

/- Plain digits, with at least one on each side of the point. -/
def positional (d : Decimal) : List Char :=
  let digits := d.digitChars
  if 0 ≤ d.exp then
    digits ++ List.replicate d.exp.toNat '0' ++ ['.', '0']
  else
    let places := (-d.exp).toNat
    if places < digits.length then
      digits.take (digits.length - places)
        ++ '.' :: digits.drop (digits.length - places)
    else
      ['0', '.'] ++ List.replicate (places - digits.length) '0' ++ digits

/- One digit, the other digits after a point, and the power of ten. -/
def scientific (d : Decimal) : List Char :=
  let mantissa := match d.digitChars with
    | first :: second :: rest => first :: '.' :: second :: rest
    | digits => digits
  mantissa ++ 'e' :: (toString d.leading).toList

/- The text of a value with the fewest digits that read back. -/
def render (format : Binary.Format) : Binary.Value → List Char
  | .nan => "NaN".toList
  | .infinite negative => (if negative then "-inf" else "inf").toList
  | .finite negative significand exp =>
      let sign := if negative then ['-'] else []
      if significand = 0 then
        sign ++ "0.0".toList
      else
        let d := (shortest format significand exp).normal
        sign ++ (if isPositional d.leading then d.positional else d.scientific)

end Decimal

end Unboxing
