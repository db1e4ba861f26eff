/-
  This file defines the two binary floating-point formats of
  class files and the rounding of a fraction to the nearest
  value of a format.
-/

namespace Unboxing.Binary

-- Formats and values

/-
  A binary format: how many bits a significand has, and the
  least and greatest exponents of its unit.
-/
structure Format where
  precision : Nat
  minExponent : Int
  maxExponent : Int
deriving DecidableEq, Repr

def Format.single : Format :=
  ⟨24, -149, 104⟩

def Format.double : Format :=
  ⟨53, -1074, 971⟩

/-
  A value of a binary format. A finite value stands for
  `significand * 2 ^ exponent`, with a sign also on zero.
-/
inductive Value where
  | nan
  | infinite (negative : Bool)
  | finite (negative : Bool) (significand : Nat) (exp : Int)
deriving DecidableEq, Repr

def Value.zero (format : Format) (negative : Bool) : Value :=
  .finite negative 0 format.minExponent

-- Rounding

/- The quotient rounded to the nearest integer, a half to the even one. -/
def roundDiv (num den : Nat) : Nat :=
  let quotient := num / den
  let twice := 2 * (num % den)
  if twice < den then quotient
  else if den < twice then quotient + 1
  else quotient + quotient % 2

/- The fraction `num / den` divided by `2 ^ exponent`, as a fraction. -/
def descale (num den : Nat) (exp : Int) : Nat × Nat :=
  if 0 ≤ exp then
    (num, den * Nat.pow 2 exp.toNat)
  else
    (num * Nat.pow 2 (-exp).toNat, den)

/-
  The exponent at which the fraction has a significand of the
  format's precision, or the least exponent if that is greater.
-/
def unitExponent (format : Format) (num den : Nat) : Int :=
  let estimate := (num.log2 : Int) - den.log2 - format.precision
  let low := max format.minExponent estimate
  let (n, d) := descale num den low
  if n / d < Nat.pow 2 format.precision then low else low + 1

/-
  The value of the format nearest to `num / den`, a half to the
  even significand, infinite beyond the greatest exponent.
-/
def nearest (format : Format) (negative : Bool) (num den : Nat) : Value :=
  if num = 0 then
    Value.zero format negative
  else
    let exp := unitExponent format num den
    let (n, d) := descale num den exp
    let rounded := roundDiv n d
    let (significand, exp) :=
      if rounded < Nat.pow 2 format.precision then
        (rounded, exp)
      else
        (Nat.pow 2 (format.precision - 1), exp + 1)
    if format.maxExponent < exp then
      .infinite negative
    else
      .finite negative significand exp

end Unboxing.Binary
