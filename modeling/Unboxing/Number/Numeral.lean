/-
  This file defines the decimal integers of a listing: an
  optional sign, then digits, within the range of a word.
-/

namespace Unboxing.Numeral

/- The value of a nonempty run of decimal digits. -/
def natural? (text : List Char) : Option Nat :=
  if text.isEmpty || !text.all Char.isDigit then
    none
  else
    some (Nat.ofDigitChars 10 text 0)

/- Digits with an optional plus sign, below `bound`. -/
def unsigned? (bound : Nat) (text : List Char) : Option Nat := do
  let digits := match text with
    | '+' :: digits => digits
    | digits => digits
  let n ← natural? digits
  if n < bound then some n else none

/-
  Digits with an optional sign, in the range of a signed word
  of which `bound` is the number of negative values.
-/
def signed? (bound : Nat) (text : List Char) : Option Int := do
  match text with
  | '-' :: digits =>
      let n ← natural? digits
      if n ≤ bound then some (-(n : Int)) else none
  | '+' :: digits =>
      let n ← natural? digits
      if n < bound then some (n : Int) else none
  | digits =>
      let n ← natural? digits
      if n < bound then some (n : Int) else none

def word8? : List Char → Option Nat := unsigned? 0x100

def word16? : List Char → Option Nat := unsigned? 0x10000

def word32? : List Char → Option Nat := unsigned? 0x100000000

def word64? : List Char → Option Nat := unsigned? 0x10000000000000000

def int8? : List Char → Option Int := signed? 0x80

def int16? : List Char → Option Int := signed? 0x8000

def int32? : List Char → Option Int := signed? 0x80000000

def int64? : List Char → Option Int := signed? 0x8000000000000000

/- The digits that the core library writes are read back. -/
theorem natural?_toDigits (n : Nat) :
    natural? (Nat.toDigits 10 n) = some n := by
  have hne : Nat.toDigits 10 n ≠ [] := Nat.toDigits_ne_nil
  have hall : (Nat.toDigits 10 n).all Char.isDigit = true := by
    simp only [List.all_eq_true]
    intro c hc
    exact Nat.isDigit_of_mem_toDigits (by decide) (by decide) hc
  simp [natural?, hne, hall, Nat.ofDigitChars_toDigits]

end Unboxing.Numeral
