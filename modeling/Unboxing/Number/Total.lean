/-
  This file defines the sum of a list of numbers, which gives
  the cells that a run of slots or operands takes.
-/

namespace Unboxing

def total (numbers : List Nat) : Nat :=
  numbers.foldr (· + ·) 0

@[simp]
theorem total_nil : total [] = 0 :=
  rfl

@[simp]
theorem total_cons (n : Nat) (numbers : List Nat) :
    total (n :: numbers) = n + total numbers :=
  rfl

@[simp]
theorem total_append (left right : List Nat) :
    total (left ++ right) = total left + total right := by
  induction left with
  | nil => simp
  | cons n left ih =>
      simp only [List.cons_append, total_cons, ih]
      omega

end Unboxing
