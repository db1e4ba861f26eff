/-
  This file defines the labels of a method body.
-/

namespace Unboxing

/- A position in a method body. Labels are told apart by a 32-bit number. -/
structure Label where
  number : Nat
deriving DecidableEq, Repr

namespace Label

/- How many labels there are. -/
def count : Nat := 0x100000000

/-
  The label after this one, the first one after the last. A build
  that checks arithmetic stops at the last one instead.
-/
def next (label : Label) : Label :=
  ⟨(label.number + 1) % count⟩

/- The name of a label in a listing. -/
def text (label : Label) : String :=
  s!"L{label.number}"

end Label

end Unboxing
