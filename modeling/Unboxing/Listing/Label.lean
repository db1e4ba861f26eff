import Unboxing.Code.Label
import Unboxing.Listing.Error
import Unboxing.Listing.Line
import Unboxing.Number.Numeral
import Unboxing.Text.Split

/-
  This file defines how the label names of a method body are
  given labels: a name made of `L` and a number stands for
  that number, and other names get the numbers after these.
-/

namespace Unboxing.Listing

/- The number in a label name made of `L` and a number. -/
def labelNumber? (name : List Char) : Option Nat :=
  match name with
  | 'L' :: digits => Numeral.word32? digits
  | _ => none

/- The label names of a method body, as far as it has been read. -/
structure Scope where
  names : List (String × Label)
  defined : List Label
  free : Label
deriving DecidableEq, Repr

namespace Scope

/-
  The part of a word in which a label number is looked for:
  what follows the last colon, the colons at the end apart.
-/
def labelPart (word : List Char) : List Char :=
  let word := (word.reverse.dropWhile (· == ':')).reverse
  match Text.cutLast? ':' word with
  | some (_, part) => part
  | none => word

/- The first free label after all those that some words number. -/
def freeAfter (words : List (List Char)) : Label :=
  words.foldl
    (fun free word =>
      match labelNumber? (labelPart word) with
      | some n => ⟨max free.number (Label.mk n).next.number⟩
      | none => free)
    ⟨0⟩

/- The scope at the start of a body, with its numbered labels set aside. -/
def reserve (body : List Line) : Scope :=
  ⟨[], [], freeAfter (body.flatMap fun line => Text.words line.text)⟩

/- The label of a name, given to it at its first use. -/
def resolve (scope : Scope) (name : String) : Label × Scope :=
  match scope.names.lookup name with
  | some label => (label, scope)
  | none =>
      match labelNumber? name.toList with
      | some n =>
          (⟨n⟩, { scope with names := (name, ⟨n⟩) :: scope.names })
      | none =>
          (scope.free,
            { scope with
              names := (name, scope.free) :: scope.names
              free := scope.free.next })

/- The label of a name that is defined at a line, once. -/
def define (scope : Scope) (line : Nat) (name : String) : Except Error (Label × Scope) :=
  let (label, scope) := scope.resolve name
  if scope.defined.contains label then
    .error (.duplicateLabel line name)
  else
    .ok (label, { scope with defined := label :: scope.defined })

end Scope

end Unboxing.Listing
