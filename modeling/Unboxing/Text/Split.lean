/-
  This file defines the cuts of a text at a given character.
-/

namespace Unboxing.Text

/- The parts between the occurrences of a character, at least one. -/
def splitAll (mark : Char) : List Char → List (List Char)
  | [] => [[]]
  | c :: text =>
      if c = mark then
        [] :: splitAll mark text
      else
        match splitAll mark text with
        | [] => [[c]]
        | part :: parts => (c :: part) :: parts

/- The parts before and after the first occurrence of a character. -/
def cutFirst? (mark : Char) : List Char → Option (List Char × List Char)
  | [] => none
  | c :: text =>
      if c = mark then
        some ([], text)
      else
        (cutFirst? mark text).map fun (before, after) => (c :: before, after)

/- The parts before and after the last occurrence of a character. -/
def cutLast? (mark : Char) : List Char → Option (List Char × List Char)
  | [] => none
  | c :: text =>
      match cutLast? mark text with
      | some (before, after) => some (c :: before, after)
      | none => if c = mark then some ([], text) else none

/- The text from the first occurrence of a character on, and what is before. -/
def cutBefore? (mark : Char) : List Char → Option (List Char × List Char)
  | [] => none
  | c :: text =>
      if c = mark then
        some ([], c :: text)
      else
        (cutBefore? mark text).map fun (before, after) => (c :: before, after)

end Unboxing.Text
