import Unboxing.Text.Blank

/-
  This file defines the lines of a listing that say something:
  comments and outer blanks are gone, and empty lines too.
-/

namespace Unboxing.Listing

/- A line with its number in the listing. -/
structure Line where
  number : Nat
  text : List Char
deriving DecidableEq, Repr

def Line.words (line : Line) : List String :=
  (Text.words line.text).map String.ofList

/-
  The text up to a comment, which starts at two slashes outside
  of a string. Inside a string a backslash protects the next
  character.
-/
def stripCommentFrom (inString escaped : Bool) : List Char → List Char
  | [] => []
  | c :: text =>
      if escaped then
        c :: stripCommentFrom inString false text
      else if c = '\\' ∧ inString then
        c :: stripCommentFrom inString true text
      else if c = '"' then
        c :: stripCommentFrom (!inString) false text
      else if c = '/' ∧ ¬inString ∧ text.head? = some '/' then
        []
      else
        c :: stripCommentFrom inString false text

def stripComment (text : List Char) : List Char :=
  stripCommentFrom false false text

/- The lines of a listing that are not empty, numbered from one. -/
def linesOf (source : List Char) : List Line :=
  ((Text.lines source).zipIdx 1).filterMap fun (text, number) =>
    let text := Text.trim (stripComment text)
    if text.isEmpty then none else some ⟨number, text⟩

end Unboxing.Listing
