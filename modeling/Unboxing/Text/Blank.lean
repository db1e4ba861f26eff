/-
  This file defines the blank characters of a listing and
  the three ways a text is cut at them or at line ends.
-/

namespace Unboxing.Text

-- Blank characters

/- The characters with the Unicode property `White_Space`. -/
def isBlank (c : Char) : Bool :=
  let n := c.toNat
  (0x09 ≤ n && n ≤ 0x0D)
    || n == 0x20 || n == 0x85 || n == 0xA0 || n == 0x1680
    || (0x2000 ≤ n && n ≤ 0x200A)
    || n == 0x2028 || n == 0x2029 || n == 0x202F
    || n == 0x205F || n == 0x3000

-- Trimming

/- The text without the blanks at its end. -/
def trimRight (text : List Char) : List Char :=
  (text.reverse.dropWhile isBlank).reverse

/- The text without the blanks at either end. -/
def trim (text : List Char) : List Char :=
  trimRight (text.dropWhile isBlank)

-- Words

/- Put a finished word, held back to front, before the others. -/
def flushWord (word : List Char) (rest : List (List Char)) : List (List Char) :=
  if word.isEmpty then rest else word.reverse :: rest

/- The words of a text, after the word read so far (back to front). -/
def wordsFrom (word : List Char) : List Char → List (List Char)
  | [] => flushWord word []
  | c :: text =>
      if isBlank c then
        flushWord word (wordsFrom [] text)
      else
        wordsFrom (c :: word) text

/- The maximal runs of characters that are not blank, in order. -/
def words (text : List Char) : List (List Char) :=
  wordsFrom [] text

-- Lines

/- A line read back to front, without the carriage return that ends it. -/
def finishLine : List Char → List Char
  | '\r' :: line => line.reverse
  | line => line.reverse

/- The lines of a text, after the line read so far (back to front). -/
def linesFrom (line : List Char) : List Char → List (List Char)
  | [] => if line.isEmpty then [] else [line.reverse]
  | '\n' :: text => finishLine line :: linesFrom [] text
  | c :: text => linesFrom (c :: line) text

/-
  The lines of a text. A line ends at a line feed, a carriage
  return before it belongs to the line end, and a last line
  without a line feed counts unless it is empty.
-/
def lines (text : List Char) : List (List Char) :=
  linesFrom [] text

end Unboxing.Text
