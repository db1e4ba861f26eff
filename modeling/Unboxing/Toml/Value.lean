/-
  This file defines the values of a TOML document.
-/

namespace Unboxing.Toml

/- A value. Floats and dates are kept as they are written. -/
inductive Value where
  | string (text : String)
  | integer (value : Int)
  | float (text : String)
  | boolean (value : Bool)
  | datetime (text : String)
  | array (items : List Value)
  | table (entries : List (String × Value))
deriving Repr

/- The entries of a table, in order. -/
abbrev Table := List (String × Value)

/- A scan takes something from the front of a text. -/
abbrev Scan (α : Type) := List Char → Option (α × List Char)

namespace Scan

variable {α : Type}

def char (want : Char) : Scan Unit
  | c :: text => if c = want then some ((), text) else none
  | [] => none

def isSpace (c : Char) : Bool :=
  c == ' ' || c == '\t'

def skipSpaces (text : List Char) : List Char :=
  text.dropWhile isSpace

/- Characters that may stand in a comment or a string. -/
def isText (c : Char) : Bool :=
  c == '\t' || (0x20 ≤ c.toNat && c.toNat != 0x7F)

/- Take a line feed, or a carriage return with one. -/
def newline : Scan Unit
  | '\n' :: text => some ((), text)
  | '\r' :: '\n' :: text => some ((), text)
  | _ => none

def skipComment : List Char → List Char
  | '#' :: text => text.dropWhile isText
  | text => text

/- Drop spaces and a comment, then take a newline or the end. -/
def lineEnd : Scan Unit := fun text =>
  match skipComment (skipSpaces text) with
  | [] => some ((), [])
  | text => newline text

end Scan

end Unboxing.Toml
