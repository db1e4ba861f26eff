import Unboxing.Toml.Document
import Unboxing.Toml.Number
import Unboxing.Toml.Text

/-
  This file defines the reading of TOML documents.

  Key definitions include:
    * `Toml.Scan.value`
    * `Toml.parse?`
-/

namespace Unboxing.Toml

namespace Scan

-- Values

/- Drop spaces, comments and newlines, as long as `fuel` lasts. -/
def skipLines : Nat → List Char → List Char
  | 0, text => text
  | fuel + 1, text =>
      let text := skipComment (skipSpaces text)
      match newline text with
      | some (_, rest) => skipLines fuel rest
      | none => text

/- Drop spaces, comments and newlines. -/
def skipBlank (text : List Char) : List Char :=
  skipLines (text.length + 1) text

/- Take a key and the equals sign after it. -/
def keyEquals : Scan (List String) := fun text => do
  let (path, text) ← key text
  let (_, text) ← char '=' text
  return (path, skipSpaces text)

mutual

/- Take a value, as long as `fuel` lasts. -/
def value : Nat → Scan Value
  | 0, _ => none
  | fuel + 1, text =>
      match text with
      | [] => none
      | '[' :: rest => do
          let (items, rest) ← arrayItems fuel (skipBlank rest)
          return (.array items, rest)
      | '\x7b' :: rest => do
          let (items, rest) ← inlineEntries fuel [] true (skipSpaces rest)
          return (.table (Items.toEntries items), rest)
      | 't' :: 'r' :: 'u' :: 'e' :: rest => some (.boolean true, rest)
      | 'f' :: 'a' :: 'l' :: 's' :: 'e' :: rest => some (.boolean false, rest)
      | c :: _ =>
          if c = '"' ∨ c = '\x27' then
            (string text).map fun (s, rest) => (.string s, rest)
          else
            number text

/- Take the items of an array up to its bracket. -/
def arrayItems : Nat → Scan (List Value)
  | 0, _ => none
  | fuel + 1, text =>
      match text with
      | ']' :: rest => some ([], rest)
      | text => do
          let (item, rest) ← value fuel text
          match skipBlank rest with
          | ',' :: rest =>
              let (items, rest) ← arrayItems fuel (skipBlank rest)
              return (item :: items, rest)
          | ']' :: rest => return ([item], rest)
          | _ => none

/- Take the entries of a table in braces, after those read so far. -/
def inlineEntries : Nat → Items → Bool → Scan Items
  | 0, _, _, _ => none
  | fuel + 1, items, first, text =>
      match first, text with
      | true, '\x7d' :: rest => some (items, rest)
      | _, text => do
          let (path, rest) ← keyEquals text
          let (item, rest) ← value fuel rest
          let items ← items.insert path.dropLast (path.getLastD "") item
          match skipSpaces rest with
          | ',' :: rest => inlineEntries fuel items false (skipSpaces rest)
          | '\x7d' :: rest => return (items, rest)
          | _ => none

end

end Scan

-- Documents

/- Take a header between brackets, and the end of its line. -/
def header (close : List Char) : Scan (List String) := fun text => do
  let (path, text) ← Scan.key text
  if close.isPrefixOf text then
    let (_, rest) ← Scan.lineEnd (text.drop close.length)
    return (path, rest)
  else
    none

/-
  Read the lines of a document, as long as `fuel` lasts, where
  `current` is the path of the table that entries go into.
-/
def readLines : Nat → List String → Items → List Char → Option Items
  | 0, _, _, _ => none
  | fuel + 1, current, items, text =>
      match Scan.skipBlank text with
      | [] => some items
      | '[' :: '[' :: text => do
          let (path, rest) ← header [']', ']'] text
          let key := path.getLastD ""
          let items ← items.within path.dropLast false (fun _ => (·.openRow key)) .header
          readLines fuel path items rest
      | '[' :: text => do
          let (path, rest) ← header [']'] text
          let key := path.getLastD ""
          let items ← items.within path.dropLast false (fun _ => (·.openTable key)) .header
          readLines fuel path items rest
      | text => do
          let (path, rest) ← Scan.keyEquals text
          let (value, rest) ← Scan.value (rest.length + 1) rest
          let (_, rest) ← Scan.lineEnd rest
          let items ← items.within current false
            (fun _ entries => entries.insert path.dropLast (path.getLastD "") value)
            .header
          readLines fuel current items rest

/- Drop the mark that may stand at the front of a document. -/
def skipMark : List Char → List Char
  | '\ufeff' :: text => text
  | text => text

/- The table that a document writes, if it is well formed. -/
def parse? (text : String) : Option Table :=
  let text := skipMark text.toList
  (readLines (text.length + 1) [] [] text).map Items.toEntries

end Unboxing.Toml
