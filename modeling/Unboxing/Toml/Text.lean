import Unboxing.Toml.Value

/-
  This file defines the strings and keys of a TOML document.

  Key definitions include:
    * `Toml.Scan.string`
    * `Toml.Scan.simpleKey`
    * `Toml.Scan.key`
-/

namespace Unboxing.Toml.Scan

-- Escapes

/- The value of a hexadecimal digit. -/
def hexDigit? (c : Char) : Option Nat :=
  if c.isDigit then some (c.toNat - '0'.toNat)
  else if 'a' ≤ c ∧ c ≤ 'f' then some (c.toNat - 'a'.toNat + 10)
  else if 'A' ≤ c ∧ c ≤ 'F' then some (c.toNat - 'A'.toNat + 10)
  else none

/- The number that hexadecimal digits write. -/
def hexValue? (digits : List Char) : Option Nat :=
  digits.foldlM (fun n c => (hexDigit? c).map (16 * n + ·)) 0

/- The character that hexadecimal digits number, if there is one. -/
def scalar? (digits : List Char) : Option Char := do
  let n ← hexValue? digits
  if h : n.isValidChar then some (Char.ofNatAux n h) else none

/- The character that a letter after a backslash stands for. -/
def escape? : Char → Option Char
  | 'b' => some (Char.ofNat 8)
  | 't' => some '\t'
  | 'n' => some '\n'
  | 'f' => some (Char.ofNat 12)
  | 'r' => some '\r'
  | '"' => some '"'
  | '\\' => some '\\'
  | _ => none

/- Put a character before the text of a scanned string. -/
def prepend (c : Option Char)
    (rest : Option (List Char × List Char)) : Option (List Char × List Char) := do
  let c ← c
  let (text, rest) ← rest
  return (c :: text, rest)

-- Strings on one line

/- The rest of a string with escapes, after its quote. -/
def basicRest : List Char → Option (List Char × List Char)
  | [] => none
  | '"' :: text => some ([], text)
  | '\\' :: 'u' :: a :: b :: c :: d :: text =>
      prepend (scalar? [a, b, c, d]) (basicRest text)
  | '\\' :: 'U' :: a :: b :: c :: d :: e :: f :: g :: h :: text =>
      prepend (scalar? [a, b, c, d, e, f, g, h]) (basicRest text)
  | '\\' :: c :: text => prepend (escape? c) (basicRest text)
  | c :: text =>
      prepend (if isText c && c != '\\' then some c else none) (basicRest text)

/- The rest of a string without escapes, after its quote. -/
def literalRest : List Char → Option (List Char × List Char)
  | [] => none
  | '\x27' :: text => some ([], text)
  | c :: text => prepend (if isText c then some c else none) (literalRest text)

-- Strings on many lines

/- Where a string on many lines stands after a backslash. -/
inductive Folding where
  | no
  | beforeNewline
  | afterNewline

/-
  The rest of a string on many lines with escapes. A backslash
  at the end of a line drops the blanks and newlines after it.
-/
def longBasicRest : Folding → List Char → Option (List Char × List Char)
  | _, [] => none
  | .beforeNewline, '\n' :: text => longBasicRest .afterNewline text
  | .beforeNewline, '\r' :: '\n' :: text => longBasicRest .afterNewline text
  | .beforeNewline, c :: text =>
      if isSpace c then longBasicRest .beforeNewline text else none
  | .afterNewline, '\n' :: text => longBasicRest .afterNewline text
  | .afterNewline, '\r' :: '\n' :: text => longBasicRest .afterNewline text
  | _, '"' :: '"' :: '"' :: '"' :: '"' :: text => some (['"', '"'], text)
  | _, '"' :: '"' :: '"' :: '"' :: text => some (['"'], text)
  | _, '"' :: '"' :: '"' :: text => some ([], text)
  | _, '\\' :: 'u' :: a :: b :: c :: d :: text =>
      prepend (scalar? [a, b, c, d]) (longBasicRest .no text)
  | _, '\\' :: 'U' :: a :: b :: c :: d :: e :: f :: g :: h :: text =>
      prepend (scalar? [a, b, c, d, e, f, g, h]) (longBasicRest .no text)
  | _, '\\' :: '\n' :: text => longBasicRest .afterNewline text
  | _, '\\' :: '\r' :: '\n' :: text => longBasicRest .afterNewline text
  | _, '\\' :: c :: text =>
      if isSpace c then
        longBasicRest .beforeNewline text
      else
        prepend (escape? c) (longBasicRest .no text)
  | _, '\r' :: '\n' :: text => prepend (some '\n') (longBasicRest .no text)
  | _, '\n' :: text => prepend (some '\n') (longBasicRest .no text)
  | .afterNewline, c :: text =>
      if isSpace c then
        longBasicRest .afterNewline text
      else
        prepend (if isText c && c != '\\' then some c else none)
          (longBasicRest .no text)
  | .no, c :: text =>
      prepend (if isText c && c != '\\' then some c else none)
        (longBasicRest .no text)

/- The rest of a string on many lines without escapes. -/
def longLiteralRest : List Char → Option (List Char × List Char)
  | [] => none
  | '\x27' :: '\x27' :: '\x27' :: '\x27' :: '\x27' :: text => some (['\x27', '\x27'], text)
  | '\x27' :: '\x27' :: '\x27' :: '\x27' :: text => some (['\x27'], text)
  | '\x27' :: '\x27' :: '\x27' :: text => some ([], text)
  | '\r' :: '\n' :: text => prepend (some '\n') (longLiteralRest text)
  | '\n' :: text => prepend (some '\n') (longLiteralRest text)
  | c :: text =>
      prepend (if isText c then some c else none) (longLiteralRest text)

/- Drop the newline right after the quotes of a string on many lines. -/
def skipNewline : List Char → List Char
  | '\n' :: text => text
  | '\r' :: '\n' :: text => text
  | text => text

/- Take a string of any of the four forms. -/
def string : Scan String := fun text => do
  let (content, rest) ← match text with
    | '"' :: '"' :: '"' :: text => longBasicRest .no (skipNewline text)
    | '"' :: text => basicRest text
    | '\x27' :: '\x27' :: '\x27' :: text => longLiteralRest (skipNewline text)
    | '\x27' :: text => literalRest text
    | _ => none
  return (String.ofList content, rest)

-- Keys

/- Characters of a key without quotes. -/
def isKeyChar (c : Char) : Bool :=
  c.isAlphanum || c == '_' || c == '-'

/- Take one part of a key. -/
def simpleKey : Scan String := fun text => do
  let (content, rest) ← match text with
    | '"' :: text => basicRest text
    | '\x27' :: text => literalRest text
    | text =>
        let bare := text.takeWhile isKeyChar
        if bare.isEmpty then none else some (bare, text.dropWhile isKeyChar)
  return (String.ofList content, rest)

/- Take the parts of a key, as long as `fuel` lasts. -/
def keyParts : Nat → Scan (List String)
  | 0, _ => none
  | fuel + 1, text => do
      let (part, rest) ← simpleKey (skipSpaces text)
      match skipSpaces rest with
      | '.' :: rest =>
          let (parts, rest) ← keyParts fuel rest
          return (part :: parts, rest)
      | rest => return ([part], rest)

/- Take a key: parts with dots between them, and spaces around each. -/
def key : Scan (List String) := fun text =>
  keyParts (text.length + 1) text

end Unboxing.Toml.Scan
