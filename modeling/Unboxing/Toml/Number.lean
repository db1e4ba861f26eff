import Unboxing.Number.Decimal
import Unboxing.Toml.Value

/-
  This file defines the numbers and dates of a TOML document.

  Key definitions include:
    * `Toml.Scan.integer`
    * `Toml.Scan.float`
    * `Toml.Scan.datetime`
    * `Toml.Scan.number`
-/

namespace Unboxing.Toml.Scan

-- Digits

/- Digits that may follow a digit, with an underscore before any of them. -/
def moreDigits (isDigit : Char → Bool) : List Char → List Char × List Char
  | [] => ([], [])
  | '_' :: c :: text =>
      if isDigit c then
        let (digits, rest) := moreDigits isDigit text
        (c :: digits, rest)
      else
        ([], '_' :: c :: text)
  | c :: text =>
      if isDigit c then
        let (digits, rest) := moreDigits isDigit text
        (c :: digits, rest)
      else
        ([], c :: text)

/- Take digits with underscores between some of them. -/
def digits (isDigit : Char → Bool) : Scan (List Char)
  | [] => none
  | c :: text =>
      if isDigit c then
        let (digits, rest) := moreDigits isDigit text
        some (c :: digits, rest)
      else
        none

/- Take a sign, if there is one. -/
def sign : List Char → List Char × List Char
  | '+' :: text => (['+'], text)
  | '-' :: text => (['-'], text)
  | text => ([], text)

/- Take a decimal integer with an optional sign and no leading zeros. -/
def decimalInteger : Scan (List Char) := fun text =>
  let (sign, text) := sign text
  match text with
  | '0' :: rest => some (sign ++ ['0'], rest)
  | text => (digits Char.isDigit text).map fun (ds, rest) => (sign ++ ds, rest)

-- Integers

/- The value of a digit up to the sixteenth. -/
def digitValue (c : Char) : Nat :=
  if c.isDigit then c.toNat - '0'.toNat else c.toLower.toNat - 'a'.toNat + 10

/- Digits of a base, at most sixteen. -/
def isDigitOf (base : Nat) (c : Char) : Bool :=
  (c.isDigit || ('a' ≤ c.toLower && c.toLower ≤ 'f')) && digitValue c < base

/- Take an integer of a base, after its mark, in the signed 64-bit range. -/
def basedInteger (base : Nat) : Scan Int := fun text => do
  let (ds, rest) ← digits (isDigitOf base) text
  let n := ds.foldl (fun n c => base * n + digitValue c) 0
  if n < 0x8000000000000000 then some ((n : Int), rest) else none

/- Take an integer in the signed 64-bit range. -/
def integer : Scan Int
  | '0' :: 'x' :: text => basedInteger 16 text
  | '0' :: 'o' :: text => basedInteger 8 text
  | '0' :: 'b' :: text => basedInteger 2 text
  | text => do
      let (written, rest) ← decimalInteger text
      let n ← Numeral.int64? written
      return (n, rest)

-- Floats

def fraction : Scan (List Char)
  | '.' :: text => (digits Char.isDigit text).map fun (ds, rest) => ('.' :: ds, rest)
  | _ => none

def exp : Scan (List Char)
  | [] => none
  | c :: text =>
      if c = 'e' ∨ c = 'E' then
        let (sign, text) := sign text
        (digits Char.isDigit text).map fun (ds, rest) => ('e' :: (sign ++ ds), rest)
      else
        none

/- Take a float that is written with digits and is not infinite. -/
def decimalFloat : Scan (List Char) := fun text => do
  let (whole, text) ← decimalInteger text
  let (part, rest) ← match fraction text with
    | some (fraction, text) =>
        match exp text with
        | some (exp, rest) => some (fraction ++ exp, rest)
        | none => some (fraction, text)
    | none => exp text
  if Decimal.read? .double (whole ++ part) = some (.infinite false) then
    none
  else
    some (whole ++ part, rest)

/- Take one of the floats that have a name. -/
def namedFloat : Scan (List Char) := fun text =>
  let (sign, text) := sign text
  match text with
  | 'i' :: 'n' :: 'f' :: rest => some (sign ++ "inf".toList, rest)
  | 'n' :: 'a' :: 'n' :: rest => some (sign ++ "nan".toList, rest)
  | _ => none

def float : Scan (List Char) := fun text =>
  decimalFloat text <|> namedFloat text

-- Dates and times

/- Take exactly `count` digits, as a number. -/
def fixedDigits (count : Nat) : Scan Nat := fun text =>
  match Numeral.natural? (text.take count) with
  | some n => if count ≤ text.length then some (n, text.drop count) else none
  | none => none

/- The number of days in a month of a year. -/
def daysIn (year month : Nat) : Nat :=
  if month = 2 then
    if (year % 4 = 0 ∧ year % 100 ≠ 0) ∨ year % 400 = 0 then 29 else 28
  else if month = 4 ∨ month = 6 ∨ month = 9 ∨ month = 11 then 30
  else 31

/- Take a date that exists. -/
def date : Scan Unit := fun text => do
  let (year, text) ← fixedDigits 4 text
  let (_, text) ← char '-' text
  let (month, text) ← fixedDigits 2 text
  let (_, text) ← char '-' text
  let (day, text) ← fixedDigits 2 text
  if 1 ≤ month ∧ month ≤ 12 ∧ 1 ≤ day ∧ day ≤ daysIn year month then
    some ((), text)
  else
    none

/- Take hours and minutes. -/
def hourMinute : Scan Unit := fun text => do
  let (hour, text) ← fixedDigits 2 text
  let (_, text) ← char ':' text
  let (minute, text) ← fixedDigits 2 text
  if hour ≤ 23 ∧ minute ≤ 59 then some ((), text) else none

/- Take a time of day with seconds and perhaps a fraction of these. -/
def time : Scan Unit := fun text => do
  let (_, text) ← hourMinute text
  let (_, text) ← char ':' text
  let (second, text) ← fixedDigits 2 text
  if second ≤ 60 then
    match text with
    | '.' :: c :: rest =>
        if c.isDigit then some ((), rest.dropWhile Char.isDigit) else some ((), text)
    | text => some ((), text)
  else
    none

/- Drop the offset of a time, if there is one. -/
def skipOffset (text : List Char) : List Char :=
  match text with
  | 'Z' :: rest | 'z' :: rest => rest
  | '+' :: rest | '-' :: rest =>
      match hourMinute rest with
      | some (_, rest) => rest
      | none => text
  | _ => text

/- Drop the time after a date, if there is one. -/
def skipTime (text : List Char) : List Char :=
  match text with
  | c :: rest =>
      if c = 'T' ∨ c = 't' ∨ c = ' ' then
        match time rest with
        | some (_, rest) => skipOffset rest
        | none => text
      else
        text
  | [] => []

/- Take a date, a time, or both. -/
def datetime : Scan (List Char) := fun text => do
  let rest ← match date text with
    | some (_, rest) => some (skipTime rest)
    | none => (time text).map Prod.snd
  return (text.take (text.length - rest.length), rest)

/- Take what starts with a sign or a digit. -/
def number : Scan Value := fun text =>
  match datetime text with
  | some (written, rest) => some (.datetime (String.ofList written), rest)
  | none =>
      match float text with
      | some (written, rest) => some (.float (String.ofList written), rest)
      | none => (integer text).map fun (n, rest) => (.integer n, rest)

end Unboxing.Toml.Scan
