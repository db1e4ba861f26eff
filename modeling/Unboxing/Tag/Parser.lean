import Unboxing.Number.Numeral
import Unboxing.Tag.Basic

/-
  This file defines the reading of tags from their texts.
-/

namespace Unboxing

/- Why a text is not that of a tag. -/
inductive TagError where
  | malformed
  | noSuchClass (index : String)
deriving DecidableEq, Repr

def ClassIndex.parse (text : List Char) : Except TagError ClassIndex :=
  if text = ['*'] then
    .ok .wildcard
  else
    match Numeral.natural? text with
    | none => .error .malformed
    | some n =>
        match ofNat? n with
        | some cls => .ok cls
        | none => .error (.noSuchClass (String.ofList text))

namespace Tag

/- The number of dimensions that brackets write. -/
def parseDepth : List Char → Except TagError Nat
  | [] => .ok 0
  | '[' :: ']' :: rest => (parseDepth rest).map (· + 1)
  | _ => .error .malformed

/- The kind with a name and a class, which only two kinds have. -/
def parseKind (word : String) (cls : ClassIndex) : Except TagError Kind :=
  match word with
  | "void" => .ok .void
  | "int" => .ok .int
  | "long" => .ok .long
  | "float" => .ok .float
  | "double" => .ok .double
  | "object" => .ok .object
  | "null" => .ok .null
  | "payload" => .ok (.payload cls)
  | "ref" => .ok (.reference cls)
  | _ => .error .malformed

/- Read a tag. Where no class is written it is the first one. -/
def parse (text : String) : Except TagError Tag := do
  let word := text.toList.takeWhile Char.isAlpha
  let (cls, rest) ←
    match text.toList.drop word.length with
    | '<' :: rest =>
        let index := rest.takeWhile (· != '>')
        pure (← ClassIndex.parse index, rest.drop (index.length + 1))
    | rest => pure (.declared 0, rest)
  let kind ← parseKind (String.ofList word) cls
  let depth ← parseDepth rest
  return ⟨kind, depth⟩

end Tag

end Unboxing
