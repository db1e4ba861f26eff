import Unboxing.Listing.Node

/-
  This file defines the reading of the lines of a method body.
-/

namespace Unboxing.Listing.Reading

/- The name that a line consisting of one word with a colon defines. -/
def definedName? : List String → Option String
  | [word] =>
      match word.toList.reverse with
      | ':' :: name => some (String.ofList name.reverse)
      | _ => none
  | _ => none

/- Add a node to the end of a body. -/
def addNode (body : Body) (node : Node) : Body :=
  { body with nodes := body.nodes ++ [node] }

def debugEntry (line : Nat) : List String → Reading Variable
  | [name, type, start, stop, slot] => do
      let type ← fieldType line type
      let start ← label start
      let stop ← label stop
      let slot ← number Numeral.word16? line slot
      return ⟨name, type, start, stop, slot⟩
  | _ => refuse line .localShape

def handler (line : Nat) : List String → Reading Handler
  | [start, stop, target] => do
      let start ← label start
      let stop ← label stop
      let target ← label target
      return ⟨start, stop, target, none⟩
  | [start, stop, target, caught] => do
      let caught ← className line caught
      let start ← label start
      let stop ← label stop
      let target ← label target
      return ⟨start, stop, target, some caught⟩
  | _ => refuse line .catchShape

/- Read one line of a body into it. -/
def bodyLine (body : Body) (line : Line) : Reading Body :=
  let n := line.number
  match definedName? line.words with
  | some name => return addNode body (.label (← definition n name))
  | none =>
      match line.words with
      | [] => return body
      | "maxs" :: [stack, locals] => do
          let stack ← number Numeral.word16? n stack
          let locals ← number Numeral.word16? n locals
          return { body with maxStack := stack, maxLocals := locals }
      | "maxs" :: _ => refuse n .maxsShape
      | "line" :: [word] => do
          let line ← number Numeral.word32? n word
          return addNode body (.line line)
      | "line" :: _ => refuse n .lineShape
      | "local" :: words => do
          let entry ← debugEntry n words
          return { body with vars := body.vars ++ [entry] }
      | "catch" :: words => do
          let entry ← handler n words
          return { body with handlers := body.handlers ++ [entry] }
      | "frame" :: words => return addNode body (.frame (← frame n words))
      | mnemonic :: operands =>
          return addNode body (← node line mnemonic operands)

/- Read the lines of a body that starts out with room for `cells` locals. -/
def body (cells : Nat) (lines : List Line) : Except Error Body := do
  let start : Body := ⟨0, cells % 0x10000, [], [], []⟩
  let (body, _) ← (lines.foldlM bodyLine start).run (Scope.reserve lines)
  return body

end Unboxing.Listing.Reading
