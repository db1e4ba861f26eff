import Unboxing.Code.Mnemonic
import Unboxing.Code.Node
import Unboxing.Listing.Operand

/-
  This file defines the reading of frames, instructions and
  branches.

  Key definitions include:
    * `Listing.Reading.frame`
    * `Listing.Reading.instruction?`
    * `Listing.Reading.branch?`
    * `Listing.Reading.node`
-/

namespace Unboxing.Listing.Reading

-- Frames

def frameType (line : Nat) (word : String) : Reading FrameType :=
  match word with
  | "top" => return .top
  | "int" => return .int
  | "float" => return .float
  | "long" => return .long
  | "double" => return .double
  | "null" => return .null
  | "uninit_this" => return .uninitializedThis
  | word =>
      if "uninit:".toList.isPrefixOf word.toList then do
        let origin ← label (String.ofList (word.toList.drop 7))
        return .uninitialized origin
      else do
        let type ← refType line word
        return .object type

/- Read the types of a frame, in order. -/
def frameTypes (line : Nat) : List String → Reading (List FrameType)
  | [] => return []
  | word :: words => do
      let type ← frameType line word
      let types ← frameTypes line words
      return type :: types

def frame (line : Nat) : List String → Reading FrameChange
  | ["same"] => return .same
  | ["same1", word] => return .sameOne (← frameType line word)
  | ["chop", word] => return .chop (← number Numeral.word64? line word)
  | "append" :: word :: words => return .append (← frameTypes line (word :: words))
  | "full" :: words => do
      let locals ← frameTypes line (words.takeWhile (· != "|"))
      let stack ← frameTypes line ((words.dropWhile (· != "|")).drop 1)
      return .full locals stack
  | _ => refuse line .frameShape

-- Instructions

/- The only operand of an instruction. -/
def single (line : Nat) (mnemonic : String) : List String → Except Error String
  | [word] => .ok word
  | _ => refuse line (.takesOne mnemonic)

/- The kind that stands before a stem in a mnemonic. -/
def kindBefore? (stem mnemonic : String) : Option ValueKind :=
  ValueKind.all.find? fun kind => kind.letter ++ stem == mnemonic

/- Loads and stores of the first four slots, with the slot in the mnemonic. -/
def shortForm? (mnemonic : String) (operands : List String) : Option Instruction := do
  let (stem, digits) ← Text.cutLast? '_' mnemonic.toList
  let slot ← Numeral.word16? digits
  if 3 < slot ∨ operands ≠ [] then
    none
  else
    let stem := String.ofList stem
    ((kindBefore? "load" stem).map fun kind => .load kind slot)
      <|> ((kindBefore? "store" stem).map fun kind => .store kind slot)

/- Read an instruction that has operands, if the mnemonic is one of these. -/
def operandInstruction? (line : Line) (mnemonic : String)
    (operands : List String) : Option (Except Error Instruction) :=
  let n := line.number
  let one := single n mnemonic operands
  match kindBefore? "load" mnemonic, kindBefore? "store" mnemonic with
  | some kind, _ =>
      some do return .load kind (← number Numeral.word16? n (← one))
  | _, some kind =>
      some do return .store kind (← number Numeral.word16? n (← one))
  | none, none =>
      match mnemonic with
      | "bipush" => some do return .pushByte (← number Numeral.int8? n (← one))
      | "sipush" => some do return .pushShort (← number Numeral.int16? n (← one))
      | "ldc" | "ldc_w" | "ldc2_w" => some do
          return .constant (← constant line operands)
      | "iinc" => some <|
          match operands with
          | [slot, delta] => do
              let slot ← number Numeral.word16? n slot
              let delta ← number Numeral.int16? n delta
              return .increment slot delta
          | _ => refuse n .incrementShape
      | "getstatic" => some do return .field .getStatic (← fieldRef n operands)
      | "putstatic" => some do return .field .putStatic (← fieldRef n operands)
      | "getfield" => some do return .field .getField (← fieldRef n operands)
      | "putfield" => some do return .field .putField (← fieldRef n operands)
      | "invokevirtual" => some do return .invoke .virtual (← methodRef n operands)
      | "invokespecial" => some do return .invoke .special (← methodRef n operands)
      | "invokestatic" => some do return .invoke .static (← methodRef n operands)
      | "invokeinterface" => some do
          return .invoke .interface (← methodRef n operands)
      | "invokedynamic" => some do return .invokeDynamic (← dynamicCall n (← one))
      | "new" => some do return .newObject (← className n (← one))
      | "newarray" => some do
          let word ← one
          match BaseType.ofKeyword? word with
          | some type => return .newArray type
          | none => refuse n (.unknownArrayType word)
      | "anewarray" => some do return .newRefArray (← refType n (← one))
      | "checkcast" => some do return .checkCast (← refType n (← one))
      | "instanceof" => some do return .instanceOf (← refType n (← one))
      | "multianewarray" => some <|
          match operands with
          | [word, dimensions] => do
              let type ← refType n word
              let dimensions ← number Numeral.word8? n dimensions
              return .newMultiArray type dimensions
          | _ => refuse n .multiArrayShape
      | _ => none

/- Read an instruction that is no branch, if the mnemonic is one of these. -/
def instruction? (line : Line) (mnemonic : String)
    (operands : List String) : Option (Except Error Instruction) :=
  match Instruction.ofMnemonic? mnemonic with
  | some insn => some <|
      if operands.isEmpty then .ok insn
      else refuse line.number (.takesNone mnemonic)
  | none =>
      match shortForm? mnemonic operands with
      | some insn => some (.ok insn)
      | none => operandInstruction? line mnemonic operands

-- Branches

def intTests : List IntTest :=
  [.eq, .ge, .gt, .le, .lt, .ne]

/- The labels of names, in order. -/
def labels : List String → Reading (List Label)
  | [] => return []
  | name :: names => do
      let first ← label name
      let rest ← labels names
      return first :: rest

/- Read the keys of a switch with the label of each. -/
def switchPairs (line : Nat) : List String → Reading (List (Int × Label))
  | [] => return []
  | word :: words => do
      match Text.cutFirst? ':' word.toList with
      | none => refuse line (.switchPairShape word)
      | some (key, name) =>
          let key ← number Numeral.int32? line (String.ofList key)
          let target ← label (String.ofList name)
          let pairs ← switchPairs line words
          return (key, target) :: pairs

/- The operands of a switch before its default, and the default. -/
def cutDefault? (operands : List String) : Option (List String × String) :=
  match operands.reverse with
  | default :: "default" :: rest => some (rest.reverse, default)
  | _ => none

/- Read the operands of a switch over consecutive keys. -/
def tableSwitch (line : Nat) (operands : List String) : Reading Branch :=
  match cutDefault? operands with
  | some (low :: targets, default) => do
      let default ← label default
      let low ← number Numeral.int32? line low
      let targets ← labels targets
      return .tableSwitch default low targets
  | _ => refuse line .tableSwitchShape

/- Read the operands of a switch over any keys. -/
def lookupSwitch (line : Nat) (operands : List String) : Reading Branch :=
  match cutDefault? operands with
  | some (pairs, default) => do
      let pairs ← switchPairs line pairs
      let default ← label default
      return .lookupSwitch default pairs
  | none => refuse line .lookupSwitchShape

/- Read a branch, if the mnemonic is one of a branch. -/
def branch? (line : Nat) (mnemonic : String)
    (operands : List String) : Option (Reading Branch) :=
  let jump (make : Label → Branch) : Reading Branch := do
    let word ← single line mnemonic operands
    return make (← label word)
  match intTests.find? (fun test => "if" ++ test.suffix == mnemonic),
      intTests.find? (fun test => "if_icmp" ++ test.suffix == mnemonic),
      kindBefore? "return" mnemonic with
  | some test, _, _ => some (jump (.ifInt test))
  | _, some test, _ => some (jump (.ifInts test))
  | _, _, some kind => some (return .ret (some kind))
  | none, none, none =>
      match mnemonic with
      | "if_acmpeq" => some (jump (.ifRefs .eq))
      | "if_acmpne" => some (jump (.ifRefs .ne))
      | "ifnull" => some (jump (.ifNull .eq))
      | "ifnonnull" => some (jump (.ifNull .ne))
      | "goto" | "goto_w" => some (jump .goto)
      | "tableswitch" => some (tableSwitch line operands)
      | "lookupswitch" => some (lookupSwitch line operands)
      | "return" => some (return .ret none)
      | "athrow" => some (return .throw)
      | _ => none

-- Nodes

def node (line : Line) (mnemonic : String) (operands : List String) : Reading Node :=
  match instruction? line mnemonic operands with
  | some insn => return .insn (← insn)
  | none =>
      match branch? line.number mnemonic operands with
      | some branch => return .branch (← branch)
      | none =>
          if ["jsr", "jsr_w", "ret"].contains mnemonic then
            throw (.unsupported line.number mnemonic)
          else
            refuse line.number (.unknownInstruction mnemonic)

end Unboxing.Listing.Reading
