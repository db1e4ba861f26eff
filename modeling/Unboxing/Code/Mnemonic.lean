import Unboxing.Code.Instruction

/-
  This file defines the mnemonics of instructions and branches
  and the search for an instruction without operands.
-/

namespace Unboxing

-- Parts of mnemonics

def ArrayKind.letter : ArrayKind → String
  | .int => "i"
  | .long => "l"
  | .float => "f"
  | .double => "d"
  | .reference => "a"
  | .byte => "b"
  | .char => "c"
  | .short => "s"

def Shuffle.mnemonic : Shuffle → String
  | .pop => "pop"
  | .pop2 => "pop2"
  | .dup => "dup"
  | .dupX1 => "dup_x1"
  | .dupX2 => "dup_x2"
  | .dup2 => "dup2"
  | .dup2X1 => "dup2_x1"
  | .dup2X2 => "dup2_x2"
  | .swap => "swap"

def FieldAccess.mnemonic : FieldAccess → String
  | .getStatic => "getstatic"
  | .putStatic => "putstatic"
  | .getField => "getfield"
  | .putField => "putfield"

def InvokeKind.mnemonic : InvokeKind → String
  | .virtual => "invokevirtual"
  | .special => "invokespecial"
  | .static => "invokestatic"
  | .interface => "invokeinterface"

/- The ending of a mnemonic that tests integers. -/
def IntTest.suffix : IntTest → String
  | .eq => "eq"
  | .ge => "ge"
  | .gt => "gt"
  | .le => "le"
  | .lt => "lt"
  | .ne => "ne"

/- The ending of a mnemonic that tests references. -/
def RefTest.suffix : RefTest → String
  | .eq => "eq"
  | .ne => "ne"

-- Mnemonics

def Instruction.mnemonic : Instruction → String
  | .plain op => op.mnemonic
  | .pushNull => "aconst_null"
  | .pushByte _ => "bipush"
  | .pushShort _ => "sipush"
  | .load kind _ => kind.letter ++ "load"
  | .store kind _ => kind.letter ++ "store"
  | .increment .. => "iinc"
  | .arrayLoad kind => kind.letter ++ "aload"
  | .arrayStore kind => kind.letter ++ "astore"
  | .arrayLength => "arraylength"
  | .shuffle op => op.mnemonic
  | .constant value => if value.isWide then "ldc2_w" else "ldc"
  | .field access _ => access.mnemonic
  | .invoke kind _ => kind.mnemonic
  | .invokeDynamic _ => "invokedynamic"
  | .newObject _ => "new"
  | .newArray _ => "newarray"
  | .newRefArray _ => "anewarray"
  | .newMultiArray .. => "multianewarray"
  | .checkCast _ => "checkcast"
  | .instanceOf _ => "instanceof"
  | .monitorEnter => "monitorenter"
  | .monitorExit => "monitorexit"

def Branch.mnemonic : Branch → String
  | .ifInt test _ => "if" ++ test.suffix
  | .ifInts test _ => "if_icmp" ++ test.suffix
  | .ifRefs test _ => "if_acmp" ++ test.suffix
  | .ifNull .eq _ => "ifnull"
  | .ifNull .ne _ => "ifnonnull"
  | .goto _ => "goto"
  | .tableSwitch .. => "tableswitch"
  | .lookupSwitch .. => "lookupswitch"
  | .ret none => "return"
  | .ret (some kind) => kind.letter ++ "return"
  | .throw => "athrow"

-- Instructions without operands

/- Every kind of array element that an instruction moves. -/
def ArrayKind.all : List ArrayKind :=
  [.int, .long, .float, .double, .reference, .byte, .char, .short]

def Shuffle.all : List Shuffle :=
  [.pop, .pop2, .dup, .dupX1, .dupX2, .dup2, .dup2X1, .dup2X2, .swap]

/- Every instruction that is written without operands. -/
def Instruction.bare : List Instruction :=
  Plain.all.map .plain
    ++ ArrayKind.all.map .arrayLoad
    ++ ArrayKind.all.map .arrayStore
    ++ Shuffle.all.map .shuffle
    ++ [.pushNull, .arrayLength, .monitorEnter, .monitorExit]

/- The instruction without operands that has a mnemonic. -/
def Instruction.ofMnemonic? (word : String) : Option Instruction :=
  Instruction.bare.find? (·.mnemonic == word)

end Unboxing
