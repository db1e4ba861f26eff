import Unboxing.Code.Label
import Unboxing.Code.Plain
import Unboxing.Descriptor.Basic
import Unboxing.Number.Binary

/-
  This file defines the instructions of a method body: those
  that fall through to the next one, and the branches.

  Key definitions include:
    * `Constant`
    * `FieldRef`
    * `MethodRef`
    * `Instruction`
    * `Branch`
    * `Branch.fallsThrough`
    * `Branch.targets`
-/

namespace Unboxing

-- Operands

/- A constant that an instruction loads. -/
inductive Constant where
  | int (value : Int)
  | float (value : Binary.Value)
  | long (value : Int)
  | double (value : Binary.Value)
  | string (value : String)
  | type (value : RefType)
  | methodType (value : MethodType)
deriving DecidableEq, Repr

def Constant.isWide : Constant → Bool
  | .long _ | .double _ => true
  | _ => false

/- A field of a class, by name and type. -/
structure FieldRef where
  owner : ClassName
  name : MemberName
  type : FieldType
deriving DecidableEq, Repr

/- A method of a class, by name and type. -/
structure MethodRef where
  owner : ClassName
  name : MemberName
  type : MethodType
deriving DecidableEq, Repr

/- A method written as owner, name and descriptor. -/
def MethodRef.text (method : MethodRef) : String :=
  s!"{method.owner.text}.{method.name.text}{String.ofList method.type.render}"

/- A call whose implementation is found at run time. -/
structure DynamicCall where
  name : MemberName
  type : MethodType
deriving DecidableEq, Repr

/- What an array instruction moves. -/
inductive ArrayKind where
  | int | long | float | double | reference | byte | char | short
deriving DecidableEq, Repr

/- Rearrangements of the top of the operand stack. -/
inductive Shuffle where
  | pop | pop2 | dup | dupX1 | dupX2 | dup2 | dup2X1 | dup2X2 | swap
deriving DecidableEq, Repr

/- The four ways to reach a field. -/
inductive FieldAccess where
  | getStatic | putStatic | getField | putField
deriving DecidableEq, Repr

namespace FieldAccess

def isStatic : FieldAccess → Bool
  | .getStatic | .putStatic => true
  | .getField | .putField => false

def isPut : FieldAccess → Bool
  | .putStatic | .putField => true
  | .getStatic | .getField => false

end FieldAccess

/- The ways to call a method of a class. -/
inductive InvokeKind where
  | virtual | special | static | interface
deriving DecidableEq, Repr

/- Whether the call takes a receiver below its arguments. -/
def InvokeKind.hasReceiver : InvokeKind → Bool
  | .static => false
  | _ => true

-- Instructions

/- An instruction after which the next one is executed. -/
inductive Instruction where
  | plain (op : Plain)
  | pushNull
  | pushByte (value : Int)
  | pushShort (value : Int)
  | load (kind : ValueKind) (slot : Nat)
  | store (kind : ValueKind) (slot : Nat)
  | increment (slot : Nat) (delta : Int)
  | arrayLoad (kind : ArrayKind)
  | arrayStore (kind : ArrayKind)
  | arrayLength
  | shuffle (op : Shuffle)
  | constant (value : Constant)
  | field (access : FieldAccess) (field : FieldRef)
  | invoke (kind : InvokeKind) (method : MethodRef)
  | invokeDynamic (call : DynamicCall)
  | newObject (name : ClassName)
  | newArray (type : BaseType)
  | newRefArray (type : RefType)
  | newMultiArray (type : RefType) (dimensions : Nat)
  | checkCast (type : RefType)
  | instanceOf (type : RefType)
  | monitorEnter
  | monitorExit
deriving DecidableEq, Repr

-- Branches

/- How two integers, or an integer and zero, are compared. -/
inductive IntTest where
  | eq | ge | gt | le | lt | ne
deriving DecidableEq, Repr

/- How two references, or a reference and null, are compared. -/
inductive RefTest where
  | eq | ne
deriving DecidableEq, Repr

/- The test that holds exactly when this one does not. -/
def IntTest.negate : IntTest → IntTest
  | .eq => .ne
  | .ge => .lt
  | .gt => .le
  | .le => .gt
  | .lt => .ge
  | .ne => .eq

/- The test that holds exactly if this one does not. -/
def RefTest.negate : RefTest → RefTest
  | .eq => .ne
  | .ne => .eq

/- The comparison of an integer with zero by the same test. -/
def RefTest.toIntTest : RefTest → IntTest
  | .eq => .eq
  | .ne => .ne

@[simp] theorem IntTest.negate_negate (test : IntTest) :
    test.negate.negate = test := by
  cases test <;> rfl

@[simp] theorem RefTest.negate_negate (test : RefTest) :
    test.negate.negate = test := by
  cases test <;> rfl

/- An instruction that may continue elsewhere, or nowhere. -/
inductive Branch where
  | ifInt (test : IntTest) (target : Label)
  | ifInts (test : IntTest) (target : Label)
  | ifRefs (test : RefTest) (target : Label)
  | ifNull (test : RefTest) (target : Label)
  | goto (target : Label)
  | tableSwitch (default : Label) (low : Int) (targets : List Label)
  | lookupSwitch (default : Label) (targets : List (Int × Label))
  | ret (kind : Option ValueKind)
  | throw
deriving DecidableEq, Repr

namespace Branch

/- Whether the next instruction can be executed after the branch. -/
def fallsThrough : Branch → Bool
  | .ifInt .. | .ifInts .. | .ifRefs .. | .ifNull .. => true
  | _ => false

/- The labels named by a branch, in order, with repetitions. -/
def labels : Branch → List Label
  | .ifInt _ target
  | .ifInts _ target
  | .ifRefs _ target
  | .ifNull _ target
  | .goto target => [target]
  | .tableSwitch default _ targets => default :: targets
  | .lookupSwitch default targets => default :: targets.map Prod.snd
  | .ret _ | .throw => []

/- The labels that the branch can jump to, each at its first place. -/
def targets (branch : Branch) : List Label :=
  branch.labels.eraseDups

end Branch

end Unboxing
