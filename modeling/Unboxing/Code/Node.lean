import Unboxing.Access
import Unboxing.Code.Frame
import Unboxing.Code.Instruction

/-
  This file defines the elements of a method body and the
  classes, fields and methods around it.
-/

namespace Unboxing

-- Bodies

/- An element of a method body. -/
inductive Node where
  | insn (instruction : Instruction)
  | branch (branch : Branch)
  | label (label : Label)
  | line (number : Nat)
  | frame (change : FrameChange)
deriving DecidableEq, Repr

/- The name and type of a local between two labels, for debuggers. -/
structure Variable where
  name : String
  type : FieldType
  start : Label
  stop : Label
  slot : Nat
deriving DecidableEq, Repr

/- Where exceptions of a class (or all) between two labels are handled. -/
structure Handler where
  start : Label
  stop : Label
  target : Label
  caught : Option ClassName
deriving DecidableEq, Repr

structure Body where
  maxStack : Nat
  maxLocals : Nat
  nodes : List Node
  vars : List Variable
  handlers : List Handler
deriving DecidableEq, Repr

/- The label that an element places, or the labels that it jumps to. -/
def Node.labels : Node → List Label
  | .label placed => [placed]
  | .branch jump => jump.targets
  | _ => []

/- The labels that a body places or jumps to, each once, in ascending order. -/
def Body.labels (body : Body) : List Label :=
  let numbers := (body.nodes.flatMap Node.labels).map Label.number
  (numbers.mergeSort (fun a b => decide (a ≤ b))).eraseDups.map Label.mk

-- Declarations

structure Field where
  name : MemberName
  type : FieldType
  flags : Access.Flags
deriving DecidableEq, Repr

def Field.isStatic (field : Field) : Bool :=
  Access.includes field.flags Access.staticFlag

/- A method of a class, with a body unless it is abstract or native. -/
structure Method where
  name : MemberName
  type : MethodType
  flags : Access.Flags
  body : Option Body
deriving DecidableEq, Repr

namespace Method

/- Whether the method has no receiver. -/
def isStatic (method : Method) : Bool :=
  Access.includes method.flags Access.staticFlag

/- Whether the method constructs instances. -/
def isConstructor (method : Method) : Bool :=
  method.name == .init

/- Whether the method initializes its class. -/
def isClassInitializer (method : Method) : Bool :=
  method.name == .clinit

/- The name and descriptor of the method. -/
def signature (method : Method) : String :=
  s!"{method.name.text}{String.ofList method.type.render}"

end Method

structure Class where
  name : ClassName
  flags : Access.Flags
  parent : Option ClassName
  fields : List Field
  methods : List Method
deriving DecidableEq, Repr

namespace Class

def method? (cls : Class) (name : String) : Option Method :=
  cls.methods.find? (·.name.text == name)

/- The name of a method of the class, with its descriptor. -/
def qualified (cls : Class) (method : Method) : String :=
  s!"{cls.name.text}.{method.signature}"

end Class

end Unboxing
