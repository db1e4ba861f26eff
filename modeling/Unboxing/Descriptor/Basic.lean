import Unboxing.Name
import Unboxing.Number.Total

/-
  This file defines the types of fields and methods and the
  descriptors that write them.

  Key definitions include:
    * `BaseType`
    * `RefType`
    * `FieldType`
    * `MethodType`
    * `RefType.operand`
    * `FieldType.render`
    * `MethodType.parameterCells`
-/

namespace Unboxing

-- Primitive types

inductive BaseType where
  | byte | char | double | float | int | long | short | boolean
deriving DecidableEq, Repr

namespace BaseType

def letter : BaseType → Char
  | .byte => 'B'
  | .char => 'C'
  | .double => 'D'
  | .float => 'F'
  | .int => 'I'
  | .long => 'J'
  | .short => 'S'
  | .boolean => 'Z'

def keyword : BaseType → String
  | .byte => "byte"
  | .char => "char"
  | .double => "double"
  | .float => "float"
  | .int => "int"
  | .long => "long"
  | .short => "short"
  | .boolean => "boolean"

def all : List BaseType :=
  [.byte, .char, .double, .float, .int, .long, .short, .boolean]

def ofLetter? (c : Char) : Option BaseType :=
  all.find? (·.letter == c)

def ofKeyword? (word : String) : Option BaseType :=
  all.find? (·.keyword == word)

/- The cells that a value of the type takes. -/
def width : BaseType → Nat
  | .double | .long => 2
  | _ => 1

@[simp] theorem ofLetter?_letter (type : BaseType) :
    ofLetter? type.letter = some type := by
  cases type <;> decide

@[simp] theorem ofKeyword?_keyword (type : BaseType) :
    ofKeyword? type.keyword = some type := by
  cases type <;> decide

end BaseType

-- Reference types

/- What an array holds at its innermost level. -/
inductive Element where
  | base (type : BaseType)
  | object (name : ClassName)
deriving DecidableEq, Repr

/- A class, or an array with `more + 1` dimensions. -/
inductive RefType where
  | object (name : ClassName)
  | array (more : Nat) (element : Element)
deriving DecidableEq, Repr

/- The type of a field, parameter, result or local variable. -/
inductive FieldType where
  | base (type : BaseType)
  | ref (type : RefType)
deriving DecidableEq, Repr

namespace Element

def render : Element → List Char
  | .base type => [type.letter]
  | .object name => 'L' :: (name.text.toList ++ [';'])

def className? : Element → Option ClassName
  | .base _ => none
  | .object name => some name

end Element

namespace RefType

def render : RefType → List Char
  | .object name => (Element.object name).render
  | .array more element => List.replicate (more + 1) '[' ++ element.render

/-
  The type as the operand of an instruction: a class by its
  bare name, an array by its descriptor.
-/
def operand : RefType → List Char
  | .object name => name.text.toList
  | .array more element => (RefType.array more element).render

def depth : RefType → Nat
  | .object _ => 0
  | .array more _ => more + 1

/- The class that the type is, or is an array of. -/
def className? : RefType → Option ClassName
  | .object name => some name
  | .array _ element => element.className?

end RefType

namespace FieldType

/- The type of instances of a class. -/
def object (name : ClassName) : FieldType :=
  .ref (.object name)

def render : FieldType → List Char
  | .base type => [type.letter]
  | .ref type => type.render

/- The cells that a value of the type takes. -/
def width : FieldType → Nat
  | .base type => type.width
  | .ref _ => 1

/- The number of array dimensions. -/
def depth : FieldType → Nat
  | .base _ => 0
  | .ref type => type.depth

/- The class that the type is, or is an array of. -/
def className? : FieldType → Option ClassName
  | .base _ => none
  | .ref type => type.className?

/- The type of arrays with elements of this type. -/
def arrayType : FieldType → RefType
  | .base type => .array 0 (.base type)
  | .ref (.object name) => .array 0 (.object name)
  | .ref (.array more element) => .array (more + 1) element

/- The array type with `extra` dimensions on top of the first. -/
def arrayTypeWith (type : FieldType) : Nat → RefType
  | 0 => type.arrayType
  | extra + 1 => (FieldType.ref (type.arrayTypeWith extra)).arrayType

/- The array type with `depth` dimensions, at least one. -/
def arrayTypeOf (type : FieldType) (depth : Nat) : RefType :=
  type.arrayTypeWith (depth - 1)

end FieldType

-- Method types

/- The parameters of a method and its result, if it has one. -/
structure MethodType where
  parameters : List FieldType
  result : Option FieldType
deriving DecidableEq, Repr

namespace MethodType

def render (type : MethodType) : List Char :=
  '(' :: (type.parameters.flatMap FieldType.render
    ++ ')' :: match type.result with
      | none => ['V']
      | some result => result.render)

/- Every type that the method mentions, parameters first. -/
def types (type : MethodType) : List FieldType :=
  type.parameters ++ type.result.toList

/- The cells of the parameters, with one for a receiver. -/
def parameterCells (type : MethodType) (receiver : Bool) : Nat :=
  (if receiver then 1 else 0) + total (type.parameters.map FieldType.width)

end MethodType

end Unboxing
