import Unboxing.Code.Frame
import Unboxing.Code.Instruction
import Unboxing.Tag.Cast

/-
  This file defines what is known about value classes and the
  implementations of methods on them, and the tags that types
  get from it.

  Key definitions include:
    * `ValueClass`
    * `MethodBinding`
    * `Registry`
    * `Registry.index?`
    * `Registry.tagOf`
    * `Registry.tagOfFrame`
    * `Registry.typeOf?`
    * `Registry.inScope`
-/

namespace Unboxing

-- Value classes and bindings

/-
  A value class: the payload that stands for null, and the
  static methods that convert and compare its payloads.
-/
structure ValueClass where
  name : ClassName
  nullValue : Int
  box : MethodRef
  unbox : MethodRef
  arrayBox : Option MethodRef
  arrayUnbox : Option MethodRef
  isNull : MethodRef
  identityEquals : MethodRef
deriving DecidableEq, Repr

/-
  A method with the static method that does its work on
  payloads. The tags of the arguments start with the receiver.
-/
structure MethodBinding where
  source : MethodRef
  target : MethodRef
  hasReceiver : Bool
  arguments : List Tag
  result : Option Tag
deriving DecidableEq, Repr

/-
  The value classes in the order of their indices, the bound
  methods with the latest first, and the classes whose fields
  hold payloads.
-/
structure Registry where
  classes : List ValueClass
  bindings : List MethodBinding
  scope : List String
deriving DecidableEq, Repr

namespace Registry

def empty : Registry :=
  ⟨[], [], []⟩

def index? (reg : Registry) (name : ClassName) : Option ClassIndex :=
  (reg.classes.findIdx? (·.name == name)).bind ClassIndex.ofNat?

def class? (reg : Registry) : ClassIndex → Option ValueClass
  | .declared index => reg.classes[index.val]?
  | .wildcard => none

def binding? (reg : Registry) (method : MethodRef) : Option MethodBinding :=
  reg.bindings.find? (·.source == method)

/-
  Whether fields of a class hold payloads: it is named, or it
  is in a package named with a final slash.
-/
def inScope (reg : Registry) (name : ClassName) : Bool :=
  reg.scope.any fun entry =>
    if entry.toList.getLast? = some '/' then
      name.inPackage entry
    else
      name.text == entry

/- Whether a type is a value class, or an array of one. -/
def mentions (reg : Registry) (type : FieldType) : Bool :=
  (type.className?.bind reg.index?).isSome

/- Whether a method is bound, or has a value class in its reference. -/
def mentionsIn (reg : Registry) (method : MethodRef) : Bool :=
  (reg.index? method.owner).isSome
    || method.type.types.any reg.mentions
    || (reg.binding? method).isSome

-- Tags of types

def tagOfBase : BaseType → Tag
  | .int | .boolean | .byte | .char | .short => .int
  | .long => .long
  | .float => .float
  | .double => .double

/- The tag of instances of a class. -/
def tagOfClass (reg : Registry) (name : ClassName) : Tag :=
  match reg.index? name with
  | some cls => .reference cls
  | none => .object

/- The tag of what an array holds at its innermost level. -/
def tagOfElement (reg : Registry) : Element → Tag
  | .base type => tagOfBase type
  | .object name => reg.tagOfClass name

/- The tag of a reference type. Dimensions are counted modulo 256. -/
def tagOfRef (reg : Registry) : RefType → Tag
  | .object name => reg.tagOfClass name
  | .array more element =>
      (reg.tagOfElement element).arrayOf ((more + 1) % 256)

/- The tag of a type, with instances of value classes as references. -/
def tagOf (reg : Registry) : FieldType → Tag
  | .base type => tagOfBase type
  | .ref type => reg.tagOfRef type

/- The tag of a type in a stack frame. -/
def tagOfFrame (reg : Registry) : FrameType → Tag
  | .top => .void
  | .int => .int
  | .float => .float
  | .long => .long
  | .double => .double
  | .null => .null
  | .uninitializedThis | .uninitialized _ => .object
  | .object type => reg.tagOfRef type

/- The type of the values of a kind after unboxing, if one can be declared. -/
def typeOfKind? (reg : Registry) : Kind → Option FieldType
  | .int => some (.base .int)
  | .long | .payload _ => some (.base .long)
  | .float => some (.base .float)
  | .double => some (.base .double)
  | .reference cls => (reg.class? cls).map (.object ·.name)
  | .void | .object | .null => none

/-
  The type of tagged values after unboxing, if one can be
  declared. Only in arrays is an unknown class declared at all.
-/
def typeOf? (reg : Registry) (tag : Tag) : Option FieldType :=
  if tag.depth = 0 then
    reg.typeOfKind? tag.kind
  else
    let element :=
      if tag.kind = .object then
        some (.object .object)
      else
        reg.typeOfKind? tag.kind
    element.map (.ref <| ·.arrayTypeOf tag.depth)

end Registry

end Unboxing
