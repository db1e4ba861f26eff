import Unboxing.Code.Node
import Unboxing.Registry.Basic

/-
  This file defines which fields of a class hold payloads, and
  which methods have anything to do with value classes.

  Key definitions include:
    * `PayloadField`
    * `ClassLayout`
    * `ClassLayout.ofClass`
    * `ClassLayout.storesPayloads`
    * `ClassLayout.fieldsToSeed`
    * `Method.isConcerned`
    * `Method.payloadOwners`
-/

namespace Unboxing

-- Payload fields

/-
  A field that holds a payload: its type before and after
  unboxing, and the payload to store into it at first unless
  that is zero.
-/
structure PayloadField where
  name : MemberName
  isStatic : Bool
  source : FieldType
  type : FieldType
  nullValue : Option Int
deriving DecidableEq, Repr

namespace PayloadField

/- The field as a member of its class after unboxing. -/
def ref (field : PayloadField) (owner : ClassName) : FieldRef :=
  ⟨owner, field.name, field.type⟩

/- The payload other than zero that stands for null in values with a tag. -/
def nullValueOf? (reg : Registry) (tag : Tag) : Option Int :=
  if tag.isPayload then
    ((tag.class?.bind reg.class?).map ValueClass.nullValue).filter (· ≠ 0)
  else
    none

/- The field as one that holds a payload, if its type mentions a value class. -/
def ofField? (reg : Registry) (field : Field) : Option PayloadField :=
  if reg.mentions field.type then
    let tag := (reg.tagOf field.type).payloadOf
    (reg.typeOf? tag).map fun type =>
      ⟨field.name, field.isStatic, field.type, type, nullValueOf? reg tag⟩
  else
    none

end PayloadField

-- Layouts

/- A class with its payload fields, and the classes whose fields stay boxed. -/
structure ClassLayout where
  name : ClassName
  parent : Option ClassName
  payloadFields : List PayloadField
  keptBoxed : List ClassName
deriving DecidableEq, Repr

/- Whether fields of a class hold payloads, given the classes that stay boxed. -/
def Registry.storesPayloads (reg : Registry) (keptBoxed : List ClassName)
    (owner : ClassName) : Bool :=
  reg.inScope owner && !keptBoxed.contains owner

namespace ClassLayout

/- The layout of a class, given the classes that stay boxed. -/
def ofClass (reg : Registry) (keptBoxed : List ClassName)
    (cls : Class) : ClassLayout where
  name := cls.name
  parent := cls.parent
  payloadFields :=
    if reg.storesPayloads keptBoxed cls.name then
      cls.fields.filterMap (PayloadField.ofField? reg)
    else
      []
  keptBoxed := keptBoxed

/- Whether fields of a class hold payloads. -/
def storesPayloads (layout : ClassLayout) (reg : Registry)
    (owner : ClassName) : Bool :=
  reg.storesPayloads layout.keptBoxed owner

/- The fields, static or not, in which zero does not stand for null. -/
def fieldsToSeed (layout : ClassLayout) (isStatic : Bool) : List PayloadField :=
  layout.payloadFields.filter fun field =>
    field.isStatic == isStatic && field.nullValue.isSome

end ClassLayout

-- Methods with something to unbox

/- Whether an instruction mentions a value class. -/
def Instruction.isConcerned (reg : Registry) : Instruction → Bool
  | .field _ accessed => reg.mentions accessed.type
  | .invoke _ method => reg.mentionsIn method
  | .invokeDynamic call => call.type.types.any reg.mentions
  | .newObject name => (reg.index? name).isSome
  | .newRefArray type
  | .checkCast type
  | .instanceOf type
  | .newMultiArray type _
  | .constant (.type type) => reg.mentions (.ref type)
  | _ => false

/- Whether an element of a body mentions a value class. -/
def Node.isConcerned (reg : Registry) : Node → Bool
  | .insn i => i.isConcerned reg
  | _ => false

namespace Method

/- Whether the method is where fields of the class get their first payloads. -/
def seedsFields (method : Method) (layout : ClassLayout) : Bool :=
  (method.isConstructor && !(layout.fieldsToSeed false).isEmpty)
    || (method.isClassInitializer && !(layout.fieldsToSeed true).isEmpty)

/- Whether unboxing could change anything in the method. -/
def isConcerned (method : Method) (layout : ClassLayout) (reg : Registry) : Bool :=
  match method.body with
  | none => false
  | some body =>
      method.type.types.any reg.mentions
        || method.seedsFields layout
        || body.nodes.any (Node.isConcerned reg)

/- The class whose payload field an element of a body reaches. -/
def payloadOwner? (layout : ClassLayout) (reg : Registry) : Node → Option ClassName
  | .insn (.field _ field) =>
      if reg.mentions field.type
          && layout.storesPayloads reg field.owner then
        some field.owner
      else
        none
  | _ => none

/- The classes whose payload fields the method reaches, with repetitions. -/
def payloadOwners (method : Method) (layout : ClassLayout)
    (reg : Registry) : List ClassName :=
  match method.body with
  | none => []
  | some body => body.nodes.filterMap (payloadOwner? layout reg)

end Method

end Unboxing
