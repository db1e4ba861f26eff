import Unboxing.Simulation.Conversion

/-
  This file defines what becomes of instructions that name a
  type: the creation of arrays, which hold payloads where they
  held values, and the tests of the type of a reference.
-/

namespace Unboxing

/- Whether the type is that of all objects. -/
def RefType.isObject (type : RefType) : Bool :=
  type == .object .object

/- Whether a tag is of the same value class and dimensions as another. -/
def Tag.isSameValue (tag other : Tag) : Bool :=
  tag.isValue && tag.class? == other.class? && tag.depth == other.depth

namespace Simulation

-- Arrays

/- Note it if the zeros in a new array do not stand for null. -/
def checkZeroFill (element : Tag) : Simulation Unit := do
  let info ← valueClassOf element
  if info.nullValue ≠ 0 then
    diagnose .arrayNotNullInit

/- Create an array of values, which holds payloads. -/
def newPayloadArray (payload : Tag) : Simulation Unit := do
  if payload.isArray then
    match (← read).reg.typeOf? payload with
    | some (.ref type) => replaceNode (.insn (.newRefArray type))
    | _ => throw (.missingImplementation s!"{payload.text} arrays")
  else
    replaceNode (.insn (.newArray .long))
    checkZeroFill payload
  push (payload.arrayOf 1) none

def newRefArray (type : RefType) : Simulation Unit := do
  let element := (← read).reg.tagOfRef type
  popKind .int
  if element.isValue then
    newPayloadArray element.payloadOf
  else
    push (element.arrayOf 1) none

/- Take the lengths of some dimensions off the stack. -/
def popLengths : Nat → Simulation Unit
  | 0 => return ()
  | count + 1 => do
      popKind .int
      popLengths count

def newMultiArray (type : RefType) (dimensions : Nat) : Simulation Unit := do
  let reg := (← read).reg
  popLengths dimensions
  let tag := reg.tagOfRef type
  let payload := tag.payloadOf
  if tag.isValue then
    if let some (.ref unboxed) := reg.typeOf? payload then
      replaceNode (.insn (.newMultiArray unboxed dimensions))
    if dimensions = payload.depth then
      checkZeroFill payload.elementOf
  push payload none

-- Tests

/- Check the type of the reference on top, box it first if it is another payload. -/
def checkCast (type : RefType) : Simulation Unit := do
  let target := (← read).reg.tagOfRef type
  let top ← tagAt 0
  if top.isUnboxed && (target.isSameValue top || type.isObject) then
    removeNode
  else
    if top.isUnboxed then
      convertTop top.referenceOf
    let found ← popReference
    push (if found.isNull then .null else target) none

/- Put a flag in the place of the payload on top: whether it does not stand for null. -/
def flagNotNull (payload : Tag) : Simulation Unit := do
  let info ← valueClassOf payload
  emitCall info.isNull
  emit (.plain .iconst1)
  emit (.plain .ixor)
  removeNode
  let _ ← pop
  push .int none
  reserveMore 1

def instanceOf (type : RefType) : Simulation Unit := do
  let reg := (← read).reg
  let target := reg.tagOfRef type
  let top ← tagAt 0
  if top.isPayload && (target.isSameValue top || type.isObject) then
    flagNotNull top
  else
    if top.isPayloadArray && target.isSameValue top then
      if let some (.ref unboxed) := reg.typeOf? top then
        replaceNode (.insn (.instanceOf unboxed))
    else if top.isPayload || (top.isPayloadArray && !type.isObject) then
      convertTop top.referenceOf
    let _ ← popReference
    push .int none

end Simulation

end Unboxing
