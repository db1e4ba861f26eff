import Unboxing.Simulation.Conversion
import Unboxing.Simulation.Seeding

/-
  This file defines what becomes of instructions that read and
  write locals, array elements and fields. Locals move to the
  addresses of their slots, and a reference to a value is
  unboxed where a slot has room for its payload.

  Key definitions include:
    * `Simulation.loadPrimitive`
    * `Simulation.loadReference`
    * `Simulation.storePrimitive`
    * `Simulation.storeReference`
    * `Simulation.loadElement`
    * `Simulation.storeElement`
    * `Simulation.accessField`
-/

namespace Unboxing

/- The kind of values that an array instruction moves. -/
def ArrayKind.valueKind : ArrayKind → ValueKind
  | .int | .byte | .char | .short => .int
  | .long => .long
  | .float => .float
  | .double => .double
  | .reference => .reference

namespace Simulation

-- Locals

/- The slot that a slot becomes. -/
def remap (slot : Nat) : Simulation Nat := do
  slotNumber ((← get).locals.address slot)

/- Use an instruction in the place of one that it differs from. -/
def useInstead (found wanted : Instruction) : Simulation Unit := do
  if wanted ≠ found then
    replaceNode (.insn wanted)

def increment (slot : Nat) (delta : Int) : Simulation Unit := do
  let target ← remap slot
  useInstead (.increment slot delta) (.increment target delta)

def loadPrimitive (kind : ValueKind) (slot : Nat) : Simulation Unit := do
  let target ← remap slot
  useInstead (.load kind slot) (.load kind target)
  push (.ofKind kind) none

/- Load a reference from a local, or the payload it has become. -/
def loadReference (slot : Nat) : Simulation Unit := do
  let locals := (← get).locals
  let tag := locals.tagAt slot
  if tag.isVoid then
    throw (.uninitializedLocal slot)
  let target ← remap slot
  useInstead (.load .reference slot) (.load tag.valueKind target)
  push tag (locals.nameAt slot)

/- Give a slot a value, and tell the slot it becomes. -/
def putLocal (slot : Nat) (tag : Tag) (name : Option String) : Simulation Nat := do
  match (← get).locals.put slot tag name with
  | none => throw (.limitExceeded "local variable layout")
  | some (address, locals) =>
      changeLocals fun _ => locals
      slotNumber address

def storePrimitive (kind : ValueKind) (slot : Nat) : Simulation Unit := do
  popKind kind
  let target ← putLocal slot (.ofKind kind) none
  useInstead (.store kind slot) (.store kind target)

/- What a value on top becomes before it is stored in a slot with some room. -/
def storedAs (found : Tag) (room : Nat) : Tag :=
  if found.isReference && !found.isWildcard && decide (2 ≤ room) then
    found.payloadOf
  else if found.isPayload && decide (room < 2) then
    found.referenceOf
  else
    found

/- Store a reference into a local, unboxed if its slot has room. -/
def storeReference (slot : Nat) : Simulation Unit := do
  let found ← tagAt 0
  convertTop (storedAs found ((← get).locals.room slot))
  match ← withStack OperandStack.popEntry with
  | none => return ()
  | some entry =>
      let target ← putLocal slot entry.tag entry.name
      useInstead (.store .reference slot) (.store entry.tag.valueKind target)

-- Array elements

/- Load an element of an array of references. -/
def loadReferenceElement : Simulation Unit := do
  let array ← tagAt 1
  let element := if array.isNull then .null else array.elementOf
  popKind .int
  let _ ← popReference
  if element.isPayload then
    replaceNode (.insn (.arrayLoad .long))
  push element none

def loadElement : ArrayKind → Simulation Unit
  | .reference => loadReferenceElement
  | kind => do
      popKind .int
      let _ ← popReference
      push (.ofKind kind.valueKind) none

/- Store an element of an array of references. -/
def storeReferenceElement : Simulation Unit := do
  let array ← tagAt 2
  let element := array.elementOf
  if array.isPayloadArray then
    convertTop element
    if element.isPayload then
      replaceNode (.insn (.arrayStore .long))
  else
    boxTopFor (if array.isValue then element else .object)
  let _ ← pop
  popKind .int
  let _ ← popReference

def storeElement : ArrayKind → Simulation Unit
  | .reference => storeReferenceElement
  | kind => do
      popKind kind.valueKind
      popKind .int
      let _ ← popReference

-- Fields

/- The payload that a field holds, with the field as it is then. -/
def payloadField? (declared : Tag)
    (accessed : FieldRef) : Simulation (Option (Tag × FieldRef)) := do
  let ctx ← read
  if ctx.layout.storesPayloads ctx.reg accessed.owner
      && ctx.reg.mentions accessed.type then
    let tag := declared.payloadOf
    match ctx.reg.typeOf? tag with
    | some type => return some (tag, { accessed with type := type })
    | none =>
        throw (.missingImplementation s!"payload type of {accessed.name.text}")
  else
    return none

def accessField (access : FieldAccess) (accessed : FieldRef) : Simulation Unit := do
  let ctx ← read
  if accessed.owner = ctx.layout.name then
    markSeeding
  let declared := ctx.reg.tagOf accessed.type
  let payload ← payloadField? declared accessed
  if access.isPut then
    match payload with
    | some (tag, _) => convertTop tag
    | none => boxTopFor declared
    let _ ← pop
  if !access.isStatic then
    let _ ← popReference
  if !access.isPut then
    push ((payload.map Prod.fst).getD declared) none
  if let some (_, unboxed) := payload then
    replaceNode (.insn (.field access unboxed))

end Simulation

end Unboxing
