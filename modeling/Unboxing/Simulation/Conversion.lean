import Unboxing.Simulation.State

/-
  This file defines the conversion of values on the stack
  between payloads and boxes. Values that are in the way are
  kept in scratch locals.

  Key definitions include:
    * `nullConstant`
    * `Simulation.convertTop`
    * `Simulation.spill`
    * `Simulation.reload`
    * `Simulation.convertOperands`
    * `Simulation.boxOperands`
-/

namespace Unboxing

/- The instruction that loads the payload standing for null. -/
def nullConstant (value : Int) : Instruction :=
  if value = 0 then
    .plain .lconst0
  else if value = 1 then
    .plain .lconst1
  else
    .constant (.long value)

/- The instruction that drops a value of some cells. -/
def popOf (width : Nat) : Instruction :=
  .shuffle (if width = 2 then .pop2 else .pop)

namespace ValueClass

/- The method that boxes a payload, or an array of payloads. -/
def boxMethod (info : ValueClass) : Nat → Except FailureCause MethodRef
  | 0 => .ok info.box
  | 1 =>
      match info.arrayBox with
      | some method => .ok method
      | none =>
          .error (.missingImplementation s!"array boxing for {info.name.text}")
  | depth =>
      .error (.missingImplementation
        s!"boxing {depth}-dimensional arrays of {info.name.text}")

/- The method that unboxes a value, or an array of values. -/
def unboxMethod (info : ValueClass) : Nat → Except FailureCause MethodRef
  | 0 => .ok info.unbox
  | 1 =>
      match info.arrayUnbox with
      | some method => .ok method
      | none =>
          .error (.missingImplementation s!"array unboxing for {info.name.text}")
  | depth =>
      .error (.missingImplementation
        s!"unboxing {depth}-dimensional arrays of {info.name.text}")

end ValueClass

namespace Simulation

-- The top of the stack

def emitCall (method : MethodRef) : Simulation Unit :=
  emit (.invoke .static method)

def emitBox (found : Tag) : Simulation Unit := do
  let info ← valueClassOf found
  emitCall (← MonadExcept.ofExcept (info.boxMethod found.depth))
  diagnose .implicitBoxing

/-
  Unbox the reference on top. Null becomes the payload that
  stands for it, and a reference to an unknown class is checked
  first.
-/
def emitUnbox (found want : Tag) : Simulation Unit := do
  let info ← valueClassOf want
  if found.isNull then
    emit (.shuffle .pop)
    emit (nullConstant info.nullValue)
  else
    if !found.isValue then
      if let some (.ref boxed) := (← read).reg.typeOf? want.referenceOf then
        emit (.checkCast boxed)
    emitCall (← MonadExcept.ofExcept (info.unboxMethod want.depth))

/- The expected tag, with the class of a found one in place of a wildcard. -/
def substituted (found want : Tag) : Tag :=
  match found.class? with
  | some cls => want.substitute cls
  | none => want

/- Turn the value on top into an expected one. -/
def convertTop (want : Tag) : Simulation Unit := do
  let found ← tagAt 0
  if found ≠ want then
    match found.cast want with
    | .success => retag 0 want
    | .substitution => retag 0 (substituted found want)
    | .boxing =>
        emitBox found
        retag 0 want
    | .unboxing =>
        emitUnbox found want
        retag 0 want
    | .failure => throw (.irreconcilableCast found want)

/- What a payload must become for a consumer that may want a reference. -/
def boxedFor (found consumer : Tag) : Tag :=
  if !found.isUnboxed then
    found
  else if consumer.isValue then
    consumer
  else
    found.referenceOf

/- Box the value on top if it is a payload and its consumer wants something else. -/
def boxTopFor (consumer : Tag) : Simulation Unit := do
  let found ← tagAt 0
  if found.isUnboxed && found != consumer then
    convertTop (boxedFor found consumer)

/- Take the top value off, also in the code. -/
def dropTop : Simulation Unit := do
  let tag ← pop
  emit (popOf tag.dstWidth)

-- Scratch locals

/- A stack entry that is kept in a scratch local. -/
structure Spilled where
  slot : Nat
  entry : Entry
deriving DecidableEq, Repr

/- Move the top entries to scratch locals, the top first. -/
def spill : Nat → Simulation (List Spilled)
  | 0 => return []
  | count + 1 => do
      match ← withStack OperandStack.popEntry with
      | none => return []
      | some entry =>
          let slot ← allocate entry.tag
          emit (.store entry.tag.valueKind slot)
          let more ← spill count
          return ⟨slot, entry⟩ :: more

/- Put an entry back on the stack. -/
def reload (spilled : Spilled) : Simulation Unit := do
  emit (.load spilled.entry.tag.valueKind spilled.slot)
  push spilled.entry.tag spilled.entry.name

/- Put entries back on the stack, each as what is expected in its place. -/
def reloadAs : List Spilled → List Tag → Simulation Unit
  | spilled :: rest, want :: others => do
      reload spilled
      if spilled.entry.tag ≠ want then
        convertTop want
      reloadAs rest others
  | rest, _ => rest.forM reload

-- Operands

/-
  Retag the operands whose casts take no code. The expected
  tags are given with the deepest first, and those from the
  deepest operand on whose cast takes code are returned.
-/
def retagOperands : List Tag → Simulation (List Tag)
  | [] => return []
  | want :: above => do
      let found ← tagAt above.length
      if found = want then
        retagOperands above
      else
        match found.cast want with
        | .failure => throw (.irreconcilableCast found want)
        | .boxing | .unboxing =>
            let _ ← retagOperands above
            return want :: above
        | .substitution =>
            retag above.length (substituted found want)
            retagOperands above
        | .success =>
            retag above.length want
            retagOperands above

/- Turn the top entries into expected ones, given with the deepest first. -/
def convertOperands (want : List Tag) : Simulation Unit := do
  if ← require want.length then
    match ← retagOperands want with
    | [] => return ()
    | deepest :: above =>
        let spilled ← spill above.length
        convertTop deepest
        reloadAs spilled.reverse above

/- The tags of the top entries, the deepest first. -/
def topTags (count : Nat) : Simulation (List Tag) :=
  return (((← get).stack.entries.take count).map Entry.tag).reverse

/- Box the payloads among the top entries for their consumers. -/
def boxOperands (consumers : List Tag) : Simulation Unit := do
  let found ← topTags consumers.length
  if found.any Tag.isUnboxed then
    convertOperands ((found.zip consumers).map fun (found, consumer) =>
      boxedFor found consumer)

end Simulation

end Unboxing
