import Unboxing.Simulation.Agreement

/-
  This file defines comparisons of references. Payloads are
  compared by methods of their class that leave a flag, which
  is not zero if the operands are equal, and the branch becomes
  one on that flag.

  Key definitions include:
    * `Comparison`
    * `Comparison.between`
    * `Simulation.compareReferences`
    * `Simulation.compareWithNull`
-/

namespace Unboxing

/- How a comparison of two references is done after unboxing. -/
inductive Comparison where
  /- The references are compared as they are. -/
  | unchanged
  /- The values are of different classes and so never equal. -/
  | never
  /- One operand is null, and the payload is asked whether it stands for null. -/
  | withNull (nullOnTop : Bool)
  /- Both operands are unboxed, and the payloads are compared. -/
  | payloads (downgraded : Bool)
  /- The array of payloads is boxed first. -/
  | boxArray (onTop : Bool)
deriving DecidableEq, Repr

namespace Comparison

/- Whether a reference is to an object of a class that is not tracked. -/
def isPlainObject (tag : Tag) : Bool :=
  tag.kind == .object && !tag.isArray

/- The comparison of two values of value classes, neither an array. -/
def ofValues (left right : Tag) : Comparison :=
  if left.isWildcard || right.isWildcard then
    .unchanged
  else if left.class? ≠ right.class? then
    .never
  else
    .payloads (!(left.isPayload && right.isPayload))

/- The comparison of arrays, where at most one is of payloads. -/
def ofArrays (left right : Tag) : Comparison :=
  if left.isPayloadArray && !right.isPayloadArray && !right.isNull then
    .boxArray false
  else if !left.isPayloadArray && right.isPayloadArray && !left.isNull then
    .boxArray true
  else
    .unchanged

/- The comparison of a left operand with a right one on top. -/
def between (left right : Tag) : Comparison :=
  if left.isValue && !left.isArray && (right.isValue && !right.isArray) then
    ofValues left right
  else if left.isPayload && right.isNull then
    .withNull true
  else if right.isPayload && left.isNull then
    .withNull false
  else if left.isPayload && isPlainObject right
      || right.isPayload && isPlainObject left then
    .payloads true
  else
    ofArrays left right

end Comparison

namespace Simulation

/- Put a payload in the place of a null below it. -/
def dropNullBelow : Simulation Unit := do
  emit (.shuffle .dup2X1)
  emit (.shuffle .pop2)
  emit (.shuffle .pop)
  reserveMore 2
  let entry ← withStack OperandStack.popEntry
  let _ ← pop
  if let some entry := entry then
    push entry.tag entry.name

/- Put a flag in the place of the payload on top: whether it stands for null. -/
def flagNull (payload : Tag) : Simulation Unit := do
  let info ← valueClassOf payload
  emitCall info.isNull
  let _ ← pop
  push .int none

/- Put a flag in the place of two values: whether their payloads are equal. -/
def flagEqual (cls : ClassIndex) (downgraded : Bool) : Simulation Unit := do
  convertOperands [.payload cls, .payload cls]
  let info ← valueClass cls
  emitCall info.identityEquals
  popMany 2
  push .int none
  if downgraded then
    diagnose .valueComparison

/- Put a flag in the place of two values that are never equal. -/
def flagNever : Simulation Unit := do
  dropTop
  dropTop
  emit (.plain .iconst0)
  push .int none
  diagnose .constantComparison

/- Branch on the flag on top instead of on a test of references. -/
def branchOnFlag (test : RefTest) (target : Label) : Simulation Unit := do
  replaceNode (.branch (.ifInt test.negate.toIntTest target))
  let _ ← reconcile target 1
  popKind .int

/- Branch on a test of the two references on top. -/
def branchOnReferences (target : Label) : Simulation Unit := do
  let _ ← reconcile target 2
  let _ ← popReference
  let _ ← popReference

/- Compare the two references on top. -/
def compareReferences (test : RefTest) (target : Label) : Simulation Unit := do
  if ← require 2 then
    let right ← tagAt 0
    let left ← tagAt 1
    match Comparison.between left right with
    | .unchanged => branchOnReferences target
    | .boxArray onTop =>
        convertOperands
          (if onTop then
            [left, right.referenceOf]
          else
            [left.referenceOf, right])
        branchOnReferences target
    | .never =>
        flagNever
        branchOnFlag test target
    | .withNull nullOnTop =>
        if nullOnTop then
          dropTop
          flagNull left
        else
          dropNullBelow
          flagNull right
        branchOnFlag test target
    | .payloads downgraded =>
        flagEqual (((left.class?).or right.class?).getD .first) downgraded
        branchOnFlag test target

/- Compare the reference on top with null. -/
def compareWithNull (test : RefTest) (target : Label) : Simulation Unit := do
  let top ← tagAt 0
  if top.isPayload then
    flagNull top
    branchOnFlag test target
  else
    let _ ← reconcile target 1
    let _ ← popReference

end Simulation

end Unboxing
