import Unboxing.Simulation.Access
import Unboxing.Simulation.Call
import Unboxing.Simulation.FullFrame
import Unboxing.Simulation.Identity
import Unboxing.Simulation.StackForm
import Unboxing.Simulation.Typing

/-
  This file defines what is done at each element of a body.
  Code that control cannot reach is left as it is.

  Key definitions include:
    * `Simulation.instruction`
    * `Simulation.branch`
    * `Simulation.label`
    * `Simulation.step`
-/

namespace Unboxing

def Constant.tag : Constant → Tag
  | .int _ => .int
  | .float _ => .float
  | .long _ => .long
  | .double _ => .double
  | .string _ | .type _ | .methodType _ => .object

namespace Simulation

-- Instructions

/- Take operands of some kinds off the stack, the top first. -/
def popKinds (kinds : List ValueKind) : Simulation Unit :=
  kinds.forM popKind

/- Compute something from primitives. -/
def compute (op : Plain) : Simulation Unit := do
  popKinds op.takes
  if let some kind := op.leaves then
    push (.ofKind kind) none

/- Use the reference on top as a monitor. -/
def useMonitor : Simulation Unit := do
  boxTopFor .object
  let _ ← popReference

def instruction (i : Instruction) : Simulation Unit :=
  match i with
  | .plain op => compute op
  | .pushNull => push .null none
  | .pushByte _ | .pushShort _ => push .int none
  | .constant value => push value.tag none
  | .load .reference slot => loadReference slot
  | .load kind slot => loadPrimitive kind slot
  | .store .reference slot => storeReference slot
  | .store kind slot => storePrimitive kind slot
  | .increment slot delta => increment slot delta
  | .arrayLoad kind => loadElement kind
  | .arrayStore kind => storeElement kind
  | .arrayLength => do
      let _ ← popReference
      push .int none
  | .shuffle op => shuffle op
  | .field access accessed => accessField access accessed
  | .invoke kind method => call kind method
  | .invokeDynamic target => callDynamic target.type
  | .newObject _ => create
  | .newArray type => do
      popKind .int
      push ((Registry.tagOfBase type).arrayOf 1) none
  | .newRefArray type => newRefArray type
  | .newMultiArray type dimensions => newMultiArray type dimensions
  | .checkCast type => checkCast type
  | .instanceOf type => instanceOf type
  | .monitorEnter | .monitorExit => useMonitor

-- Branches

/- Fail unless the state already is what is agreed at a target of a switch. -/
def checkTarget (target : Label) : Simulation Unit := do
  let join ← join target 1
  let st ← get
  if (st.stack.save.withoutTop 1).tags ≠ join.stack.tags then
    throw (.irreconcilableFrame target none)
  match join.locals.vars.find? fun (slot, tag) =>
      st.locals.tagAt slot != tag with
  | some (slot, _) => throw (.irreconcilableFrame target (some slot))
  | none => return ()

/- Branch to one of several targets, which all get the same state. -/
def switch (targets : List Label) : Simulation Unit := do
  targets.forM fun target => do
    let _ ← reconcile target 1
  targets.forM checkTarget
  popKind .int

/- Return the value on top, or nothing. -/
def leave (kind : Option ValueKind) : Simulation Unit := do
  let ctx ← read
  match kind with
  | none => return ()
  | some .reference =>
      if let some type := ctx.method.type.result then
        boxTopFor (ctx.reg.tagOf type)
      let _ ← popReference
  | some kind => popKind kind

/- Do what a branch does before control goes elsewhere. -/
def branchEffect (b : Branch) : Simulation Unit :=
  match b with
  | .ifInt _ target => do
      let _ ← reconcile target 1
      popKind .int
  | .ifInts _ target => do
      let _ ← reconcile target 2
      popKind .int
      popKind .int
  | .ifRefs test target => compareReferences test target
  | .ifNull test target => compareWithNull test target
  | .goto target => do
      let _ ← reconcile target 0
  | .tableSwitch .. | .lookupSwitch .. => switch b.targets
  | .ret kind => leave kind
  | .throw => do
      let _ ← popReference

def branch (b : Branch) : Simulation Unit := do
  markSeeding
  branchEffect b
  if !b.fallsThrough then
    modify fun st =>
      { st with reachable := false, stack := st.stack.clear }

-- Labels and frames

/- Come to a label from the code before it. -/
def arrive (label : Label) : Simulation Unit := do
  let frames := (← read).frames
  let known := ((← get).agreed.lookup label).isSome
  if known || (frames.frame? label).isSome || frames.isTarget label then
    resume (← reconcile label 0)

def label (label : Label) : Simulation Unit := do
  let frames := (← read).frames
  if frames.isTarget label then
    markSeeding
  if (← get).reachable then
    arrive label
  else
    let known ← enter label
    modify fun st => { st with reachable := known }
  modify fun st =>
    if st.reachable then
      { st with reached := (label, st.locals.save) :: st.reached }
    else
      st

/- Note the frame that belongs here. -/
def frame : Simulation Unit := do
  let ctx ← read
  modify fun st =>
    let source := st.label.bind ctx.frames.frame?
    let full := fullFrame ctx.reg source st.stack st.locals
    { st with pendingFrames := st.pendingFrames ++ [(st.here, full)] }

/- The label that a frame after an element would describe. -/
def labelAfter (current : Option Label) : Node → Option Label
  | .label l => some l
  | .line _ => current
  | _ => none

/- Go past an element of the body. -/
def step (node : Node) : Simulation Unit := do
  let reachable := (← get).reachable
  match node with
  | .line number => modify fun st => { st with line := some number }
  | .label l => label l
  | .frame _ => if reachable then frame
  | .insn i => if reachable then instruction i
  | .branch b => if reachable then branch b
  modify fun st => { st with label := labelAfter st.label node }

end Simulation

end Unboxing
