import Unboxing.Simulation.Seeding

/-
  This file defines what becomes of calls. A bound method is
  called through its implementation on payloads, and any other
  gets its payloads boxed. An object has a name between its
  creation and the call of its constructor.
-/

namespace Unboxing

/- The name of the receiver of a constructor until it is initialized. -/
def uninitializedThis : String :=
  "<this>"

/- The binding with a class in place of the wildcard. -/
def MethodBinding.substitute (binding : MethodBinding)
    (cls : ClassIndex) : MethodBinding :=
  { binding with
    arguments := binding.arguments.map (·.substitute cls)
    result := binding.result.map (·.substitute cls) }

namespace Simulation

/- Create an object, which has a name until it is initialized. -/
def create : Simulation Unit := do
  modify fun st => { st with created := st.created + 1 }
  push .object (some s!"new#{(← get).created}")

/- Put the result of a call on the stack. -/
def pushResult (result : Option FieldType) : Simulation Unit := do
  let reg := (← read).reg
  if let some type := result then
    push (reg.tagOf type) none

-- Bound methods

/- The binding for the value class that the operands of a call are of. -/
def resolve (method : MethodRef) (binding : MethodBinding)
    (found : List Tag) : Simulation MethodBinding :=
  match inferClass binding.arguments found with
  | .closed => return binding
  | .resolved cls => return binding.substitute cls
  | .conflict _ => throw (.ambiguousWildcard method.text)

/- Call the implementation of a method instead of it. -/
def callBound (kind : InvokeKind) (method : MethodRef)
    (binding : MethodBinding) : Simulation Unit := do
  if kind.hasReceiver ≠ binding.hasReceiver then
    throw (.missingImplementation
      (s!"{method.text} is bound to {binding.target.text}, " ++
        "which disagrees about the receiver"))
  let count := binding.arguments.length
  if ← require count then
    let binding ← resolve method binding (← topTags count)
    convertOperands binding.arguments
    popMany count
    if let some tag := binding.result then
      push tag none
    replaceNode (.insn (.invoke .static binding.target))

-- Other methods

/- Note that a constructor has initialized an object with a name. -/
def initialized (method : MethodRef) (name : String) : Simulation Unit := do
  let ctx ← read
  let ownName := ctx.layout.name
  let isThis := name == uninitializedThis
  if isThis && method.owner == ownName then
    suppressSeeding
  let tag := ctx.reg.tagOfClass (if isThis then ownName else method.owner)
  changeStack (·.retagNamed name tag)
  changeLocals (·.forgetName name)

/- Call a method with its payloads boxed. -/
def callPlain (kind : InvokeKind) (method : MethodRef) : Simulation Unit := do
  let reg := (← read).reg
  let receiver := if kind.hasReceiver then [reg.tagOfClass method.owner] else []
  let consumers := receiver ++ method.type.parameters.map reg.tagOf
  let count := consumers.length
  if ← require count then
    boxOperands consumers
    let stack := (← get).stack
    let receiver := if kind.hasReceiver then stack.nameAt (count - 1) else none
    popMany count
    if kind = .special ∧ method.name = .init then
      if let some name := receiver then
        initialized method name
    pushResult method.type.result

/- Call a method, or its implementation if it has one. -/
def call (kind : InvokeKind) (method : MethodRef) : Simulation Unit := do
  match (← read).reg.binding? method with
  | some binding => callBound kind method binding
  | none => callPlain kind method

/- Call what is found at run time, with payloads boxed. -/
def callDynamic (type : MethodType) : Simulation Unit := do
  let reg := (← read).reg
  let consumers := type.parameters.map reg.tagOf
  if ← require consumers.length then
    boxOperands consumers
    popMany consumers.length
    pushResult type.result

end Simulation

end Unboxing
