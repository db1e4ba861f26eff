import Unboxing.Simulation.Step

/-
  This file defines the unboxing of a method: one pass over the
  elements of its body, in order. Elements that enter the body
  on the way are not looked at. A method that cannot be unboxed
  is left as it was.

  Key definitions include:
    * `UnboxedBody`
    * `slotPlan`
    * `Simulation.run`
    * `Method.simulate`
    * `Method.unbox`
-/

namespace Unboxing

/- What came of a body: itself or another one, and what was found. -/
structure UnboxedBody where
  modified : Bool
  body : Body
  diagnostics : Diagnostics
deriving DecidableEq, Repr

-- The start of a body

/- The plan with room for a payload in a slot. -/
def planPayload (plan : Array Nat) (slot : Nat) : Array Nat :=
  (plan ++ Array.replicate (slot + 1 - plan.size) 1).set! slot 2

/- The plan with the room that an element asks for. -/
def planNode (parameterCells : Nat) (plan : Array Nat) : Node → Array Nat
  | .insn (.store .reference slot) =>
      if parameterCells ≤ slot then planPayload plan slot else plan
  | _ => plan

/-
  The room that slots get. A slot that a reference is stored
  into gets room for a payload, unless it is a parameter.
-/
def slotPlan (body : Body) (parameterCells : Nat) : Array Nat :=
  body.nodes.foldl (planNode parameterCells)
    (Array.replicate body.maxLocals 1)

namespace Method

/- The receiver and parameters as the first frame has them. -/
def initialFrame (method : Method) (owner : ClassName) : Frame :=
  let receiver : List FrameType :=
    if method.isStatic then
      []
    else if method.isConstructor then
      [.uninitializedThis]
    else
      [.object (.object owner)]
  ⟨.ofList (receiver ++ method.type.parameters.map .ofFieldType), []⟩

/- The receiver and parameters as variables with names. -/
def initialVariables (method : Method) (reg : Registry)
    (owner : ClassName) : List (Tag × Option String) :=
  let name := if method.isConstructor then some uninitializedThis else none
  let receiver :=
    if method.isStatic then [] else [(reg.tagOfClass owner, name)]
  receiver ++ method.type.parameters.map fun type => (reg.tagOf type, none)

/- The locals at the start of a body. -/
def initialLocals (method : Method) (reg : Registry) (owner : ClassName)
    (body : Body) : SlotMap :=
  (method.initialVariables reg owner).foldl
    (fun map (tag, name) => (map.add tag name).2)
    (.withPlan (slotPlan body (method.type.parameterCells !method.isStatic)))

end Method

namespace Simulation

/- What stays the same while the body of a method is gone through. -/
def Context.ofMethod (reg : Registry) (settings : Settings) (layout : ClassLayout)
    (method : Method) (body : Body) : Context where
  reg := reg
  settings := settings
  layout := layout
  method := method
  body := body
  frames := SourceFrames.scan body.nodes (method.initialFrame layout.name)

/- The state at the start of a body. -/
def State.start (ctx : Context) : State :=
  { State.initial with
    locals := ctx.method.initialLocals ctx.reg ctx.layout.name
      ctx.body
    seeding := .start ctx.method ctx.layout
    code := .ofList ctx.body.nodes }

-- The pass

/- Look at one element. -/
def visit (h : Handle) : Simulation Unit := do
  modify fun st => { st with here := h }
  if let some node := (← get).code.get? h then
    step node
  modify fun st => { st with scratch := 0 }
  applyEdit
  checkStack

-- The end of a body

/- The code with the frames that belong to it. -/
def withFrames (code : Sequence Node)
    (frames : List (Handle × FrameChange)) : Sequence Node :=
  frames.foldl (fun code (h, change) => code.replace h (.frame change)) code

/- The debug entry of a local, at the slot and with the type it has become. -/
def remapVariable (entry : Variable) : Simulation Variable := do
  let reg := (← read).reg
  let st ← get
  let (address, tag) :=
    match st.reached.lookup entry.start with
    | some locals => (locals.address entry.slot, locals.tagAt entry.slot)
    | none => (st.locals.address entry.slot, .void)
  let type :=
    if tag.isUnboxed then (reg.typeOf? tag).getD entry.type else entry.type
  let slot ← slotNumber address
  return { entry with type := type, slot := slot }

/- A number of cells that class files can count. -/
def cellCount (what : String) (cells : Nat) : Simulation Nat :=
  if cells < cellLimit then
    return cells
  else
    throw (.limitExceeded what)

/- The body with all edits. -/
def modifiedBody : Simulation Body := do
  let body := (← read).body
  let vars ← body.vars.mapM remapVariable
  let st ← get
  let maxStack ← cellCount "max stack" (max st.stack.peak body.maxStack)
  let maxLocals ← cellCount "max locals"
    (max (max st.locals.peak st.scratchEnd)
      (st.locals.address body.maxLocals))
  return {
    maxStack := maxStack
    maxLocals := maxLocals
    nodes := (withFrames st.code st.pendingFrames).toList
    vars := vars
    handlers := body.handlers }

/- Seed fields and make the new body, if anything was changed. -/
def finish : Simulation UnboxedBody := do
  seed
  checkStack
  let ctx ← read
  let st ← get
  let body ← if st.modified then modifiedBody else pure ctx.body
  return ⟨st.modified, body, st.diagnostics⟩

/-
  Look at an element and then at those that follow it. What
  follows is asked for before the element is looked at, which
  can change the code around it.
-/
def walk : Nat → Option Handle → Simulation Unit
  | fuel + 1, some h => do
      let next := (← get).code.next? h
      visit h
      walk fuel next
  | _, _ => return ()

/- Go through the body from its first element to its last. -/
def run : Simulation UnboxedBody := do
  let ctx ← read
  if !ctx.body.handlers.isEmpty then
    throw .unsupportedHandlers
  set (State.start ctx)
  walk ctx.body.nodes.length (← get).code.first
  finish

end Simulation

-- Methods

namespace Method

/- Unbox a body of the method, and tell the state that is left. -/
def simulate (method : Method) (reg : Registry) (settings : Settings)
    (layout : ClassLayout)
    (body : Body) : Except Failure UnboxedBody × Simulation.State :=
  if body.nodes.isEmpty then
    (.ok ⟨false, body, []⟩, .initial)
  else
    let ctx := Simulation.Context.ofMethod reg settings layout method body
    match (Simulation.run ctx).run .initial with
    | .ok unboxed st => (.ok unboxed, st)
    | .error cause st =>
        (.error ⟨s!"{layout.name.text}.{method.signature}", st.line, cause⟩, st)

def unbox (method : Method) (reg : Registry) (settings : Settings)
    (layout : ClassLayout) (body : Body) : Except Failure UnboxedBody :=
  (method.simulate reg settings layout body).1

end Method

end Unboxing
