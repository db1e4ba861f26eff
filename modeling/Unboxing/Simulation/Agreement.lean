import Unboxing.Simulation.Conversion

/-
  This file defines how the paths to a label come to agree. The
  first path settles tags and slots, narrowed by the frame at
  the label if there is one, and every later path is converted
  to them.

  Key definitions include:
    * `Tag.merge`
    * `Simulation.join`
    * `Simulation.reconcile`
    * `Simulation.enter`
-/

namespace Unboxing

-- Narrowing

/-
  The tag to agree on for a value with a tag of the first path
  and a declared one. A null becomes a payload if one fits.
-/
def Tag.merge (current declared : Tag) (payloadFits : Bool) : Tag :=
  if declared.isVoid then
    .void
  else if current.isVoid then
    declared
  else if current.isNull then
    if declared.isReference && payloadFits then declared.payloadOf else declared
  else if current.isValue || declared.isValue then
    if current.class? = declared.class? ∧ current.depth = declared.depth then
      current
    else
      declared
  else if current.kind = declared.kind ∧ current.depth = declared.depth then
    current
  else
    declared

namespace SlotMap

/- The map with the variable at a slot narrowed to a declared tag. -/
def narrowAt (map : SlotMap) (slot : Nat) (declared : Tag) : SlotMap :=
  if map.isTail slot then
    map
  else
    let current := map.tagAt slot
    let merged := current.merge declared (2 ≤ map.room slot)
    if merged = current then
      map
    else if merged.isVoid then
      map.kill slot
    else
      match map.put slot merged (map.nameAt slot) with
      | some (_, map) => map
      | none =>
          match map.put slot declared none with
          | some (_, map) => map
          | none => map

/- The map with all variables narrowed to the locals of a frame. -/
def narrow (map : SlotMap) (reg : Registry) (frame : Frame) : SlotMap :=
  (List.range (max map.size frame.locals.cells)).foldl
    (fun map slot =>
      map.narrowAt slot
        (((frame.locals.startingAt? slot).map reg.tagOfFrame).getD .void))
    map

end SlotMap

/- The snapshot with its tags narrowed to the stack of a frame of the same size. -/
def StackSnapshot.narrow (snapshot : StackSnapshot) (reg : Registry)
    (frame : Frame) : StackSnapshot :=
  if frame.stack.length = snapshot.size then
    snapshot.mapTags fun height tag =>
      match frame.stack[height]? with
      | some type => tag.merge (reg.tagOfFrame type) false
      | none => tag
  else
    snapshot

namespace Simulation

-- What is agreed at a label

/-
  What a first path brings to a label. Operands of a branch on
  top of the stack do not count. The locals stay as they are,
  but the cells that narrowing takes count as used.
-/
def firstJoin (label : Label) (operands : Nat) : Simulation Join := do
  let ctx ← read
  let st ← get
  let stack := st.stack.save.withoutTop operands
  match ctx.frames.frame? label with
  | none => return ⟨stack, st.locals.save⟩
  | some frame =>
      let narrowed := st.locals.narrow ctx.reg frame
      set { st with locals := narrowed.restore st.locals.save }
      return ⟨stack.narrow ctx.reg frame, narrowed.save⟩

/- Settle what is agreed at a label. -/
def agree (label : Label) (join : Join) : Simulation Unit :=
  modify fun st => { st with agreed := st.agreed ++ [(label, join)] }

/- What is agreed at a label, settled by the current path if by none before. -/
def join (label : Label) (operands : Nat) : Simulation Join := do
  match (← get).agreed.lookup label with
  | some join => return join
  | none =>
      let join ← firstJoin label operands
      agree label join
      return join

-- Agreement of locals

/- A local that must be converted or moved for a label. -/
structure Move where
  slot : Nat
  found : Tag
  want : Tag
  source : Nat
  target : Nat
deriving DecidableEq, Repr

/- Whether the local is null and becomes a payload, which is a constant. -/
def Move.isNullPayload (move : Move) : Bool :=
  move.found.isNull && move.want.isPayload

/-
  Retag the locals that differ from what is agreed only in
  their tags, and collect the others.
-/
def collectMoves (label : Label)
    (agreed : SlotSnapshot) : List (Nat × Tag) → Simulation (List Move)
  | [] => return []
  | (slot, want) :: rest => do
      let locals := (← get).locals
      let found := locals.tagAt slot
      let source := locals.address slot
      let target := agreed.address slot
      if found = want ∧ source = target then
        collectMoves label agreed rest
      else if found.isVoid || found.srcWidth != want.srcWidth
          || found.cast want == .failure then
        throw (.irreconcilableFrame label (some slot))
      else if source = target ∧ !found.needsCode want then
        changeLocals fun locals => (locals.retag? slot want).getD locals
        collectMoves label agreed rest
      else
        let moves ← collectMoves label agreed rest
        return ⟨slot, found, want, source, target⟩ :: moves

/- Load a local that is converted or moved. -/
def loadForMove (move : Move) : Simulation Unit := do
  if !move.isNullPayload then
    let slot ← slotNumber move.source
    emit (.load move.found.valueKind slot)
    push move.found ((← get).locals.nameAt move.slot)

/- Convert a local that was loaded, and store it. -/
def storeForMove (label : Label) (move : Move) : Simulation Unit := do
  if move.isNullPayload then
    let info ← valueClassOf move.want
    emit (nullConstant info.nullValue)
    push move.want none
  else
    convertTop move.want
  let slot ← slotNumber move.target
  let name := (← get).stack.nameAt 0
  let _ ← pop
  emit (.store move.want.valueKind slot)
  match (← get).locals.put move.slot move.want name with
  | some (_, locals) => changeLocals fun _ => locals
  | none => throw (.irreconcilableFrame label (some move.slot))

/-
  Turn the locals into what is agreed. All of them are loaded
  before the first is stored, so none is overwritten too early.
-/
def reconcileLocals (label : Label) (agreed : SlotSnapshot) : Simulation Unit := do
  let moves ← collectMoves label agreed agreed.vars
  moves.forM loadForMove
  moves.reverse.forM (storeForMove label)

-- Agreement of the stack

/-
  Retag the entries that differ from what is agreed only in
  their tags. The agreed tags are given with the deepest first,
  and those from the deepest entry on whose cast takes code are
  returned.
-/
def retagEntries (label : Label) (operands : Nat) : List Tag → Simulation (List Tag)
  | [] => return []
  | want :: above => do
      let depth := operands + above.length
      let found ← tagAt depth
      if found = want then
        retagEntries label operands above
      else
        match found.cast want with
        | .failure => throw (.irreconcilableFrame label none)
        | .boxing | .unboxing =>
            let _ ← retagEntries label operands above
            return want :: above
        | .substitution | .success =>
            retag depth want
            retagEntries label operands above

/- Turn the stack below the operands of a branch into what is agreed. -/
def reconcileStack (label : Label) (agreed : StackSnapshot)
    (operands : Nat) : Simulation Unit := do
  if (← get).stack.size ≠ agreed.size + operands then
    throw (.irreconcilableFrame label none)
  match ← retagEntries label operands agreed.tags with
  | [] => return ()
  | want =>
      let spilled ← spill (want.length + operands)
      reloadAs spilled.reverse want

/- Turn stack and locals into what is agreed at a label. -/
def reconcile (label : Label) (operands : Nat) : Simulation Join := do
  let join ← join label operands
  reconcileStack label join.stack operands
  reconcileLocals label join.locals
  return join

/- Go on with what is agreed at a label. -/
def resume (join : Join) : Simulation Unit := do
  changeStack (·.restore join.stack)
  changeLocals (·.restore join.locals)

-- Labels after code that goes elsewhere

/- The locals that a frame declares. -/
def declaredLocals (reg : Registry) (frame : Frame) (map : SlotMap) : SlotMap :=
  frame.locals.entries.foldl
    (fun map (slot, type) =>
      let tag := reg.tagOfFrame type
      if tag.isVoid then
        map
      else
        match map.put slot tag none with
        | some (_, map) => map
        | none => map)
    map.clear

/- The stack that a frame declares. -/
def declaredStack (reg : Registry) (frame : Frame)
    (stack : OperandStack) : OperandStack :=
  frame.stack.foldl
    (fun stack type => stack.push (reg.tagOfFrame type) none) stack.clear

/-
  Go on at a label that the code before does not run into, and
  tell whether anything is known about it.
-/
def enter (label : Label) : Simulation Bool := do
  let ctx ← read
  match (← get).agreed.lookup label with
  | some join =>
      resume join
      return true
  | none =>
      match ctx.frames.frame? label with
      | none => return false
      | some frame =>
          changeLocals (declaredLocals ctx.reg frame)
          changeStack (declaredStack ctx.reg frame)
          let st ← get
          agree label ⟨st.stack.save, st.locals.save⟩
          return true

end Simulation

end Unboxing
