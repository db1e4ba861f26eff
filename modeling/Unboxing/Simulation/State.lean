import Unboxing.ClassLayout
import Unboxing.Code.Sequence
import Unboxing.Code.SourceFrames
import Unboxing.Failure
import Unboxing.Mapping.Basic
import Unboxing.SlotMap

/-
  This file defines the state in which a method body is gone
  through once: the tags of stack and locals, what was agreed
  at labels, and the edits of the body. New instructions always
  go right before the element that is looked at.

  Key definitions include:
    * `Join`
    * `Seeding`
    * `Change`
    * `Edit`
    * `Simulation.Context`
    * `Simulation.State`
    * `Simulation`
    * `Simulation.emit`
    * `Simulation.replaceNode`
    * `Simulation.removeNode`
    * `Simulation.diagnose`
    * `Simulation.allocate`
-/

namespace Unboxing

-- Parts of the state

/- What all paths to a label agree on. -/
structure Join where
  stack : StackSnapshot
  locals : SlotSnapshot
deriving DecidableEq, Repr

/-
  Where payload fields get their first payloads: right after an
  element of the body, or at its start.
-/
inductive Seeding where
  | inapplicable
  | searching
  | found (after : Option Handle) (depth : Nat)
  | suppressed
  | injected
deriving DecidableEq, Repr

/- One change at an element: before it, in its place, or of it. -/
inductive Change where
  | insert (i : Instruction)
  | replace (node : Node)
  | remove
deriving DecidableEq, Repr

/- The sequence with a change made at an element. -/
def Change.make (change : Change) (h : Handle)
    (code : Sequence Node) : Sequence Node :=
  match change with
  | .insert i => (code.insertBefore h (.insn i)).2
  | .replace node => code.replace h node
  | .remove => code.remove h

/- What has become of an element. -/
inductive Fate where
  | kept
  | replaced (node : Node)
  | removed
deriving DecidableEq, Repr

/- What a change makes of an element. -/
def Fate.change (fate : Fate) : Change → Fate
  | .insert _ => fate
  | .replace node => .replaced node
  | .remove => .removed

/- The changes at an element, the latest first. -/
structure Edit where
  changes : List Change
deriving DecidableEq, Repr

namespace Edit

/- The edit that changes nothing. -/
def none : Edit :=
  ⟨[]⟩

/- The edit with one more change. -/
def add (edit : Edit) (change : Change) : Edit :=
  ⟨change :: edit.changes⟩

/- The edit with more instructions put before the element. -/
def emit (edit : Edit) (code : List Instruction) : Edit :=
  code.foldl (fun edit i => edit.add (.insert i)) edit

/- The instructions that are put before the element. -/
def before (edit : Edit) : List Instruction :=
  edit.changes.foldr
    (fun change code =>
      match change with
      | .insert i => code ++ [i]
      | _ => code) []

/- What becomes of the element. -/
def fate (edit : Edit) : Fate :=
  edit.changes.foldr (fun change fate => fate.change change) .kept

/- The sequence with the changes made at an element, one after another. -/
def apply (edit : Edit) (h : Handle) (code : Sequence Node) : Sequence Node :=
  edit.changes.foldr (fun change code => change.make h code) code

-- Small facts

@[simp] theorem emit_nil (edit : Edit) : edit.emit [] = edit := rfl

@[simp] theorem emit_emit (edit : Edit) (first second : List Instruction) :
    (edit.emit first).emit second = edit.emit (first ++ second) :=
  List.foldl_append.symm

@[simp] theorem before_emit (edit : Edit) (code : List Instruction) :
    (edit.emit code).before = edit.before ++ code := by
  induction code generalizing edit with
  | nil => exact (List.append_nil _).symm
  | cons i rest ih => exact (ih _).trans (List.append_assoc _ [i] rest)

@[simp] theorem fate_emit (edit : Edit) (code : List Instruction) :
    (edit.emit code).fate = edit.fate := by
  induction code generalizing edit with
  | nil => rfl
  | cons i rest ih => exact ih _

end Edit

-- The state

namespace Simulation

/- What stays the same while a body is gone through. -/
structure Context where
  reg : Registry
  settings : Settings
  layout : ClassLayout
  method : Method
  body : Body
  frames : SourceFrames

/- What changes while a body is gone through. -/
structure State where
  stack : OperandStack
  locals : SlotMap
  /- What was agreed at labels, in the order they were reached. -/
  agreed : List (Label × Join)
  diagnostics : Diagnostics
  /- The last line marker. -/
  line : Option Nat
  /- Whether control can come here. -/
  reachable : Bool
  /- Whether the body was edited. -/
  modified : Bool
  /- The cells of scratch locals in use. -/
  scratch : Nat
  /- The first cell after all scratch locals so far. -/
  scratchEnd : Nat
  /- How many objects were created. -/
  created : Nat
  /- Where payload fields are seeded. -/
  seeding : Seeding
  /- The locals at the labels that control reached, the latest first. -/
  reached : List (Label × SlotSnapshot)
  /- The frames to use if the body is modified in the end. -/
  pendingFrames : List (Handle × FrameChange)
  /- The label that a frame here would describe. -/
  label : Option Label
  /- The body with all edits so far. -/
  code : Sequence Node
  /- The element that is looked at. -/
  here : Handle
  /- The edit of that element. -/
  edit : Edit
deriving DecidableEq, Repr

/- The state before anything is known about a body. -/
def State.initial : State where
  stack := .empty
  locals := .empty
  agreed := []
  diagnostics := []
  line := none
  reachable := true
  modified := false
  scratch := 0
  scratchEnd := 0
  created := 0
  seeding := .inapplicable
  reached := []
  pendingFrames := []
  label := none
  code := .empty
  here := 0
  edit := .none

end Simulation

/- A step of going through a body. A failure keeps the state it happened in. -/
abbrev Simulation := ReaderT Simulation.Context (EStateM FailureCause Simulation.State)

namespace Simulation

variable {α : Type}

-- Stack and locals

/- Do something with the stack. -/
def withStack (act : OperandStack → α × OperandStack) : Simulation α :=
  modifyGet fun st =>
    let (result, stack) := act st.stack
    (result, { st with stack := stack })

def changeStack (change : OperandStack → OperandStack) : Simulation Unit :=
  modify fun st => { st with stack := change st.stack }

def changeLocals (change : SlotMap → SlotMap) : Simulation Unit :=
  modify fun st => { st with locals := change st.locals }

/- The tag at a depth below the top of the stack. -/
def tagAt (depth : Nat) : Simulation Tag :=
  return (← get).stack.tagAt depth

def push (tag : Tag) (name : Option String) : Simulation Unit :=
  changeStack (·.push tag name)

def pop : Simulation Tag :=
  withStack OperandStack.pop

def popMany : Nat → Simulation Unit
  | 0 => return ()
  | count + 1 => do
      let _ ← pop
      popMany count

def popReference : Simulation Tag :=
  withStack OperandStack.popReference

/- Take a value off the stack that instructions of a kind take. -/
def popKind (kind : ValueKind) : Simulation Unit := do
  let _ ← withStack (·.popExact kind.name (.ofKind kind))

/- Whether the stack has enough entries; if not, that is an issue. -/
def require (count : Nat) : Simulation Bool :=
  withStack (·.require count)

/- Give the entry at a depth below the top another tag. -/
def retag (depth : Nat) (tag : Tag) : Simulation Unit :=
  changeStack (·.retag depth tag)

/- Note that the stack grows by some cells for a moment. -/
def reserveMore (cells : Nat) : Simulation Unit :=
  changeStack fun stack => stack.reserve (stack.dst + cells)

/- Fail if the stack has been used in a way it cannot be. -/
def checkStack : Simulation Unit := do
  let issues := (← get).stack.issues
  changeStack fun stack => { stack with issues := [] }
  if !issues.isEmpty then
    throw (.stackShape issues)

-- Edits

/- Put an instruction before the element that is looked at. -/
def emit (i : Instruction) : Simulation Unit :=
  modify fun st =>
    { st with
      edit := st.edit.add (.insert i)
      modified := true }

/- Put another element in the place of the one that is looked at. -/
def replaceNode (node : Node) : Simulation Unit :=
  modify fun st =>
    { st with
      edit := st.edit.add (.replace node)
      modified := true }

/- Take out the element that is looked at. -/
def removeNode : Simulation Unit :=
  modify fun st =>
    { st with
      edit := st.edit.add .remove
      modified := true }

/- Make the edit of the element that is looked at. -/
def applyEdit : Simulation Unit :=
  modify fun st =>
    { st with
      code := st.edit.apply st.here st.code
      edit := .none }

-- Findings and limits

/- Note a finding, unless it is suppressed; in strict mode it is a failure. -/
def diagnose (kind : DiagnosticKind) : Simulation Unit := do
  let settings := (← read).settings
  if !settings.isSuppressed kind then
    if settings.strict then
      throw (.strictDiagnostic kind)
    modify fun st =>
      { st with diagnostics := st.diagnostics.push ⟨kind, st.line⟩ }

/- The number of slots that class files can count, and of stack cells. -/
def cellLimit : Nat := 0x10000

/- A slot that instructions can name. -/
def slotNumber (cell : Nat) : Simulation Nat :=
  if cell < cellLimit then
    return cell
  else
    throw (.limitExceeded "local variable index")

/- A scratch local for a value, until the next element is looked at. -/
def allocate (tag : Tag) : Simulation Nat := do
  let st ← get
  let cell := st.locals.dstSize + st.scratch
  set { st with
    scratch := st.scratch + tag.dstWidth
    scratchEnd := max st.scratchEnd (cell + tag.dstWidth) }
  slotNumber cell

-- Value classes

def valueClass (cls : ClassIndex) : Simulation ValueClass := do
  match (← read).reg.class? cls with
  | some info => return info
  | none => throw (.missingImplementation s!"value class #{cls.number}")

def valueClassOf (tag : Tag) : Simulation ValueClass :=
  valueClass (tag.class?.getD .first)

end Simulation

end Unboxing
