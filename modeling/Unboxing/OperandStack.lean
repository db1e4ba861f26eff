import Unboxing.Code.Instruction
import Unboxing.Number.Total
import Unboxing.Tag.Basic

/-
  This file defines the simulated operand stack. It has one
  entry for each value, counts the cells of the entries before
  and after unboxing, and notes misuse instead of failing.

  Key definitions include:
    * `StackIssue`
    * `StackEntry`
    * `OperandStack`
    * `OperandStack.push`
    * `OperandStack.popEntry`
    * `OperandStack.retag`
    * `OperandStack.entriesFor?`
    * `OperandStack.dupAt`
    * `StackSnapshot`
-/

namespace Unboxing

-- Entries and issues

/- A value on the stack, with the name of the object it still is. -/
structure Entry where
  tag : Tag
  name : Option String
deriving DecidableEq, Repr

/- What the simulation noticed. -/
inductive StackIssue where
  | underflow (required available : Nat)
  | mismatch (want : String) (found : Tag) (depth : Nat)
deriving DecidableEq, Repr

/- The cells of some entries before unboxing. -/
def srcCells (entries : List Entry) : Nat :=
  total (entries.map (·.tag.srcWidth))

/- The cells of some entries after unboxing. -/
def dstCells (entries : List Entry) : Nat :=
  total (entries.map (·.tag.dstWidth))

-- Snapshots

/- A copy of the stack, the top first, with its cell counts. -/
structure StackSnapshot where
  entries : List Entry
  src : Nat
  dst : Nat
deriving DecidableEq, Repr

namespace StackSnapshot

/- A snapshot of some entries, with their cells counted. -/
def ofEntries (entries : List Entry) : StackSnapshot :=
  ⟨entries, srcCells entries, dstCells entries⟩

def size (snapshot : StackSnapshot) : Nat :=
  snapshot.entries.length

/- The tags from the bottom up. -/
def tags (snapshot : StackSnapshot) : List Tag :=
  (snapshot.entries.map Entry.tag).reverse

/- The tag at a height above the bottom, void if there is none. -/
def tagAt (snapshot : StackSnapshot) (height : Nat) : Tag :=
  (snapshot.tags[height]?).getD .void

/- The snapshot with each tag changed, given its height. -/
def mapTags (snapshot : StackSnapshot) (change : Nat → Tag → Tag) : StackSnapshot :=
  ofEntries <| snapshot.entries.mapIdx fun depth entry =>
    { entry with tag := change (snapshot.size - 1 - depth) entry.tag }

/- The snapshot without its top `count` entries. -/
def withoutTop (snapshot : StackSnapshot) (count : Nat) : StackSnapshot :=
  ofEntries (snapshot.entries.drop count)

end StackSnapshot

-- The stack

/-
  The simulated stack: its entries, the top first, their cells
  before and after unboxing, the most cells after unboxing so
  far, and the issues noticed, the latest last.
-/
structure OperandStack where
  entries : List Entry
  src : Nat
  dst : Nat
  peak : Nat
  issues : List StackIssue
deriving DecidableEq, Repr

namespace OperandStack

def empty : OperandStack :=
  ⟨[], 0, 0, 0, []⟩

/- The stack without its entries; the most cells so far are kept. -/
def clear (stack : OperandStack) : OperandStack :=
  { stack with entries := [], src := 0, dst := 0 }

/- The stack without its entries and without memory of the most cells. -/
def reset (stack : OperandStack) : OperandStack :=
  { stack.clear with peak := 0 }

def size (stack : OperandStack) : Nat :=
  stack.entries.length

def report (stack : OperandStack) (issue : StackIssue) : OperandStack :=
  { stack with issues := stack.issues ++ [issue] }

/- Account for code that needs some cells and is not simulated. -/
def reserve (stack : OperandStack) (cells : Nat) : OperandStack :=
  { stack with peak := max stack.peak cells }

-- Pushing and popping

def push (stack : OperandStack) (tag : Tag) (name : Option String) : OperandStack :=
  let dst := stack.dst + tag.dstWidth
  { stack with
    entries := ⟨tag, name⟩ :: stack.entries
    src := stack.src + tag.srcWidth
    dst := dst
    peak := max stack.peak dst }

/- Whether there are enough entries; if not, that is an issue. -/
def require (stack : OperandStack) (required : Nat) : Bool × OperandStack :=
  if stack.size < required then
    (false, stack.report (.underflow required stack.size))
  else
    (true, stack)

def popEntry (stack : OperandStack) : Option Entry × OperandStack :=
  match stack.entries with
  | [] => (none, stack.report (.underflow 1 0))
  | entry :: entries =>
      (some entry,
        { stack with
          entries := entries
          src := stack.src - entry.tag.srcWidth
          dst := stack.dst - entry.tag.dstWidth })

/- Take the top value off; void if there is none. -/
def pop (stack : OperandStack) : Tag × OperandStack :=
  match stack.popEntry with
  | (some entry, stack) => (entry.tag, stack)
  | (none, stack) => (.void, stack)

/- Take the top value off; a value of the wrong shape is an issue. -/
def popIf (stack : OperandStack) (want : String)
    (accepts : Tag → Bool) : Tag × OperandStack :=
  let (tag, stack) := stack.pop
  if !tag.isVoid && !accepts tag then
    (tag, stack.report (.mismatch want tag 0))
  else
    (tag, stack)

/- Take a value off that is one cell wide before unboxing. -/
def popNarrow (stack : OperandStack) : Tag × OperandStack :=
  stack.popIf "one-cell value" (·.srcWidth == 1)

/- Take a `long` or `double` off. -/
def popWide (stack : OperandStack) : Tag × OperandStack :=
  stack.popIf "two-cell value" (·.srcWidth == 2)

def popPayload (stack : OperandStack) : Tag × OperandStack :=
  stack.popIf "value payload" Tag.isPayload

/- Take a value off that is a reference before unboxing. -/
def popReference (stack : OperandStack) : Tag × OperandStack :=
  stack.popIf "reference" Tag.isSrcReference

/- Take a value off that must have a given tag. -/
def popExact (stack : OperandStack) (want : String)
    (tag : Tag) : Tag × OperandStack :=
  stack.popIf want (· == tag)

-- Looking and retagging

/- The tag at a depth below the top, void if there is none. -/
def tagAt (stack : OperandStack) (depth : Nat) : Tag :=
  (stack.entries[depth]?.map Entry.tag).getD .void

/- The name at a depth below the top. -/
def nameAt (stack : OperandStack) (depth : Nat) : Option String :=
  stack.entries[depth]?.bind Entry.name

/- Change the tag at a depth below the top. -/
def retag (stack : OperandStack) (depth : Nat) (tag : Tag) : OperandStack :=
  match stack.entries[depth]? with
  | none => stack.report (.underflow (depth + 1) stack.size)
  | some entry =>
      let dst := stack.dst - entry.tag.dstWidth + tag.dstWidth
      { stack with
        entries := stack.entries.set depth { entry with tag := tag }
        src := stack.src - entry.tag.srcWidth + tag.srcWidth
        dst := dst
        peak := max stack.peak dst }

/- Drop the name at a depth below the top. -/
def forgetNameAt (stack : OperandStack) (depth : Nat) : OperandStack :=
  { stack with
    entries := stack.entries.modify depth fun entry => { entry with name := none } }

/- The depths of the entries with a name, from the top down. -/
def depthsNamed (stack : OperandStack) (name : String) : List Nat :=
  (List.range stack.size).filter fun depth => stack.nameAt depth == some name

/- Change the tag of every entry with a name, and drop the name. -/
def retagNamed (stack : OperandStack) (name : String) (tag : Tag) : OperandStack :=
  (stack.depthsNamed name).foldl
    (fun stack depth => (stack.retag depth tag).forgetNameAt depth)
    stack

-- Shuffling

/- How many of the first entries take exactly some cells before unboxing. -/
def coverCells : List Entry → Nat → Option Nat
  | _, 0 => some 0
  | [], _ + 1 => none
  | entry :: entries, cells + 1 =>
      if entry.tag.isVoid || cells + 1 < entry.tag.srcWidth then
        none
      else
        (coverCells entries (cells + 1 - entry.tag.srcWidth)).map (· + 1)

/- How many entries below the first `skip` take exactly some cells. -/
def entriesFor? (stack : OperandStack) (skip cells : Nat) : Option Nat :=
  coverCells (stack.entries.drop skip) cells

/- The cells that a duplication copies, and those it puts them under. -/
def dupCells : Shuffle → Option (Nat × Nat)
  | .dup => some (1, 0)
  | .dupX1 => some (1, 1)
  | .dupX2 => some (1, 2)
  | .dup2 => some (2, 0)
  | .dup2X1 => some (2, 1)
  | .dup2X2 => some (2, 2)
  | .pop | .pop2 | .swap => none

/- The entries that a duplication of some cells copies and skips. -/
def dupEntries? (stack : OperandStack) (copied skipped : Nat) : Option (Nat × Nat) := do
  let count ← stack.entriesFor? 0 copied
  let depth ← stack.entriesFor? count skipped
  return (count, depth)

/- The entries that a duplication copies and skips; no such is an issue. -/
def dupShape (stack : OperandStack)
    (copied skipped : Nat) : Option (Nat × Nat) × OperandStack :=
  match stack.dupEntries? copied skipped with
  | some shape => (some shape, stack)
  | none =>
      if stack.entries.isEmpty then
        (none, stack.report (.underflow 1 0))
      else
        (none, stack.report
          (.mismatch "stack shape matching the dup form" (stack.tagAt 0) 0))

/- Copy the top `count` entries and put the copies under `depth` more. -/
def dupAt (stack : OperandStack) (count depth : Nat) : OperandStack :=
  match stack.require (count + depth) with
  | (false, stack) => stack
  | (true, stack) =>
      let copies := stack.entries.take count
      let dst := stack.dst + dstCells copies
      { stack with
        entries := stack.entries.take (count + depth)
          ++ copies ++ stack.entries.drop (count + depth)
        src := stack.src + srcCells copies
        dst := dst
        peak := max stack.peak dst }

/- Copy the entries that a duplication of some cells copies. -/
def dup (stack : OperandStack) (copied skipped : Nat) : OperandStack :=
  match stack.dupShape copied skipped with
  | (some (count, depth), stack) => stack.dupAt count depth
  | (none, stack) => stack

/- Note it if the value at a depth is not one cell wide before unboxing. -/
def requireNarrowAt (stack : OperandStack) (depth : Nat) : OperandStack :=
  let tag := stack.tagAt depth
  if tag.srcWidth = 1 then
    stack
  else
    stack.report (.mismatch "one-cell value" tag depth)

/- Exchange the top two entries, which must be one cell wide. -/
def swap (stack : OperandStack) : OperandStack :=
  match stack.require 2 with
  | (false, stack) => stack
  | (true, stack) =>
      let stack := (stack.requireNarrowAt 0).requireNarrowAt 1
      match stack.entries with
      | top :: under :: entries =>
          { stack with entries := under :: top :: entries }
      | _ => stack

-- Saving and restoring

/- A copy of the stack as it is. -/
def save (stack : OperandStack) : StackSnapshot :=
  ⟨stack.entries, stack.src, stack.dst⟩

/- The stack with the entries of a snapshot. -/
def restore (stack : OperandStack) (snapshot : StackSnapshot) : OperandStack :=
  { stack with
    entries := snapshot.entries
    src := snapshot.src
    dst := snapshot.dst
    peak := max stack.peak snapshot.dst }

end OperandStack

end Unboxing
