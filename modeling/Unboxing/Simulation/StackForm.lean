import Unboxing.Simulation.Conversion

/-
  This file defines the instructions that rearrange the top of
  the stack. Their forms go by cells, so where a payload is
  moved another form is needed, and if there is none the
  entries go through scratch locals.
-/

namespace Unboxing

/- The instruction that copies some cells under some more. -/
def directDup? : Nat → Nat → Option Shuffle
  | 1, 0 => some .dup
  | 1, 1 => some .dupX1
  | 1, 2 => some .dupX2
  | 2, 0 => some .dup2
  | 2, 1 => some .dup2X1
  | 2, 2 => some .dup2X2
  | _, _ => none

namespace Simulation

/- Drop a value of one cell. -/
def popOne : Simulation Unit := do
  let tag ← withStack OperandStack.popNarrow
  if tag.dstWidth = 2 then
    replaceNode (.insn (.shuffle .pop2))

/- Drop values of two cells together. -/
def popTwo : Simulation Unit := do
  let stack := (← get).stack
  match stack.entriesFor? 0 2 with
  | none => do
      let _ ← withStack OperandStack.popWide
  | some count =>
      let widths := (stack.entries.take count).map (·.tag.dstWidth)
      popMany count
      if total widths ≠ 2 then
        widths.forM fun width => emit (popOf width)
        removeNode

/- Exchange two values of one cell. -/
def swap : Simulation Unit := do
  let top ← tagAt 0
  let under ← tagAt 1
  changeStack OperandStack.swap
  let form : List Shuffle :=
    match under.dstWidth, top.dstWidth with
    | 1, 1 => []
    | 2, 1 => [.dupX2, .pop]
    | 1, 2 => [.dup2X1, .pop2]
    | _, _ => [.dup2X2, .pop2]
  if !form.isEmpty then
    form.forM fun op => emit (.shuffle op)
    removeNode
    reserveMore top.dstWidth

/- Copy values under others by way of scratch locals. -/
def dupBySpilling (count depth : Nat) : Simulation Unit := do
  let spilled ← spill (count + depth)
  let copies := (spilled.take count).reverse
  let skipped := (spilled.drop count).reverse
  (copies ++ skipped ++ copies).forM reload
  removeNode

/- Copy values of some cells under values of some more. -/
def dup (op : Shuffle) (copied skipped : Nat) : Simulation Unit := do
  match ← withStack (·.dupShape copied skipped) with
  | none => return ()
  | some (count, depth) =>
      let entries := (← get).stack.entries
      let copy := dstCells (entries.take count)
      let skip := dstCells ((entries.drop count).take depth)
      match directDup? copy skip with
      | some direct =>
          if direct ≠ op then
            replaceNode (.insn (.shuffle direct))
          changeStack (·.dupAt count depth)
      | none =>
          if op = .dup2X2 then
            throw (.unsupportedShuffle "dup2_x2")
          dupBySpilling count depth

/- Rearrange the top of the stack. -/
def shuffle (op : Shuffle) : Simulation Unit :=
  match op with
  | .pop => popOne
  | .pop2 => popTwo
  | .swap => swap
  | _ =>
      match OperandStack.dupCells op with
      | some (copied, skipped) => dup op copied skipped
      | none => return ()

end Simulation

end Unboxing
