/-
  This file defines lists of elements of different widths that
  are found by the cell at which they start.
-/

namespace Unboxing

/- Elements that take a number of cells. -/
class HasWidth (α : Type) where
  width : α → Nat

export HasWidth (width)

/- Elements with the cell at which each starts, and the first free cell. -/
structure Layout (α : Type) where
  entries : List (Nat × α)
  cells : Nat
deriving DecidableEq, Repr

namespace Layout

variable {α : Type}

def empty : Layout α :=
  ⟨[], 0⟩

/- Put an element after the last one. -/
def push [HasWidth α] (layout : Layout α) (element : α) : Layout α :=
  ⟨layout.entries ++ [(layout.cells, element)], layout.cells + width element⟩

/- Put elements after the last one, in order. -/
def extend [HasWidth α] (layout : Layout α) (elements : List α) : Layout α :=
  elements.foldl push layout

/- Take the last element away. -/
def pop (layout : Layout α) : Layout α :=
  match layout.entries.getLast? with
  | none => layout
  | some (cell, _) => ⟨layout.entries.dropLast, cell⟩

/- Keep only the first `count` elements. -/
def truncate (layout : Layout α) (count : Nat) : Layout α :=
  match layout.entries[count]? with
  | none => layout
  | some (cell, _) => ⟨layout.entries.take count, cell⟩

/- The element that starts at a cell. -/
def startingAt? (layout : Layout α) (cell : Nat) : Option α :=
  (layout.entries.find? (·.1 == cell)).map Prod.snd

/- Elements in order, from the first cell on. -/
def ofList [HasWidth α] (elements : List α) : Layout α :=
  empty.extend elements

def elements (layout : Layout α) : List α :=
  layout.entries.map Prod.snd

def size (layout : Layout α) : Nat :=
  layout.entries.length

end Layout

end Unboxing
