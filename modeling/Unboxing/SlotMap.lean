import Unboxing.Number.Total
import Unboxing.Tag.Basic

/-
  This file defines the map of local variables. Variables are
  addressed by their slot before unboxing. Each such slot owns
  a run of cells after unboxing, its room, and the address of a
  slot is the sum of the rooms before it.

  A value fits into a variable if it is no wider than the room
  of its slot. The last variable always fits, because it can
  grow without moving another.

  Key definitions include:
    * `SlotCell`
    * `SlotMap`
    * `SlotMap.address`
    * `SlotMap.slotOf?`
    * `SlotMap.fits`
    * `SlotMap.add`
    * `SlotMap.put`
    * `SlotMap.retag`
    * `SlotMap.removeLast`
    * `SlotSnapshot`
-/

namespace Unboxing

-- Cells

/- What a slot holds: the start of a variable, or the second half of one. -/
inductive SlotContent where
  | head (tag : Tag) (name : Option String)
  | tail
deriving DecidableEq, Repr

namespace SlotContent

def void : SlotContent :=
  .head .void none

/- The tag of the variable that starts here, void if none does. -/
def tag : SlotContent → Tag
  | .head tag _ => tag
  | .tail => .void

/- The name of the variable that starts here. -/
def name : SlotContent → Option String
  | .head _ name => name
  | .tail => none

/- Whether a variable covers the slot. -/
def isUsed : SlotContent → Bool
  | .head tag _ => !tag.isVoid
  | .tail => true

/- The content without a given name. -/
def forget (forgotten : String) : SlotContent → SlotContent
  | .head tag name => .head tag (if name = some forgotten then none else name)
  | .tail => .tail

end SlotContent

/- A slot with its room. -/
structure SlotCell where
  content : SlotContent
  room : Nat
deriving DecidableEq, Repr

/- The addresses of some cells and of the end, from an address on. -/
def addressesFrom (next : Nat) : List SlotCell → List Nat
  | [] => [next]
  | cell :: cells => next :: addressesFrom (next + cell.room) cells

/- The variables of some cells: the slot and the tag of each. -/
def varsOf (cells : Array SlotCell) : List (Nat × Tag) :=
  (cells.toList.zipIdx).filterMap fun (cell, slot) =>
    if cell.content.tag.isVoid then none else some (slot, cell.content.tag)

-- Snapshots

/- A copy of the cells of a map. -/
structure SlotSnapshot where
  cells : Array SlotCell
deriving DecidableEq, Repr

namespace SlotSnapshot

def vars (snapshot : SlotSnapshot) : List (Nat × Tag) :=
  varsOf snapshot.cells

/- The tag of the variable that starts at a slot. -/
def tagAt (snapshot : SlotSnapshot) (slot : Nat) : Tag :=
  (snapshot.cells[slot]?.map (·.content.tag)).getD .void

/- The room of a slot, if it has a cell. -/
def room? (snapshot : SlotSnapshot) (slot : Nat) : Option Nat :=
  snapshot.cells[slot]?.map SlotCell.room

/- Whether two snapshots hold the same tags in the same rooms. -/
def sameShape (a b : SlotSnapshot) : Bool :=
  (List.range (max a.cells.size b.cells.size)).all fun slot =>
    a.tagAt slot == b.tagAt slot &&
      (a.room? slot == b.room? slot
        || ((a.tagAt slot).isVoid && (b.tagAt slot).isVoid))

/- The address of a slot; slots after the last cell have room for one each. -/
def address (snapshot : SlotSnapshot) (slot : Nat) : Nat :=
  total ((snapshot.cells.toList.take slot).map SlotCell.room)
    + (slot - snapshot.cells.size)

end SlotSnapshot

-- The map

/-
  The map of local variables: its cells, the addresses of these
  and of the end, the room wanted for each slot, and the most
  cells after unboxing so far.
-/
structure SlotMap where
  cells : Array SlotCell
  addresses : Array Nat
  plan : Array Nat
  peak : Nat
deriving DecidableEq, Repr

namespace SlotMap

/- The map without variables, with the room wanted for each slot. -/
def withPlan (plan : Array Nat) : SlotMap :=
  ⟨#[], #[0], plan, 0⟩

def empty : SlotMap :=
  withPlan #[]

/- The map with other cells and their addresses. -/
def withCells (map : SlotMap) (cells : Array SlotCell) : SlotMap :=
  let addresses := (addressesFrom 0 cells.toList).toArray
  { map with
    cells := cells
    addresses := addresses
    peak := max map.peak ((addresses[cells.size]?).getD 0) }

def clear (map : SlotMap) : SlotMap :=
  map.withCells #[]

/- The room wanted for a slot, at least one. -/
def plannedRoom (map : SlotMap) (slot : Nat) : Nat :=
  max ((map.plan[slot]?).getD 1) 1

/- The number of slots that have a cell. -/
def size (map : SlotMap) : Nat :=
  map.cells.size

/- The cells after unboxing that the slots own. -/
def dstSize (map : SlotMap) : Nat :=
  (map.addresses[map.cells.size]?).getD 0

-- Queries

def content? (map : SlotMap) (slot : Nat) : Option SlotContent :=
  map.cells[slot]?.map SlotCell.content

/- The tag of the variable that starts at a slot. -/
def tagAt (map : SlotMap) (slot : Nat) : Tag :=
  ((map.content? slot).map SlotContent.tag).getD .void

/- The name of the variable that starts at a slot. -/
def nameAt (map : SlotMap) (slot : Nat) : Option String :=
  (map.content? slot).bind SlotContent.name

/- Whether a slot is the second half of a variable. -/
def isTail (map : SlotMap) (slot : Nat) : Bool :=
  map.content? slot == some .tail

def vars (map : SlotMap) : List (Nat × Tag) :=
  varsOf map.cells

/- The room of a slot, planned if it has no cell. -/
def room (map : SlotMap) (slot : Nat) : Nat :=
  match map.cells[slot]? with
  | some cell => cell.room
  | none => map.plannedRoom slot

/- The room of some slots together. -/
def span (map : SlotMap) (slot width : Nat) : Nat :=
  total ((List.range' slot width).map map.room)

/- Whether no variable covers a slot from this one on. -/
def isFreeFrom (map : SlotMap) (slot : Nat) : Bool :=
  (map.cells.toList.drop slot).all fun cell => !cell.content.isUsed

/- The cells that a variable can use without moving others; none if any number. -/
def available? (map : SlotMap) (slot : Nat) : Option Nat :=
  if map.isFreeFrom (slot + 1) then none else some (map.room slot)

/-
  Whether a value fits at a slot. A value that takes two slots
  owns two cells already, so only a value in one slot can be
  too wide.
-/
def fits (map : SlotMap) (slot : Nat) (tag : Tag) : Bool :=
  tag.srcWidth == 2 ||
    match map.available? slot with
    | none => true
    | some cells => tag.dstWidth ≤ cells

/- The address of a slot. Slots without a cell have their planned room. -/
def address (map : SlotMap) (slot : Nat) : Nat :=
  match map.addresses[slot]? with
  | some address => address
  | none => map.dstSize + map.span map.size (slot - map.size)

/- The slot that owns a cell after unboxing. -/
def slotOf? (map : SlotMap) (cell : Nat) : Option Nat :=
  if map.dstSize ≤ cell then
    none
  else
    (map.addresses.toList.findIdx? (cell < ·)).map (· - 1)

-- Edits

/- Put a variable after the last slot, and tell its slot. -/
def add (map : SlotMap) (tag : Tag) (name : Option String) : Nat × SlotMap :=
  let slot := map.size
  let room := map.plannedRoom slot
  if tag.srcWidth = 2 then
    let head : SlotCell := ⟨.head tag name, room⟩
    let tail : SlotCell := ⟨.tail, map.plannedRoom (slot + 1)⟩
    (slot, map.withCells ((map.cells.push head).push tail))
  else
    let head : SlotCell := ⟨.head tag name, max room tag.dstWidth⟩
    (slot, map.withCells (map.cells.push head))

/- Change the content of a slot. -/
def setContent (cells : Array SlotCell) (slot : Nat)
    (content : SlotContent) : Array SlotCell :=
  cells.modify slot fun cell => { cell with content := content }

/- Free a slot, and the other half of a variable that covers it. -/
def detach (cells : Array SlotCell) (slot : Nat) : Array SlotCell :=
  match cells[slot]?.map SlotCell.content with
  | none => cells
  | some .tail =>
      setContent (if slot = 0 then cells else setContent cells (slot - 1) .void)
        slot .void
  | some (.head tag _) =>
      let cells :=
        if tag.srcWidth = 2
            ∧ cells[slot + 1]?.map SlotCell.content = some .tail then
          setContent cells (slot + 1) .void
        else
          cells
      setContent cells slot .void

/- The cells, followed by free ones up to a number of slots. -/
def padded (map : SlotMap) (count : Nat) : Array SlotCell :=
  map.cells ++ ((List.range' map.size (count - map.size)).map fun slot =>
    (⟨.void, map.plannedRoom slot⟩ : SlotCell)).toArray

/- Give the variable at a slot the room it needs, if it is the last one. -/
def grow (cells : Array SlotCell) (slot : Nat) (tag : Tag) : Array SlotCell :=
  let width := tag.srcWidth
  let owned := ((cells.toList.drop slot).take width).map SlotCell.room
  if total owned < tag.dstWidth then
    (cells.take (slot + width)).modify (slot + width - 1) fun cell =>
      { cell with room := cell.room + (tag.dstWidth - total owned) }
  else
    cells

/-
  Store a variable at a slot and tell its address. Variables in
  the way are gone. If the value does not fit, nothing happens.
-/
def put (map : SlotMap) (slot : Nat) (tag : Tag)
    (name : Option String) : Option (Nat × SlotMap) :=
  if map.fits slot tag then
    let width := tag.srcWidth
    let cells := (List.range' slot width).foldl detach (map.padded (slot + width))
    let cells := setContent cells slot (.head tag name)
    let cells := if width = 2 then setContent cells (slot + 1) .tail else cells
    let map := map.withCells (grow cells slot tag)
    some ((map.addresses[slot]?).getD 0, map)
  else
    none

/-
  Change the tag of a variable in place, if there is one of the
  same width before unboxing and the new value fits.
-/
def retag? (map : SlotMap) (slot : Nat) (tag : Tag) : Option SlotMap :=
  match map.content? slot with
  | some (.head old name) =>
      if !old.isVoid && old.srcWidth == tag.srcWidth && map.fits slot tag then
        some (map.withCells
          (grow (setContent map.cells slot (.head tag name)) slot tag))
      else
        none
  | _ => none

/- Drop a name from every variable. -/
def forgetName (map : SlotMap) (name : String) : SlotMap :=
  { map with
    cells := map.cells.map fun cell =>
      { cell with content := cell.content.forget name } }

/- Free the variable at a slot; the room stays. -/
def kill (map : SlotMap) (slot : Nat) : SlotMap :=
  { map with cells := detach map.cells slot }

/- The cells without the last variable; a free cell counts as one. -/
def dropVariable (cells : Array SlotCell) : Array SlotCell :=
  match cells.back?.map SlotCell.content with
  | some .tail => cells.pop.pop
  | _ => cells.pop

/- Remove the last `count` variables. -/
def removeLast (map : SlotMap) (count : Nat) : SlotMap :=
  map.withCells (Nat.repeat dropVariable (min count map.size) map.cells)

def save (map : SlotMap) : SlotSnapshot :=
  ⟨map.cells⟩

/- The map with the cells of a snapshot. -/
def restore (map : SlotMap) (snapshot : SlotSnapshot) : SlotMap :=
  map.withCells snapshot.cells

end SlotMap

end Unboxing
