/-
  This file defines editable sequences. Every element keeps
  the handle it was given when it entered, an element can be
  put next to any other at a cost that does not depend on the
  length, and a removed element remembers its neighbours.

  Key definitions include:
    * `Sequence`
    * `Sequence.push`
    * `Sequence.insertBefore`
    * `Sequence.insertAfter`
    * `Sequence.remove`
    * `Sequence.replace`
    * `Sequence.handles`
    * `Sequence.toList`
-/

namespace Unboxing

/- The number of an element, counted in the order of entry. -/
abbrev Handle := Nat

/- An element with its neighbours. -/
structure Link (α : Type) where
  item : α
  prev : Option Handle
  next : Option Handle
  live : Bool
deriving DecidableEq, Repr

/- All elements ever entered, and the ends of the live ones. -/
structure Sequence (α : Type) where
  links : Array (Link α)
  first : Option Handle
  last : Option Handle
  size : Nat
deriving DecidableEq, Repr

namespace Sequence

variable {α : Type}

def empty : Sequence α :=
  ⟨#[], none, none, 0⟩

-- Queries

/- The element with a handle, removed or not. -/
def get? (seq : Sequence α) (h : Handle) : Option α :=
  seq.links[h]?.map Link.item

/- The handle after a handle, for a removed element as it was then. -/
def next? (seq : Sequence α) (h : Handle) : Option Handle :=
  seq.links[h]?.bind Link.next

/- The handle before a handle, for a removed element as it was then. -/
def prev? (seq : Sequence α) (h : Handle) : Option Handle :=
  seq.links[h]?.bind Link.prev

/- Whether a handle stands for an element that was not removed. -/
def isLive (seq : Sequence α) (h : Handle) : Bool :=
  (seq.links[h]?.map Link.live).getD false

/- The handles met by going forward from a handle, at most `fuel` of them. -/
def handlesFrom (seq : Sequence α) : Nat → Option Handle → List Handle
  | 0, _ => []
  | _ + 1, none => []
  | fuel + 1, some h => h :: seq.handlesFrom fuel (seq.next? h)

/- The handles of the live elements, in order. -/
def handles (seq : Sequence α) : List Handle :=
  seq.handlesFrom seq.links.size seq.first

def toList (seq : Sequence α) : List α :=
  seq.handles.filterMap seq.get?

-- Edits

/- Change the link of a handle. -/
def modifyLink (seq : Sequence α) (h : Handle) (change : Link α → Link α) : Sequence α :=
  { seq with links := seq.links.modify h change }

/- Let a handle, or the end of the sequence, be followed by another. -/
def setNext (seq : Sequence α) (h : Option Handle) (next : Option Handle) : Sequence α :=
  match h with
  | none => { seq with first := next }
  | some h => seq.modifyLink h fun link => { link with next := next }

/- Let a handle, or the end of the sequence, be preceded by another. -/
def setPrev (seq : Sequence α) (h : Option Handle) (prev : Option Handle) : Sequence α :=
  match h with
  | none => { seq with last := prev }
  | some h => seq.modifyLink h fun link => { link with prev := prev }

/- Enter an element between two neighbours. -/
def insertBetween (seq : Sequence α) (prev next : Option Handle)
    (item : α) : Handle × Sequence α :=
  let h := seq.links.size
  let entered : Sequence α :=
    { seq with
      links := seq.links.push ⟨item, prev, next, true⟩
      size := seq.size + 1 }
  (h, (entered.setNext prev (some h)).setPrev next (some h))

/- Enter an element at the end. -/
def push (seq : Sequence α) (item : α) : Handle × Sequence α :=
  seq.insertBetween seq.last none item

/- Enter an element right before a live one. -/
def insertBefore (seq : Sequence α) (h : Handle) (item : α) : Handle × Sequence α :=
  seq.insertBetween (seq.prev? h) (some h) item

/- Enter an element right after a live one. -/
def insertAfter (seq : Sequence α) (h : Handle) (item : α) : Handle × Sequence α :=
  seq.insertBetween (some h) (seq.next? h) item

/- Take a live element out; a removed one stays as it is. -/
def remove (seq : Sequence α) (h : Handle) : Sequence α :=
  if seq.isLive h then
    let cut := (seq.setNext (seq.prev? h) (seq.next? h)).setPrev
      (seq.next? h) (seq.prev? h)
    { cut.modifyLink h (fun link => { link with live := false }) with
      size := seq.size - 1 }
  else
    seq

/- Put another element in the place of a handle. -/
def replace (seq : Sequence α) (h : Handle) (item : α) : Sequence α :=
  seq.modifyLink h fun link => { link with item := item }

/- Elements in order, with handles from zero on. -/
def ofList (items : List α) : Sequence α :=
  items.foldl (fun seq item => (seq.push item).2) empty

end Sequence

end Unboxing
