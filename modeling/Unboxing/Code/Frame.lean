import Unboxing.Code.Label
import Unboxing.Code.Layout
import Unboxing.Descriptor.Basic

/-
  This file defines stack map frames: the types of locals and
  stack at a label, written as a change of the frame before.
-/

namespace Unboxing

-- Types in frames

/- The type of a local or of a stack entry at a label. -/
inductive FrameType where
  | top
  | int
  | float
  | double
  | long
  | null
  | uninitializedThis
  | object (type : RefType)
  | uninitialized (origin : Label)
deriving DecidableEq, Repr

namespace FrameType

def isReference : FrameType → Bool
  | .null | .uninitializedThis | .object _ | .uninitialized _ => true
  | .top | .int | .float | .double | .long => false

/- The type of values that a field of a declared type holds. -/
def ofFieldType : FieldType → FrameType
  | .base .float => .float
  | .base .long => .long
  | .base .double => .double
  | .base _ => .int
  | .ref type => .object type

instance : HasWidth FrameType where
  width
    | .double | .long => 2
    | _ => 1

end FrameType

-- Frames

/- How a frame differs from the frame before it. -/
inductive FrameChange where
  | same
  | sameOne (entry : FrameType)
  | chop (count : Nat)
  | append (locals : List FrameType)
  | full (locals : List FrameType) (stack : List FrameType)
deriving DecidableEq, Repr

/- The locals by the slot at which each starts, and the stack, bottom first. -/
structure Frame where
  locals : Layout FrameType
  stack : List FrameType
deriving DecidableEq, Repr

namespace Frame

def empty : Frame :=
  ⟨.empty, []⟩

/- The frame that a change makes of this one. -/
def advance (frame : Frame) : FrameChange → Frame
  | .same => ⟨frame.locals, []⟩
  | .sameOne entry => ⟨frame.locals, [entry]⟩
  | .chop count => ⟨frame.locals.truncate (frame.locals.size - count), []⟩
  | .append locals => ⟨frame.locals.extend locals, []⟩
  | .full locals stack => ⟨.ofList locals, stack⟩

end Frame

end Unboxing
