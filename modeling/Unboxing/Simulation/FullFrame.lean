import Unboxing.Registry.Basic
import Unboxing.OperandStack
import Unboxing.SlotMap

/-
  This file defines the frames of the unboxed code. Every frame
  is written in full, at the addresses that the slots have
  after unboxing.
-/

namespace Unboxing

/-
  The type in a frame of a value with a tag. Where a tag does
  not tell the class of a reference, a declared type does.
-/
def Registry.frameTypeOf (reg : Registry) (tag : Tag)
    (declared : Option FrameType) : FrameType :=
  if tag.isPayload then
    .long
  else
    match tag.isValue, reg.typeOf? tag with
    | true, some (.ref type) => .object type
    | _, type =>
        if tag.isSrcReference then
          match declared.filter FrameType.isReference with
          | some declared => declared
          | none =>
              if tag.isNull then
                .null
              else
                match type with
                | some (.ref type) => .object type
                | _ => .object (.object .object)
        else
          match tag.valueKind with
          | .int => .int
          | .long => .long
          | .float => .float
          | .double => .double
          | .reference => .top

/- The entries of a frame for the cells that a slot owns. -/
def SlotMap.frameEntries (map : SlotMap) (reg : Registry) (source : Option Frame)
    (slot : Nat) : List FrameType :=
  let tag := map.tagAt slot
  if map.isTail slot then
    []
  else if tag.isVoid then
    List.replicate (map.room slot) .top
  else
    let declared := source.bind (·.locals.startingAt? slot)
    reg.frameTypeOf tag declared ::
      List.replicate (map.span slot tag.srcWidth - tag.dstWidth) .top

/- The list without the free cells at its end. -/
def dropTrailingTops (types : List FrameType) : List FrameType :=
  (types.reverse.dropWhile (· == .top)).reverse

/- The locals of the frame that a map describes. -/
def SlotMap.frameLocals (map : SlotMap) (reg : Registry)
    (source : Option Frame) : List FrameType :=
  dropTrailingTops
    ((List.range map.size).flatMap (map.frameEntries reg source))

/- The frame that describes a stack and locals, given the frame before unboxing. -/
def fullFrame (reg : Registry) (source : Option Frame) (stack : OperandStack)
    (locals : SlotMap) : FrameChange :=
  .full (locals.frameLocals reg source)
    (stack.save.tags.zipIdx.map fun (tag, height) =>
      reg.frameTypeOf tag (source.bind (·.stack[height]?)))

end Unboxing
