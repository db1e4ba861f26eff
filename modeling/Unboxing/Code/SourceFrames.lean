import Unboxing.Code.Node

/-
  This file defines the expansion of the frames of a method
  body: the full frame at each label that one describes, and
  the labels that branches jump to.
-/

namespace Unboxing

/- The frames at labels, the latest first, and the labels jumped to. -/
structure SourceFrames where
  atLabel : List (Label × Frame)
  targets : List Label
deriving DecidableEq, Repr

namespace SourceFrames

/- No frames and no jumps. -/
def empty : SourceFrames :=
  ⟨[], []⟩

def frame? (frames : SourceFrames) (label : Label) : Option Frame :=
  frames.atLabel.lookup label

def isTarget (frames : SourceFrames) (label : Label) : Bool :=
  frames.targets.contains label

-- Expansion

/-
  The state between two elements of a body: the last frame, the
  labels that a frame would describe here, and what was found.
-/
structure Expansion where
  frame : Frame
  labels : List Label
  found : SourceFrames
deriving DecidableEq, Repr

/- Go past one element of a body. -/
def Expansion.step (expansion : Expansion) : Node → Expansion
  | .label label => { expansion with labels := expansion.labels ++ [label] }
  | .line _ => expansion
  | .frame change =>
      let frame := expansion.frame.advance change
      { frame := frame
        labels := []
        found :=
          { expansion.found with
            atLabel := expansion.labels.map (·, frame) ++ expansion.found.atLabel } }
  | .insn _ => { expansion with labels := [] }
  | .branch branch =>
      { expansion with
        labels := []
        found :=
          { expansion.found with
            targets := expansion.found.targets ++ branch.targets } }

/- The frames and jumps of a body that starts with a frame. -/
def scan (nodes : List Node) (initial : Frame) : SourceFrames :=
  (nodes.foldl Expansion.step ⟨initial, [], empty⟩).found

end SourceFrames

end Unboxing
