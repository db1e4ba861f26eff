import Unboxing.Tag.Basic

/-
  This file defines what a value must go through to become
  what its consumer expects, and which value class a call with
  open classes is about.
-/

namespace Unboxing

-- Casts

/- What turns a found value into an expected one. -/
inductive Cast where
  | success
  | boxing
  | unboxing
  | substitution
  | failure
deriving DecidableEq, Repr

namespace Tag

/- The cast between two tags of value classes, not equal. -/
def castValues (found want : Tag) : Cast :=
  if found.depth ≠ want.depth then
    .failure
  else if found.class? ≠ want.class? then
    if want.isWildcard && !found.isWildcard then .substitution else .failure
  else if found.hasPayloadKind && want.hasReferenceKind then
    .boxing
  else if found.hasReferenceKind && want.hasPayloadKind then
    .unboxing
  else
    .success

/- The cast of a value to something that is not of a value class. -/
def castFromValue (found want : Tag) : Cast :=
  if want.kind = .object ∧ want.depth ≤ found.depth then
    if found.hasPayloadKind then .boxing else .success
  else
    .failure

/- The cast of something else to a value class. -/
def castToValue (found want : Tag) : Cast :=
  match found.kind with
  | .null => if want.isPayload then .unboxing else .success
  | .object =>
      if found.depth = 0 ∨ found.depth = want.depth then
        if want.hasPayloadKind then .unboxing else .success
      else
        .failure
  | _ => .failure

/- The cast between two tags without value classes, not equal. -/
def castOthers (found want : Tag) : Cast :=
  if !found.isSrcReference || !want.isSrcReference then
    .failure
  else if want.kind = .null then
    .failure
  else if found.kind = .null then
    .success
  else if want.kind = .object
      ∧ (want.depth = 0 ∨ found.kind = .object) then
    .success
  else if found.kind = .object ∧ found.depth = 0 then
    .success
  else if found.kind = want.kind ∧ found.depth = want.depth then
    .success
  else
    .failure

/-
  What turns a found value into an expected one. It fails if
  array dimensions or value classes disagree, or if verified
  code cannot contain the combination.
-/
def cast (found want : Tag) : Cast :=
  if found = want then
    .success
  else if found.isVoid || want.isVoid then
    .failure
  else
    match found.isValue, want.isValue with
    | true, true => castValues found want
    | true, false => castFromValue found want
    | false, true => castToValue found want
    | false, false => castOthers found want

/- Whether the cast takes instructions. -/
def needsCode (found want : Tag) : Bool :=
  match cast found want with
  | .boxing | .unboxing => true
  | _ => false

end Tag

-- Open classes

/- What the operands of a call say about the open class of its signature. -/
inductive Inference where
  | closed
  | resolved (cls : ClassIndex)
  | conflict (classes : List ClassIndex)
deriving DecidableEq, Repr

/- The value classes found where a wildcard is expected, each once. -/
def wildcardClasses (want found : List Tag) : List ClassIndex :=
  ((want.zip found).filterMap fun (want, found) =>
    if want.isWildcard && !found.isWildcard then found.class? else none).eraseDups

/-
  The value class that a call binds. It is open only if a
  wildcard is expected somewhere, and then exactly one class
  must be found in such places.
-/
def inferClass (want found : List Tag) : Inference :=
  if (want.zip found).any (·.1.isWildcard) then
    match wildcardClasses want found with
    | [cls] => .resolved cls
    | classes => .conflict classes
  else
    .closed

end Unboxing
