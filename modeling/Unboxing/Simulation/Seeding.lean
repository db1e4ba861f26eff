import Unboxing.Simulation.Conversion

/-
  This file defines the seeding of payload fields. A new field
  is zero, so where another payload stands for null it is
  stored before anything can look at the field: before the
  first access to a field of the class, the first branch and
  the first label that is jumped to. A constructor that calls
  another one of its class leaves the seeding to that.
-/

namespace Unboxing

/- Whether a method has fields to seed. -/
def Seeding.start (method : Method) (layout : ClassLayout) : Seeding :=
  if method.seedsFields layout then .searching else .inapplicable

/- The instructions that store the payload for null into a field. -/
def PayloadField.seed (field : PayloadField) (owner : ClassName) : List Instruction :=
  match field.nullValue with
  | none => []
  | some value =>
      if field.isStatic then
        [nullConstant value, .field .putStatic (field.ref owner)]
      else
        [ .load .reference 0, nullConstant value,
          .field .putField (field.ref owner) ]

namespace Simulation

/- Note that a field could be looked at from here on. -/
def markSeeding : Simulation Unit :=
  modify fun st =>
    if st.seeding = .searching then
      { st with
        seeding := .found (st.code.prev? st.here) st.stack.dst }
    else
      st

/- Note that another constructor of the class does the seeding. -/
def suppressSeeding : Simulation Unit :=
  modify fun st =>
    match st.seeding with
    | .searching | .found _ _ => { st with seeding := .suppressed }
    | _ => st

/- Put instructions right after an element, or at the start. -/
def insertAt (after : Option Handle) (code : Sequence Node)
    (block : List Instruction) : Sequence Node :=
  match after with
  | some h =>
      (block.foldl
        (fun (h, code) i => code.insertAfter h (.insn i)) (h, code)).2
  | none =>
      match code.first with
      | some first =>
          block.foldl (fun code i => (code.insertBefore first (.insn i)).2) code
      | none => code

/- Put the seeding where it was found to belong. -/
def seedAt (after : Option Handle) (depth : Nat) : Simulation Unit := do
  let ctx ← read
  let isStatic := ctx.method.isClassInitializer
  let block := (ctx.layout.fieldsToSeed isStatic).flatMap
    (·.seed ctx.layout.name)
  modify fun st =>
    { st with
      code := insertAt after st.code block
      stack := st.stack.reserve (depth + if isStatic then 2 else 3)
      seeding := .injected
      modified := true }

/- Put the seeding where it belongs, if there is any. -/
def seed : Simulation Unit := do
  match (← get).seeding with
  | .found after depth => seedAt after depth
  | .searching => seedAt none 0
  | _ => return ()

end Simulation

end Unboxing
