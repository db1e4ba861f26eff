import Unboxing.MethodUnboxing
import Unboxing.Report

/-
  This file defines the unboxing of classes. Methods are
  unboxed one by one, and one that fails is left as it was. But
  the fields of a class and all accesses to them must change
  together, so a class with payload fields and a method that
  fails is left as it was too, and so are the fields that a
  failed method of any class of a batch reaches. Which fields
  these are is settled before any class is changed.

  Key definitions include:
    * `ClassPlan`
    * `Batch.plan`
    * `Batch.settle`
    * `Batch.unboxClass`
    * `Batch.unboxAll`
-/

namespace Unboxing

/- What unboxing a class would do, and which classes it needs to stay boxed. -/
structure ClassPlan where
  report : Report
  bodies : List (Option Body)
  payloadFields : List PayloadField
  keepBoxed : List ClassName
deriving DecidableEq, Repr

namespace ClassPlan

def applyToField (plan : ClassPlan) (field : Field) : Field :=
  match plan.payloadFields.find? (·.name == field.name) with
  | some payload => { field with type := payload.type }
  | none => field

def applyToMethod (method : Method) (body : Option Body) : Method :=
  match body with
  | some body => { method with body := some body }
  | none => method

def apply (plan : ClassPlan) (cls : Class) : Class :=
  { cls with
    fields := cls.fields.map plan.applyToField
    methods := cls.methods.zipWith applyToMethod plan.bodies }

end ClassPlan

/- What classes are unboxed with: the mapping and the classes that stay boxed. -/
structure Batch where
  reg : Registry
  settings : Settings
  keptBoxed : List ClassName
deriving DecidableEq, Repr

namespace Batch

/- Unbox with a mapping and no class that stays boxed. -/
def new (reg : Registry) (settings : Settings) : Batch :=
  ⟨reg, settings, []⟩

-- Plans

/- What came of a method. -/
inductive MethodOutcome where
  | skipped
  | unboxed (result : UnboxedBody)
  | failed (failure : Failure) (owners : List ClassName)
deriving DecidableEq, Repr

namespace MethodOutcome

def body? : MethodOutcome → Option Body
  | .unboxed result => if result.modified then some result.body else none
  | _ => none

/- What the method adds to a report, apart from findings. -/
def report : MethodOutcome → Report
  | .skipped => { methodsSeen := 1, methodsSkipped := 1 }
  | .unboxed _ => { methodsSeen := 1 }
  | .failed failure _ =>
      { methodsSeen := 1, methodsFailed := 1, failures := [failure] }

def findings (method : String) : MethodOutcome → List Finding
  | .unboxed result => result.diagnostics.map (⟨method, ·⟩)
  | _ => []

/- The classes whose payload fields the method still takes for boxed. -/
def owners : MethodOutcome → List ClassName
  | .failed _ owners => owners
  | _ => []

/- Whether the method could not be unboxed. -/
def isFailed : MethodOutcome → Bool
  | .failed _ _ => true
  | _ => false

end MethodOutcome

def unboxMethod (batch : Batch) (layout : ClassLayout)
    (method : Method) : MethodOutcome :=
  if method.isConcerned layout batch.reg then
    match method.body with
    | none => .skipped
    | some body =>
        match method.unbox batch.reg batch.settings layout body with
        | .ok result => .unboxed result
        | .error failure =>
            .failed failure (method.payloadOwners layout batch.reg)
  else
    .skipped

/- Whether static payload fields of a class have no initializer to seed them. -/
def lacksInitializer (batch : Batch) (layout : ClassLayout) (cls : Class) : Bool :=
  !(layout.fieldsToSeed true).isEmpty
    && !cls.methods.any Method.isClassInitializer
    && !batch.settings.isSuppressed .fieldInitMissing

def plan (batch : Batch) (cls : Class) : ClassPlan :=
  let layout := ClassLayout.ofClass batch.reg batch.keptBoxed cls
  let outcomes := cls.methods.map (batch.unboxMethod layout)
  let report := (outcomes.map MethodOutcome.report).foldl Report.merge
    { classesSeen := 1 }
  let owners := outcomes.flatMap MethodOutcome.owners
  let lacking := batch.lacksInitializer layout cls
  let failed := outcomes.any MethodOutcome.isFailed
    || (lacking && batch.settings.strict)
  if failed && !layout.payloadFields.isEmpty then
    { report :=
        { report with classesFailed := 1, failedClasses := [cls.name.text] }
      bodies := cls.methods.map fun _ => none
      payloadFields := []
      keepBoxed := owners ++ [cls.name] }
  else
    let bodies := outcomes.map MethodOutcome.body?
    let inMethods := (cls.methods.zip outcomes).flatMap fun (method, outcome) =>
      outcome.findings (cls.qualified method)
    let inClass : List Finding :=
      if lacking && !batch.settings.strict then
        [⟨cls.name.text, ⟨.fieldInitMissing, none⟩⟩]
      else
        []
    { report :=
        { report with
          methodsModified := bodies.countP Option.isSome
          findings := inMethods ++ inClass }
      bodies := bodies
      payloadFields := layout.payloadFields
      keepBoxed := owners }

-- Settling

/- Let more classes stay boxed, each once. -/
def keep (batch : Batch) (names : List ClassName) : Batch :=
  { batch with
    keptBoxed := names.foldl
      (fun kept name => if kept.contains name then kept else kept ++ [name])
      batch.keptBoxed }

/- Plan all classes once, each with what the plans before need to stay boxed. -/
def settleOnce (batch : Batch) (classes : List Class) : Batch :=
  classes.foldl (fun batch cls => batch.keep (batch.plan cls).keepBoxed) batch

/- Plan all classes until nothing more has to stay boxed, at most so often. -/
def settleWithin (batch : Batch) (classes : List Class) : Nat → Batch
  | 0 => batch
  | rounds + 1 =>
      let next := batch.settleOnce classes
      if next.keptBoxed.length = batch.keptBoxed.length then
        batch
      else
        next.settleWithin classes rounds

/- The classes that the fields of a method belong to. -/
def fieldOwners (method : Method) : List ClassName :=
  match method.body with
  | none => []
  | some body =>
      body.nodes.filterMap fun
        | .insn (.field _ accessed) => some accessed.owner
        | _ => none

/- The classes that could have to stay boxed. -/
def candidates (classes : List Class) : List ClassName :=
  classes.flatMap fun cls => cls.name :: cls.methods.flatMap fieldOwners

/-
  Find out which classes stay boxed. A class that stays boxed
  can make other methods fail, so this goes on until nothing
  changes. Every round but the last adds a candidate.
-/
def settle (batch : Batch) (classes : List Class) : Batch :=
  batch.settleWithin classes ((candidates classes).length + 1)

-- Unboxing

def unboxClass (batch : Batch) (cls : Class) : Class × Report :=
  let plan := batch.plan cls
  (plan.apply cls, plan.report)

/- Unbox classes one after the other. -/
def unboxEach (batch : Batch) (classes : List Class) : List Class × Report :=
  let results := classes.map batch.unboxClass
  (results.map Prod.fst, (results.map Prod.snd).foldl Report.merge .empty)

/- Settle what stays boxed, then unbox all classes. -/
def unboxAll (batch : Batch) (classes : List Class) : Batch × List Class × Report :=
  let batch := batch.settle classes
  (batch, batch.unboxEach classes)

end Batch

end Unboxing
