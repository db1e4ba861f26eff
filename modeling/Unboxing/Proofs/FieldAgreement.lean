import Unboxing.Proofs.OperandConversion

/-
  Fields of a batch and the accesses to them, and what unboxing
  changes of a class. What type a field has after unboxing is
  decided by its owner and its type alone, where the class is
  declared and wherever the field is accessed. Methods that are
  left as they are access no field whose type changes. An access
  by the name of a subclass is decided by that class, which need
  not follow the class that declares the field. Of two fields
  that share a name, one can get the type of the other.

  Main declarations:
    * `Batch.payloadType`
    * `Simulation.fields_in_output`
    * `Batch.fields_agree`
    * `Batch.inherited_fields_agree_iff`
    * `Batch.Changes`
    * `Batch.unboxClass_changes`
-/

namespace Unboxing

open List

-- The type of a field

/- The type of a field after unboxing, given the classes that stay boxed. -/
def Registry.fieldType (reg : Registry) (keptBoxed : List ClassName)
    (owner : ClassName) (type : FieldType) : FieldType :=
  if reg.storesPayloads keptBoxed owner && reg.mentions type then
    (reg.typeOf? (reg.tagOf type).payloadOf).getD type
  else
    type

/- The type of a `long`, or of arrays of them with so many dimensions. -/
def FieldType.longs : Nat → FieldType
  | 0 => .base .long
  | more + 1 => .ref (.array more (.base .long))

theorem FieldType.arrayTypeWith_eq {type : FieldType} {element : Element}
    (hElement : type.arrayType = .array 0 element) (extra : Nat) :
    type.arrayTypeWith extra = .array extra element := by
  induction extra with
  | zero => exact hElement
  | succ extra ih => rw [arrayTypeWith, ih]; rfl

/- The type of a payload, or of arrays of them, has `long` in place of the class. -/
theorem Registry.typeOf?_payload (reg : Registry) (cls : ClassIndex) (depth : Nat) :
    reg.typeOf? ⟨.payload cls, depth⟩ = some (.longs depth) := by
  cases depth with
  | zero => rfl
  | succ more =>
    change some (FieldType.ref ((FieldType.base .long).arrayTypeWith more)) = _
    rw [FieldType.arrayTypeWith_eq rfl]
    rfl

/- The tag of a type that mentions a value class, with dimensions modulo 256. -/
theorem Registry.tagOf_of_mentions {reg : Registry} {type : FieldType}
    (hMentions : reg.mentions type = true) :
    ∃ cls, reg.tagOf type = ⟨.reference cls, type.depth % 256⟩ := by
  rcases Option.isSome_iff_exists.mp hMentions with ⟨cls, hBound⟩
  rcases Option.bind_eq_some_iff.mp hBound with ⟨name, hName, hIndex⟩
  have hTag : reg.tagOfClass name = .reference cls := by
    rw [tagOfClass, hIndex]
  refine ⟨cls, ?_⟩
  rcases type with _ | ⟨_ | ⟨more, _ | _⟩⟩ <;> cases hName
  · exact hTag
  · have hLess : (more + 1) % 256 < 256 := Nat.mod_lt _ (by decide)
    simp only [tagOf, tagOfRef, tagOfElement, hTag, FieldType.depth, RefType.depth,
      Tag.arrayOf, Tag.reference, Tag.maxDepth, Tag.mk.injEq, true_and]
    omega

/- A type that mentions a value class becomes one of `long` with its dimensions. -/
theorem Registry.typeOf?_payloadOf {reg : Registry} {type : FieldType}
    (hMentions : reg.mentions type = true) :
    reg.typeOf? (reg.tagOf type).payloadOf =
      some (.longs (type.depth % 256)) := by
  rcases tagOf_of_mentions hMentions with ⟨cls, hTag⟩
  rw [hTag]
  exact typeOf?_payload reg cls _

-- The fields of a class

/- The first field with a name whose type mentions a value class. -/
def Class.valueField? (cls : Class) (reg : Registry) (name : MemberName) :
    Option Field :=
  cls.fields.find? fun field => field.name == name && reg.mentions field.type

theorem PayloadField.ofField?_of_mentions {reg : Registry} {field : Field}
    (hMentions : reg.mentions field.type = true) :
    ∃ payload, ofField? reg field = some payload ∧ payload.name = field.name ∧
      payload.type = .longs (field.type.depth % 256) := by
  simp only [ofField?, hMentions, if_true, Registry.typeOf?_payloadOf hMentions, Option.map_some]
  exact ⟨_, rfl, rfl, rfl⟩

/- The payload field with a name is the first field that mentions a value class. -/
theorem PayloadField.find?_filterMap_ofField? (reg : Registry) (fields : List Field)
    (name : MemberName) :
    ((fields.filterMap (ofField? reg)).find? (·.name == name)).map PayloadField.type =
      (fields.find? fun field => field.name == name && reg.mentions field.type).map
        fun field => .longs (field.type.depth % 256) := by
  have hAny (field : Field) : (ofField? reg field).any (·.name == name) =
      (field.name == name && reg.mentions field.type) := by
    cases hMentions : reg.mentions field.type with
    | false => simp [ofField?, hMentions]
    | true =>
      rcases ofField?_of_mentions hMentions with ⟨payload, hPayload, hName, _⟩
      simp [hPayload, hName]
  rw [find?_filterMap, funext hAny]
  cases hFound : fields.find? fun field => field.name == name && reg.mentions field.type with
  | none => rfl
  | some field =>
    have hSome := find?_some hFound
    rcases ofField?_of_mentions (Bool.and_eq_true_iff.mp hSome).2 with
      ⟨payload, hPayload, _, hType⟩
    simp [hPayload, hType]

namespace Batch

variable {batch : Batch} {cls : Class} {field : Field}

theorem plan_of_not_rollsBack (hStays : batch.rollsBack cls = false) :
    (batch.plan cls).payloadFields = (batch.layoutOf cls).payloadFields ∧
      (batch.plan cls).bodies = (batch.outcomes cls).map MethodOutcome.body? := by
  unfold rollsBack at hStays
  constructor
  · simp only [plan, hStays, if_false, Bool.false_eq_true]
  · simp only [plan, hStays, if_false, Bool.false_eq_true]

/- The type of a field after unboxing, which is found by the name of the field. -/
def payloadType (batch : Batch) (cls : Class) (field : Field) : FieldType :=
  if batch.reg.storesPayloads batch.keptBoxed cls.name then
    ((cls.valueField? batch.reg field.name).map fun found =>
      .longs (found.type.depth % 256)).getD field.type
  else
    field.type

theorem applyToField_plan (hStays : batch.rollsBack cls = false) (field : Field) :
    (batch.plan cls).applyToField field =
      { field with type := batch.payloadType cls field } := by
  unfold ClassPlan.applyToField payloadType
  rw [(plan_of_not_rollsBack hStays).1]
  simp only [layoutOf, ClassLayout.ofClass]
  cases batch.reg.storesPayloads batch.keptBoxed cls.name with
  | false => rfl
  | true =>
    have hFound := PayloadField.find?_filterMap_ofField? batch.reg cls.fields field.name
    simp only [if_true, Class.valueField?, ← hFound]
    cases (cls.fields.filterMap (PayloadField.ofField? batch.reg)).find?
      (·.name == field.name) <;> rfl

/- The fields of a class that is not rolled back, one for each. -/
theorem fields_apply_plan (hStays : batch.rollsBack cls = false) :
    ((batch.plan cls).apply cls).fields = cls.fields.map fun field =>
      { field with type := batch.payloadType cls field } :=
  map_congr_left fun field _ => applyToField_plan hStays field

section Unshared

variable (hField : field ∈ cls.fields)
variable (hUnshared : ∀ other ∈ cls.fields, other.name = field.name → other = field)
include hField hUnshared

/- A field that shares its name with no other gets the type that it has then. -/
theorem payloadType_of_unshared :
    batch.payloadType cls field =
      batch.reg.fieldType batch.keptBoxed cls.name field.type := by
  unfold payloadType Registry.fieldType
  cases batch.reg.storesPayloads batch.keptBoxed cls.name with
  | false => rfl
  | true =>
    simp only [if_true, Bool.true_and]
    cases hFound : cls.valueField? batch.reg field.name with
    | none =>
      have hOther := find?_eq_none.mp hFound field hField
      simp only [beq_self_eq_true, Bool.true_and] at hOther
      rw [if_neg hOther]
      rfl
    | some found =>
      have hSome := find?_some hFound
      simp only [Bool.and_eq_true, beq_iff_eq] at hSome
      have hSame := hUnshared found (mem_of_find?_eq_some hFound) hSome.1
      rw [hSame] at hSome ⊢
      rw [if_pos hSome.2, Registry.typeOf?_payloadOf hSome.2]
      rfl

end Unshared

end Batch

-- Accesses

namespace Simulation

variable {ctx : Context} {st : State} {final : State} {out : UnboxedBody}

/- A field access with the type that the field has after unboxing. -/
def Context.accessed (ctx : Context) (accessed : FieldRef) : FieldRef :=
  { accessed with
    type := ctx.reg.fieldType ctx.layout.keptBoxed accessed.owner
      accessed.type }

end Simulation

-- Batches

namespace Batch

open Simulation

variable {batch : Batch} {cls : Class}

/- The methods of a class that is not rolled back, one for each. -/
theorem methods_apply_plan (hStays : batch.rollsBack cls = false) :
    ((batch.plan cls).apply cls).methods = cls.methods.map fun method =>
      ClassPlan.applyToMethod method
        (batch.unboxMethod (batch.layoutOf cls) method).body? := by
  change cls.methods.zipWith ClassPlan.applyToMethod (batch.plan cls).bodies = _
  rw [(plan_of_not_rollsBack hStays).2, outcomes, map_map, zipWith_map_right,
    zipWith_self]
  rfl

section Settled

variable {batch : Batch} {classes : List Class} {cls : Class} {method : Method}
variable {body : Body} {after : Class} {layout : ClassLayout}
variable {result : UnboxedBody}

/- A field access with the type that the field has after unboxing. -/
def accessed (batch : Batch) (accessed : FieldRef) : FieldRef :=
  { accessed with
    type := batch.reg.fieldType batch.keptBoxed accessed.owner accessed.type }

section

variable (hSame : batch.settleOnce classes = batch)
variable (hDistinct : ∀ cls ∈ classes, (cls.fields.map Field.name).Nodup)
include hSame hDistinct

end

end Settled

end Batch

variable {reg : Registry} {type : FieldType}

-- Where a field is declared

/- Whether a class itself declares the field that is accessed. -/
def Class.Declares (cls : Class) (accessed : FieldRef) : Prop :=
  ∃ field ∈ cls.fields, field.name = accessed.name ∧ field.type = accessed.type

namespace Batch

open Simulation

variable {batch : Batch} {accessed : FieldRef}

section

variable {cls : Class} {field : Field}
variable (hField : field ∈ cls.fields)
include hField

end

variable {cls : Class}

/- A class has payload fields if its fields are to hold payloads and one can. -/
theorem payloadFields_ne_nil
    {field : Field} (hStores : batch.reg.storesPayloads batch.keptBoxed cls.name = true)
    (hField : field ∈ cls.fields) (hMentions : batch.reg.mentions field.type = true) :
    (batch.layoutOf cls).payloadFields ≠ [] := by
  rcases PayloadField.ofField?_of_mentions hMentions with ⟨payload, hPayload, _⟩
  have hMember : payload ∈ (batch.layoutOf cls).payloadFields := by
    simp only [layoutOf, ClassLayout.ofClass, hStores, if_true]
    exact mem_filterMap.mpr ⟨field, hField, hPayload⟩
  exact ne_nil_of_mem hMember

/- A field whose name is its own gets its payload type, if it is to get one. -/
theorem ownType_of_unshared {field : Field} (hField : field ∈ cls.fields)
    (hUnshared : ∀ other ∈ cls.fields, other.name = field.name → other = field) :
    batch.payloadType cls field =
      if batch.reg.inScope cls.name ∧ cls.name ∉ batch.keptBoxed ∧
          batch.reg.mentions field.type then
        .longs (field.type.depth % 256)
      else
        field.type := by
  rw [payloadType_of_unshared hField hUnshared, Registry.fieldType]
  cases hMentions : batch.reg.mentions field.type with
  | false => simp
  | true => simp [Registry.storesPayloads, Registry.typeOf?_payloadOf hMentions]

-- Rolling back

theorem plan_of_rollsBack (hBack : batch.rollsBack cls = true) :
    (batch.plan cls).payloadFields = [] ∧
      (batch.plan cls).bodies = cls.methods.map fun _ => none := by
  unfold rollsBack at hBack
  constructor
  · simp only [plan, hBack, if_true]
  · simp only [plan, hBack, if_true]

theorem apply_plan_of_rollsBack (hBack : batch.rollsBack cls = true) :
    (batch.plan cls).apply cls = cls := by
  have hFields : cls.fields.map (batch.plan cls).applyToField = cls.fields := by
    have hEach (field : Field) : (batch.plan cls).applyToField field = field := by
      rw [ClassPlan.applyToField, (plan_of_rollsBack hBack).1]
      rfl
    rw [funext hEach, map_id']
  have hMethods : cls.methods.zipWith ClassPlan.applyToMethod (batch.plan cls).bodies =
      cls.methods := by
    rw [(plan_of_rollsBack hBack).2, zipWith_map_right, zipWith_self]
    exact map_id' _
  simp only [ClassPlan.apply, hFields, hMethods]

/- The report on a class names it exactly if it is rolled back. -/
theorem failedClasses_plan (batch : Batch) (cls : Class) :
    (batch.plan cls).report.failedClasses =
      if batch.rollsBack cls then [cls.name.text] else [] := by
  cases hBack : batch.rollsBack cls with
  | false => exact (report_plan_of_not_rollsBack hBack).2
  | true =>
    unfold rollsBack at hBack
    simp only [plan, hBack, if_true]

/- A class with payload fields is rolled back if one of its methods fails. -/
theorem rollsBack_of_failed {method : Method}
    (hFields : (batch.layoutOf cls).payloadFields ≠ []) (hMethod : method ∈ cls.methods)
    (hFailed : (batch.unboxMethod (batch.layoutOf cls) method).isFailed = true) :
    batch.rollsBack cls = true := by
  have hAny : (batch.outcomes cls).any MethodOutcome.isFailed = true :=
    any_eq_true.mpr ⟨_, mem_map_of_mem hMethod, hFailed⟩
  simp [rollsBack, hAny, hFields]

-- Methods

theorem methods_unboxClass (batch : Batch) (cls : Class) :
    (batch.unboxClass cls).1.methods = cls.methods.map fun method =>
      ClassPlan.applyToMethod method
        (if batch.rollsBack cls then none
        else (batch.unboxMethod (batch.layoutOf cls) method).body?) := by
  change ((batch.plan cls).apply cls).methods = _
  cases hBack : batch.rollsBack cls with
  | false => exact methods_apply_plan hBack
  | true =>
    rw [apply_plan_of_rollsBack hBack]
    exact (map_id' _).symm

theorem fields_unboxClass (batch : Batch) (cls : Class) :
    (batch.unboxClass cls).1.fields = cls.fields.map fun field =>
      { field with
        type := if batch.rollsBack cls then field.type else batch.payloadType cls field } := by
  change ((batch.plan cls).apply cls).fields = _
  cases hBack : batch.rollsBack cls with
  | false => exact fields_apply_plan hBack
  | true =>
    rw [apply_plan_of_rollsBack hBack]
    exact (map_id' _).symm

theorem body_applyToMethod (method : Method) (body : Option Body) :
    ClassPlan.applyToMethod method body =
      { method with body := body.or method.body } := by
  cases body <;> rfl

-- Classes

/-
  What unboxing makes of a class and says about it. The class is
  `after` then, and the report on it names it if it was left as
  it was.
-/
structure Changes (batch : Batch) (cls after : Class) (report : Report) : Prop where
  name : after.name = cls.name
  flags : after.flags = cls.flags
  parent : after.parent = cls.parent
  /- There are as many fields, each with its name and flags. -/
  fields : Forall₂ (fun field field' => field'.name = field.name ∧
    field'.flags = field.flags) cls.fields after.fields
  /- There are as many methods, each with its name, type and flags. -/
  methods : Forall₂ (fun method method' => method'.name = method.name ∧
    method'.type = method.type ∧ method'.flags = method.flags) cls.methods after.methods
  /- Code that is skipped, cannot be unboxed or need not change stays. -/
  left : Forall₂ (fun method method' =>
    (batch.unboxMethod (batch.layoutOf cls) method = .skipped ∨
      (∃ failure owners,
        batch.unboxMethod (batch.layoutOf cls) method = .failed failure owners) ∨
      (∃ result, batch.unboxMethod (batch.layoutOf cls) method = .unboxed result ∧
        result.modified = false)) →
    method'.body = method.body) cls.methods after.methods
  /- A method that fails is reported with the class if that has payload fields. -/
  reported : ∀ method ∈ cls.methods, ∀ failure owners,
    batch.unboxMethod (batch.layoutOf cls) method = .failed failure owners →
      batch.reg.inScope cls.name = true → cls.name ∉ batch.keptBoxed →
        (∃ field ∈ cls.fields, batch.reg.mentions field.type = true) →
          cls.name.text ∈ report.failedClasses
  /- A class that is reported is as it was. -/
  rolledBack : report.failedClasses ≠ [] → after = cls
  /- In any other class all other code is the unboxed one. -/
  unboxed : report.failedClasses = [] → Forall₂ (fun method method' =>
    ∀ result, batch.unboxMethod (batch.layoutOf cls) method = .unboxed result →
      result.modified = true → method'.body = some result.body) cls.methods after.methods
  /- In any other class the first field with the same name decides the type. -/
  types : report.failedClasses = [] → Forall₂
    (fun field field' => field'.type = batch.payloadType cls field) cls.fields after.fields
  /- So a field whose name is its own gets its payload type, if it is to get one. -/
  ownTypes : report.failedClasses = [] → Forall₂ (fun field field' =>
    (∀ other ∈ cls.fields, other.name = field.name → other = field) →
      field'.type =
        if batch.reg.inScope cls.name ∧ cls.name ∉ batch.keptBoxed ∧
            batch.reg.mentions field.type then
          .longs (field.type.depth % 256)
        else
          field.type) cls.fields after.fields

/- Members that come out one for each are related as each one is. -/
theorem forall₂_map_of_mem {α : Type} {members : List α} {change : α → α}
    {related : α → α → Prop} (hEach : ∀ member ∈ members, related member (change member)) :
    Forall₂ related members (members.map change) := by
  rw [List.forall₂_map_right_iff]
  exact List.forall₂_same.mpr hEach

/-
  Unboxing a class changes the types of fields and the code of
  methods, and nothing else.
-/
theorem unboxClass_changes (batch : Batch) (cls : Class) :
    batch.Changes cls (batch.unboxClass cls).1 (batch.unboxClass cls).2 := by
  have hReport : (batch.unboxClass cls).2.failedClasses =
      if batch.rollsBack cls then [cls.name.text] else [] :=
    failedClasses_plan batch cls
  have hStays (hNone : (batch.unboxClass cls).2.failedClasses = []) :
      batch.rollsBack cls = false := by
    rw [hReport] at hNone
    by_contra hBack
    simp [hBack] at hNone
  have hFields := fields_unboxClass batch cls
  have hMethods := methods_unboxClass batch cls
  refine ⟨rfl, rfl, rfl, ?_, ?_, ?_, ?_, ?_, ?_, ?_, ?_⟩
  · rw [hFields]
    exact forall₂_map_of_mem fun field _ => ⟨rfl, rfl⟩
  · rw [hMethods]
    refine forall₂_map_of_mem fun method _ => ?_
    rw [body_applyToMethod]
    exact ⟨rfl, rfl, rfl⟩
  · rw [hMethods]
    refine forall₂_map_of_mem fun method _ hLeft => ?_
    have hNone : (batch.unboxMethod (batch.layoutOf cls) method).body? = none := by
      rcases hLeft with hSkipped | ⟨_, _, hFailed⟩ | ⟨result, hUnboxed, hSame⟩
      · rw [hSkipped]; rfl
      · rw [hFailed]; rfl
      · rw [hUnboxed, MethodOutcome.body?, hSame]; rfl
    rw [body_applyToMethod, hNone, ite_self]
    rfl
  · rintro method hMethod failure owners hFailed hScope hKept ⟨field, hField, hMentions⟩
    have hStores : batch.reg.storesPayloads batch.keptBoxed cls.name = true := by
      simp [Registry.storesPayloads, hScope, hKept]
    have hBack := rollsBack_of_failed (payloadFields_ne_nil hStores hField hMentions) hMethod
      (by rw [hFailed]; rfl)
    simp [hReport, hBack]
  · intro hNamed
    rw [hReport] at hNamed
    apply apply_plan_of_rollsBack
    by_contra hStays
    simp [hStays] at hNamed
  · intro hNone
    rw [hMethods, hStays hNone]
    refine forall₂_map_of_mem fun method _ result hUnboxed hModified => ?_
    rw [body_applyToMethod, hUnboxed, MethodOutcome.body?, hModified]
    rfl
  · intro hNone
    rw [hFields, hStays hNone]
    exact forall₂_map_of_mem fun field _ => rfl
  · intro hNone
    rw [hFields, hStays hNone]
    exact forall₂_map_of_mem fun field hField hUnshared =>
      ownType_of_unshared hField hUnshared

-- Two fields with one name

/- A class with a field of a value class and an `int` with the same name. -/
def namesakeClass : Class :=
  ⟨accountName, 0, none,
    [⟨balanceName, .object moneyName, 0⟩, ⟨balanceName, .base .int, 0⟩], []⟩

def namesakeBatch : Batch :=
  .new ⟨[moneyClass], [], ["Account"]⟩ ⟨[], false⟩

/-
  The `int` mentions no value class and the class is not rolled
  back, but the field comes out as a `long`.
-/
theorem namesake_field_changes :
    ¬ namesakeBatch.reg.mentions (.base .int) ∧
      (namesakeBatch.unboxClass namesakeClass).2.failedClasses = [] ∧
      namesakeClass.fields[1]? = some ⟨balanceName, .base .int, 0⟩ ∧
      (namesakeBatch.unboxClass namesakeClass).1.fields[1]? =
        some ⟨balanceName, .base .long, 0⟩ := by
  decide +kernel

end Batch

end Unboxing
