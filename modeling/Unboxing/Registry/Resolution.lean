import Unboxing.Mapping.Basic
import Unboxing.Registry.Basic

/-
  This file defines the resolution of a mapping into a
  registry. All classes get their indices before bindings are
  resolved, so a binding can mention any of them.

  Key definitions include:
    * `ValueClass.resolve`
    * `Registry.slotTag?`
    * `Registry.resolveBinding`
    * `Registry.ofMapping`
-/

namespace Unboxing

-- Value classes

namespace ValueClass

/- The type of methods with some parameters and a result. -/
def methodType (parameters : List FieldType) (result : FieldType) : MethodType :=
  ⟨parameters, some result⟩

/- A method of a value class, which must have the type of its role. -/
def resolveHelper (name : ClassName) (helper text : String)
    (want : MethodType) : Except MappingError MethodRef := do
  let method ← MethodRef.parse text
  if method.type = want then
    return method
  else
    throw (.badHelper name helper want method.type)

/- A value class with all of its methods. -/
def resolve (name : ClassName)
    (entry : ValueClassEntry) : Except MappingError ValueClass := do
  let payload : FieldType := .base .long
  let payloads : FieldType := .ref payload.arrayType
  let boxed : FieldType := .object name
  let boxes : FieldType := .ref boxed.arrayType
  let truth : FieldType := .base .boolean
  let box ← resolveHelper name "box" entry.box
    (methodType [payload] boxed)
  let unbox ← resolveHelper name "unbox" entry.unbox
    (methodType [boxed] payload)
  let arrayBox ← entry.arrayBox.mapM fun text =>
    resolveHelper name "array_box" text (methodType [payloads] boxes)
  let arrayUnbox ← entry.arrayUnbox.mapM fun text =>
    resolveHelper name "array_unbox" text (methodType [boxes] payloads)
  let isNull ← resolveHelper name "is_null" entry.isNull
    (methodType [payload] truth)
  let identityEquals ← resolveHelper name "identity_equals" entry.identityEquals
    (methodType [payload, payload] truth)
  return ⟨name, entry.nullValue, box, unbox, arrayBox, arrayUnbox, isNull,
    identityEquals⟩

/- The names of value classes, none of them declared twice. -/
def resolveNames (known : List ClassName) :
    List ValueClassEntry → Except MappingError (List ClassName)
  | [] => return []
  | entry :: entries =>
      match ClassName.parse entry.name with
      | .error fault => throw (.malformedName fault)
      | .ok name => do
          if known.contains name then
            throw (.duplicateClass name)
          let names ← resolveNames (name :: known) entries
          return name :: names

/- The value classes of a mapping. -/
def resolveAll
    (entries : List ValueClassEntry) : Except MappingError (List ValueClass) := do
  let names ← resolveNames [] entries
  (names.zip entries).mapM fun (name, entry) => resolve name entry

end ValueClass

-- Bindings

namespace Registry

/- Whether a type is that of payloads, or of arrays of them. -/
def isPayloadType : FieldType → Bool
  | .base .long => true
  | .ref (.array _ (.base .long)) => true
  | _ => false

/-
  The tag of what an implementation takes or returns as
  `target` where its source has `source`. A generic source
  stands for any value class where it has objects.
-/
def slotTag? (reg : Registry) (generic : Bool)
    (source target : FieldType) : Option Tag :=
  let depth := source.depth % 256
  let sameDepth := target.depth == source.depth
  match source.className?.bind reg.index?, isPayloadType target with
  | some cls, true =>
      if sameDepth then
        some ((Tag.payload cls).arrayOf depth)
      else
        none
  | none, true =>
      if generic && source.className? == some .object && sameDepth then
        some ((Tag.payload .wildcard).arrayOf depth)
      else if source = target then
        some (reg.tagOf target)
      else
        none
  | some cls, false =>
      if source = target then
        some ((Tag.reference cls).arrayOf depth)
      else if target.className? = some .object then
        some (reg.tagOf target)
      else
        none
  | none, false =>
      if source = target then some (reg.tagOf target) else none

/- Whether a source with some parameters has a receiver in its implementation. -/
def receiverOf (source target : Nat) : Except BindingFault Bool :=
  if target = source + 1 then
    return true
  else if target = source then
    return false
  else
    throw (.parameterCount source target)

/- The tags of the arguments of an implementation. -/
def argumentTags (reg : Registry) (generic : Bool)
    (pairs : List (FieldType × FieldType)) : Except BindingFault (List Tag) :=
  pairs.mapM fun (source, target) =>
    match reg.slotTag? generic source target with
    | some tag => .ok tag
    | none => .error (.argument source target)

/- The tag of the result of an implementation, if there is one. -/
def resultTag (reg : Registry) (generic : Bool) :
    Option FieldType → Option FieldType → Except BindingFault (Option Tag)
  | none, none => .ok none
  | some source, some target =>
      match reg.slotTag? generic source target with
      | some tag => .ok (some tag)
      | none => .error (.result source target)
  | _, _ => .error .oneSidedResult

/- Line up a source with its implementation. -/
def bind (reg : Registry) (generic : Bool)
    (source target : MethodRef) : Except BindingFault MethodBinding := do
  let hasReceiver ←
    receiverOf source.type.parameters.length target.type.parameters.length
  let receiver := if hasReceiver then [FieldType.object source.owner] else []
  let arguments ← reg.argumentTags generic
    ((receiver ++ source.type.parameters).zip target.type.parameters)
  let result ← reg.resultTag generic source.type.result target.type.result
  return ⟨source, target, hasReceiver, arguments, result⟩

/- Read a binding and line up its two methods. -/
def resolveBinding (reg : Registry) (generic : Bool)
    (entry : BindingEntry) : Except MappingError MethodBinding := do
  let source ← MethodRef.parse entry.source
  let target ← MethodRef.parse entry.target
  match reg.bind generic source target with
  | .ok binding => return binding
  | .error fault => throw (.badBinding entry.source fault)

/- The registry that a mapping describes. -/
def ofMapping (mapping : Mapping) : Except MappingError Registry := do
  if ClassIndex.limit < mapping.valueClasses.length then
    throw (.tooManyClasses mapping.valueClasses.length)
  let classes ← ValueClass.resolveAll mapping.valueClasses
  let reg : Registry := ⟨classes, [], mapping.scope⟩
  let specific ← (mapping.valueClasses.flatMap (·.methods)).mapM
    (reg.resolveBinding false)
  let generic ← mapping.genericMethods.mapM (reg.resolveBinding true)
  return { reg with bindings := (specific ++ generic).reverse }

-- Loading

/-
  Load a registry that is needed from now on. What has been
  loaded stays; a load that fails leaves nothing behind.
-/
def load (loaded : Option Registry) (mapping : Except MappingError Mapping) :
    Except MappingError Registry × Option Registry :=
  match loaded with
  | some reg => (.ok reg, some reg)
  | none =>
      match mapping.bind ofMapping with
      | .ok reg => (.ok reg, some reg)
      | .error fault => (.error fault, none)

end Registry

end Unboxing
