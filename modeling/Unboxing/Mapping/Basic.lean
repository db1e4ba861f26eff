import Unboxing.Code.Instruction
import Unboxing.Descriptor.Parser
import Unboxing.Diagnostic

/-
  This file defines mappings as they are written: which classes
  are value classes, which methods box, unbox and compare their
  payloads, and which methods have unboxed implementations.

  Key definitions include:
    * `Mapping`
    * `MappingError`
    * `MethodRef.parse`
    * `Settings`
    * `Settings.ofMapping`
-/

namespace Unboxing

-- Declarations

/- A method and the implementation to call in its place. -/
structure BindingEntry where
  source : String
  target : String
deriving DecidableEq, Repr

/- A value class with its methods. -/
structure ValueClassEntry where
  name : String
  nullValue : Int
  box : String
  unbox : String
  arrayBox : Option String
  arrayUnbox : Option String
  isNull : String
  identityEquals : String
  methods : List BindingEntry
deriving DecidableEq, Repr

/- A mapping as it is written. -/
structure Mapping where
  scope : List String
  suppress : List String
  strict : Bool
  valueClasses : List ValueClassEntry
  genericMethods : List BindingEntry
deriving DecidableEq, Repr

/- The mapping that declares nothing. -/
def Mapping.empty : Mapping :=
  ⟨[], [], false, [], []⟩

-- Faults

/- Why a method cannot be bound to an implementation. -/
inductive BindingFault where
  | parameterCount (source target : Nat)
  | argument (source target : FieldType)
  | result (source target : FieldType)
  | oneSidedResult
deriving DecidableEq, Repr

def BindingFault.message : BindingFault → String
  | .parameterCount source target =>
      s!"{source} source parameters cannot map onto {target} target parameters"
  | .argument source target =>
      s!"{String.ofList source.render} cannot be passed as {String.ofList target.render}"
  | .result source target =>
      s!"{String.ofList source.render} cannot be returned as {String.ofList target.render}"
  | .oneSidedResult => "only one side returns a value"

/- Why a mapping is refused. -/
inductive MappingError where
  | unreadable
  | malformedName (fault : NameError)
  | badDescriptor (text : String) (fault : DescriptorError)
  | badMethodRef (text : String)
  | tooManyClasses (count : Nat)
  | duplicateClass (name : ClassName)
  | badHelper (name : ClassName) (helper : String) (want found : MethodType)
  | badBinding (source : String) (fault : BindingFault)
  | unknownDiagnostic (name : String)
deriving DecidableEq, Repr

def MappingError.message : MappingError → String
  | .unreadable => "invalid mapping"
  | .malformedName fault => s!"malformed name: {fault.message}"
  | .badDescriptor text fault => s!"bad descriptor `{text}`: {fault.message}"
  | .badMethodRef text => s!"expected `owner.name(descriptor)`, found `{text}`"
  | .tooManyClasses count =>
      s!"{count} value types declared, at most 15 are supported"
  | .duplicateClass name => s!"value type {name.text} is declared twice"
  | .badHelper name helper want found =>
      s!"{helper} helper for {name.text} should have descriptor " ++
        s!"{String.ofList want.render}, found {String.ofList found.render}"
  | .badBinding source fault => s!"cannot bind {source}: {fault.message}"
  | .unknownDiagnostic name => s!"unknown diagnostic `{name}`"

-- Method references

/- Read a method written as owner, name and descriptor. -/
def MethodRef.parse (text : String) : Except MappingError MethodRef :=
  match Text.cutBefore? '(' text.toList with
  | none => .error (.badMethodRef text)
  | some (member, type) =>
      match Text.cutLast? '.' member with
      | none => .error (.badMethodRef text)
      | some (owner, name) =>
          match MethodType.parse (String.ofList type) with
          | .error fault => .error (.badDescriptor (String.ofList type) fault)
          | .ok type =>
              match ClassName.parse (String.ofList owner) with
              | .error fault => .error (.malformedName fault)
              | .ok owner =>
                  match MemberName.parse (String.ofList name) with
                  | .error fault => .error (.malformedName fault)
                  | .ok name => .ok ⟨owner, name, type⟩

-- Settings

/- How findings are treated. They never change the code. -/
structure Settings where
  suppressed : List DiagnosticKind
  strict : Bool
deriving DecidableEq, Repr

namespace Settings

/- Whether findings of a kind are neither told nor counted. -/
def isSuppressed (settings : Settings) (kind : DiagnosticKind) : Bool :=
  settings.suppressed.contains kind

/- The kinds with some names. -/
def kindsOf (names : List String) : Except MappingError (List DiagnosticKind) :=
  names.mapM fun name =>
    match DiagnosticKind.ofName? name with
    | some kind => .ok kind
    | none => .error (.unknownDiagnostic name)

/- The settings that a mapping makes. -/
def ofMapping (mapping : Mapping) : Except MappingError Settings := do
  let suppressed ← kindsOf mapping.suppress
  return ⟨suppressed, mapping.strict⟩

end Settings

end Unboxing
