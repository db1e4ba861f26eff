import Unboxing.Descriptor.Basic

/-
  This file defines the reading of descriptors. Each reader
  takes what it needs from the front of a text and returns
  the rest.

  Key definitions include:
    * `DescriptorError`
    * `FieldType.parseFrom`
    * `MethodType.parseFrom`
    * `Descriptor.complete`
    * `RefType.parseOperand`
-/

namespace Unboxing

-- Faults

/- What can be wrong with a descriptor. -/
inductive DescriptorError where
  | leftover (c : Char)
  | badBase (c : Char)
  | missingBase
  | notObject
  | unterminated (name : String)
  | badName (fault : NameError)
  | badRef (c : Char)
  | missingRef
  | badField (c : Char)
  | missingField
  | missingOpen
  | missingClose
deriving DecidableEq, Repr

namespace DescriptorError

def message : DescriptorError → String
  | .leftover c => s!"Unexpected leftover input '{c}'"
  | .badBase c => s!"Invalid base type character '{c}'"
  | .missingBase => "Missing base type character"
  | .notObject => "Expected object type to start with `L`"
  | .unterminated name => s!"Missing terminator for 'L{name}'"
  | .badName fault => fault.message
  | .badRef c => s!"Invalid reference type character '{c}'"
  | .missingRef => "Missing reference type"
  | .badField c => s!"Invalid field type character '{c}'"
  | .missingField => "Missing field type"
  | .missingOpen => "Expected '(' for method"
  | .missingClose => "Expected ')' for method"

/- Whether the text ended where a part was still due. -/
def endsEarly : DescriptorError → Bool
  | .missingBase | .unterminated _ | .missingRef | .missingField => true
  | _ => false

end DescriptorError

/- A reader takes a value from the front of a text. -/
abbrev Descriptor.Reader (α : Type) :=
  List Char → Except DescriptorError (α × List Char)

/- Read a whole text: nothing may be left over. -/
def Descriptor.complete {α : Type} (read : Descriptor.Reader α)
    (text : List Char) : Except DescriptorError α :=
  match read text with
  | .error fault => .error fault
  | .ok (value, []) => .ok value
  | .ok (_, c :: _) => .error (.leftover c)

-- Readers

def BaseType.parseFrom : Descriptor.Reader BaseType
  | [] => .error .missingBase
  | c :: text =>
      match BaseType.ofLetter? c with
      | some type => .ok (type, text)
      | none => .error (.badBase c)

/- Read a class name up to its semicolon. -/
def ClassName.parseTerminated : Descriptor.Reader ClassName :=
  fun text =>
    match Text.cutFirst? ';' text with
    | none => .error (.unterminated (String.ofList text))
    | some (name, rest) =>
        match ClassName.parse (String.ofList name) with
        | .ok name => .ok (name, rest)
        | .error fault => .error (.badName fault)

def ClassName.parseFrom : Descriptor.Reader ClassName
  | 'L' :: text => ClassName.parseTerminated text
  | _ => .error .notObject

/- Read what follows the brackets of an array type. -/
def Element.parseFrom : Descriptor.Reader Element
  | 'L' :: text =>
      match ClassName.parseTerminated text with
      | .ok (name, rest) => .ok (.object name, rest)
      | .error fault => .error fault
  | text =>
      match BaseType.parseFrom text with
      | .ok (type, rest) => .ok (.base type, rest)
      | .error fault => .error fault

/- Read an array type of which `more + 1` brackets have been read. -/
def RefType.parseArray (more : Nat) : Descriptor.Reader RefType
  | '[' :: text => RefType.parseArray (more + 1) text
  | text =>
      match Element.parseFrom text with
      | .ok (element, rest) => .ok (.array more element, rest)
      | .error fault => .error fault

def RefType.parseFrom : Descriptor.Reader RefType
  | [] => .error .missingRef
  | 'L' :: text =>
      match ClassName.parseTerminated text with
      | .ok (name, rest) => .ok (.object name, rest)
      | .error fault => .error fault
  | '[' :: text => RefType.parseArray 0 text
  | c :: _ => .error (.badRef c)

def FieldType.parseFrom : Descriptor.Reader FieldType
  | [] => .error .missingField
  | c :: text =>
      match BaseType.ofLetter? c with
      | some type => .ok (.base type, text)
      | none =>
          if c = 'L' ∨ c = '[' then
            match RefType.parseFrom (c :: text) with
            | .ok (type, rest) => .ok (.ref type, rest)
            | .error fault => .error fault
          else
            .error (.badField c)

-- Readers take at least one character

/- A cut leaves less than it was given. -/
theorem Text.cutFirst?_length {mark : Char} {text before after : List Char}
    (h : Text.cutFirst? mark text = some (before, after)) :
    after.length < text.length := by
  induction text generalizing before after with
  | nil => simp [cutFirst?] at h
  | cons c text ih =>
      simp only [cutFirst?] at h
      split at h
      · simp only [Option.some.injEq, Prod.mk.injEq] at h
        simp [h.2]
      · simp only [Option.map_eq_some_iff, Prod.mk.injEq, Prod.exists] at h
        obtain ⟨b, a, hcut, _, rfl⟩ := h
        have := ih hcut
        simp only [List.length_cons]
        omega

theorem ClassName.parseTerminated_length {text rest : List Char} {name : ClassName}
    (h : ClassName.parseTerminated text = .ok (name, rest)) :
    rest.length < text.length := by
  simp only [ClassName.parseTerminated] at h
  split at h
  · cases h
  · rename_i hcut
    split at h
    · cases h
      exact Text.cutFirst?_length hcut
    · cases h

theorem BaseType.parseFrom_length {text rest : List Char} {type : BaseType}
    (h : BaseType.parseFrom text = .ok (type, rest)) :
    rest.length < text.length := by
  cases text with
  | nil => simp [BaseType.parseFrom] at h
  | cons c text =>
      simp only [BaseType.parseFrom] at h
      split at h <;> cases h
      simp

theorem Element.parseFrom_length {text rest : List Char} {element : Element}
    (h : Element.parseFrom text = .ok (element, rest)) :
    rest.length < text.length := by
  unfold Element.parseFrom at h
  split at h
  · split at h
    · rename_i hname
      cases h
      have := ClassName.parseTerminated_length hname
      simp only [List.length_cons]
      omega
    · cases h
  · split at h
    · rename_i hbase
      cases h
      exact BaseType.parseFrom_length hbase
    · cases h

theorem RefType.parseArray_length {text rest : List Char} {more : Nat} {type : RefType}
    (h : RefType.parseArray more text = .ok (type, rest)) :
    rest.length < text.length := by
  fun_induction RefType.parseArray more text with
  | case1 more text ih =>
      have := ih h
      simp only [List.length_cons]
      omega
  | case2 more text _ element tail helement =>
      cases h
      exact Element.parseFrom_length helement
  | case3 => cases h

theorem FieldType.parseFrom_length {text rest : List Char} {type : FieldType}
    (h : FieldType.parseFrom text = .ok (type, rest)) :
    rest.length < text.length := by
  cases text with
  | nil => simp [FieldType.parseFrom] at h
  | cons c text =>
      simp only [FieldType.parseFrom] at h
      split at h
      · cases h
        simp
      · split at h
        · split at h
          · rename_i href
            cases h
            unfold RefType.parseFrom at href
            split at href
            · cases href
            · rename_i heq
              cases heq
              split at href
              · rename_i hname
                cases href
                have := ClassName.parseTerminated_length hname
                simp only [List.length_cons]
                omega
              · cases href
            · rename_i heq
              cases heq
              have := RefType.parseArray_length href
              simp only [List.length_cons]
              omega
            · cases href
          · cases h
        · cases h

-- Methods

/- Read parameters up to a closing parenthesis or the end. -/
def MethodType.parseParameters
    (text : List Char) : Except DescriptorError (List FieldType × List Char) :=
  match text with
  | [] => .ok ([], [])
  | ')' :: rest => .ok ([], ')' :: rest)
  | c :: tail =>
      match h : FieldType.parseFrom (c :: tail) with
      | .error fault => .error fault
      | .ok (type, rest) =>
          have : rest.length < (c :: tail).length :=
            FieldType.parseFrom_length h
          match MethodType.parseParameters rest with
          | .error fault => .error fault
          | .ok (types, rest) => .ok (type :: types, rest)
termination_by text.length
decreasing_by
  simp only [List.length_cons] at *
  omega

/- Read the result type of a method. -/
def MethodType.parseResult : Descriptor.Reader (Option FieldType)
  | 'V' :: rest => .ok (none, rest)
  | text =>
      match FieldType.parseFrom text with
      | .ok (type, rest) => .ok (some type, rest)
      | .error fault => .error fault

def MethodType.parseFrom : Descriptor.Reader MethodType
  | '(' :: text =>
      match MethodType.parseParameters text with
      | .error fault => .error fault
      | .ok (parameters, ')' :: rest) =>
          match MethodType.parseResult rest with
          | .ok (result, rest) => .ok (⟨parameters, result⟩, rest)
          | .error fault => .error fault
      | .ok _ => .error .missingClose
  | _ => .error .missingOpen

-- Whole texts

def FieldType.parse (text : String) : Except DescriptorError FieldType :=
  Descriptor.complete FieldType.parseFrom text.toList

def RefType.parse (text : String) : Except DescriptorError RefType :=
  Descriptor.complete RefType.parseFrom text.toList

def MethodType.parse (text : String) : Except DescriptorError MethodType :=
  Descriptor.complete MethodType.parseFrom text.toList

/- Read the operand of an instruction: a bare class name, or an array type. -/
def RefType.parseOperand (text : String) : Except DescriptorError RefType :=
  match text.toList with
  | '[' :: _ => RefType.parse text
  | _ =>
      match ClassName.parse text with
      | .ok name => .ok (.object name)
      | .error fault => .error (.badName fault)

end Unboxing
