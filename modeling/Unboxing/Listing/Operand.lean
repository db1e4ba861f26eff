import Unboxing.Access
import Unboxing.Code.Instruction
import Unboxing.Listing.Label
import Unboxing.Number.Decimal

/-
  This file defines the reading of single words of a line:
  names, numbers, descriptors, members and labels.

  Key definitions include:
    * `Listing.Reading`
    * `Listing.Reading.number`
    * `Listing.Reading.member`
    * `Listing.Reading.label`
    * `Listing.Reading.constant`
-/

namespace Unboxing.Listing

/- Reading a method body: labels are given out, and errors end it. -/
abbrev Reading := StateT Scope (Except Error)

namespace Reading

variable {α : Type}

/- Refuse the wording of a line. -/
def refuse (line : Nat) (fault : Fault) : Except Error α :=
  .error (.malformed line fault)

-- Names, numbers and types

def className (line : Nat) (word : String) : Except Error ClassName :=
  match ClassName.parse word with
  | .ok name => .ok name
  | .error fault => refuse line (.badName fault)

def memberName (line : Nat) (word : String) : Except Error MemberName :=
  match MemberName.parse word with
  | .ok name => .ok name
  | .error fault => refuse line (.badName fault)

/- Read a number by its grammar. -/
def number (read? : List Char → Option α) (line : Nat) (word : String) : Except Error α :=
  match read? word.toList with
  | some value => .ok value
  | none => refuse line (.badNumber word)

/- Read a descriptor by its reader. -/
def descriptor (parse : String → Except DescriptorError α) (line : Nat)
    (word : String) : Except Error α :=
  match parse word with
  | .ok value => .ok value
  | .error fault => refuse line (.badDescriptor word fault)

def fieldType : Nat → String → Except Error FieldType :=
  descriptor FieldType.parse

def methodType : Nat → String → Except Error MethodType :=
  descriptor MethodType.parse

/- Read a class or array type as instructions name it. -/
def refType : Nat → String → Except Error RefType :=
  descriptor RefType.parseOperand

def flags (table : Access.Table) (line : Nat)
    (words : List String) : Except Error Access.Flags :=
  words.foldlM
    (fun flags word =>
      match Access.ofKeyword? table word with
      | some flag => .ok (flags ||| flag)
      | none => refuse line (.unknownFlag word))
    0

-- Members

/- Cut a name from the descriptor of a method after it. -/
def signature (line : Nat) (word : String) : Except Error (String × String) :=
  match Text.cutBefore? '(' word.toList with
  | some (name, type) => .ok (String.ofList name, String.ofList type)
  | none => refuse line (.missingDescriptor word)

/- Read the owner and the name of a member, cut at the last dot. -/
def member (line : Nat) (word : String) : Except Error (ClassName × MemberName) :=
  match Text.cutLast? '.' word.toList with
  | none => refuse line (.memberShape word)
  | some (owner, name) => do
      let owner ← className line (String.ofList owner)
      let name ← memberName line (String.ofList name)
      return (owner, name)

def fieldRef (line : Nat) : List String → Except Error FieldRef
  | [word, type] => do
      let (owner, name) ← member line word
      let type ← fieldType line type
      return ⟨owner, name, type⟩
  | _ => refuse line .fieldAccessShape

/- Read a reference to a method; words after it say nothing. -/
def methodRef (line : Nat) : List String → Except Error MethodRef
  | [] => refuse line .missingMethod
  | word :: _ => do
      let (memberWord, typeWord) ← signature line word
      let (owner, name) ← member line memberWord
      let type ← methodType line typeWord
      return ⟨owner, name, type⟩

/- Read a call that is bound at run time. -/
def dynamicCall (line : Nat) (word : String) : Except Error DynamicCall := do
  let (nameWord, typeWord) ← signature line word
  let name ← memberName line nameWord
  let type ← methodType line typeWord
  return ⟨name, type⟩

-- Constants

def unescape? : List Char → Option (List Char)
  | [] => some []
  | '\\' :: 'n' :: text => (unescape? text).map ('\n' :: ·)
  | '\\' :: 't' :: text => (unescape? text).map ('\t' :: ·)
  | '\\' :: '\\' :: text => (unescape? text).map ('\\' :: ·)
  | '\\' :: '"' :: text => (unescape? text).map ('"' :: ·)
  | '\\' :: _ => none
  | c :: text => (unescape? text).map (c :: ·)

/- Read the string between the first and the last quote of a line. -/
def stringConstant (line : Line) : Except Error String :=
  match (Text.cutFirst? '"' line.text).bind fun (_, rest) =>
      Text.cutLast? '"' rest with
  | none => refuse line.number .unterminatedString
  | some (content, _) =>
      match unescape? content with
      | some text => .ok (String.ofList text)
      | none => refuse line.number .badEscape

/- Read the constant that the operands of a line spell. -/
def constant (line : Line) (operands : List String) : Except Error Constant :=
  let n := line.number
  if (operands.head?.bind fun word => word.toList.head?) = some '"' then
    return .string (← stringConstant line)
  else
    match operands with
    | ["int", word] => return .int (← number Numeral.int32? n word)
    | ["long", word] => return .long (← number Numeral.int64? n word)
    | ["float", word] =>
        return .float (← number (Decimal.read? .single) n word)
    | ["double", word] =>
        return .double (← number (Decimal.read? .double) n word)
    | ["class", word] => return .type (← refType n word)
    | ["methodtype", word] => return .methodType (← methodType n word)
    | _ => refuse n .constantShape

-- Labels

/- The label of a name. -/
def label (name : String) : Reading Label :=
  fun scope => .ok (scope.resolve name)

/- The label of a name that a line defines. -/
def definition (line : Nat) (name : String) : Reading Label :=
  fun scope => scope.define line name

end Reading

end Unboxing.Listing
