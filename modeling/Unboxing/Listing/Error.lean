import Unboxing.Descriptor.Parser

/-
  This file defines what can be wrong with a listing.
-/

namespace Unboxing.Listing

/- What can be wrong with the wording of a line. -/
inductive Fault where
  | classCount (count : Nat)
  | expectedClass
  | missingClassName
  | missingClassEnd
  | missingMethodEnd
  | unexpectedMember (word : String)
  | unknownFlag (word : String)
  | fieldShape
  | missingSignature
  | missingDescriptor (signature : String)
  | badName (fault : NameError)
  | badDescriptor (text : String) (fault : DescriptorError)
  | badNumber (word : String)
  | maxsShape
  | lineShape
  | localShape
  | catchShape
  | frameShape
  | constantShape
  | unterminatedString
  | badEscape
  | takesNone (mnemonic : String)
  | takesOne (mnemonic : String)
  | incrementShape
  | fieldAccessShape
  | memberShape (text : String)
  | missingMethod
  | multiArrayShape
  | unknownArrayType (word : String)
  | tableSwitchShape
  | lookupSwitchShape
  | switchPairShape (text : String)
  | unknownInstruction (mnemonic : String)
deriving DecidableEq, Repr

def Fault.message : Fault → String
  | .classCount count => s!"expected one class, found {count}"
  | .expectedClass => "expected `class`"
  | .missingClassName => "missing class name"
  | .missingClassEnd => "class is missing `end`"
  | .missingMethodEnd => "method is missing `end`"
  | .unexpectedMember word =>
      s!"expected `field`, `method`, or `end`, found `{word}`"
  | .unknownFlag word => s!"unknown access flag `{word}`"
  | .fieldShape => "expected field name and descriptor"
  | .missingSignature => "missing method signature"
  | .missingDescriptor signature => s!"missing descriptor: `{signature}`"
  | .badName fault => fault.message
  | .badDescriptor text fault => s!"`{text}`: {fault.message}"
  | .badNumber word => s!"invalid number `{word}`"
  | .maxsShape => "expected `maxs <stack> <locals>`"
  | .lineShape => "expected `line <number>`"
  | .localShape =>
      "expected `local <name> <descriptor> <start> <end> <slot>`"
  | .catchShape => "expected `catch <start> <end> <handler> [class]`"
  | .frameShape => "malformed frame"
  | .constantShape => "malformed constant"
  | .unterminatedString => "unterminated string constant"
  | .badEscape => "invalid escape in string constant"
  | .takesNone mnemonic => s!"`{mnemonic}` takes no operands"
  | .takesOne mnemonic => s!"`{mnemonic}` takes one operand"
  | .incrementShape => "expected `iinc <slot> <delta>`"
  | .fieldAccessShape => "expected `<owner>.<name> <descriptor>`"
  | .memberShape text => s!"expected `owner.name`: `{text}`"
  | .missingMethod => "missing method reference"
  | .multiArrayShape => "expected `multianewarray <type> <dims>`"
  | .unknownArrayType word => s!"unknown array type `{word}`"
  | .tableSwitchShape =>
      "expected `tableswitch <low> <targets..> default <label>`"
  | .lookupSwitchShape =>
      "expected `lookupswitch <key>:<label>.. default <label>`"
  | .switchPairShape text => s!"expected `<key>:<label>`: `{text}`"
  | .unknownInstruction mnemonic => s!"unknown instruction `{mnemonic}`"

/- Why a listing is refused, and at which line. -/
inductive Error where
  | malformed (line : Nat) (fault : Fault)
  | duplicateLabel (line : Nat) (name : String)
  | unsupported (line : Nat) (mnemonic : String)
deriving DecidableEq, Repr

def Error.message : Error → String
  | .malformed line fault => s!"line {line}: {fault.message}"
  | .duplicateLabel line name => s!"line {line}: label {name} is defined twice"
  | .unsupported line mnemonic =>
      s!"line {line}: unsupported instruction `{mnemonic}`"

end Unboxing.Listing
