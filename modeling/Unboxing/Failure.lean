import Unboxing.Code.Label
import Unboxing.Diagnostic
import Unboxing.OperandStack

/-
  This file defines why a method cannot be unboxed. Such a
  method is left as it was.
-/

namespace Unboxing

/- Why a method cannot be unboxed. -/
inductive FailureCause where
  | stackShape (issues : List StackIssue)
  | uninitializedLocal (slot : Nat)
  | irreconcilableCast (found want : Tag)
  | irreconcilableFrame (label : Label) (slot : Option Nat)
  | unsupportedShuffle (mnemonic : String)
  | missingImplementation (what : String)
  | ambiguousWildcard (method : String)
  | unsupportedHandlers
  | unknownLabel (label : Label)
  | strictDiagnostic (kind : DiagnosticKind)
  | limitExceeded (what : String)
deriving DecidableEq, Repr

/- The text of an issue in the text of a failure. -/
def StackIssue.message : StackIssue → String
  | .underflow required available =>
      s!" (underflow: needed {required} entries, had {available})"
  | .mismatch want found depth =>
      s!" (expected {want} at depth {depth}, found {found.text})"

def FailureCause.message : FailureCause → String
  | .stackShape issues =>
      "stack shape mismatch" ++ String.join (issues.map StackIssue.message)
  | .uninitializedLocal slot => s!"load from untracked local {slot}"
  | .irreconcilableCast found want =>
      s!"cannot convert {found.text} to {want.text}"
  | .irreconcilableFrame label (some slot) =>
      s!"cannot reconcile local {slot} at {label.text}"
  | .irreconcilableFrame label none =>
      s!"cannot reconcile the stack at {label.text}"
  | .unsupportedShuffle mnemonic =>
      s!"unsupported {mnemonic} involving a payload"
  | .missingImplementation what => s!"missing implementation for {what}"
  | .ambiguousWildcard method =>
      s!"call to {method} binds more than one value class"
  | .unsupportedHandlers => "exception handlers are not supported"
  | .unknownLabel label => s!"unknown label {label.text}"
  | .strictDiagnostic kind => s!"diagnostic {kind.name} raised in strict mode"
  | .limitExceeded what => s!"{what} exceeds class file limits"

/- A method that cannot be unboxed, and the last line before the reason. -/
structure Failure where
  method : String
  line : Option Nat
  cause : FailureCause
deriving DecidableEq, Repr

def Failure.message (failure : Failure) : String :=
  match failure.line with
  | some line => s!"{failure.method} (line {line}): {failure.cause.message}"
  | none => s!"{failure.method}: {failure.cause.message}"

end Unboxing
