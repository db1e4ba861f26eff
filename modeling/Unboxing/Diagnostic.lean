/-
  This file defines the findings that do not stop unboxing.
-/

namespace Unboxing

/- What is worth telling about a method that was unboxed. -/
inductive DiagnosticKind where
  | implicitBoxing
  | arrayNotNullInit
  | valueComparison
  | constantComparison
  | fieldInitMissing
deriving DecidableEq, Repr

namespace DiagnosticKind

/- Every kind of finding, in the order of reports. -/
def all : List DiagnosticKind :=
  [ .implicitBoxing, .arrayNotNullInit, .valueComparison,
    .constantComparison, .fieldInitMissing ]

/- The name by which a kind is suppressed and reported. -/
def name : DiagnosticKind → String
  | .implicitBoxing => "implicit-boxing"
  | .arrayNotNullInit => "array-not-null-init"
  | .valueComparison => "value-comparison"
  | .constantComparison => "constant-comparison"
  | .fieldInitMissing => "field-init-missing"

def ofName? (name : String) : Option DiagnosticKind :=
  all.find? (·.name == name)

@[simp] theorem ofName?_name (kind : DiagnosticKind) :
    ofName? kind.name = some kind := by
  cases kind <;> decide

end DiagnosticKind

/- A finding, and the line it belongs to if one is known. -/
structure Diagnostic where
  kind : DiagnosticKind
  line : Option Nat
deriving DecidableEq, Repr

/- The findings about a method, in order. -/
abbrev Diagnostics := List Diagnostic

/- Add a finding, unless it repeats the last one. -/
def Diagnostics.push (findings : Diagnostics) (finding : Diagnostic) : Diagnostics :=
  if findings.getLast? = some finding then findings else findings ++ [finding]

end Unboxing
