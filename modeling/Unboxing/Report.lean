import Unboxing.Failure

/-
  This file defines the outcome of unboxing some classes:
  what was counted, what failed and what was found.
-/

namespace Unboxing

structure Finding where
  method : String
  diagnostic : Diagnostic
deriving DecidableEq, Repr

/- What came of unboxing some classes. Findings are in the order they were made. -/
structure Report where
  classesSeen : Nat := 0
  classesFailed : Nat := 0
  methodsSeen : Nat := 0
  methodsSkipped : Nat := 0
  methodsModified : Nat := 0
  methodsFailed : Nat := 0
  failedClasses : List String := []
  failures : List Failure := []
  findings : List Finding := []
deriving DecidableEq, Repr

namespace Report

def empty : Report := {}

/- Two reports as one. -/
def merge (first second : Report) : Report where
  classesSeen := first.classesSeen + second.classesSeen
  classesFailed := first.classesFailed + second.classesFailed
  methodsSeen := first.methodsSeen + second.methodsSeen
  methodsSkipped := first.methodsSkipped + second.methodsSkipped
  methodsModified := first.methodsModified + second.methodsModified
  methodsFailed := first.methodsFailed + second.methodsFailed
  failedClasses := first.failedClasses ++ second.failedClasses
  failures := first.failures ++ second.failures
  findings := first.findings ++ second.findings

def findingsOf (report : Report) (kind : DiagnosticKind) : List Finding :=
  report.findings.filter (·.diagnostic.kind == kind)

/- The findings of two reports come one after the other. -/
theorem findingsOf_merge (first second : Report) (kind : DiagnosticKind) :
    (first.merge second).findingsOf kind = first.findingsOf kind ++ second.findingsOf kind :=
  List.filter_append ..

def count (report : Report) (kind : DiagnosticKind) : Nat :=
  (report.findingsOf kind).length

-- Text

/- Where a finding was made. -/
def renderSite (finding : Finding) : String :=
  match finding.diagnostic.line with
  | some line => s!" {finding.method}:{line}"
  | none => s!" {finding.method}"

/- The line about the findings of a kind, if there are any. -/
def renderKind (report : Report) (kind : DiagnosticKind) : Option String :=
  match report.findingsOf kind with
  | [] => none
  | findings =>
      some (s!"{kind.name} ({findings.length}):" ++
        String.join (findings.map renderSite))

/- The lines of a report. -/
def lines (report : Report) : List String :=
  [ s!"classes: {report.classesSeen} seen, {report.classesFailed} failed",
    s!"methods: {report.methodsSeen} seen, {report.methodsSkipped} skipped, " ++
      s!"{report.methodsModified} modified, {report.methodsFailed} failed" ]
    ++ report.failedClasses.map (fun name => s!"  rolled back class {name}")
    ++ report.failures.map (fun failure => s!"  failed {failure.message}")
    ++ DiagnosticKind.all.filterMap report.renderKind

def render (report : Report) : String :=
  String.join (report.lines.map (· ++ "\n"))

end Report

end Unboxing
