import Mathlib.Data.List.Destutter
import Unboxing.Proofs.Output
import Unboxing.Proofs.Settling

/-
  Settings say how findings are treated, and never change the
  code. Two runs of one step go the same way if neither is
  strict, and the one that suppresses one more kind has the
  findings of the other but those of the kind. A strict one goes
  the same way until the first finding, and fails there. So
  batches that differ in what they suppress come to the same
  classes. What is left of a method has no repeats next to each
  other: a finding that stood between two equal ones kept them
  apart, so one of the two goes with it; every other one stays.

  Main declarations:
    * `Simulation.Steps.until_finding`
    * `Simulation.run_without`
    * `Method.unbox_without`
    * `Method.unbox_strict_iff`
    * `Batch.settings_keep_code`
    * `Batch.suppression_drops_named`
-/

namespace Unboxing

open List

-- Findings without a kind

namespace Diagnostics

variable {finding : Diagnostic} {kind : DiagnosticKind}

/- The findings that are not of a kind, without repeats next to each other. -/
def without (found : Diagnostics) (kind : DiagnosticKind) : Diagnostics :=
  (found.filter (·.kind != kind)).destutter (· ≠ ·)

/- One more finding is dropped only if it repeats the last one. -/
theorem destutter'_concat (first : Diagnostic) (found : Diagnostics) (finding : Diagnostic) :
    (found ++ [finding]).destutter' (· ≠ ·) first =
      push (found.destutter' (· ≠ ·) first) finding := by
  induction found generalizing first with
  | nil =>
    by_cases hSame : first = finding <;> simp [push, hSame]
  | cons second found ih =>
    by_cases hSame : first = second
    · simp [hSame, ih]
    · have hSome : found.destutter' (· ≠ ·) second ≠ [] := destutter'_ne_nil found (· ≠ ·)
      rcases hRest : found.destutter' (· ≠ ·) second with _ | ⟨third, rest⟩
      · exact absurd hRest hSome
      · rw [cons_append, destutter'_cons_pos _ hSame, destutter'_cons_pos _ hSame,
          ih, hRest]
        simp only [push, getLast?_cons_cons]
        split <;> rfl

theorem destutter_concat (found : Diagnostics) (finding : Diagnostic) :
    (found ++ [finding]).destutter (· ≠ ·) = push (found.destutter (· ≠ ·)) finding := by
  cases found with
  | nil => rfl
  | cons first found => exact destutter'_concat first found finding

/- The last finding is never dropped. -/
theorem push_destutter_of_getLast? {found : Diagnostics} (hLast : found.getLast? = some finding) :
    push (found.destutter (· ≠ ·)) finding = found.destutter (· ≠ ·) := by
  rcases getLast?_eq_some_iff.mp hLast with ⟨before, rfl⟩
  have hAgain (found : Diagnostics) : push (push found finding) finding = push found finding := by
    unfold push
    split
    · simp_all
    · simp
  rw [destutter_concat, hAgain]

/- A finding of the kind does not matter. -/
theorem without_push_of_eq (found : Diagnostics) (hKind : finding.kind = kind) :
    (found.push finding).without kind = found.without kind := by
  unfold push
  split
  · rfl
  · simp [without, hKind]

/- A finding of another kind is added as it was. -/
theorem without_push_of_ne (found : Diagnostics) (hKind : finding.kind ≠ kind) :
    (found.push finding).without kind = (found.without kind).push finding := by
  have hKept : (finding.kind != kind) = true := bne_iff_ne.mpr hKind
  by_cases hLast : found.getLast? = some finding
  · have hSame : found.push finding = found := if_pos hLast
    rcases getLast?_eq_some_iff.mp hLast with ⟨before, hFound⟩
    rw [hSame]
    refine (push_destutter_of_getLast? ?_).symm
    simp [hFound, hKept]
  · have hMore : found.push finding = found ++ [finding] := if_neg hLast
    rw [hMore]
    unfold without
    rw [filter_append, filter_singleton, hKept]
    exact destutter_concat _ _

theorem mem_destutter' (first : Diagnostic) (found : Diagnostics) :
    finding ∈ found.destutter' (· ≠ ·) first ↔ finding = first ∨ finding ∈ found := by
  induction found generalizing first with
  | nil => simp
  | cons second found ih =>
    by_cases hSame : first = second
    · simp [hSame, ih]
    · simp [hSame, ih]

/- No finding is lost if repeats are. -/
theorem mem_destutter (found : Diagnostics) :
    finding ∈ found.destutter (· ≠ ·) ↔ finding ∈ found := by
  cases found with
  | nil => rfl
  | cons first found =>
    rw [mem_cons]
    exact mem_destutter' first found

theorem mem_without {found : Diagnostics} :
    finding ∈ found.without kind ↔ finding ∈ found ∧ finding.kind ≠ kind := by
  rw [without, mem_destutter, mem_filter, bne_iff_ne]

/- Only repeats go with the kind, and none if there are no repeats left. -/
theorem without_eq_filter_iff (found : Diagnostics) :
    found.without kind = found.filter (·.kind != kind) ↔
      (found.filter (·.kind != kind)).IsChain (· ≠ ·) :=
  destutter_eq_self_iff _ _

end Diagnostics

/- The unboxed body with other findings. -/
def UnboxedBody.withFindings (unboxed : UnboxedBody)
    (found : Diagnostics) : UnboxedBody :=
  { unboxed with diagnostics := found }

/- The unboxed body with its findings but those of a kind. -/
def UnboxedBody.without (unboxed : UnboxedBody) (kind : DiagnosticKind) : UnboxedBody :=
  unboxed.withFindings (unboxed.diagnostics.without kind)

namespace Simulation

variable {α β : Type} {act : Simulation α} {st : State}
variable {next : α → Simulation β}

/- A finding that is noted is there. -/
theorem push_ne_nil (found : Diagnostics) (finding : Diagnostic) :
    found.push finding ≠ [] := by
  unfold Diagnostics.push
  split
  · rename_i hLast
    intro hNone
    rw [hNone] at hLast
    cases hLast
  · simp

-- Without strictness

/- The result of a step, wherever it starts. -/
theorem Steps.result_any {want : α → Prop} {ctx : Context} {after : State} {result : α}
    (hAct : Steps .any act want) (hOk : act ctx st = .ok result after) :
    want result :=
  (hAct.of_ok (.inl trivial) st.orderly_any hOk).2

def State.without (st : State) (kind : DiagnosticKind) : State :=
  st.withFindings (st.diagnostics.without kind)

def Outcome.without (kind : DiagnosticKind) : Outcome α → Outcome α
  | .ok result st => .ok result (st.without kind)
  | .error cause st => .error cause (st.without kind)

theorem State.without_withFindings (st : State) (found : Diagnostics) (kind : DiagnosticKind) :
    (st.withFindings found).without kind = st.withFindings (found.without kind) :=
  rfl

/- A finding is noted, unless it is of the kind. -/
theorem diagnose_without (ctx : Context) (suppressed : List DiagnosticKind)
    (kind noted : DiagnosticKind) (st : State) :
    diagnose noted (ctx.under ⟨kind :: suppressed, false⟩) (st.without kind) =
      Outcome.without kind (diagnose noted (ctx.under ⟨suppressed, false⟩) st) := by
  have hCons : (ctx.under ⟨kind :: suppressed, false⟩).settings.isSuppressed noted =
      (noted == kind || (ctx.under ⟨suppressed, false⟩).settings.isSuppressed noted) :=
    contains_cons
  rw [diagnose_apply, diagnose_apply, hCons]
  cases (ctx.under ⟨suppressed, false⟩).settings.isSuppressed noted with
  | true =>
    rw [Bool.or_true]
    rfl
  | false =>
    rw [Bool.or_false]
    change _ = EStateM.Result.ok () ((st.withFindings _).without kind)
    rw [State.without_withFindings]
    by_cases hKind : noted = kind
    · rw [beq_iff_eq.mpr hKind, Diagnostics.without_push_of_eq _ hKind]
      rfl
    · rw [beq_eq_false_iff_ne.mpr hKind, Diagnostics.without_push_of_ne _ hKind]
      rfl

/-
  A step that suppresses one more kind goes the same way, with
  the findings but those of the kind.
-/
theorem Steps.without {want : α → Prop} (hAct : Steps .any act want) (ctx : Context)
    (suppressed : List DiagnosticKind) (kind : DiagnosticKind) (st : State) :
    act (ctx.under ⟨kind :: suppressed, false⟩) (st.without kind) =
      Outcome.without kind (act (ctx.under ⟨suppressed, false⟩) st) := by
  induction hAct generalizing st with
  | pure => rfl
  | throw => rfl
  | note noted => exact diagnose_without ctx suppressed kind noted st
  | bind hAct _ ihAct ihNext =>
    rename_i first _ _ _ _
    rw [bind_apply, bind_apply, ihAct]
    cases hFirst : first (ctx.under ⟨suppressed, false⟩) st with
    | ok result after => exact ihNext result (hAct.result_any hFirst) after
    | error cause after => rfl
  | look hSame _ ihNext =>
    rw [bind_apply, get_apply, bind_apply, get_apply]
    simp only [State.without, hSame]
    exact ihNext st st.orderly_any st
  | consult hSame _ ihNext =>
    rw [bind_apply, read_apply, bind_apply, read_apply]
    simp only [hSame]
    exact ihNext ctx (.inl trivial) st
  | change hFindings _ =>
    rename_i change _
    have hFound : change st = (change st).withFindings st.diagnostics :=
      hFindings st st.diagnostics
    rw [modify_apply, modify_apply, State.without, hFindings]
    change _ = EStateM.Result.ok () ((change st).without kind)
    rw [hFound]
    rfl
  | sharpen _ _ ih => exact ih st

-- With strictness

/- Findings do not get lost. -/
theorem Steps.findings_kept {want : α → Prop} (hAct : Steps .any act want) (ctx : Context)
    {after : State} {result : α} (hSome : st.diagnostics ≠ [])
    (hOk : act ctx st = .ok result after) :
    after.diagnostics ≠ [] := by
  induction hAct generalizing st after with
  | pure => cases hOk; exact hSome
  | throw => cases hOk
  | note kind =>
    rw [diagnose_apply] at hOk
    split at hOk
    · cases hOk
      exact hSome
    · split at hOk
      · cases hOk
      · cases hOk
        exact push_ne_nil _ _
  | bind hAct _ ihAct ihNext =>
    rcases bind_ok.mp hOk with ⟨first, between, hFirst, hOk⟩
    exact ihNext first (hAct.result_any hFirst) (ihAct hSome hFirst) hOk
  | look _ _ ihNext =>
    rw [get_bind] at hOk
    exact ihNext st st.orderly_any hSome hOk
  | consult _ _ ihNext =>
    rw [read_bind] at hOk
    exact ihNext ctx (.inl trivial) hSome hOk
  | change hFindings _ =>
    rename_i change _
    rw [modify_apply] at hOk
    cases hOk
    have hFound : change st = (change st).withFindings st.diagnostics :=
      hFindings st st.diagnostics
    rw [hFound]
    exact hSome
  | sharpen _ _ ih => exact ih hSome hOk

/-
  The ends of a strict run and of one that is not: the same
  without findings, or two failures, or a failure and findings.
-/
inductive UntilFinding : Outcome α → Outcome α → Prop where
  | same
      {result : α} {st : State}
      (hNone : st.diagnostics = []) :
      UntilFinding (.ok result st) (.ok result st)
  | failed
      {cause other : FailureCause} {st after : State} :
      UntilFinding (.error cause st) (.error other after)
  | stopped
      {cause : FailureCause} {result : α} {st after : State}
      (hSome : after.diagnostics ≠ []) :
      UntilFinding (.error cause st) (.ok result after)

theorem UntilFinding.bind_apply {strict lenient : Context}
    (hAct : UntilFinding (act strict st) (act lenient st))
    (hNext : ∀ result after, act lenient st = .ok result after → after.diagnostics = [] →
        UntilFinding (next result strict after) (next result lenient after))
    (hKept : ∀ result after last final, act lenient st = .ok result after →
      after.diagnostics ≠ [] →
        next result lenient after = .ok last final → final.diagnostics ≠ []) :
    UntilFinding ((act >>= next) strict st) ((act >>= next) lenient st) := by
  rw [Simulation.bind_apply, Simulation.bind_apply]
  generalize act strict st = one at hAct
  generalize act lenient st = two at hAct hNext hKept
  cases hAct with
  | same hNone => exact hNext _ _ rfl hNone
  | failed => exact .failed
  | stopped hSome =>
    rename_i cause result stopped after
    simp only
    -- The run that is not strict goes on alone, with its findings.
    cases hLast : next result lenient after with
    | ok last final => exact .stopped (hKept _ _ _ _ rfl hSome hLast)
    | error cause final => exact .failed

/- A strict run goes the same way until the first finding. -/
theorem Steps.until_finding {want : α → Prop} (hAct : Steps .any act want) (ctx : Context)
    (suppressed : List DiagnosticKind) (st : State) (hNone : st.diagnostics = []) :
    UntilFinding (act (ctx.under ⟨suppressed, true⟩) st)
      (act (ctx.under ⟨suppressed, false⟩) st) := by
  induction hAct generalizing st with
  | pure => exact .same hNone
  | throw => exact .failed
  | note kind =>
    rw [diagnose_apply, diagnose_apply]
    have hSuppressed (strict : Bool) :
        (ctx.under ⟨suppressed, strict⟩).settings.isSuppressed kind =
          suppressed.contains kind :=
      rfl
    rw [hSuppressed, hSuppressed]
    split
    · exact .same hNone
    · exact .stopped (push_ne_nil _ _)
  | bind hAct hNext ihAct ihNext =>
    apply (ihAct st hNone).bind_apply
    · intro first after hFirst hAfter
      exact ihNext first (hAct.result_any hFirst) after hAfter
    · intro first after last final hFirst hAfter hOk
      exact (hNext first (hAct.result_any hFirst)).findings_kept _ hAfter hOk
  | look _ _ ihNext =>
    rw [bind_apply, get_apply, bind_apply, get_apply]
    exact ihNext st st.orderly_any st hNone
  | consult hSame _ ihNext =>
    rw [bind_apply, read_apply, bind_apply, read_apply]
    simp only [hSame]
    exact ihNext ctx (.inl trivial) st hNone
  | sharpen _ _ ih => exact ih st hNone
  | change hChange _ =>
    rename_i change _
    rw [modify_apply, modify_apply]
    apply UntilFinding.same
    have hFound : change st = (change st).withFindings st.diagnostics :=
      hChange st st.diagnostics
    rw [hFound]
    exact hNone

-- The end of a body

/- Seed fields and make the new body, or leave the old one. -/
def newBody : Simulation Body := do
  seed
  checkStack
  let ctx ← read
  let st ← get
  if st.modified then modifiedBody else return ctx.body

/- A body with what the state tells about it. -/
def told (body : Body) : Simulation UnboxedBody := do
  let st ← get
  return ⟨st.modified, body, st.diagnostics⟩

theorem steps_newBody : Steps .any newBody (fun _ => True) :=
  (steps_seed Scope.open_any).bind fun _ _ => steps_checkStack.bind fun _ _ =>
    .consult (fun _ _ => rfl) fun _ _ => .look (fun _ _ => rfl) fun _ _ =>
      .ite steps_modifiedBody (.pure trivial)

/- The state that is told is the one from which the body was made. -/
theorem finish_eq : finish = newBody >>= told := by
  unfold finish newBody
  simp only [bind_assoc]
  refine bind_congr fun _ => bind_congr fun _ => bind_congr fun old => ?_
  funext ctx st
  rw [get_bind, get_bind]
  split
  · rw [bind_apply, bind_apply]
    cases hBody : modifiedBody ctx st with
    | ok body after =>
      rw [(modifiedBody_ok hBody).1]
      rfl
    | error cause after => rfl
  · rfl

-- The whole run

/- Go through a body and make the new one. -/
def work (ctx : Context) : Simulation Body := do
  (List.range ctx.body.nodes.length).forM visit
  newBody

theorem steps_work (ctx : Context) : Steps .any (work ctx) (fun _ => True) :=
  Steps.bind (.forM fun h _ => steps_visit Scope.open_any h) fun _ _ => steps_newBody

theorem run_eq_work (ctx : Context) (st : State) :
    run ctx st = if ctx.body.handlers.isEmpty then
        (work ctx >>= told) ctx (State.start ctx)
      else
        .error .unsupportedHandlers st := by
  rw [run_apply, finish_eq]
  unfold work
  rw [bind_assoc]

/- The end of a run with the findings but those of a kind. -/
def runWithout (kind : DiagnosticKind) : Outcome UnboxedBody → Outcome UnboxedBody
  | .ok unboxed st => .ok (unboxed.without kind) (st.without kind)
  | .error cause st => .error cause (st.without kind)

section Runs

variable (ctx : Context) (suppressed : List DiagnosticKind)

/- A run that suppresses one more kind ends with the findings but those of the kind. -/
theorem run_without (kind : DiagnosticKind) (st : State) (hNone : st.diagnostics = []) :
    run (ctx.under ⟨kind :: suppressed, false⟩) st =
      runWithout kind (run (ctx.under ⟨suppressed, false⟩) st) := by
  have hState : st.without kind = st := by
    rcases st
    cases hNone
    rfl
  have hWork : work ctx (ctx.under ⟨kind :: suppressed, false⟩) (State.start ctx) = _ :=
    (steps_work ctx).without ctx suppressed kind (State.start ctx)
  rw [run_eq_work, run_eq_work]
  change (if ctx.body.handlers.isEmpty then (work ctx >>= told) _ (State.start ctx)
    else _) = runWithout kind (if ctx.body.handlers.isEmpty then
      (work ctx >>= told) _ (State.start ctx) else _)
  split
  · rw [bind_apply, bind_apply, hWork]
    cases work ctx (ctx.under ⟨suppressed, false⟩) (State.start ctx) <;> rfl
  · rw [runWithout, hState]

/- A strict run succeeds exactly if the other one does so without findings. -/
theorem run_strictly (st : State) (out : UnboxedBody) :
    (∃ after, run (ctx.under ⟨suppressed, true⟩) st = .ok out after) ↔
      (∃ after, run (ctx.under ⟨suppressed, false⟩) st = .ok out after) ∧
        out.diagnostics = [] := by
  have hWork := (steps_work ctx).until_finding ctx suppressed (State.start ctx) rfl
  rw [run_eq_work, run_eq_work]
  change (∃ after, (if ctx.body.handlers.isEmpty then
      (work ctx >>= told) _ (State.start ctx) else _) = _) ↔
    (∃ after, (if ctx.body.handlers.isEmpty then
      (work ctx >>= told) _ (State.start ctx) else _) = _) ∧ _
  split
  · rw [bind_apply, bind_apply]
    generalize work ctx (ctx.under ⟨suppressed, true⟩) (State.start ctx) = one at hWork
    generalize work ctx (ctx.under ⟨suppressed, false⟩) (State.start ctx) = two at hWork
    cases hWork with
    | same hNone =>
      constructor
      · rintro ⟨after, hOk⟩
        cases hOk
        exact ⟨⟨_, rfl⟩, hNone⟩
      · exact And.left
    | failed => simp
    | stopped hSome =>
      constructor
      · rintro ⟨after, hOk⟩
        cases hOk
      · rintro ⟨⟨after, hOk⟩, hNone⟩
        cases hOk
        exact absurd hNone hSome
  · simp

end Runs

end Simulation

open Simulation

-- Methods

namespace Method

section Unboxing

variable (method : Method)
variable (reg : Registry)
variable (layout : ClassLayout)
variable (body : Body)

/- A method that suppresses one more kind has its findings but those of the kind. -/
theorem unbox_without (suppressed : List DiagnosticKind) (kind : DiagnosticKind) :
    method.unbox reg ⟨kind :: suppressed, false⟩ layout body =
      (method.unbox reg ⟨suppressed, false⟩ layout body).map (·.without kind) := by
  rw [unbox_apply, unbox_apply]
  split
  · rfl
  · have hRun : run (.ofMethod reg ⟨kind :: suppressed, false⟩ layout method body) .initial =
        runWithout kind
          (run (.ofMethod reg ⟨suppressed, false⟩ layout method body) .initial) :=
      run_without (.ofMethod reg ⟨suppressed, false⟩ layout method body)
        suppressed kind .initial rfl
    rw [hRun]
    cases run (.ofMethod reg ⟨suppressed, false⟩ layout method body) .initial <;> rfl

/- A strict method succeeds exactly if there is nothing to find in it. -/
theorem unbox_strict_iff (suppressed : List DiagnosticKind) (unboxed : UnboxedBody) :
    method.unbox reg ⟨suppressed, true⟩ layout body = .ok unboxed ↔
      method.unbox reg ⟨suppressed, false⟩ layout body = .ok unboxed ∧
        unboxed.diagnostics = [] := by
  rw [unbox_apply, unbox_apply]
  split
  · constructor
    · intro hOk
      cases hOk
      exact ⟨rfl, rfl⟩
    · exact fun hOk => hOk.1
  · rw [reported_eq_ok, reported_eq_ok]
    exact run_strictly
      (.ofMethod reg ⟨suppressed, true⟩ layout method body) suppressed _ _

end Unboxing

end Method

-- Plans

/- The report without its findings. -/
def Report.quiet (report : Report) : Report :=
  { report with findings := [] }

/- The plan without the findings in its report. -/
def ClassPlan.quiet (plan : ClassPlan) : ClassPlan :=
  { plan with report := plan.report.quiet }

namespace Batch

namespace MethodOutcome

/- The outcome with its findings but those of a kind. -/
def without (kind : DiagnosticKind) : MethodOutcome → MethodOutcome
  | .unboxed result => .unboxed (result.without kind)
  | outcome => outcome

section Without

variable (kind : DiagnosticKind) (outcome : MethodOutcome)

theorem body?_without : (outcome.without kind).body? = outcome.body? := by
  cases outcome <;> rfl

theorem report_without : (outcome.without kind).report = outcome.report := by
  cases outcome <;> rfl

theorem owners_without : (outcome.without kind).owners = outcome.owners := by
  cases outcome <;> rfl

theorem isFailed_without : (outcome.without kind).isFailed = outcome.isFailed := by
  cases outcome <;> rfl

end Without

end MethodOutcome

def under (batch : Batch) (settings : Settings) : Batch :=
  { batch with settings := settings }

section Lenient

variable (batch : Batch)
variable (first second : List DiagnosticKind)

theorem unboxMethod_without (suppressed : List DiagnosticKind) (kind : DiagnosticKind)
    (layout : ClassLayout) (method : Method) :
    (batch.under ⟨kind :: suppressed, false⟩).unboxMethod layout method =
      ((batch.under ⟨suppressed, false⟩).unboxMethod layout method).without kind := by
  unfold unboxMethod under
  simp only
  split
  · cases method.body with
    | none => rfl
    | some body =>
      simp only
      rw [method.unbox_without batch.reg layout body suppressed kind]
      cases method.unbox batch.reg ⟨suppressed, false⟩ layout body <;> rfl
  · rfl

theorem map_unboxMethod_without (suppressed : List DiagnosticKind) (kind : DiagnosticKind)
    (layout : ClassLayout) (methods : List Method) :
    methods.map ((batch.under ⟨kind :: suppressed, false⟩).unboxMethod layout) =
      (methods.map ((batch.under ⟨suppressed, false⟩).unboxMethod layout)).map
        (MethodOutcome.without kind) := by
  rw [map_map]
  apply map_congr_left
  intro method _
  exact batch.unboxMethod_without suppressed kind layout method

/- A plan is the same but for its findings. -/
theorem quiet_plan (cls : Class) :
    ((batch.under ⟨first, false⟩).plan cls).quiet =
      ((batch.under ⟨second, false⟩).plan cls).quiet := by
  -- Each kind that is suppressed only takes findings away.
  have hNone (suppressed : List DiagnosticKind) :
      ((batch.under ⟨suppressed, false⟩).plan cls).quiet =
        ((batch.under ⟨[], false⟩).plan cls).quiet := by
    induction suppressed with
    | nil => rfl
    | cons kind suppressed ih =>
      rw [← ih]
      simp only [plan, map_unboxMethod_without, map_map, flatMap_map, any_map,
        Function.comp_def, MethodOutcome.report_without, MethodOutcome.owners_without,
        MethodOutcome.isFailed_without, MethodOutcome.body?_without]
      simp only [under, Bool.and_false, Bool.or_false]
      rw [apply_ite ClassPlan.quiet, apply_ite ClassPlan.quiet]
      rfl
  rw [hNone first, hNone second]

-- Batches

theorem keepBoxed_plan_under (cls : Class) :
    ((batch.under ⟨first, false⟩).plan cls).keepBoxed =
      ((batch.under ⟨second, false⟩).plan cls).keepBoxed := by
  have hKept := congrArg ClassPlan.keepBoxed (batch.quiet_plan first second cls)
  exact hKept

theorem keep_under (settings : Settings) (names : List ClassName) :
    (batch.under settings).keep names = (batch.keep names).under settings :=
  rfl

end Lenient

section

variable (first second : List DiagnosticKind) (batch : Batch) (classes : List Class)

/- One round of settling keeps two batches the same but for what they suppress. -/
theorem settleOnce_under :
    ((batch.under ⟨first, false⟩).settleOnce classes).under ⟨second, false⟩ =
      (batch.under ⟨second, false⟩).settleOnce classes := by
  induction classes generalizing batch with
  | nil => rfl
  | cons cls rest ih =>
    have hKept := batch.keepBoxed_plan_under first second cls
    change (settleOnce ((batch.under ⟨first, false⟩).keep
      ((batch.under ⟨first, false⟩).plan cls).keepBoxed) rest).under _ =
        settleOnce ((batch.under ⟨second, false⟩).keep
          ((batch.under ⟨second, false⟩).plan cls).keepBoxed) rest
    rw [hKept, keep_under, keep_under]
    exact ih _

theorem settleWithin_under (rounds : Nat) :
    ((batch.under ⟨first, false⟩).settleWithin classes rounds).under
        ⟨second, false⟩ =
      (batch.under ⟨second, false⟩).settleWithin classes rounds := by
  induction rounds generalizing batch with
  | zero => rfl
  | succ rounds ih =>
    have hSame := settleOnce_under first first batch classes
    have hOther := settleOnce_under first second batch classes
    generalize hNext : (batch.under ⟨first, false⟩).settleOnce classes = next
      at hSame hOther
    have hRest := ih next
    rw [hSame] at hRest
    unfold settleWithin
    simp only
    rw [hNext, ← hOther, apply_ite (Batch.under · ⟨second, false⟩), hRest]
    rfl

theorem settle_under :
    ((batch.under ⟨first, false⟩).settle classes).under ⟨second, false⟩ =
      (batch.under ⟨second, false⟩).settle classes :=
  settleWithin_under first second batch classes _

end

theorem quiet_foldl_merge (reports : List Report) (start : Report) :
    (reports.foldl Report.merge start).quiet =
      (reports.map Report.quiet).foldl Report.merge start.quiet := by
  rw [foldl_map]
  exact (foldl_hom Report.quiet fun _ _ => rfl).symm

/- Unboxing classes one after the other differs in findings only. -/
theorem unboxEach_under (first second : List DiagnosticKind) (batch : Batch)
    (classes : List Class) :
    ((batch.under ⟨first, false⟩).unboxEach classes).1 =
        ((batch.under ⟨second, false⟩).unboxEach classes).1 ∧
      ((batch.under ⟨first, false⟩).unboxEach classes).2.quiet =
        ((batch.under ⟨second, false⟩).unboxEach classes).2.quiet := by
  have hPlans := batch.quiet_plan first second
  constructor
  · simp only [unboxEach, map_map]
    apply map_congr_left
    intro cls _
    have hApplied := congrArg (ClassPlan.apply · cls) (hPlans cls)
    exact hApplied
  · simp only [unboxEach, quiet_foldl_merge, map_map]
    congr 1
    apply map_congr_left
    intro cls _
    exact congrArg ClassPlan.report (hPlans cls)

/-
  Settings never change the code. Whatever is suppressed, the
  same classes stay boxed and come out the same, with reports
  that differ in findings only. A strict method succeeds exactly
  if there is nothing to find in it, and then as it does if it
  is not strict.
-/
theorem settings_keep_code
    (batch : Batch)
    (first second : List DiagnosticKind)
    (classes : List Class) :
    let one := (batch.under ⟨first, false⟩).unboxAll classes
    let two := (batch.under ⟨second, false⟩).unboxAll classes
    (one.1.keptBoxed = two.1.keptBoxed ∧ one.2.1 = two.2.1 ∧ one.2.2.quiet = two.2.2.quiet) ∧
    ∀ (reg : Registry)
      (layout : ClassLayout)
      (method : Method)
      (body : Body)
      (suppressed : List DiagnosticKind)
      (unboxed : UnboxedBody), method.unbox reg ⟨suppressed, true⟩ layout body = .ok unboxed ↔
        method.unbox reg ⟨suppressed, false⟩ layout body = .ok unboxed ∧
          unboxed.diagnostics = [] := by
  intro one two
  have hSame := settle_under first first batch classes
  have hOther := settle_under first second batch classes
  have hEach := unboxEach_under first second
    ((batch.under ⟨first, false⟩).settle classes) classes
  rw [hSame, hOther] at hEach
  refine ⟨⟨?_, hEach⟩, ?_⟩
  · have hKept := congrArg Batch.keptBoxed hOther
    exact hKept
  · intro reg layout method body suppressed unboxed
    exact method.unbox_strict_iff reg layout body suppressed unboxed

end Batch

-- Classes

/- The findings of reports that are merged come one after the other. -/
theorem Report.findings_foldl_merge (reports : List Report) (start : Report) :
    (reports.foldl merge start).findings =
      start.findings ++ reports.flatMap Report.findings := by
  induction reports generalizing start with
  | nil => simp
  | cons report reports ih =>
    rw [foldl_cons, ih, flatMap_cons, ← append_assoc]
    rfl

namespace Batch

namespace MethodOutcome

/- The findings in the method, without the name of the method. -/
def diagnostics : MethodOutcome → Diagnostics
  | .unboxed result => result.diagnostics
  | _ => []

theorem diagnostics_without (kind : DiagnosticKind) (outcome : MethodOutcome) :
    (outcome.without kind).diagnostics = outcome.diagnostics.without kind := by
  cases outcome <;> rfl

end MethodOutcome

/- Findings together with the place they were made in. -/
def named (part : String × Diagnostics) : List Finding :=
  part.2.map (⟨part.1, ·⟩)

/- The findings but those of a kind, in the same place. -/
def partWithout (kind : DiagnosticKind) (part : String × Diagnostics) : String × Diagnostics :=
  (part.1, part.2.without kind)

/-
  The findings about a class, method by method, with those about
  the class itself at the end. There are none about a class that
  is left as it was because something in it fails.
-/
def parts (batch : Batch) (cls : Class) : List (String × Diagnostics) :=
  if batch.rollsBack cls then
    []
  else
    ((cls.methods.zip (batch.outcomes cls)).map fun pair =>
        (cls.qualified pair.1, pair.2.diagnostics)) ++
      if batch.lacksInitializer (batch.layoutOf cls) cls then
        [(cls.name.text, [⟨.fieldInitMissing, none⟩])]
      else
        []

section Lenient

variable (batch : Batch)
variable (suppressed : List DiagnosticKind) (kind : DiagnosticKind)

theorem findings_eq_named (name : String) (outcome : MethodOutcome) :
    outcome.findings name = named (name, outcome.diagnostics) := by
  cases outcome <;> rfl

/- The findings in the report on a class are those of its parts. -/
theorem findings_plan (hLenient : batch.settings.strict = false) (cls : Class) :
    (batch.plan cls).report.findings = (batch.parts cls).flatMap named := by
  by_cases hBack : batch.rollsBack cls = true
  · have hNone : ((batch.outcomes cls).map MethodOutcome.report).flatMap Report.findings = [] := by
      rw [flatMap_map, flatMap_eq_nil_iff]
      intro outcome _
      cases outcome <;> rfl
    rw [parts, if_pos hBack]
    unfold rollsBack at hBack
    simp only [plan, hBack, if_true]
    rw [Report.findings_foldl_merge, hNone]
    rfl
  · rw [parts, if_neg hBack, flatMap_append, flatMap_map]
    unfold rollsBack at hBack
    simp only [plan, hBack, if_false, Bool.false_eq_true]
    simp only [hLenient, Bool.not_false, Bool.and_true, findings_eq_named]
    congr 1
    split <;> rfl

/- Each method comes to what it does without the kind suppressed, but for findings. -/
theorem outcomes_without (cls : Class) :
    (batch.under ⟨kind :: suppressed, false⟩).outcomes cls =
      ((batch.under ⟨suppressed, false⟩).outcomes cls).map (MethodOutcome.without kind) :=
  batch.map_unboxMethod_without suppressed kind (batch.layoutOf cls) cls.methods

/- A class is left as it was whatever is suppressed. -/
theorem rollsBack_without (cls : Class) :
    (batch.under ⟨kind :: suppressed, false⟩).rollsBack cls =
      (batch.under ⟨suppressed, false⟩).rollsBack cls := by
  unfold rollsBack
  rw [outcomes_without, any_map]
  simp only [Function.comp_def, MethodOutcome.isFailed_without]
  simp [under, layoutOf]

/- That static fields are not seeded is told unless this kind is suppressed. -/
theorem lacksInitializer_without (cls : Class) :
    (batch.under ⟨kind :: suppressed, false⟩).lacksInitializer (batch.layoutOf cls) cls =
      ((batch.under ⟨suppressed, false⟩).lacksInitializer (batch.layoutOf cls) cls &&
        .fieldInitMissing != kind) := by
  have hCons : (Settings.mk (kind :: suppressed) false).isSuppressed .fieldInitMissing =
      (.fieldInitMissing == kind || (Settings.mk suppressed false).isSuppressed .fieldInitMissing) :=
    contains_cons
  simp only [lacksInitializer, under, hCons, Bool.not_or, bne, Bool.and_assoc]
  rw [Bool.and_comm (!_ == _)]

/- The findings about a class but those of one more kind. -/
theorem parts_without (cls : Class) :
    ((batch.under ⟨kind :: suppressed, false⟩).parts cls).flatMap named =
      (((batch.under ⟨suppressed, false⟩).parts cls).map (partWithout kind)).flatMap named := by
  have hClass (lacks : Bool) :
      (if (lacks && .fieldInitMissing != kind) = true then
          [(cls.name.text, [Diagnostic.mk .fieldInitMissing none])] else []).flatMap named =
        ((if lacks = true then [(cls.name.text, [Diagnostic.mk .fieldInitMissing none])]
          else []).map (partWithout kind)).flatMap named := by
    cases lacks with
    | false => rfl
    | true => cases kind <;> rfl
  have hLacks := batch.lacksInitializer_without suppressed kind cls
  unfold parts
  rw [batch.rollsBack_without suppressed kind cls]
  split
  · rfl
  · rw [flatMap_append, map_append, flatMap_append, outcomes_without,
      zip_map_right, map_map, map_map]
    simp only [Function.comp_def, Prod.map, id, MethodOutcome.diagnostics_without]
    congr 1
    exact hLacks ▸ hClass _

end Lenient

-- Reports

theorem findings_unboxEach (batch : Batch) (classes : List Class) :
    (batch.unboxEach classes).2.findings =
      classes.flatMap fun cls => (batch.plan cls).report.findings := by
  simp only [unboxEach]
  rw [Report.findings_foldl_merge, map_map, flatMap_map]
  rfl

section Reports

variable (batch : Batch) (suppressed : List DiagnosticKind) (kind : DiagnosticKind)
variable (classes : List Class)

/- The findings about some classes, part by part, when it is settled what stays boxed. -/
def settledParts : List (String × Diagnostics) :=
  classes.flatMap ((batch.under ⟨suppressed, false⟩).settle classes).parts

theorem findings_unboxAll :
    ((batch.under ⟨suppressed, false⟩).unboxAll classes).2.2.findings =
      (batch.settledParts suppressed classes).flatMap named := by
  have hSettled := settle_under suppressed suppressed batch classes
  unfold settledParts
  rw [flatMap_assoc]
  change (((batch.under ⟨suppressed, false⟩).settle classes).unboxEach classes).2.findings = _
  rw [findings_unboxEach, ← hSettled]
  exact flatMap_congr fun cls _ => findings_plan _ rfl cls

/- Part by part, suppressing one more kind leaves the findings but those of the kind. -/
theorem findings_settledParts_without :
    (batch.settledParts (kind :: suppressed) classes).flatMap named =
      ((batch.settledParts suppressed classes).map (partWithout kind)).flatMap named := by
  have hSettled := settle_under suppressed suppressed batch classes
  have hOther := settle_under suppressed (kind :: suppressed) batch classes
  unfold settledParts
  rw [map_flatMap, flatMap_assoc, flatMap_assoc, ← hOther]
  simp only [parts_without, hSettled]

end Reports

-- What goes with the kind

section Lists

variable {α β : Type} {first second : α → List β}
variable (hShorter : ∀ item, (first item).Sublist (second item))
include hShorter

theorem flatMap_sublist (items : List α) :
    (items.flatMap first).Sublist (items.flatMap second) := by
  induction items with
  | nil => exact List.Sublist.refl _
  | cons item items ih => exact (hShorter item).append ih

/- Lists that are put together from shorter ones are the same only if all of these are. -/
theorem flatMap_eq_iff (items : List α) :
    items.flatMap first = items.flatMap second ↔ ∀ item ∈ items, first item = second item := by
  induction items with
  | nil => simp
  | cons item items ih =>
    rw [forall_mem_cons, ← ih, flatMap_cons, flatMap_cons]
    constructor
    · intro hSame
      have hLength := congrArg List.length hSame
      have hItem := (hShorter item).length_le
      have hItems := (flatMap_sublist hShorter items).length_le
      rw [length_append, length_append] at hLength
      exact append_inj hSame (by omega)
    · rintro ⟨hItem, hItems⟩
      rw [hItem, hItems]

end Lists

section Kinds

variable {kind : DiagnosticKind} {part : String × Diagnostics} {finding : Finding}

theorem mem_named :
    finding ∈ named part ↔ finding.diagnostic ∈ part.2 ∧ finding.method = part.1 := by
  rcases finding with ⟨method, diagnostic⟩
  simp [named, eq_comm]

/- The findings of a part that are not of a kind. -/
theorem filter_named (part : String × Diagnostics) :
    (named part).filter (·.diagnostic.kind != kind) =
      named (part.1, part.2.filter (·.kind != kind)) := by
  unfold named
  rw [filter_map]
  rfl

theorem named_without_sublist (part : String × Diagnostics) :
    (named (partWithout kind part)).Sublist
      ((named part).filter (·.diagnostic.kind != kind)) := by
  rw [filter_named]
  exact (destutter_sublist _ _).map _

theorem named_without_eq_iff (part : String × Diagnostics) :
    named (partWithout kind part) = (named part).filter (·.diagnostic.kind != kind) ↔
      (part.2.filter (·.kind != kind)).IsChain (· ≠ ·) := by
  rw [filter_named, ← Diagnostics.without_eq_filter_iff]
  unfold named partWithout
  rw [map_inj_right]
  intro one two hSame
  cases hSame
  rfl

/- What is left are the findings of other kinds. -/
theorem mem_named_without :
    finding ∈ named (partWithout kind part) ↔
      finding ∈ named part ∧ finding.diagnostic.kind ≠ kind := by
  rw [mem_named, mem_named, partWithout, Diagnostics.mem_without]
  exact and_right_comm

end Kinds

/-
  Two lists of findings, the one shorter and both without those
  of a kind, are the same if they agree on every other kind.
-/
theorem eq_of_same_kinds {kind : DiagnosticKind} {one two : List Finding}
    (hShorter : two.Sublist (one.filter (·.diagnostic.kind != kind)))
    (hSame : ∀ other, other ≠ kind → two.filter (·.diagnostic.kind == other) =
      one.filter (·.diagnostic.kind == other)) :
    two = one.filter (·.diagnostic.kind != kind) := by
  apply hShorter.eq_of_length
  apply List.Perm.length_eq
  rw [perm_iff_count]
  intro finding
  by_cases hKind : finding.diagnostic.kind = kind
  · have hAbsent : finding ∉ one.filter (·.diagnostic.kind != kind) := by
      simp [hKind]
    rw [count_eq_zero_of_not_mem hAbsent,
      count_eq_zero_of_not_mem fun hMember => hAbsent (hShorter.subset hMember)]
  · have hOf (found : List Finding) :
        (found.filter (·.diagnostic.kind == finding.diagnostic.kind)).count finding =
          found.count finding :=
      count_filter (by simp)
    rw [count_filter (by simp [hKind]), ← hOf two, ← hOf one, hSame _ hKind]

/-
  Suppressing one more kind removes its findings, and in each
  method the repeats that come to stand next to each other. So
  all findings of other kinds are still told, and just as often
  exactly if no such repeats arise.
-/
theorem suppression_drops_named
    (batch : Batch)
    (suppressed : List DiagnosticKind)
    (kind : DiagnosticKind)
    (classes : List Class) :
    let one := ((batch.under ⟨suppressed, false⟩).unboxAll classes).2.2
    let two := ((batch.under ⟨kind :: suppressed, false⟩).unboxAll classes).2.2
    let parts := batch.settledParts suppressed classes
    two.findingsOf kind = [] ∧
      one.findings = parts.flatMap named ∧
      two.findings = (parts.map (partWithout kind)).flatMap named ∧
      (∀ other, (two.findingsOf other).Sublist (one.findingsOf other)) ∧
      (∀ other, other ≠ kind → ∀ finding,
        finding ∈ two.findingsOf other ↔ finding ∈ one.findingsOf other) ∧
      ((∀ other, other ≠ kind → two.findingsOf other = one.findingsOf other) ↔
        ∀ part ∈ parts, (part.2.filter (·.kind != kind)).IsChain (· ≠ ·)) := by
  intro one two parts
  have hOne : one.findings = parts.flatMap named :=
    findings_unboxAll batch suppressed classes
  have hTwo : two.findings = (parts.map (partWithout kind)).flatMap named :=
    (findings_unboxAll batch (kind :: suppressed) classes).trans
      (findings_settledParts_without batch suppressed kind classes)
  have hMember (finding : Finding) :
      finding ∈ two.findings ↔ finding ∈ one.findings ∧ finding.diagnostic.kind ≠ kind := by
    rw [hOne, hTwo]
    simp only [mem_flatMap, mem_map, exists_exists_and_eq_and, mem_named_without]
    grind
  have hKept : one.findings.filter (·.diagnostic.kind != kind) =
      parts.flatMap fun part => (named part).filter (·.diagnostic.kind != kind) := by
    rw [hOne, filter_flatMap]
  have hShorter : two.findings.Sublist (one.findings.filter (·.diagnostic.kind != kind)) := by
    rw [hTwo, hKept, flatMap_map]
    exact flatMap_sublist named_without_sublist parts
  refine ⟨?_, hOne, hTwo, ?_, ?_, ?_⟩
  · rw [Report.findingsOf, filter_eq_nil_iff]
    intro finding hFinding
    rw [beq_iff_eq]
    exact ((hMember finding).mp hFinding).2
  · intro other
    exact (hShorter.trans filter_sublist).filter _
  · intro other hOther finding
    rw [Report.findingsOf, Report.findingsOf, mem_filter, mem_filter, hMember,
      beq_iff_eq]
    constructor
    · exact fun hFound => ⟨hFound.1.1, hFound.2⟩
    · rintro ⟨hFound, rfl⟩
      exact ⟨⟨hFound, hOther⟩, rfl⟩
  · have hEqual : two.findings = one.findings.filter (·.diagnostic.kind != kind) ↔
        ∀ part ∈ parts, (part.2.filter (·.kind != kind)).IsChain (· ≠ ·) := by
      rw [hTwo, hKept, flatMap_map, flatMap_eq_iff named_without_sublist]
      simp only [named_without_eq_iff]
    rw [← hEqual]
    constructor
    · exact eq_of_same_kinds hShorter
    · intro hSame other hOther
      rw [Report.findingsOf, Report.findingsOf, hSame, filter_filter]
      apply filter_congr
      intro finding _
      rw [Bool.and_eq_left_iff_imp, beq_iff_eq, bne_iff_ne]
      rintro rfl
      exact hOther

-- Equal findings that were apart

def shownCall : Node :=
  .insn (.invoke .static
    ⟨accountName, ⟨"show", by decide⟩, ⟨[.object ⟨"Object", by decide⟩], none⟩⟩)

/- A body that boxes a payload, makes an array of payloads, and boxes the payload again. -/
def showingBody : Body where
  maxStack := 1
  maxLocals := 3
  nodes :=
    [ .insn (.load .reference 0), .insn (.store .reference 1),
      .insn (.load .reference 1), shownCall,
      .insn (.plain .iconst1), .insn (.newRefArray (.object moneyName)),
      .insn (.store .reference 2),
      .insn (.load .reference 1), shownCall,
      .branch (.ret none) ]
  vars := []
  handlers := []

def showingClass : Class :=
  ⟨accountName, 0, none, [],
    [⟨⟨"fresh", by decide⟩, ⟨[.object moneyName], none⟩, 8, some showingBody⟩]⟩

/-
  Both boxings are told as long as the array between them is. If
  the array is suppressed, the second one repeats the first.
-/
theorem finding_dropped_with_neighbour :
    let batch := Batch.new ⟨[{ moneyClass with nullValue := -1 }], [], ["Account"]⟩ ⟨[], false⟩
    let one := ((batch.under ⟨[], false⟩).unboxAll [showingClass]).2.2
    let two := ((batch.under ⟨[.arrayNotNullInit], false⟩).unboxAll [showingClass]).2.2
    one.count .implicitBoxing = 2 ∧ one.count .arrayNotNullInit = 1 ∧
      two.count .implicitBoxing = 1 := by
  decide +kernel

end Batch

end Unboxing
