import Unboxing.Proofs.JoinAgreement

/-
  What going past a branch or a label does: the state is turned
  into what is agreed at the labels that control can go to, and
  at a label control goes on with what is agreed there.

  Main declarations:
    * `Simulation.Departs`
    * `Simulation.branchEffect_ok`
    * `Simulation.Leaves`
    * `Simulation.leave_ok`
    * `Simulation.Landing`
    * `Simulation.step_label_ok`
-/

namespace Unboxing

open List SlotMap

namespace Simulation

variable {ctx : Context} {plan : Array Nat} {st after : State}
variable {label l : Label} {found : Join} {operands : Nat} {b : Branch}
variable {target : Label}

-- Joins

/- What is agreed at labels is as before but for one label. -/
structure Settled (label : Label) (found : Join) (before after : State) : Prop where
  others : ∀ other join, after.agreed.lookup other = some join →
    before.agreed.lookup other = some join ∨ other = label ∧ join = found
  kept : ∀ other join, before.agreed.lookup other = some join →
    after.agreed.lookup other = some join
  reachable : after.reachable = before.reachable

theorem lookup_settle {agreed : List (Label × Join)} {other : Label} {join : Join}
    (hLookup : (agreed ++ [(label, found)]).lookup other = some join) :
    agreed.lookup other = some join ∨ other = label ∧ join = found := by
  rw [lookup_append] at hLookup
  cases hOld : agreed.lookup other with
  | some old =>
    rw [hOld] at hLookup
    exact .inl hLookup
  | none =>
    rw [hOld, Option.none_or, lookup_cons] at hLookup
    cases hSame : other == label with
    | true =>
      rw [hSame] at hLookup
      cases hLookup
      exact .inr ⟨beq_iff_eq.mp hSame, rfl⟩
    | false =>
      rw [hSame] at hLookup
      cases hLookup

theorem join_settled (hOk : join label operands ctx st = .ok found after) :
    Settled label found st after := by
  unfold join at hOk
  rw [get_bind] at hOk
  cases hKnown : st.agreed.lookup label with
  | some known =>
    rw [hKnown] at hOk
    cases hOk
    exact ⟨fun _ _ hLookup => .inl hLookup, fun _ _ hLookup => hLookup, rfl⟩
  | none =>
    rw [hKnown] at hOk
    rcases bind_ok.mp hOk with ⟨fresh, joined, hFirst, hOk⟩
    rcases firstJoin_ok hFirst with ⟨_, locals, _, rfl⟩
    rcases bind_ok.mp hOk with ⟨_, settled, hAgree, hOk⟩
    cases hAgree
    cases hOk
    refine ⟨fun _ _ hLookup => lookup_settle hLookup, ?_, rfl⟩
    intro other join hLookup
    simp only [lookup_append, hLookup, Option.some_or]

theorem reconcile_settled
    (hOk : reconcile label operands ctx st = .ok found after) :
    Settled label found st after := by
  unfold reconcile at hOk
  rcases bind_ok.mp hOk with ⟨same, joined, hJoin, hOk⟩
  rcases bind_ok.mp hOk with ⟨_, turned, hStack, hOk⟩
  rcases bind_ok.mp hOk with ⟨_, last, hLocals, hOk⟩
  cases hOk
  have hOrderly : Join.Orderly .held found :=
    Join.orderly_of_placed trivial id nofun
  have hTurned := Steps.held (steps_reconcileStack _ _ hOrderly.stack) hStack
  have hLast := Steps.held (steps_reconcileLocals trivial _ hOrderly) hLocals
  have hJoined := join_settled hJoin
  have hAgreed : after.agreed = joined.agreed := hLast.agreed.trans hTurned.agreed
  exact ⟨hAgreed ▸ hJoined.others, hAgreed ▸ hJoined.kept,
    (hLast.reachable.trans hTurned.reachable).trans hJoined.reachable⟩

/- The state is turned into what is agreed at some labels, one by one. -/
inductive Visits (ctx : Context) (plan : Array Nat)
    (operands : Nat) : List Label → State → State → Prop where
  | nil (st : State) : Visits ctx plan operands [] st st
  | cons
      {label : Label}
      {labels : List Label}
      {found : Join}
      {first joined turned between last : State}
      (hReconciled :
        Reconciled ctx plan label operands found first joined turned between)
      (hSettled : Settled label found first between)
      (hRest : Visits ctx plan operands labels between last) :
      Visits ctx plan operands (label :: labels) first last

theorem Visits.single (hPlaced : st.Placed plan)
    (hOk : reconcile label operands ctx st = .ok found after) :
    Visits ctx plan operands [label] st after ∧
      after.agreed.lookup label = some found ∧ Agrees after operands found := by
  rcases reconcile_ok hPlaced hOk with ⟨joined, turned, hReconciled⟩
  exact ⟨.cons hReconciled (reconcile_settled hOk) (.nil after), hReconciled.agreed,
    hReconciled.agrees.1⟩

theorem visits_of_forM {labels : List Label} (hPlaced : st.Placed plan)
    (hOk : (labels.forM fun target => do
        let _ ← reconcile target 1) ctx st = .ok () after) :
    Visits ctx plan 1 labels st after := by
  induction labels generalizing st with
  | nil =>
    cases hOk
    exact .nil _
  | cons label labels ih =>
    rcases forM_cons_ok hOk with ⟨between, hFirst, hOk⟩
    rcases bind_ok.mp hFirst with ⟨found, _, hReconcile, hSame⟩
    cases hSame
    rcases reconcile_ok hPlaced hReconcile with ⟨joined, turned, hReconciled⟩
    exact .cons hReconciled (reconcile_settled hReconcile)
      (ih hReconciled.placed hOk)

-- Branches

/-
  What is done before a branch, and the branch that is used: a
  payload is asked whether it stands for null.
-/
inductive Readied (reg : Registry) :
    Branch → Branch → State → State → Prop where
  | keep
      {b : Branch}
      {st : State}
      (hNull : ∀ test target, b = .ifNull test target →
        (st.bench.tagAt 0).isPayload = false) :
      Readied reg b b st st
  | flag
      {test : RefTest}
      {info : ValueClass}
      {before readied : State}
      (target : Label)
      (hPayload : (before.bench.tagAt 0).isPayload = true)
      (hClass : reg.class? ((before.bench.tagAt 0).class?.getD .first) =
        some info)
      (hHeld : Held before readied)
      (hBench : readied.bench =
        { entries := ⟨.int, none⟩ :: before.bench.entries.tail
          locals := before.bench.locals
          scratch := before.bench.scratch
          edit := (before.bench.edit.emit [.invoke .static info.isNull]).add
            (.replace (.branch (.ifInt test.negate.toIntTest target))) }) :
      Readied reg (.ifNull test target)
        (.ifInt test.negate.toIntTest target) before readied

/- What is done at a branch that goes to labels. -/
structure Departs (ctx : Context) (plan : Array Nat) (b other : Branch)
    (st readied turned after : State) : Prop where
  ready : Readied ctx.reg b other st readied
  placed : readied.Placed plan
  visits : Visits ctx plan b.takes.length b.targets readied turned
  agrees : ∀ l ∈ b.labels, ∃ join,
    turned.agreed.lookup l = some join ∧ Agrees turned b.takes.length join
  held : Held turned after
  bench : after.bench =
    turned.bench.withEntries (turned.bench.entries.drop b.takes.length)

theorem flagNull_ok {payload : Tag}
    (hOk : flagNull payload ctx st = .ok () after) :
    ∃ info, ctx.reg.class? (payload.class?.getD .first) = some info ∧
      after.bench =
        (st.bench.withEntries (⟨.int, none⟩ :: st.bench.entries.tail)).emit
          [.invoke .static info.isNull] := by
  unfold flagNull at hOk
  rcases bind_ok.mp hOk with ⟨info, _, hClass, hOk⟩
  rcases valueClass_ok hClass with ⟨hInfo, rfl⟩
  rcases bind_ok.mp hOk with ⟨_, called, hCall, hOk⟩
  rcases bind_ok.mp hOk with ⟨_, popped, hPop, hOk⟩
  refine ⟨info, hInfo, ?_⟩
  rw [push_ok hOk, (withStack_ok hPop).2, OperandStack.entries_pop]
  change (called.bench.withEntries (_ :: called.bench.entries.tail)) = _
  rw [emit_ok hCall]
  rfl

theorem popReference_ok {tag : Tag} (hOk : popReference ctx st = .ok tag after) :
    after.bench = st.bench.withEntries st.bench.entries.tail := by
  rw [(withStack_ok hOk).2]
  exact congrArg _ (OperandStack.entries_popIf _ _ _)

/- A single label that a branch goes to is agreed on before its operands go. -/
theorem departs_of_reconcile {readied turned : State} {other : Branch}
    (hReady : Readied ctx.reg b other st readied)
    (hPlaced : readied.Placed plan) (hLabels : b.labels = [target])
    (hReconcile :
      reconcile target b.takes.length ctx readied = .ok found turned)
    (hHeld : Held turned after)
    (hBench : after.bench =
      turned.bench.withEntries (turned.bench.entries.drop b.takes.length)) :
    Departs ctx plan b other st readied turned after := by
  rcases Visits.single hPlaced hReconcile with ⟨hVisits, hKnown, hAgrees⟩
  have hTargets : b.targets = [target] := by
    rw [Branch.targets, hLabels]
    rfl
  refine ⟨hReady, hPlaced, hTargets ▸ hVisits, ?_, hHeld, hBench⟩
  intro l hLabel
  rw [hLabels, mem_singleton] at hLabel
  subst hLabel
  exact ⟨found, hKnown, hAgrees⟩

theorem compareWithNull_ok {test : RefTest} (hPlaced : st.Placed plan)
    (hOk : compareWithNull test target ctx st = .ok () after) :
    ∃ other readied turned,
      Departs ctx plan (.ifNull test target) other st readied turned after := by
  unfold compareWithNull at hOk
  rcases bind_ok.mp hOk with ⟨top, _, hTop, hOk⟩
  rcases tagAt_ok hTop with ⟨rfl, rfl⟩
  split at hOk
  · rename_i hPayload
    rcases bind_ok.mp hOk with ⟨_, flagged, hFlag, hOk⟩
    rcases flagNull_ok hFlag with ⟨info, hClass, hFlagged⟩
    unfold branchOnFlag at hOk
    rcases bind_ok.mp hOk with ⟨_, readied, hReplace, hOk⟩
    rcases bind_ok.mp hOk with ⟨found, turned, hReconcile, hPop⟩
    have hSteps (scope : Scope) : Goes scope (do
        flagNull (st.bench.tagAt 0)
        replaceNode (.branch (.ifInt test.negate.toIntTest target))) :=
      (steps_flagNull _).bind fun _ _ => steps_replaceNode _
    have hBoth : (do
        flagNull (st.bench.tagAt 0)
        replaceNode (.branch (.ifInt test.negate.toIntTest target))) ctx st =
          .ok () readied :=
      bind_ok.mpr ⟨_, flagged, hFlag, hReplace⟩
    refine ⟨_, readied, turned, departs_of_reconcile
      (.flag target hPayload hClass ((hSteps _).held hBoth) ?_)
      ((hSteps _).placed hPlaced hBoth) rfl hReconcile
      ((steps_popKind _).held hPop) ?_⟩
    · have hReplaced : readied.bench = { flagged.bench with
          edit := flagged.bench.edit.add
            (.replace (.branch (.ifInt test.negate.toIntTest target))) } := by
        cases hReplace
        rfl
      rw [hReplaced, hFlagged]
      rfl
    · rw [popKind_ok hPop, ← drop_one]
      rfl
  · rename_i hBoxed
    rcases bind_ok.mp hOk with ⟨found, turned, hReconcile, hOk⟩
    rcases bind_ok.mp hOk with ⟨_, _, hPop, hSame⟩
    cases hSame
    refine ⟨_, st, turned, departs_of_reconcile
      (.keep fun _ _ _ => Bool.not_eq_true _ ▸ hBoxed) hPlaced rfl hReconcile
      (steps_popReference.held hPop) ?_⟩
    rw [popReference_ok hPop, ← drop_one]
    rfl

theorem switchEffect_ok (hTakes : b.takes = [.int])
    (hNull : ∀ test target, b ≠ .ifNull test target) (hPlaced : st.Placed plan)
    (hOk : switch b.targets ctx st = .ok () after) :
    ∃ turned, Departs ctx plan b b st st turned after := by
  rcases switch_ok hPlaced hOk with ⟨turned, hReconcile, hPop, hAgrees⟩
  refine ⟨turned, .keep fun test target hSame => absurd hSame (hNull test target),
    hPlaced, ?_, ?_, (steps_popKind _).held hPop, ?_⟩
  · rw [hTakes]
    exact visits_of_forM hPlaced hReconcile
  · rw [hTakes]
    intro l hLabel
    exact hAgrees l (mem_eraseDups.mpr hLabel)
  · rw [popKind_ok hPop, hTakes, ← drop_one]
    rfl

/- A basic branch departs, or it returns. -/
theorem branchEffect_ok (hBasic : b.isBasic = true) (hLeaves : ∀ kind, b ≠ .ret kind)
    (hPlaced : st.Placed plan) (hOk : branchEffect b ctx st = .ok () after) :
    ∃ other readied turned,
      Departs ctx plan b other st readied turned after := by
  cases b with
  | ifInt test target =>
    rcases bind_ok.mp hOk with ⟨found, turned, hReconcile, hPop⟩
    refine ⟨_, st, turned, departs_of_reconcile
      (.keep nofun) hPlaced rfl hReconcile
      ((steps_popKind _).held hPop) ?_⟩
    rw [popKind_ok hPop, ← drop_one]
    rfl
  | ifInts test target =>
    rcases bind_ok.mp hOk with ⟨found, turned, hReconcile, hPops⟩
    rcases bind_ok.mp hPops with ⟨_, popped, hFirst, hSecond⟩
    refine ⟨_, st, turned, departs_of_reconcile
      (.keep nofun) hPlaced rfl hReconcile
      (((steps_popKind _).bind fun _ _ => steps_popKind _).held hPops) ?_⟩
    rw [popKind_ok hSecond, popKind_ok hFirst]
    simp [Branch.takes, ← drop_one]
  | ifNull test target => exact compareWithNull_ok hPlaced hOk
  | goto target =>
    rcases bind_ok.mp hOk with ⟨found, turned, hReconcile, hSame⟩
    cases hSame
    exact ⟨_, st, after, departs_of_reconcile
      (.keep nofun) hPlaced rfl hReconcile ⟨rfl, rfl⟩ rfl⟩
  | tableSwitch default low targets | lookupSwitch default targets =>
    rcases switchEffect_ok rfl (fun _ _ hSame => by cases hSame) hPlaced hOk with
      ⟨turned, hDeparts⟩
    exact ⟨_, _, turned, hDeparts⟩
  | ret kind => exact absurd rfl (hLeaves kind)
  | _ => cases hBasic

/- The code that boxes a payload for a consumer, if there is one on top. -/
inductive BoxingCode (reg : Registry)
    (found consumer : Tag) : List Instruction → Prop where
  | keep
      (hKeep : found.isUnboxed = true → found = consumer) :
      BoxingCode reg found consumer []
  | convert
      {code : List Instruction}
      (hUnboxed : found.isUnboxed = true)
      (hCast : found.cast (boxedFor found consumer) ≠ .failure)
      (hCode : ConversionCode reg found (boxedFor found consumer) code) :
      BoxingCode reg found consumer code

theorem boxTopFor_ok {consumer : Tag}
    (hOk : boxTopFor consumer ctx st = .ok () after) :
    ∃ code entries, BoxingCode ctx.reg (st.bench.tagAt 0) consumer code ∧
      entries.tail = st.bench.entries.tail ∧
        after.bench = (st.bench.withEntries entries).emit code := by
  unfold boxTopFor at hOk
  rcases bind_ok.mp hOk with ⟨found, _, hFound, hOk⟩
  rcases tagAt_ok hFound with ⟨rfl, rfl⟩
  split at hOk
  · rename_i hBox
    rcases convertTop_ok hOk with ⟨hCast, code, hCode, hBench⟩
    rw [Bool.and_eq_true] at hBox
    refine ⟨code, _, .convert hBox.1 hCast hCode, ?_, hBench⟩
    cases st.bench.entries with
    | nil | cons entry entries => rfl
  · rename_i hKeep
    cases hOk
    refine ⟨[], _, .keep ?_, rfl, (Bench.emit_nil _).symm⟩
    intro hUnboxed
    simpa [hUnboxed] using hKeep

/- What a method returns is taken off the stack, a payload as a box. -/
inductive Leaves (ctx : Context) :
    Option ValueKind → State → State → Prop where
  | nothing (st : State) : Leaves ctx none st st
  | primitive
      {kind : ValueKind}
      {st after : State}
      (hKind : kind ≠ .reference)
      (hBench : after.bench = st.bench.withEntries st.bench.entries.tail) :
      Leaves ctx (some kind) st after
  | reference
      {type : FieldType}
      {st after : State}
      {code : List Instruction}
      (hType : ctx.method.type.result = some type)
      (hCode : BoxingCode ctx.reg (st.bench.tagAt 0)
        (ctx.reg.tagOf type) code)
      (hBench : after.bench =
        (st.bench.withEntries st.bench.entries.tail).emit code) :
      Leaves ctx (some .reference) st after

theorem leave_ok {kind : Option ValueKind}
    (hResult : kind.isSome = true →
      ∃ type, ctx.method.type.result = some type)
    (hOk : leave kind ctx st = .ok () after) :
    Leaves ctx kind st after := by
  unfold leave at hOk
  rw [read_bind] at hOk
  cases kind with
  | none =>
    cases hOk
    exact .nothing st
  | some kind =>
    by_cases hKind : kind = .reference
    · subst hKind
      rcases hResult rfl with ⟨type, hType⟩
      simp only [hType] at hOk
      rcases bind_ok.mp hOk with ⟨_, boxed, hBox, hOk⟩
      rcases bind_ok.mp hOk with ⟨_, popped, hPop, hSame⟩
      cases hSame
      rcases boxTopFor_ok hBox with ⟨code, entries, hCode, hTail, hBench⟩
      refine .reference hType hCode ?_
      rw [popReference_ok hPop, hBench]
      simp [hTail]
    · refine .primitive hKind ?_
      cases kind with
      | reference => exact absurd rfl hKind
      | _ => exact popKind_ok hOk

theorem bench_markSeeding (hOk : markSeeding ctx st = .ok () after) :
    after.bench = st.bench := by
  cases hOk
  simp only
  split
  · rfl
  · rfl

/- After a branch control goes on only if the branch falls through. -/
structure Departed (b : Branch) (done after : State) : Prop where
  agreed : after.agreed = done.agreed
  locals : after.locals = done.locals
  edit : after.edit = done.edit
  issues : after.stack.issues = done.stack.issues
  falls : b.fallsThrough = true →
    after.reachable = done.reachable ∧ after.stack.entries = done.stack.entries
  stops : b.fallsThrough = false →
    after.reachable = false ∧ after.stack.entries = []

theorem step_branch_ok (hReachable : st.reachable = true)
    (hOk : step (.branch b) ctx st = .ok () after) :
    ∃ marked done, markSeeding ctx st = .ok () marked ∧
      branchEffect b ctx marked = .ok () done ∧ Departed b done after := by
  unfold step at hOk
  rw [get_bind] at hOk
  simp only [hReachable, if_true] at hOk
  rcases bind_ok.mp hOk with ⟨_, gone, hBranch, hLast⟩
  cases hLast
  unfold branch at hBranch
  rcases bind_ok.mp hBranch with ⟨_, marked, hMark, hBranch⟩
  rcases bind_ok.mp hBranch with ⟨_, done, hEffect, hEnd⟩
  refine ⟨marked, done, hMark, hEffect, ?_⟩
  cases hFalls : b.fallsThrough with
  | true =>
    rw [hFalls] at hEnd
    cases hEnd
    exact ⟨rfl, rfl, rfl, rfl, fun _ => ⟨rfl, rfl⟩,
      fun hStops => absurd hFalls (by simp [hStops])⟩
  | false =>
    rw [hFalls] at hEnd
    cases hEnd
    exact ⟨rfl, rfl, rfl, rfl, fun hGoes => absurd hFalls (by simp [hGoes]),
      fun _ => ⟨rfl, rfl⟩⟩

-- Labels

/- Control goes on at a label with what is agreed there. -/
structure Resumed (found : Join) (turned after : State) : Prop where
  entries : after.stack.entries = found.stack.entries
  cells : after.locals.cells = found.locals.cells
  edit : after.edit = turned.edit
  agreed : after.agreed = turned.agreed
  reachable : after.reachable = true

/- What is done at a label. -/
inductive Landing (ctx : Context) (plan : Array Nat) (l : Label)
    (st after : State) : Prop where
  /- Nothing is known about the label. -/
  | pass
      (hKnown : st.agreed.lookup l = none)
      (hFrame : ctx.frames.frame? l = none)
      (hTarget : st.reachable = true → ctx.frames.isTarget l = false)
      (hHeld : Held st after)
      (hBench : after.bench = st.bench)
  /- The code before runs into the label. -/
  | arrive
      {found : Join}
      {first joined between turned : State}
      (hReachable : st.reachable = true)
      (hMeant : st.agreed.lookup l ≠ none ∨ ctx.frames.frame? l ≠ none ∨
        ctx.frames.isTarget l = true)
      (hHeld : Held st first)
      (hBench : first.bench = st.bench)
      (hReconciled :
        Reconciled ctx plan l 0 found first joined between turned)
      (hSettled : Settled l found first turned)
      (hResumed : Resumed found turned after)
  /- Only jumps lead to the label, and one was seen. -/
  | resume
      {found : Join}
      (hReachable : st.reachable = false)
      (hKnown : st.agreed.lookup l = some found)
      (hResumed : Resumed found st after)
  /- Only jumps lead to the label, and its frame is all that is known. -/
  | declare
      {found : Join}
      {frame : Frame}
      {stack : OperandStack}
      {locals : SlotMap}
      (hReachable : st.reachable = false)
      (hKnown : st.agreed.lookup l = none)
      (hFrame : ctx.frames.frame? l = some frame)
      (hLocals : SlotMap.Placed plan locals)
      (hFound : found =
        ⟨(declaredStack ctx.reg frame stack).save,
          (declaredLocals ctx.reg frame locals).save⟩)
      (hResumed : Resumed found
        { st with agreed := st.agreed ++ [(l, found)] } after)

theorem arrive_ok (hPlaced : st.Placed plan) (hReachable : st.reachable = true)
    (hOk : arrive l ctx st = .ok () after) :
    Landing ctx plan l st after := by
  unfold arrive at hOk
  rw [read_bind, get_bind] at hOk
  split at hOk
  · rename_i hMeant
    simp only [Bool.or_eq_true, Option.isSome_iff_ne_none, or_assoc] at hMeant
    rcases bind_ok.mp hOk with ⟨found, turned, hReconcile, hResume⟩
    rcases reconcile_ok hPlaced hReconcile with ⟨joined, between, hReconciled⟩
    have hSettled := reconcile_settled hReconcile
    cases hResume
    exact .arrive hReachable hMeant ⟨rfl, rfl⟩ rfl hReconciled hSettled
      ⟨rfl, rfl, rfl, rfl, hSettled.reachable.trans hReachable⟩
  · rename_i hUnknown
    cases hOk
    simp only [Bool.or_eq_true, not_or, Option.isSome_iff_ne_none, ne_eq,
      not_not, Bool.not_eq_true] at hUnknown
    exact .pass hUnknown.1.1 hUnknown.1.2 (fun _ => hUnknown.2) ⟨rfl, rfl⟩ rfl

theorem enter_ok {known : Bool} (hPlaced : st.Placed plan)
    (hReachable : st.reachable = false)
    (hOk : enter l ctx st = .ok known after) :
    Landing ctx plan l st { after with reachable := known } := by
  unfold enter at hOk
  rw [read_bind, get_bind] at hOk
  cases hKnown : st.agreed.lookup l with
  | some found =>
    rw [hKnown] at hOk
    cases hOk
    exact .resume hReachable hKnown ⟨rfl, rfl, rfl, rfl, rfl⟩
  | none =>
    rw [hKnown] at hOk
    cases hFrame : ctx.frames.frame? l with
    | none =>
      rw [hFrame] at hOk
      cases hOk
      exact .pass hKnown hFrame (fun hReach => absurd hReachable (by simp [hReach]))
        ⟨rfl, hReachable.symm⟩ rfl
    | some frame =>
      rw [hFrame] at hOk
      cases hOk
      exact .declare hReachable hKnown hFrame hPlaced.locals rfl
        ⟨rfl, rfl, rfl, rfl, rfl⟩

/- The marks that are set at a label do not matter for what is done there. -/
theorem Landing.unmarked {seeding : Seeding} {reached : List (Label × SlotSnapshot)}
    {label : Option Label} (hLanding : Landing ctx plan l { st with seeding := seeding } after) :
    Landing ctx plan l st { after with reached := reached, label := label } := by
  have hResume {found : Join} {turned : State} (hResumed : Resumed found turned after) :
      Resumed found turned { after with reached := reached, label := label } :=
    ⟨hResumed.entries, hResumed.cells, hResumed.edit, hResumed.agreed, hResumed.reachable⟩
  cases hLanding with
  | pass hKnown hFrame hTarget hHeld hBench =>
    exact .pass hKnown hFrame hTarget ⟨hHeld.agreed, hHeld.reachable⟩ hBench
  | arrive hReachable hMeant hHeld hBench hReconciled hSettled hResumed =>
    exact .arrive hReachable hMeant ⟨hHeld.agreed, hHeld.reachable⟩ hBench hReconciled
      hSettled (hResume hResumed)
  | resume hReachable hKnown hResumed =>
    exact .resume hReachable hKnown
      ⟨hResumed.entries, hResumed.cells, hResumed.edit, hResumed.agreed, hResumed.reachable⟩
  | declare hReachable hKnown hFrame hLocals hFound hResumed =>
    exact .declare hReachable hKnown hFrame hLocals hFound
      ⟨hResumed.entries, hResumed.cells, hResumed.edit, hResumed.agreed, hResumed.reachable⟩

theorem step_label_ok (hPlaced : st.Placed plan)
    (hOk : step (.label l) ctx st = .ok () after) :
    Landing ctx plan l st after := by
  have hNoted (gone : State) : ∃ reached, gone.noting l = { gone with reached := reached } := by
    unfold State.noting
    split <;> exact ⟨_, rfl⟩
  have hMarked : ∃ seeding, (if ctx.frames.isTarget l then st.marked else st) =
      { st with seeding := seeding } := by
    unfold State.marked
    split
    · split <;> exact ⟨_, rfl⟩
    · exact ⟨_, rfl⟩
  rcases hMarked with ⟨seeding, hMarked⟩
  rcases step_label_landing hOk with ⟨gone, hGone, rfl⟩
  rw [hMarked] at hGone
  have hPlaced : State.Placed plan { st with seeding := seeding } := hPlaced.of_same rfl rfl
  rcases landing_ok hGone with
    ⟨hReachable, arrived, hArrive, rfl⟩ | ⟨hUnreachable, known, entered, hEnter, rfl⟩
  · rcases hNoted arrived with ⟨reached, hNoted⟩
    rw [hNoted]
    exact (arrive_ok hPlaced hReachable hArrive).unmarked
  · rcases hNoted { entered with reachable := known } with ⟨reached, hNoted⟩
    rw [hNoted]
    exact (enter_ok hPlaced hUnreachable hEnter).unmarked

/- At a label with a frame control goes on with what is agreed there. -/
theorem Landing.agreed {frame : Frame} (hLanding : Landing ctx plan l st after)
    (hFrame : ctx.frames.frame? l = some frame) :
    ∃ found, after.agreed.lookup l = some found ∧
      after.stack.entries = found.stack.entries ∧
        after.locals.cells = found.locals.cells := by
  cases hLanding with
  | pass hKnown hNoFrame => exact absurd (hNoFrame.symm.trans hFrame) nofun
  | arrive hReachable hMeant hHeld hBench hReconciled hSettled hResumed =>
    refine ⟨_, ?_, hResumed.entries, hResumed.cells⟩
    rw [hResumed.agreed]
    exact hReconciled.agreed
  | resume hReachable hKnown hResumed =>
    refine ⟨_, ?_, hResumed.entries, hResumed.cells⟩
    rw [hResumed.agreed]
    exact hKnown
  | declare hReachable hKnown hDeclared hLocals hFound hResumed =>
    refine ⟨_, ?_, hResumed.entries, hResumed.cells⟩
    rw [hResumed.agreed]
    simp only
    rw [lookup_append, hKnown]
    simp

end Simulation

end Unboxing
