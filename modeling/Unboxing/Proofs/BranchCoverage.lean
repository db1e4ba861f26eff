import Unboxing.Proofs.InstructionCoverage

/-
  What becomes of branches and labels is covered, and so what
  becomes of any element of a body. A comparison of payloads
  leaves a flag where the payloads were, so the cells that are
  not simulated are those of the operands.

  Main declarations:
    * `Simulation.covers_dropNullBelow`
    * `Simulation.covers_compareReferences`
    * `Simulation.covered_branch`
    * `Simulation.covered_label`
    * `Simulation.covered_step`
-/

namespace Unboxing

open List

open OperandStack (Upholds)

namespace Simulation

variable {ctx : Context} {st after : State} {α : Type} {b : Branch}
variable {target : Label} {test : RefTest}

-- Flags

/- Values that are taken off take no more than two cells each. -/
theorem dst_popMany {count : Nat} (hOk : popMany count ctx st = .ok () after) :
    st.stack.dst - 2 * count ≤ after.stack.dst := by
  induction count generalizing st with
  | zero =>
    cases hOk
    exact Nat.sub_le _ _
  | succ count ih =>
    unfold popMany at hOk
    rcases bind_ok.mp hOk with ⟨tag, popped, hPop, hOk⟩
    have hRest := ih hOk
    rw [(withStack_state hPop).2] at hRest
    have hFirst := dst_pop st.stack
    have hTwo := st.stack.pop.1.dstWidth_le_two
    simp only at hRest
    omega

/-
  A call takes some values off and leaves a flag. The values are
  simulated as at least what the call takes.
-/
theorem covers_flag {method : MethodRef} {count : Nat} {called popped : State}
    (hState : st.Regular ctx.plan)
    (hTaken : (Instruction.invoke .static method).taken = 2 * count)
    (hLeft : (Instruction.invoke .static method).left = 1)
    (hCall : emitCall method ctx st = .ok () called)
    (hPop : popMany count ctx called = .ok () popped)
    (hPush : push .int none ctx popped = .ok () after) :
    Covers ctx st after := by
  have hCalled : called.Regular ctx.plan := by
    cases hCall
    exact ⟨hState.stack, hState.locals, hState.agreed⟩
  have hPopped := calm_popMany count _ _ _ _ hPop hCalled
  have hQuiet := hPopped.trans
    (calm_push none (by decide : Tag.int.Definite) _ _ _ _ hPush hPopped.regular)
  have hDst : st.stack.dst - 2 * count + 1 ≤ after.stack.dst := by
    have hRest := dst_popMany hPop
    cases hCall
    cases hPush
    have hInt : Tag.int.dstWidth = 1 := by decide
    change _ ≤ popped.stack.dst + Tag.int.dstWidth
    rw [hInt]
    exact Nat.succ_le_succ hRest
  have hPeak := hQuiet.regular.stack.counted.peak
  have hCounted := hState.stack.counted.peak
  have hRaises : Raises st after := by
    cases hCall
    exact ⟨hQuiet.raises.stack, hQuiet.raises.locals, hQuiet.raises.scratch, hQuiet.raises.seeding⟩
  have hStack := hRaises.stack
  have hEdit : after.edit = st.edit.emit [.invoke .static method] := by
    rw [hQuiet.edit]
    cases hCall
    rfl
  refine ⟨hRaises, hQuiet.regular, ?_, [.invoke .static method], ?_, ?_, ?_, ?_⟩
  · rw [hEdit]
    exact id
  · rw [hEdit]
    rfl
  · simp only [within_cons, within_nil, Instruction.depthAfter, hTaken, hLeft]
    omega
  · simp only [depthAfter_cons, depthAfter_nil, Instruction.depthAfter, hTaken, hLeft]
    exact hDst
  · exact forall_mem_singleton.mpr (Nat.zero_le _)

theorem covers_flagNull (hTyped : ctx.reg.Typed)
    (hState : st.Regular ctx.plan) {payload : Tag}
    (hOk : flagNull payload ctx st = .ok () after) :
    Covers ctx st after := by
  unfold flagNull at hOk
  rcases bind_ok.mp hOk with ⟨info, _, hClass, hOk⟩
  rcases valueClass_ok hClass with ⟨hInfo, rfl⟩
  rcases (hTyped.class? hInfo).cells_isNull with ⟨hTaken, hLeft⟩
  rcases bind_ok.mp hOk with ⟨_, called, hCall, hOk⟩
  rcases bind_ok.mp hOk with ⟨_, popped, hPop, hPush⟩
  have hPopped : popMany 1 ctx called = .ok () popped := bind_ok.mpr ⟨_, _, hPop, rfl⟩
  exact covers_flag hState hTaken hLeft hCall hPopped hPush

theorem covers_diagnose (hState : st.Regular ctx.plan) {kind : DiagnosticKind}
    (hOk : diagnose kind ctx st = .ok () after) :
    Covers ctx st after := by
  have hAfter : after = _ := noting_diagnose kind _ _ _ _ hOk
  rw [show after.edit = st.edit from congrArg Bench.edit (diagnose_ok hOk)] at hAfter
  rw [hAfter]
  exact Covers.of_code hState (Upholds.refl _) rfl rfl rfl (Nat.le_refl _)
    (Edit.emit_nil _).symm ((within_nil _ _).mpr hState.stack.counted.peak) (Nat.le_refl _)
    nofun

theorem covers_flagEqual (hTyped : ctx.reg.Typed)
    (hState : st.Regular ctx.plan) {cls : ClassIndex} {downgraded : Bool}
    (hOk : flagEqual cls downgraded ctx st = .ok () after) :
    Covers ctx st after := by
  unfold flagEqual at hOk
  rcases bind_ok.mp hOk with ⟨_, ready, hConvert, hOk⟩
  have hPayloads : ∀ tag ∈ [Tag.payload cls, Tag.payload cls], tag.Definite := by
    intro tag hTag hKind
    simp only [mem_cons, not_mem_nil, or_false, or_self] at hTag
    rw [hTag] at hKind
    cases hKind
  have hReady := covers_convertOperands_of_definite hTyped hState hPayloads hConvert
  rcases bind_ok.mp hOk with ⟨info, _, hClass, hOk⟩
  rcases valueClass_ok hClass with ⟨hInfo, rfl⟩
  rcases (hTyped.class? hInfo).cells_identityEquals with ⟨hTaken, hLeft⟩
  rcases bind_ok.mp hOk with ⟨_, called, hCall, hOk⟩
  rcases bind_ok.mp hOk with ⟨_, popped, hPop, hOk⟩
  rcases bind_ok.mp hOk with ⟨_, flagged, hPush, hOk⟩
  have hFlagged := hReady.trans
    (covers_flag hReady.regular hTaken hLeft hCall hPop hPush)
  split at hOk
  · exact hFlagged.trans (covers_diagnose hFlagged.regular hOk)
  · cases hOk
    exact hFlagged

section

variable (hState : st.Regular ctx.plan)
include hState

theorem covers_flagNever (hOk : flagNever ctx st = .ok () after) :
    Covers ctx st after := by
  unfold flagNever at hOk
  rcases bind_ok.mp hOk with ⟨_, first, hFirst, hOk⟩
  have hFirst := covers_dropTop hState hFirst
  rcases bind_ok.mp hOk with ⟨_, second, hSecond, hOk⟩
  have hSecond := hFirst.trans (covers_dropTop hFirst.regular hSecond)
  rcases bind_ok.mp hOk with ⟨_, emitted, hEmit, hOk⟩
  cases hEmit
  rcases bind_ok.mp hOk with ⟨_, pushed, hPush, hOk⟩
  cases hPush
  have hPushed : Covers ctx second
      { second with
        stack := second.stack.push .int none
        edit := second.edit.emit [.plain .iconst0]
        modified := true } :=
    Covers.of_push hSecond.regular (by decide) rfl (Nat.zero_le _)
  have hPushed := hSecond.trans hPushed
  exact hPushed.trans (covers_diagnose hPushed.regular hOk)

/-
  A payload takes the place of a null below it. For a moment it
  is on the stack twice, for which the cells are reserved.
-/
theorem covers_dropNullBelow {top under : Entry} {rest : List Entry}
    (hEntries : st.stack.entries = top :: under :: rest) (hTop : top.tag.isPayload = true)
    (hUnder : under.tag.isNull = true) (hOk : dropNullBelow ctx st = .ok () after) :
    Covers ctx st after := by
  have hTopTwo := Tag.dstWidth_of_isPayload hTop
  have hUnderOne : under.tag.dstWidth = 1 := by
    have hKind : under.tag.kind = .null := beq_iff_eq.mp hUnder
    apply Tag.dstWidth_of_other
    · simp [Tag.isSrcReference, hKind]
    · simp [Tag.hasPayloadKind, hKind]
  have hDst : st.stack.dst = 3 + dstCells rest := by
    rw [hState.stack.counted.dst, hEntries]
    simp only [dstCells, map_cons, total_cons, hTopTwo, hUnderOne]
    omega
  have hTopDefinite : top.tag.Definite :=
    hState.stack.definite top (by rw [hEntries]; exact mem_cons_self)
  obtain rfl := dropNullBelow_ok hEntries hOk
  have hUpholds : Upholds True Tag.Definite st.stack
      (((st.stack.reserve (st.stack.dst + 2)).popEntry.2.pop.2).push
        top.tag top.name) :=
    (((OperandStack.upholds_reserve _ _).trans (OperandStack.upholds_popEntry _)).trans
      (OperandStack.upholds_pop _)).trans (OperandStack.upholds_push _ _ hTopDefinite)
  have hStack : (((st.stack.reserve (st.stack.dst + 2)).popEntry.2.pop.2).push
      top.tag top.name).dst = st.stack.dst - 1 ∧ st.stack.dst + 2 ≤
          (((st.stack.reserve (st.stack.dst + 2)).popEntry.2.pop.2).push
            top.tag top.name).peak := by
    simp only [OperandStack.push, OperandStack.pop, OperandStack.popEntry,
      OperandStack.reserve, hEntries, hTopTwo, hUnderOne]
    omega
  refine Covers.of_code hState hUpholds rfl rfl rfl (Nat.le_refl _) rfl ?_ ?_ ?_
  · simp only [within_cons, within_nil, Instruction.depthAfter, Instruction.taken,
      Instruction.left, Shuffle.taken, Shuffle.left]
    omega
  · simp only [depthAfter_cons, depthAfter_nil, Instruction.depthAfter, Instruction.taken,
      Instruction.left, Shuffle.taken, Shuffle.left]
    omega
  · intro i hMember
    simp only [mem_cons, not_mem_nil, or_false] at hMember
    rcases hMember with rfl | rfl | rfl <;> exact Nat.zero_le _

-- Comparisons

theorem covers_replaceBranch (hOk : replaceNode (.branch b) ctx st = .ok () after) :
    Covers ctx st after := by
  cases hOk
  exact
    { raises := ⟨Nat.le_refl _, Nat.le_refl _, Nat.le_refl _, .inl rfl⟩
      regular := ⟨hState.stack, hState.locals, hState.agreed⟩
      fate := fun _ => rfl
      code := ⟨[], (append_nil _).symm,
        (within_nil _ _).mpr hState.stack.counted.peak, Nat.le_refl _,
          nofun⟩ }

end

/- Operands are made ready, and then the stack is changed as the branch does. -/
def Prepared (ctx : Context) (st after : State) : Prop :=
  ∃ ready, Covers ctx st ready ∧ Quiet ctx ready after

theorem Prepared.covered (hPrepared : Prepared ctx st after)
    (hEdit : st.edit = .none) :
    Covered ctx 0 st after := by
  rcases hPrepared with ⟨ready, hReady, hQuiet⟩
  exact (hReady.covered hEdit).quiet hQuiet

theorem Covers.prepared {between : State} (hCovers : Covers ctx st between)
    (hPrepared : Prepared ctx between after) :
    Prepared ctx st after := by
  rcases hPrepared with ⟨ready, hReady, hQuiet⟩
  exact ⟨ready, hCovers.trans hReady, hQuiet⟩

section

variable (hTyped : ctx.reg.Typed)
variable (hState : st.Regular ctx.plan)
include hTyped hState

/- Paths are made to agree, and then operands are taken off. -/
theorem prepared_reconcile {next : Simulation α} {result : α} {operands : Nat}
    (hNext : Calm next)
    (hOk : (do
      let _ ← reconcile target operands
      next) ctx st = .ok result after) :
    Prepared ctx st after := by
  rcases bind_ok.mp hOk with ⟨_, ready, hReconcile, hOk⟩
  have hReady := (covers_reconcile hTyped hState hReconcile).1
  exact ⟨ready, hReady, hNext _ _ _ _ hOk hReady.regular⟩

theorem prepared_branchOnFlag
    (hOk : branchOnFlag test target ctx st = .ok () after) :
    Prepared ctx st after := by
  unfold branchOnFlag at hOk
  rcases bind_ok.mp hOk with ⟨_, replaced, hReplace, hOk⟩
  have hReplaced := covers_replaceBranch hState hReplace
  exact hReplaced.prepared
    (prepared_reconcile hTyped hReplaced.regular (calm_popKind _) hOk)

theorem prepared_branchOnReferences
    (hOk : branchOnReferences target ctx st = .ok () after) :
    Prepared ctx st after :=
  prepared_reconcile hTyped hState
    (calm_popReference.bind fun _ => calm_popReference.bind fun _ => Along.pure _) hOk

theorem covers_boxArray {top under : Entry} {rest : List Entry} {onTop : Bool}
    (hEntries : st.stack.entries = top :: under :: rest)
    (hOk : convertOperands
      (if onTop then [under.tag, top.tag.referenceOf]
        else [under.tag.referenceOf, top.tag]) ctx st = .ok () after) :
    Covers ctx st after := by
  have hTop : top.tag.Definite :=
    hState.stack.definite top (by rw [hEntries]; simp)
  have hUnder : under.tag.Definite :=
    hState.stack.definite under (by rw [hEntries]; simp)
  refine covers_convertOperands hTyped hState (fun _ => ?_) hOk
  refine ⟨[under, top], rest, hEntries, ?_⟩
  split
  · exact .cons (.inl hUnder) (.cons hTop.agreeable_referenceOf .nil)
  · exact .cons hUnder.agreeable_referenceOf (.cons (.inl hTop) .nil)

end

/- A null is compared with a payload, in either order. -/
theorem between_withNull {left right : Tag}
    (hBetween : Comparison.between left right = .withNull false) :
    right.isPayload = true ∧ left.isNull = true := by
  unfold Comparison.between at hBetween
  split at hBetween
  · unfold Comparison.ofValues at hBetween
    repeat' split at hBetween
    all_goals cases hBetween
  split at hBetween
  · cases hBetween
  split at hBetween
  · rename_i hNull
    exact Bool.and_eq_true_iff.mp hNull
  split at hBetween
  · cases hBetween
  · unfold Comparison.ofArrays at hBetween
    repeat' split at hBetween
    all_goals cases hBetween

section

variable (hTyped : ctx.reg.Typed) (hState : st.Regular ctx.plan)
include hTyped hState

theorem covers_prepare {top under : Entry} {rest : List Entry}
    (hEntries : st.stack.entries = top :: under :: rest)
    (hOk : prepare under.tag top.tag (Comparison.between under.tag top.tag) ctx st =
      .ok () after) :
    Covers ctx st after := by
  generalize hBetween : Comparison.between under.tag top.tag = comparison at hOk
  cases comparison with
  | unchanged =>
    cases hOk
    exact Covers.refl hState
  | boxArray onTop => exact covers_boxArray hTyped hState hEntries hOk
  | never => exact covers_flagNever hState hOk
  | payloads downgraded => exact covers_flagEqual hTyped hState hOk
  | withNull nullOnTop =>
    cases nullOnTop with
    | true =>
      rcases bind_ok.mp hOk with ⟨_, dropped, hDrop, hFlag⟩
      have hDropped := covers_dropTop hState hDrop
      exact hDropped.trans (covers_flagNull hTyped hDropped.regular hFlag)
    | false =>
      rcases between_withNull hBetween with ⟨hPayload, hNull⟩
      rcases bind_ok.mp hOk with ⟨_, dropped, hDrop, hFlag⟩
      have hDropped := covers_dropNullBelow hState hEntries hPayload hNull hDrop
      exact hDropped.trans (covers_flagNull hTyped hDropped.regular hFlag)

theorem prepared_compareReferences
    (hOk : compareReferences test target ctx st = .ok () after) :
    Prepared ctx st after := by
  rcases compareReferences_ok hOk with
    ⟨hRequire, _⟩ | ⟨top, under, rest, ready, hEntries, hReady, hOk⟩
  · have hRequired := covers_require hState hRequire
    exact ⟨after, hRequired, Quiet.refl hRequired.regular⟩
  have hReady := covers_prepare hTyped hState hEntries hReady
  refine hReady.prepared ?_
  split at hOk
  · exact prepared_branchOnFlag hTyped hReady.regular hOk
  · exact prepared_branchOnReferences hTyped hReady.regular hOk

theorem prepared_compareWithNull
    (hOk : compareWithNull test target ctx st = .ok () after) :
    Prepared ctx st after := by
  unfold compareWithNull at hOk
  rw [tagAt_bind] at hOk
  split at hOk
  · rcases bind_ok.mp hOk with ⟨_, flagged, hFlag, hOk⟩
    have hFlagged := covers_flagNull hTyped hState hFlag
    exact hFlagged.prepared (prepared_branchOnFlag hTyped hFlagged.regular hOk)
  · exact prepared_reconcile hTyped hState
      (calm_popReference.bind fun _ => Along.pure _) hOk

end

-- Branches

theorem covers_checkTarget (hState : st.Regular ctx.plan)
    (hOk : checkTarget target ctx st = .ok () after) :
    Covers ctx st after := by
  unfold checkTarget at hOk
  rcases bind_ok.mp hOk with ⟨found, joined, hJoin, hOk⟩
  have hJoined := (covers_join hState hJoin).1
  rw [get_bind] at hOk
  split at hOk
  · cases hOk
  split at hOk
  · cases hOk
  · cases hOk
    exact hJoined

theorem prepared_switch (hTyped : ctx.reg.Typed)
    (hState : st.Regular ctx.plan) {targets : List Label}
    (hOk : switch targets ctx st = .ok () after) :
    Prepared ctx st after := by
  unfold switch at hOk
  rcases bind_ok.mp hOk with ⟨_, agreed, hAgree, hOk⟩
  have hAgreed : Covers ctx st agreed := by
    refine covers_forM (fun _ _ => True) (fun _ _ => trivial) (fun hState _ hOk => ?_) hState
      (fun _ _ => trivial) hAgree
    rcases bind_ok.mp hOk with ⟨_, ready, hReconcile, hOk⟩
    cases hOk
    exact (covers_reconcile hTyped hState hReconcile).1
  rcases bind_ok.mp hOk with ⟨_, checked, hCheck, hOk⟩
  have hChecked := hAgreed.trans (covers_forM (fun _ _ => True) (fun _ _ => trivial)
    (fun hState _ hOk => covers_checkTarget hState hOk) hAgreed.regular (fun _ _ => trivial) hCheck)
  exact ⟨checked, hChecked, calm_popKind _ _ _ _ _ hOk hChecked.regular⟩

theorem Along.prepared {act : Simulation α} {result : α} (hCalm : Calm act)
    (hState : st.Regular ctx.plan) (hOk : act ctx st = .ok result after) :
    Prepared ctx st after :=
  ⟨st, Covers.refl hState, hCalm _ _ _ _ hOk hState⟩

section

variable (hTyped : ctx.reg.Typed)
variable (hState : st.Regular ctx.plan)
include hTyped hState

theorem prepared_leave {kind : Option ValueKind}
    (hOk : leave kind ctx st = .ok () after) :
    Prepared ctx st after := by
  have hTake : Calm (do let _ ← popReference) :=
    calm_popReference.bind fun _ => Along.pure _
  unfold leave at hOk
  rw [read_bind] at hOk
  rcases kind with _ | kind
  · cases hOk
    exact (Along.pure ()).prepared hState rfl
  by_cases hKind : kind = .reference
  · subst hKind
    cases hResult : ctx.method.type.result with
    | none =>
      simp only [hResult] at hOk
      exact hTake.prepared hState hOk
    | some type =>
      simp only [hResult] at hOk
      rcases bind_ok.mp hOk with ⟨_, boxed, hBox, hOk⟩
      have hBoxed := covers_boxTopFor hTyped hState
        (ctx.reg.concrete_tagOf type).definite hBox
      exact hBoxed.prepared (hTake.prepared hBoxed.regular hOk)
  · have hPop : popKind kind ctx st = .ok () after := by
      cases kind <;> first | exact absurd rfl hKind | exact hOk
    exact (calm_popKind kind).prepared hState hPop

theorem prepared_branchEffect (hOk : branchEffect b ctx st = .ok () after) :
    Prepared ctx st after := by
  cases b with
  | ifInt test target => exact prepared_reconcile hTyped hState (calm_popKind _) hOk
  | ifInts test target =>
    exact prepared_reconcile hTyped hState
      ((calm_popKind _).bind fun _ => calm_popKind _) hOk
  | ifRefs test target => exact prepared_compareReferences hTyped hState hOk
  | ifNull test target => exact prepared_compareWithNull hTyped hState hOk
  | goto target => exact prepared_reconcile hTyped hState (Along.pure ()) hOk
  | tableSwitch | lookupSwitch => exact prepared_switch hTyped hState hOk
  | ret kind => exact prepared_leave hTyped hState hOk
  | throw => exact (calm_popReference.bind fun _ => Along.pure _).prepared hState hOk

theorem covered_branch (hEdit : st.edit = .none)
    (hOk : branch b ctx st = .ok () after) :
    Covered ctx 0 st.marked after := by
  unfold branch at hOk
  rw [bind_apply, markSeeding_apply] at hOk
  rcases bind_ok.mp hOk with ⟨_, between, hEffect, hOk⟩
  have hBetween := (prepared_branchEffect hTyped hState.marked hEffect).covered
    (st.edit_marked.trans hEdit)
  split at hOk
  · cases hOk
    exact hBetween.quiet (Quiet.of_same hBetween.regular (OperandStack.upholds_clear _)
      hBetween.regular.locals.follows hBetween.regular.agreed rfl (.inl rfl) rfl)
  · cases hOk
    exact hBetween

end

-- Labels and frames

theorem quiet_resume (hState : st.Regular ctx.plan) {found : Join}
    (hFound : found.Regular ctx.plan)
    (hOk : resume found ctx st = .ok () after) :
    Quiet ctx st after := by
  cases hOk
  exact Quiet.of_same hState (OperandStack.upholds_restore hFound.stack.orderly _)
    (hState.locals.restore hFound.cells hFound.definite) hState.agreed rfl (.inl rfl) rfl

theorem prepared_arrive (hTyped : ctx.reg.Typed)
    (hState : st.Regular ctx.plan) {label : Label}
    (hOk : arrive label ctx st = .ok () after) :
    Prepared ctx st after := by
  unfold arrive at hOk
  rw [read_bind, get_bind] at hOk
  split at hOk
  · rcases bind_ok.mp hOk with ⟨found, ready, hReconcile, hOk⟩
    rcases covers_reconcile hTyped hState hReconcile with ⟨hReady, hFound⟩
    exact ⟨ready, hReady, quiet_resume hReady.regular hFound hOk⟩
  · exact (Along.pure ()).prepared hState hOk

theorem quiet_enter (hState : st.Regular ctx.plan) {label : Label} {known : Bool}
    (hOk : enter label ctx st = .ok known after) :
    Quiet ctx st after := by
  unfold enter at hOk
  rw [read_bind, get_bind] at hOk
  cases hKnown : st.agreed.lookup label with
  | some found =>
    simp only [hKnown] at hOk
    rcases bind_ok.mp hOk with ⟨_, resumed, hResume, hOk⟩
    cases hOk
    exact quiet_resume hState (hState.lookup hKnown) hResume
  | none =>
    simp only [hKnown] at hOk
    cases hFrame : ctx.frames.frame? label with
    | none =>
      simp only [hFrame] at hOk
      cases hOk
      exact Quiet.refl hState
    | some frame =>
      simp only [hFrame] at hOk
      cases hOk
      have hStack : OperandStack.Upholds True Tag.Definite _ _ :=
        st.stack.upholds_declaredStack Tag.lasting_definite ctx.reg frame
      have hLocals := hState.locals.declaredLocals ctx.reg frame
      refine Quiet.of_same hState hStack hLocals ?_ rfl (.inl rfl) rfl
      refine forall_mem_append.mpr ⟨hState.agreed, forall_mem_singleton.mpr ?_⟩
      exact ⟨(hStack.regular hState.stack).save, hLocals.regular.placed.cells,
        hLocals.regular.definite⟩

/- A change of what is neither stack, locals nor code is covered. -/
theorem Covered.note {start : State} {owed : Nat} {change : State → State}
    (hCovered : Covered ctx owed start st)
    (hStack : (change st).stack = st.stack)
    (hLocals : (change st).locals = st.locals)
    (hAgreed : (change st).agreed = st.agreed)
    (hScratch : (change st).scratchEnd = st.scratchEnd)
    (hSeeding : (change st).seeding = st.seeding)
    (hEdit : (change st).edit = st.edit)
    (hOk : (modify change : Simulation Unit) ctx st = .ok () after) :
    Covered ctx owed start after := by
  cases hOk
  have hState := hCovered.regular
  exact hCovered.quiet (Quiet.of_same hState (hStack ▸ Upholds.refl _)
    (hLocals ▸ hState.locals.follows) (hAgreed ▸ hState.agreed) hScratch (.inl hSeeding)
    hEdit)

section

variable (hTyped : ctx.reg.Typed)
variable (hState : st.Regular ctx.plan)
variable (hEdit : st.edit = .none)
include hTyped hState hEdit

theorem covered_landing {l : Label} (hOk : landing l ctx st = .ok () after) :
    Covered ctx 0 st after := by
  have hNoted {between : State} (hBetween : Covered ctx 0 st between) :
      Covered ctx 0 st (between.noting l) := by
    have hNote : (modify (State.noting l) : Simulation Unit) ctx between =
        .ok () (between.noting l) := rfl
    refine hBetween.note ?_ ?_ ?_ ?_ ?_ ?_ hNote <;> unfold State.noting <;> split <;> rfl
  rcases landing_ok hOk with ⟨_, arrived, hArrive, rfl⟩ | ⟨_, known, entered, hEnter, rfl⟩
  · exact hNoted ((prepared_arrive hTyped hState hArrive).covered hEdit)
  · have hEntered := (Covered.start hState hEdit).quiet (quiet_enter hState hEnter)
    have hKnown : (modify fun st => { st with reachable := known } :
        Simulation Unit) ctx entered = .ok () { entered with reachable := known } := rfl
    exact hNoted (hEntered.note rfl rfl rfl rfl rfl rfl hKnown)

theorem covered_label {l : Label} (hOk : label l ctx st = .ok () after) :
    ∃ marked, st.MarkedFrom marked ∧ Covered ctx 0 marked after := by
  rw [label_apply] at hOk
  split at hOk
  · exact ⟨st.marked, .inr rfl, covered_landing hTyped hState.marked
      (st.edit_marked.trans hEdit) hOk⟩
  · exact ⟨st, .inl rfl, covered_landing hTyped hState hEdit hOk⟩

end

theorem covered_frame (hState : st.Regular ctx.plan) (hEdit : st.edit = .none)
    (hOk : frame ctx st = .ok () after) :
    Covered ctx 0 st after := by
  unfold frame at hOk
  rw [read_bind] at hOk
  exact (Covered.start hState hEdit).note rfl rfl rfl rfl rfl rfl hOk

-- Elements

/-
  What becomes of an element of a body is covered, given that its
  own locals are and that the stack was used as it can be.
-/
theorem covered_step (hTyped : ctx.reg.Typed)
    (hState : st.Regular ctx.plan) (hEdit : st.edit = .none) {node : Node}
    (hOwn : ∀ i, node = .insn i → i.localsEnd ≤ ctx.body.maxLocals)
    (hSettled : after.stack.issues = []) (hOk : step node ctx st = .ok () after) :
    ∃ marked, st.MarkedFrom marked ∧ Covered ctx 0 marked after := by
  unfold step at hOk
  rw [get_bind] at hOk
  -- The label that a frame would describe is noted last.
  have hLast {between marked : State}
      (hMarked : st.MarkedFrom marked)
      (hBetween : Covered ctx 0 marked between)
      (hOk : (modify fun st => { st with label := labelAfter st.label node } :
        Simulation Unit) ctx between = .ok () after) :
      ∃ marked, st.MarkedFrom marked ∧ Covered ctx 0 marked after :=
    ⟨marked, hMarked, hBetween.note rfl rfl rfl rfl rfl rfl hOk⟩
  have hKept (hOk : (modify fun st =>
      { st with label := labelAfter st.label node } :
        Simulation Unit) ctx st = .ok () after) :
      ∃ marked, st.MarkedFrom marked ∧ Covered ctx 0 marked after :=
    hLast (.inl rfl) (Covered.start hState hEdit) hOk
  cases node with
  | line number =>
    rcases bind_ok.mp hOk with ⟨_, noted, hNote, hOk⟩
    exact hLast (.inl rfl)
      ((Covered.start hState hEdit).note rfl rfl rfl rfl rfl rfl hNote) hOk
  | label l =>
    rcases bind_ok.mp hOk with ⟨_, passed, hLabel, hOk⟩
    rcases covered_label hTyped hState hEdit hLabel with ⟨marked, hMarked, hPassed⟩
    exact hLast hMarked hPassed hOk
  | frame change =>
    simp only at hOk
    split at hOk
    · rcases bind_ok.mp hOk with ⟨_, noted, hFrame, hOk⟩
      exact hLast (.inl rfl) (covered_frame hState hEdit hFrame) hOk
    · exact hKept hOk
  | insn i =>
    simp only at hOk
    split at hOk
    · rcases bind_ok.mp hOk with ⟨_, passed, hInstruction, hOk⟩
      have hIssues : passed.stack.issues = [] := by
        cases hOk
        exact hSettled
      rcases covered_instruction hTyped hState hEdit (hOwn i rfl) hIssues
        hInstruction with ⟨marked, hMarked, hPassed⟩
      exact hLast hMarked hPassed hOk
    · exact hKept hOk
  | branch b =>
    simp only at hOk
    split at hOk
    · rcases bind_ok.mp hOk with ⟨_, passed, hBranch, hOk⟩
      exact hLast (.inr rfl) (covered_branch hTyped hState hEdit hBranch) hOk
    · exact hKept hOk

end Simulation

end Unboxing
