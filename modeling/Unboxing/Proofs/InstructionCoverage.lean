import Unboxing.Proofs.ElementCoverage

/-
  What becomes of each instruction is covered. Where code is
  needed that the simulated stack does not show, the cells are
  reserved; where another form takes the place of an
  instruction, the values that are pushed pay for it.

  Main declarations:
    * `Simulation.State.marked`
    * `Simulation.covered_storeReference`
    * `Simulation.covered_swap`
    * `Simulation.covered_dup`
    * `Simulation.covered_instruction`
-/

namespace Unboxing

open List

open OperandStack (Upholds)

namespace Simulation

variable {ctx : Context} {st after : State} {slot depth count : Nat}
variable {kind : ValueKind} {type : RefType} {stack : OperandStack}
variable {accessed : FieldRef} {access : FieldAccess} {method : MethodRef}
variable {α : Type} {target cells limit copied skipped : Nat}
variable {found : Instruction} {tag declared : Tag} {name : Option String}
variable {start : State} {op : Shuffle} {payload : Option (Tag × FieldRef)}
variable {binding : MethodBinding}

theorem Along.covered {act : Simulation α} {result : α} (hCalm : Calm act)
    (hState : st.Regular ctx.plan) (hEdit : st.edit = .none)
    (hOk : act ctx st = .ok result after) :
    Covered ctx 0 st after :=
  (Covered.start hState hEdit).calm hCalm hOk

-- Locals

theorem remap_state (hState : st.Regular ctx.plan)
    (hOk : remap slot ctx st = .ok target after) :
    target = planned ctx.plan slot ∧ st = after := by
  unfold remap at hOk
  rw [get_bind] at hOk
  rcases slotNumber_ok hOk with ⟨hTarget, hSame⟩
  rw [hState.locals.placed.address_eq] at hTarget
  exact ⟨hTarget, hSame⟩

/- The locals of the body stay within what is reported, wherever they move. -/
theorem movedEnd_le_reach (st : State) (hOwn : slot + cells ≤ ctx.body.maxLocals) :
    planned ctx.plan slot + cells ≤ st.reach ctx := by
  have hRooms : planned ctx.plan slot + cells ≤
      planned ctx.plan (slot + cells) := by
    clear hOwn
    induction cells with
    | zero => exact Nat.le_refl _
    | succ cells ih =>
      have hRoom := plannedRoom_pos ctx.plan (slot + cells)
      rw [← Nat.add_assoc, ← Nat.add_assoc, planned_succ]
      omega
  have hEnd := planned_mono ctx.plan hOwn
  unfold State.reach
  omega

theorem covered_store (hCovered : Covered ctx 0 start st) (hTag : tag.Definite)
    (hCells : kind.cells = tag.dstWidth)
    (hRoom : tag.HasRoom ctx.plan slot)
    (hOk : (do
      let target ← putLocal slot tag name
      useInstead found (.store kind target)) ctx st = .ok () after) :
    Covered ctx 0 start after := by
  have hState := hCovered.regular
  rcases bind_ok.mp hOk with ⟨target, stored, hPutLocal, hUse⟩
  unfold putLocal at hPutLocal
  rw [get_bind] at hPutLocal
  cases hPut : st.locals.put slot tag name with
  | none =>
    simp only [hPut] at hPutLocal
    cases hPutLocal
  | some result =>
    rcases result with ⟨address, locals⟩
    simp only [hPut] at hPutLocal
    rcases bind_ok.mp hPutLocal with ⟨_, changed, hChange, hNumber⟩
    rcases slotNumber_ok hNumber with ⟨rfl, rfl⟩
    cases hChange
    rcases hState.locals.put hTag hRoom hPut with ⟨hLocals, rfl, hEnd⟩
    have hStored : Covered ctx 0 start { st with locals := locals } :=
      hCovered.quiet (Quiet.of_same hState (Upholds.refl _) hLocals hState.agreed rfl
        (.inl rfl) rfl)
    refine hStored.useInstead ?_ ?_ hUse
    · exact ⟨Nat.zero_le _, Nat.le_refl _⟩
    · refine Nat.le_trans ?_ (localsPeak_le_reach ctx _)
      simp only [Instruction.localsEnd, hCells]
      exact hEnd

section

variable (hState : st.Regular ctx.plan)
variable (hEdit : st.edit = .none)
include hState hEdit

theorem covered_increment {delta : Int} (hOwn : slot + 1 ≤ ctx.body.maxLocals)
    (hOk : increment slot delta ctx st = .ok () after) :
    Covered ctx 0 st after := by
  unfold increment at hOk
  rcases bind_ok.mp hOk with ⟨target, _, hRemap, hOk⟩
  rcases remap_state hState hRemap with ⟨rfl, rfl⟩
  refine (Covered.start hState hEdit).useInstead ?_ ?_ hOk
  · exact ⟨Nat.le_refl _, Nat.le_refl _⟩
  · exact movedEnd_le_reach st hOwn

theorem covered_load (hTag : tag.Definite) (hCells : kind.cells = tag.dstWidth)
    (hEnd : target + kind.cells ≤ st.reach ctx)
    (hOk : (do
      useInstead found (.load kind target)
      push tag name) ctx st = .ok () after) :
    Covered ctx 0 st after := by
  rcases bind_ok.mp hOk with ⟨_, used, hUse, hPush⟩
  unfold useInstead at hUse
  split at hUse
  · have hUsed : Covered ctx (st.stack.dst + kind.cells) st used := by
      refine Covered.replaceFirst hState hEdit ?_ ?_ hUse
      · exact Nat.le_refl _
      · exact hEnd
    have hStack : used.stack = st.stack := by
      cases hUse
      rfl
    refine hUsed.push hTag (Nat.le_of_eq ?_) hPush
    rw [hStack, hCells]
  · cases hUse
    exact (calm_push name hTag).covered hState hEdit hPush

theorem covered_loadPrimitive (hOwn : slot + kind.cells ≤ ctx.body.maxLocals)
    (hOk : loadPrimitive kind slot ctx st = .ok () after) :
    Covered ctx 0 st after := by
  unfold loadPrimitive at hOk
  rcases bind_ok.mp hOk with ⟨target, _, hRemap, hOk⟩
  rcases remap_state hState hRemap with ⟨rfl, rfl⟩
  exact covered_load hState hEdit (Tag.concrete_ofKind kind).definite
    (Tag.dstWidth_ofKind kind).symm (movedEnd_le_reach st hOwn) hOk

theorem covered_loadReference (hOk : loadReference slot ctx st = .ok () after) :
    Covered ctx 0 st after := by
  unfold loadReference at hOk
  rw [get_bind] at hOk
  by_cases hVoid : (st.locals.tagAt slot).isVoid = true
  · rw [if_pos hVoid] at hOk
    cases hOk
  rw [if_neg hVoid, bind_ok] at hOk
  rcases hOk with ⟨target, _, hRemap, hOk⟩
  rcases remap_state hState hRemap with ⟨rfl, rfl⟩
  refine covered_load hState hEdit (hState.locals.definite slot)
    (Tag.cells_valueKind _) ?_ hOk
  rw [Tag.cells_valueKind]
  exact Nat.le_trans (hState.locals.end_le_peak (by simpa using hVoid))
    (localsPeak_le_reach ctx st)

theorem covered_storePrimitive
    (hOk : storePrimitive kind slot ctx st = .ok () after) :
    Covered ctx 0 st after := by
  unfold storePrimitive at hOk
  rcases bind_ok.mp hOk with ⟨_, popped, hPop, hOk⟩
  refine covered_store ((calm_popKind kind).covered hState hEdit hPop)
    (Tag.concrete_ofKind kind).definite (Tag.dstWidth_ofKind kind).symm ?_ hOk
  intro hPayload
  cases kind <;> cases hPayload

theorem covered_storeReference (hTyped : ctx.reg.Typed)
    (hOk : storeReference slot ctx st = .ok () after) :
    Covered ctx 0 st after := by
  unfold storeReference at hOk
  rw [tagAt_bind, get_bind] at hOk
  rcases bind_ok.mp hOk with ⟨_, turned, hTurn, hOk⟩
  have hTurned := (covers_convertTop hTyped hState
    (agreeable_storedAs (hState.stack.tagAt 0) _) hTurn).covered hEdit
  rcases bind_ok.mp hOk with ⟨top, popped, hPop, hOk⟩
  have hPopped := hTurned.calm (calm_withStack OperandStack.upholds_popEntry) hPop
  rcases popEntry_ok hPop with ⟨rfl, _⟩
  have hEntries := entries_convertTop hTurn
  cases hOld : st.stack.entries with
  | nil =>
    simp only [State.bench, hEntries, hOld] at hOk
    cases hOk
    exact hPopped
  | cons entry rest =>
    have hTop : turned.bench.entries.head? = some
        { entry with
          tag := converted entry.tag (storedAs entry.tag (st.locals.room slot)) } := by
      have hTag : st.stack.tagAt 0 = entry.tag := by
        rw [OperandStack.tagAt_eq, hOld]
        rfl
      rw [hTag] at hEntries
      change turned.stack.entries.head? = _
      rw [hEntries, hOld]
      rfl
    rw [hTop] at hOk
    have hDefinite : (converted entry.tag
        (storedAs entry.tag (st.locals.room slot))).Definite :=
      hTurned.regular.stack.definite _ (mem_of_mem_head? hTop)
    refine covered_store hPopped hDefinite (Tag.cells_valueKind _) ?_ hOk
    intro hPayload
    rw [← hState.locals.placed.room_eq]
    exact storedAs_payload hPayload

-- Array elements

theorem covered_loadReferenceElement
    (hOk : loadReferenceElement ctx st = .ok () after) :
    Covered ctx 0 st after := by
  unfold loadReferenceElement at hOk
  rw [tagAt_bind] at hOk
  generalize hElement : (if (st.stack.tagAt 1).isNull then Tag.null
    else (st.stack.tagAt 1).elementOf) = element at hOk
  have hDefinite : element.Definite := by
    rw [← hElement]
    split
    · decide
    · exact (hState.stack.tagAt 1).elementOf
  rcases bind_ok.mp hOk with ⟨_, indexed, hIndex, hOk⟩
  have hIndexed := (calm_popKind .int).covered hState hEdit hIndex
  rcases bind_ok.mp hOk with ⟨_, popped, hPop, hOk⟩
  have hPopped := hIndexed.calm calm_popReference hPop
  split at hOk
  · rename_i hPayload
    rcases bind_ok.mp hOk with ⟨_, replaced, hReplace, hPush⟩
    have hReplaced : Covered ctx 2 st replaced :=
      hPopped.replace (.inr (by decide)) (Nat.zero_le _) hReplace
    have hTwo := Tag.dstWidth_of_isPayload hPayload
    exact hReplaced.push hDefinite (by omega) hPush
  · exact hPopped.calm (calm_push none hDefinite) hOk

theorem covered_loadElement {kind : ArrayKind}
    (hOk : loadElement kind ctx st = .ok () after) :
    Covered ctx 0 st after := by
  have hOthers : Calm (do
      popKind .int
      let _ ← popReference
      push (.ofKind kind.valueKind) none) :=
    (calm_popKind _).bind fun _ => calm_popReference.bind fun _ =>
      calm_push none (Tag.concrete_ofKind _).definite
  cases kind with
  | reference => exact covered_loadReferenceElement hState hEdit hOk
  | _ => exact hOthers.covered hState hEdit hOk

theorem covered_storeReferenceElement (hTyped : ctx.reg.Typed)
    (hOk : storeReferenceElement ctx st = .ok () after) :
    Covered ctx 0 st after := by
  have hRest : Calm (do
      let _ ← pop
      popKind .int
      let _ ← popReference) :=
    calm_pop.bind fun _ => (calm_popKind _).bind fun _ => calm_popReference.bind fun _ =>
      Along.pure _
  unfold storeReferenceElement at hOk
  rw [tagAt_bind] at hOk
  have hElement := (hState.stack.tagAt 2).elementOf
  split at hOk
  · rcases bind_ok.mp hOk with ⟨_, turned, hTurn, hOk⟩
    have hTurned := (covers_convertTop hTyped hState (.inl hElement) hTurn).covered hEdit
    split at hOk
    · rcases bind_ok.mp hOk with ⟨_, replaced, hReplace, hOk⟩
      have hReplaced : Covered ctx 0 st replaced :=
        hTurned.replace (.inr (by decide)) (Nat.zero_le _) hReplace
      exact hReplaced.calm hRest hOk
    · exact hTurned.calm hRest hOk
  · rcases bind_ok.mp hOk with ⟨_, boxed, hBox, hOk⟩
    have hConsumer : (if (st.stack.tagAt 2).isValue then
        (st.stack.tagAt 2).elementOf else Tag.object).Definite := by
      split
      · exact hElement
      · decide
    exact ((covers_boxTopFor hTyped hState hConsumer hBox).covered hEdit).calm hRest hOk

theorem covered_storeElement (hTyped : ctx.reg.Typed) {kind : ArrayKind}
    (hOk : storeElement kind ctx st = .ok () after) :
    Covered ctx 0 st after := by
  have hOthers : Calm (do
      popKind kind.valueKind
      popKind .int
      let _ ← popReference) :=
    (calm_popKind _).bind fun _ => (calm_popKind _).bind fun _ =>
      calm_popReference.bind fun _ => Along.pure _
  cases kind with
  | reference => exact covered_storeReferenceElement hState hEdit hTyped hOk
  | _ => exact hOthers.covered hState hEdit hOk

end

-- Types

theorem calm_popLengths (count : Nat) : Calm (popLengths count) := by
  induction count with
  | zero => exact Along.pure _
  | succ count ih => exact (calm_popKind _).bind fun _ => ih

theorem stack_checkZeroFill {element : Tag}
    (hOk : checkZeroFill element ctx st = .ok () after) :
    after.stack = st.stack := by
  have hNoting : Noting (checkZeroFill element) :=
    (noting_valueClass _).bind fun _ => .ite (noting_diagnose _) (.pure _)
  rw [show after = _ from hNoting _ _ _ _ hOk]

/- Code is put before an element while the stack stays as it is. -/
theorem Covers.of_emitted {code : List Instruction} (hState : st.Regular ctx.plan)
    (hWithin : Within st.stack.peak st.stack.dst code)
    (hDepth : depthAfter st.stack.dst code ≤ st.stack.dst)
    (hEnds : ∀ i ∈ code, i.localsEnd = 0) :
    Covers ctx st
      { st with edit := st.edit.emit code, modified := true } :=
  Covers.of_code hState (Upholds.refl _) rfl rfl rfl (Nat.le_refl _) rfl hWithin hDepth
    (fun i hMember => by rw [hEnds i hMember]; exact Nat.zero_le _)

/- A value on the stack has its cells there. -/
theorem dstWidth_tagAt_of_payload (hStack : stack.Regular)
    (hPayload : (stack.tagAt 0).isPayload = true) :
    2 ≤ stack.dst := by
  have hTop : stack.entries ≠ [] := by
    intro hEmpty
    rw [OperandStack.tagAt_eq, hEmpty] at hPayload
    cases hPayload
  rw [← Tag.dstWidth_of_isPayload hPayload]
  exact dstWidth_tagAt_le hStack hTop

section

variable (hState : st.Regular ctx.plan)
variable (hEdit : st.edit = .none)
include hState hEdit

theorem covered_newRefArray (hOk : newRefArray type ctx st = .ok () after) :
    Covered ctx 0 st after := by
  unfold newRefArray at hOk
  rw [read_bind] at hOk
  rcases bind_ok.mp hOk with ⟨_, popped, hPop, hOk⟩
  have hPopped := (calm_popKind .int).covered hState hEdit hPop
  -- An array of another form takes one cell like the array it stands for.
  have hArray {between : State} {payload : Tag}
      (hBetween : Covered ctx 1 st between)
      (hPayload : payload.Definite)
      (hOk : push (payload.arrayOf 1) none ctx between = .ok () after) :
      Covered ctx 0 st after := by
    have hPos := (payload.arrayOf 1).dstWidth_pos
    exact hBetween.push (hPayload.arrayOf 1) (by omega) hOk
  split at hOk
  · have hPayload := (ctx.reg.tagOfRef type).definite_payloadOf
    generalize (ctx.reg.tagOfRef type).payloadOf = payload at hOk hPayload
    unfold newPayloadArray at hOk
    split at hOk
    · rw [read_bind] at hOk
      rcases hType : ctx.reg.typeOf? payload with _ | ⟨base | unboxed⟩ <;>
        simp only [hType] at hOk
      · cases hOk
      · cases hOk
      · rcases bind_ok.mp hOk with ⟨_, replaced, hReplace, hOk⟩
        refine hArray (hPopped.replace (.inr ?_) (Nat.zero_le _) hReplace) hPayload hOk
        exact ⟨Nat.le_refl 1, Nat.le_refl 1⟩
    · rcases bind_ok.mp hOk with ⟨_, replaced, hReplace, hOk⟩
      rcases bind_ok.mp hOk with ⟨_, checked, hCheck, hOk⟩
      have hReplaced : Covered ctx 1 st replaced :=
        hPopped.replace (.inr (by decide)) (Nat.zero_le _) hReplace
      exact hArray (hReplaced.calm (calm_checkZeroFill payload) hCheck) hPayload hOk
  · exact hPopped.calm (calm_push none ((ctx.reg.concrete_tagOfRef type).definite.arrayOf 1))
      hOk

/-
  The form that takes its place takes one length for each
  dimension. Without any it takes nothing, and then the array
  that is pushed pays for what it leaves.
-/
theorem covered_newMultiArray {dimensions : Nat}
    (hOk : newMultiArray type dimensions ctx st = .ok () after) :
    Covered ctx 0 st after := by
  unfold newMultiArray at hOk
  rw [read_bind] at hOk
  rcases bind_ok.mp hOk with ⟨_, popped, hPop, hOk⟩
  have hPopped := (calm_popLengths dimensions).covered hState hEdit hPop
  have hPayload := (ctx.reg.tagOfRef type).definite_payloadOf
  generalize (ctx.reg.tagOfRef type).payloadOf = payload at hOk hPayload
  have hPos := payload.dstWidth_pos
  -- What is left to do once the form is put in its place.
  have hRest {between : State} {owed : Nat}
      (hBetween : Covered ctx owed st between)
      (hOwed : owed ≤ between.stack.dst + 1)
      (hOk : (do
        if dimensions = payload.depth then
          checkZeroFill payload.elementOf
        push payload none : Simulation Unit) ctx between = .ok () after) :
      Covered ctx 0 st after := by
    split at hOk
    · rcases bind_ok.mp hOk with ⟨_, checked, hCheck, hOk⟩
      have hStack := stack_checkZeroFill hCheck
      exact (hBetween.calm (calm_checkZeroFill _) hCheck).push hPayload
        (by rw [hStack]; omega) hOk
    · exact hBetween.push hPayload (by omega) hOk
  split at hOk
  · rcases hType : ctx.reg.typeOf? payload with _ | ⟨base | unboxed⟩ <;>
      simp only [hType] at hOk
    · exact hRest hPopped (Nat.zero_le _) hOk
    · exact hRest hPopped (Nat.zero_le _) hOk
    · rw [bind_ok] at hOk
      rcases hOk with ⟨_, replaced, hReplace, hOk⟩
      cases dimensions with
      | zero =>
        cases hPop
        have hReplaced : Covered ctx (st.stack.dst + 1) st replaced := by
          refine Covered.replaceFirst hState hEdit ?_ (Nat.zero_le _) hReplace
          exact Nat.le_refl _
        have hStack : replaced.stack = st.stack := by
          cases hReplace
          rfl
        exact hRest hReplaced (Nat.le_of_eq (by rw [hStack])) hOk
      | succ dimensions =>
        have hReplaced : Covered ctx 1 st replaced := by
          refine hPopped.replace (.inr ⟨?_, ?_⟩) (Nat.zero_le _) hReplace
          · exact Nat.le_add_left 1 dimensions
          · exact Nat.le_refl 1
        exact hRest hReplaced (Nat.le_add_left 1 _) hOk
  · exact hPopped.calm (calm_push none hPayload) hOk

theorem covered_checkCast (hTyped : ctx.reg.Typed)
    (hOk : checkCast type ctx st = .ok () after) :
    Covered ctx 0 st after := by
  have hTarget := (ctx.reg.concrete_tagOfRef type).definite
  unfold checkCast at hOk
  rw [read_bind] at hOk
  generalize ctx.reg.tagOfRef type = target at hOk hTarget
  have hRest : Calm (do
      let found ← popReference
      push (if found.isNull then .null else target) none) := by
    refine calm_popReference.bind fun found => calm_push none ?_
    split
    · decide
    · exact hTarget
  rw [tagAt_bind] at hOk
  split at hOk
  · exact (Covered.start hState hEdit).remove hOk
  split at hOk
  · rcases bind_ok.mp hOk with ⟨_, boxed, hBox, hOk⟩
    have hBoxed := covers_convertTop hTyped hState
      (hState.stack.tagAt 0).agreeable_referenceOf hBox
    exact (hBoxed.covered hEdit).calm hRest hOk
  · exact hRest.covered hState hEdit hOk

theorem covered_flagNotNull (hTyped : ctx.reg.Typed)
    (hPayload : (st.stack.tagAt 0).isPayload = true)
    (hOk : flagNotNull (st.stack.tagAt 0) ctx st = .ok () after) :
    Covered ctx 0 st after := by
  have hRest : Calm (do
      let _ ← pop
      push .int none
      reserveMore 1) :=
    calm_pop.bind fun _ => (calm_push none (by decide)).bind fun _ =>
      calm_changeStack fun stack => OperandStack.upholds_reserve stack _
  unfold flagNotNull at hOk
  rcases bind_ok.mp hOk with ⟨info, _, hClass, hOk⟩
  rcases valueClass_ok hClass with ⟨hInfo, rfl⟩
  rcases (hTyped.class? hInfo).cells_isNull with ⟨hTaken, hLeft⟩
  have hTwo := dstWidth_tagAt_of_payload hState.stack hPayload
  have hCounted := hState.stack.counted.peak
  have hOne : (Instruction.plain .iconst1).taken = 0 ∧
      (Instruction.plain .iconst1).left = 1 := by decide
  have hXor : (Instruction.plain .ixor).taken = 2 ∧ (Instruction.plain .ixor).left = 1 := by decide
  have hEmitted : Covers ctx st
      { st with
        edit := st.edit.emit
          [.invoke .static info.isNull, .plain .iconst1, .plain .ixor]
        modified := true } := by
    refine Covers.of_emitted hState ?_ ?_ ?_
    · simp only [within_cons, within_nil, Instruction.depthAfter, hTaken, hLeft, hOne, hXor]
      omega
    · simp only [depthAfter_cons, depthAfter_nil, Instruction.depthAfter, hTaken, hLeft, hOne, hXor]
      omega
    · simp [Instruction.localsEnd]
  iterate 3
    rcases bind_ok.mp hOk with ⟨_, _, hEmit, hOk⟩
    cases hEmit
  rcases bind_ok.mp hOk with ⟨_, removed, hRemove, hOk⟩
  simp only [Edit.emit] at hEmitted
  have hRemoved : Covered ctx 0 st removed := by
    refine (hEmitted.covered hEdit).remove ?_
    rw [← hRemove]
    simp [Edit.add]
  exact hRemoved.calm hRest hOk

theorem covered_instanceOf (hTyped : ctx.reg.Typed)
    (hOk : instanceOf type ctx st = .ok () after) :
    Covered ctx 0 st after := by
  unfold instanceOf at hOk
  rw [read_bind, tagAt_bind] at hOk
  have hRest {between : State} {owed : Nat}
      (hBetween : Covered ctx owed st between)
      (hOwed : owed ≤ 1)
      (hOk : (do
        let _ ← popReference
        push .int none) ctx between = .ok () after) :
      Covered ctx 0 st after := by
    rcases bind_ok.mp hOk with ⟨_, popped, hPop, hPush⟩
    have hWidth : Tag.int.dstWidth = 1 := by decide
    exact (hBetween.calm calm_popReference hPop).push (by decide) (by omega) hPush
  split at hOk
  · rename_i hFlag
    exact covered_flagNotNull hState hEdit hTyped (Bool.and_eq_true_iff.mp hFlag).1 hOk
  split at hOk
  · split at hOk
    case h_2 => exact hRest (Covered.start hState hEdit) (Nat.zero_le _) hOk
    case h_1 =>
      rcases bind_ok.mp hOk with ⟨_, replaced, hReplace, hOk⟩
      have hReplaced : Covered ctx 1 st replaced := by
        refine (Covered.start hState hEdit).replace (.inr ?_) (Nat.zero_le _) hReplace
        exact ⟨Nat.le_refl 1, Nat.le_refl 1⟩
      exact hRest hReplaced (Nat.le_refl _) hOk
  split at hOk
  · rcases bind_ok.mp hOk with ⟨_, boxed, hBox, hOk⟩
    have hBoxed := covers_convertTop hTyped hState
      (hState.stack.tagAt 0).agreeable_referenceOf hBox
    exact hRest (hBoxed.covered hEdit) (Nat.zero_le _) hOk
  · exact hRest (Covered.start hState hEdit) (Nat.zero_le _) hOk

end

-- Rearrangements

theorem within_pops (hDepth : depth ≤ limit) (widths : List Nat) :
    Within limit depth (widths.map popOf) := by
  induction widths generalizing depth with
  | nil => exact (within_nil _ _).mpr hDepth
  | cons width widths ih =>
    have hLess : (popOf width).depthAfter depth ≤ depth := by
      unfold popOf
      split
      · exact Nat.sub_le depth 2
      · exact Nat.sub_le depth 1
    rw [map_cons, within_cons]
    exact ⟨hDepth, ih (Nat.le_trans hLess hDepth)⟩

/- Instructions that are put before an element one by one. -/
theorem emits_forM {items : List α} {code : α → Instruction}
    (hOk : (items.forM fun item => emit (code item)) ctx st = .ok () after) :
    after.edit = st.edit.emit (items.map code) ∧ after = { st with
          edit := after.edit
          modified := after.modified } := by
  induction items generalizing st with
  | nil =>
    cases hOk
    exact ⟨(Edit.emit_nil _).symm, rfl⟩
  | cons item items ih =>
    rcases forM_cons_ok hOk with ⟨emitted, hEmit, hOk⟩
    cases hEmit
    rcases ih hOk with ⟨hEdit, hFrame⟩
    refine ⟨?_, ?_⟩
    · rw [hEdit]
      simp [Edit.emit, Edit.add]
    · rw [hFrame]

theorem dstWidth_cases (tag : Tag) : tag.dstWidth = 1 ∨ tag.dstWidth = 2 := by
  have hPos := tag.dstWidth_pos
  have hTwo := tag.dstWidth_le_two
  omega

/- The instructions that exchange two values of some cells. -/
def swapForm (under top : Nat) : List Shuffle :=
  match under, top with
  | 1, 1 => []
  | 2, 1 => [.dupX2, .pop]
  | 1, 2 => [.dup2X1, .pop2]
  | _, _ => [.dup2X2, .pop2]

/- For a moment, the value on top is on the stack twice. -/
theorem within_swapForm {under top : Nat} (hUnder : under = 1 ∨ under = 2)
    (hTop : top = 1 ∨ top = 2) (hDepth : top + under ≤ depth)
    (hLimit : depth + top ≤ limit) :
    Within limit depth ((swapForm under top).map .shuffle) := by
  rcases hTop with rfl | rfl <;> rcases hUnder with rfl | rfl <;>
    simp only [swapForm, map_cons, map_nil, within_cons, within_nil,
      Instruction.depthAfter, Instruction.taken, Instruction.left, Shuffle.taken, Shuffle.left] <;>
    omega

/- An exchange that has two values keeps the cells of the stack. -/
theorem swap_settled (hSettled : stack.swap.issues = []) :
    2 ≤ stack.entries.length ∧ stack.swap.dst = stack.dst := by
  have hNarrow (stack : OperandStack) (depth : Nat) :
      (stack.requireNarrowAt depth).dst = stack.dst := by
    unfold OperandStack.requireNarrowAt
    simp only
    split <;> rfl
  unfold OperandStack.swap at hSettled ⊢
  by_cases hShort : stack.size < 2
  · simp only [OperandStack.require, if_pos hShort, OperandStack.report] at hSettled
    simp at hSettled
  · simp only [OperandStack.require, if_neg hShort]
    refine ⟨Nat.le_of_not_lt hShort, ?_⟩
    split <;> simp only [hNarrow]

theorem widths_le_dst (hStack : stack.Regular) (hSize : 2 ≤ stack.entries.length) :
    (stack.tagAt 0).dstWidth + (stack.tagAt 1).dstWidth ≤ stack.dst := by
  rw [hStack.counted.dst]
  rcases hEntries : stack.entries with _ | ⟨top, _ | ⟨under, rest⟩⟩
  · rw [hEntries] at hSize
    cases hSize
  · rw [hEntries] at hSize
    simp at hSize
  · simp only [OperandStack.tagAt, hEntries, dstCells, map_cons, total_cons]
    simp only [getElem?_cons_zero, getElem?_cons_succ, Option.map_some, Option.getD_some]
    omega

/- Entries that cover some cells are there. -/
theorem coverCells_le {entries : List Entry}
    (hCover : OperandStack.coverCells entries cells = some count) :
    count ≤ entries.length := by
  induction entries generalizing cells count with
  | nil =>
    cases cells <;> cases hCover
    exact Nat.le_refl _
  | cons entry entries ih =>
    cases cells with
    | zero =>
      cases hCover
      exact Nat.zero_le _
    | succ cells =>
      unfold OperandStack.coverCells at hCover
      split at hCover
      · cases hCover
      · rcases Option.map_eq_some_iff.mp hCover with ⟨more, hMore, rfl⟩
        exact Nat.succ_le_succ (ih hMore)

/- A duplication that has a shape finds its entries on the stack. -/
theorem dupShape_some {after : OperandStack}
    (hShape : stack.dupShape copied skipped = (some (count, depth), after)) :
    after = stack ∧ count + depth ≤ stack.entries.length := by
  unfold OperandStack.dupShape at hShape
  cases hEntries : stack.dupEntries? copied skipped with
  | none =>
    simp only [hEntries] at hShape
    split at hShape <;> cases hShape
  | some shape =>
    simp only [hEntries] at hShape
    cases hShape
    refine ⟨rfl, ?_⟩
    unfold OperandStack.dupEntries? at hEntries
    rcases Option.bind_eq_some_iff.mp hEntries with ⟨first, hFirst, hEntries⟩
    rcases Option.bind_eq_some_iff.mp hEntries with ⟨second, hSecond, hEntries⟩
    cases hEntries
    have hCount := coverCells_le hFirst
    have hDepth := coverCells_le hSecond
    rw [drop_zero] at hCount
    rw [length_drop] at hDepth
    omega

/- The direct form takes what is copied and skipped, and leaves a copy more. -/
theorem directDup_cells {copy skip : Nat} {direct : Shuffle}
    (hDirect : directDup? copy skip = some direct) :
    direct.taken = copy + skip ∧ direct.left = copy + skip + copy := by
  unfold directDup? at hDirect
  split at hDirect <;> cases hDirect <;> exact ⟨rfl, rfl⟩

theorem dstCells_take_le (hStack : stack.Regular) (count depth : Nat) :
    dstCells (stack.entries.take count) +
        dstCells ((stack.entries.drop count).take depth) ≤ stack.dst := by
  have hSplit : stack.entries = stack.entries.take count ++
      ((stack.entries.drop count).take depth ++ (stack.entries.drop count).drop depth) := by
    rw [take_append_drop, take_append_drop]
  have hAll : stack.dst = dstCells (stack.entries.take count) +
      (dstCells ((stack.entries.drop count).take depth) +
        dstCells ((stack.entries.drop count).drop depth)) := by
    rw [hStack.counted.dst]
    conv_lhs => rw [hSplit]
    simp only [dstCells, map_append, total_append]
  omega

section

variable (hState : st.Regular ctx.plan)
variable (hEdit : st.edit = .none)
include hState hEdit

theorem covered_popOne
    (hOk : popOne ctx st = .ok () after) :
    Covered ctx 0 st after := by
  unfold popOne at hOk
  rcases bind_ok.mp hOk with ⟨tag, popped, hPop, hOk⟩
  have hPopped := (calm_withStack fun stack =>
    OperandStack.upholds_popIf stack _ _).covered hState hEdit hPop
  split at hOk
  · exact hPopped.replace (.inr (by decide)) (Nat.zero_le _) hOk
  · cases hOk
    exact hPopped

theorem covered_popTwo
    (hOk : popTwo ctx st = .ok () after) :
    Covered ctx 0 st after := by
  unfold popTwo at hOk
  rw [get_bind] at hOk
  cases hCount : st.stack.entriesFor? 0 2 with
  | none =>
    simp only [hCount] at hOk
    exact ((calm_withStack fun stack => OperandStack.upholds_popIf stack _ _).bind
      fun _ => Along.pure _).covered hState hEdit hOk
  | some count =>
    simp only [hCount] at hOk
    rcases bind_ok.mp hOk with ⟨_, popped, hPop, hOk⟩
    have hPopped := calm_popMany count _ _ _ _ hPop hState
    split at hOk
    · rcases bind_ok.mp hOk with ⟨_, emitted, hEmit, hRemove⟩
      rcases emits_forM hEmit with ⟨hCode, hFrame⟩
      have hStart := Nat.le_trans hState.stack.counted.peak hPopped.raises.stack
      have hAll : emitted.edit = Edit.none.emit (((st.stack.entries.take count).map
          (·.tag.dstWidth)).map popOf) := by
        rw [hCode, hPopped.edit, hEdit]
      have hEmitted : Covered ctx 0 st emitted := by
        rw [hFrame, hAll]
        refine ((Covered.start hState hEdit).quiet hPopped).edited ?_ ?_
        · rw [Edit.before_emit, Edit.fate_emit]
          exact (append_nil _).symm ▸ within_pops (Nat.le_trans hStart (Nat.le_max_left _ _)) _
        · rw [Edit.before_emit, Edit.fate_emit]
          exact (append_nil _).symm ▸ forall_mem_map.mpr fun _ _ => Nat.zero_le _
      exact hEmitted.remove hRemove
    · cases hOk
      exact (Covered.start hState hEdit).quiet hPopped

theorem covered_swap
    (hSettled : after.stack.issues = []) (hOk : swap ctx st = .ok () after) :
    Covered ctx 0 st after := by
  have hApply : swap ctx st = (do
      changeStack OperandStack.swap
      let form := swapForm (st.stack.tagAt 1).dstWidth (st.stack.tagAt 0).dstWidth
      if !form.isEmpty then
        form.forM fun op => emit (.shuffle op)
        removeNode
        reserveMore (st.stack.tagAt 0).dstWidth : Simulation Unit) ctx st := rfl
  rw [hApply] at hOk
  rcases bind_ok.mp hOk with ⟨_, swapped, hSwap, hOk⟩
  cases hSwap
  have hSwapped : Quiet ctx st { st with stack := st.stack.swap } :=
    Quiet.of_same hState (OperandStack.upholds_swap _) hState.locals.follows
      hState.agreed rfl (.inl rfl) rfl
  split at hOk
  · rcases bind_ok.mp hOk with ⟨_, emitted, hEmit, hOk⟩
    rcases emits_forM hEmit with ⟨hCode, hFrame⟩
    rcases bind_ok.mp hOk with ⟨_, removed, hRemove, hReserve⟩
    cases hRemove
    cases hReserve
    have hIssues : st.stack.swap.issues = [] := by
      rw [hFrame] at hSettled
      exact hSettled
    rcases swap_settled hIssues with ⟨hSize, hDst⟩
    have hWidths := widths_le_dst hState.stack hSize
    rw [hFrame, hCode, hEdit]
    have hReserved : Covered ctx 0 st
        { st with
          stack := st.stack.swap.reserve
            (st.stack.swap.dst + (st.stack.tagAt 0).dstWidth) } :=
      (Covered.start hState hEdit).quiet (Quiet.of_same hState
        ((OperandStack.upholds_swap _).trans (OperandStack.upholds_reserve _ _))
        hState.locals.follows hState.agreed rfl (.inl rfl) rfl)
    refine hReserved.edited ?_ ?_
    · change Within _ _ ((Edit.emit .none _).before ++ [])
      rw [append_nil, Edit.before_emit]
      refine within_swapForm (dstWidth_cases _) (dstWidth_cases _) hWidths ?_
      rw [← hDst]
      exact Nat.le_trans (Nat.le_max_right _ _) (Nat.le_max_left _ _)
    · change ∀ i ∈ (Edit.emit .none _).before ++ [], _
      rw [append_nil, Edit.before_emit]
      exact forall_mem_map.mpr fun _ _ => Nat.zero_le _
  · cases hOk
    exact (Covered.start hState hEdit).quiet hSwapped

theorem covered_dupBySpilling
    (hOk : dupBySpilling count depth ctx st = .ok () after) :
    Covered ctx 0 st after := by
  unfold dupBySpilling at hOk
  rcases bind_ok.mp hOk with ⟨spilled, stored, hSpill, hOk⟩
  rcases covers_spill hState hSpill with ⟨hStored, hKept⟩
  rcases bind_ok.mp hOk with ⟨_, loaded, hReload, hRemove⟩
  have hLoaded : Covers ctx stored loaded := by
    refine covers_reloadAll hStored.regular (fun item hItem => hKept item ?_) hReload
    simp only [mem_append, mem_reverse] at hItem
    rcases hItem with (hCopy | hSkip) | hCopy
    · exact mem_of_mem_take hCopy
    · exact mem_of_mem_drop hSkip
    · exact mem_of_mem_take hCopy
  exact ((hStored.trans hLoaded).covered hEdit).remove hRemove

theorem covered_dup (hOk : dup op copied skipped ctx st = .ok () after) :
    Covered ctx 0 st after := by
  unfold dup at hOk
  rw [bind_ok] at hOk
  rcases hOk with ⟨shape, shaped, hShape, hOk⟩
  rcases withStack_state hShape with ⟨hResult, hShaped⟩
  cases shape with
  | none =>
    cases hOk
    exact (calm_withStack fun stack =>
      OperandStack.upholds_dupShape stack copied skipped).covered hState hEdit hShape
  | some shape =>
    rcases shape with ⟨count, depth⟩
    have hPair : st.stack.dupShape copied skipped =
        (some (count, depth), (st.stack.dupShape copied skipped).2) := by
      rw [hResult]
    rcases dupShape_some hPair with ⟨hSame, hSize⟩
    have hStart : shaped = st := by
      rw [hShaped, hSame]
    subst hStart
    clear hShaped hShape
    simp only at hOk
    rw [get_bind] at hOk
    have hCells := dstCells_take_le hState.stack count depth
    generalize hSkip : dstCells ((shaped.stack.entries.drop count).take depth) = skip
      at hOk hCells
    cases hDirect : directDup? (dstCells (shaped.stack.entries.take count)) skip with
    | none =>
      simp only [hDirect] at hOk
      split at hOk
      · cases hOk
      · exact covered_dupBySpilling hState hEdit hOk
    | some direct =>
      simp only [hDirect] at hOk
      have hCopy : Calm (changeStack (·.dupAt count depth)) :=
        calm_changeStack fun stack => OperandStack.upholds_dupAt stack count depth
      split at hOk
      · rcases bind_ok.mp hOk with ⟨_, replaced, hReplace, hOk⟩
        rcases directDup_cells hDirect with ⟨hTaken, hLeft⟩
        have hReplaced : Covered ctx
            (shaped.stack.dst + dstCells (shaped.stack.entries.take count))
            shaped replaced := by
          refine Covered.replaceFirst hState hEdit ?_ (Nat.zero_le _) hReplace
          simp only [Instruction.depthAfter, Instruction.taken, Instruction.left, hTaken, hLeft]
          omega
        have hAfter := hReplaced.calm hCopy hOk
        refine { hAfter with within := hAfter.within.mono ?_ (Nat.le_refl _) }
        -- The copies are counted once they are on the stack.
        have hPeak : shaped.stack.dst + dstCells (shaped.stack.entries.take count) ≤
            after.stack.peak := by
          cases hReplace
          cases hOk
          simp only [OperandStack.dupAt, OperandStack.require,
            if_neg (Nat.not_lt.mpr (show count + depth ≤ shaped.stack.size from hSize))]
          exact Nat.le_max_right _ _
        omega
      · exact hCopy.covered hState hEdit hOk

theorem covered_shuffle (hSettled : after.stack.issues = [])
    (hOk : shuffle op ctx st = .ok () after) :
    Covered ctx 0 st after := by
  cases op with
  | pop => exact covered_popOne hState hEdit hOk
  | pop2 => exact covered_popTwo hState hEdit hOk
  | swap => exact covered_swap hState hEdit hSettled hOk
  | _ => exact covered_dup hState hEdit hOk

end

-- Fields

theorem State.Regular.marked {plan : Array Nat} (hState : st.Regular plan) :
    st.marked.Regular plan := by
  unfold State.marked
  split
  · exact ⟨hState.stack, hState.locals, hState.agreed⟩
  · exact hState

theorem State.edit_marked (st : State) : st.marked.edit = st.edit := by
  unfold State.marked
  split <;> rfl

/- A state from which coverage is counted: as it is, or with the place marked. -/
def State.MarkedFrom (st marked : State) : Prop :=
  marked = st ∨ marked = st.marked

theorem payloadField?_definite
    (hOk : payloadField? declared accessed ctx st = .ok payload after) :
    st = after ∧ ∀ tag field, payload = some (tag, field) → tag.Definite := by
  unfold payloadField? at hOk
  rw [read_bind] at hOk
  split at hOk
  · cases hType : ctx.reg.typeOf? declared.payloadOf with
    | none =>
      simp only [hType] at hOk
      cases hOk
    | some type =>
      simp only [hType] at hOk
      cases hOk
      refine ⟨rfl, fun tag field hPayload => ?_⟩
      cases hPayload
      exact declared.definite_payloadOf
  · cases hOk
    exact ⟨rfl, nofun⟩

theorem covered_performField (hCovered : Covered ctx 0 start st)
    (hDeclared : declared.Definite)
    (hPayload : ∀ tag field, payload = some (tag, field) → tag.Definite)
    (hOk : performField access declared payload ctx st = .ok () after) :
    Covered ctx 0 start after := by
  have hHeld : ((payload.map Prod.fst).getD declared).Definite := by
    rcases payload with _ | ⟨tag, field⟩
    · exact hDeclared
    · exact hPayload tag field rfl
  rcases bind_ok.mp hOk with ⟨_, moved, hMove, hOk⟩
  have hMoved := hCovered.calm (.first calm_pop (.first calm_popReference
    (.ite (calm_push none hHeld) (.pure _)))) hMove
  rcases payload with _ | ⟨tag, field⟩
  · cases hOk
    exact hMoved
  · exact hMoved.replace (.inl rfl) (Nat.zero_le _) hOk

section

variable (hTyped : ctx.reg.Typed)
variable (hState : st.Regular ctx.plan)
variable (hEdit : st.edit = .none)
include hTyped hState hEdit

/- The value of an access is made ready, and the access done. -/
theorem covered_access {ready : State} {found : Tag × Option (Tag × FieldRef)}
    (hReady : (do
      let payload ← payloadField? (ctx.reg.tagOf accessed.type) accessed
      readyValue access (ctx.reg.tagOf accessed.type) payload
      return (ctx.reg.tagOf accessed.type, payload)) ctx st =
        .ok found ready)
    (hOk : performField access found.1 found.2 ctx ready = .ok () after) :
    Covered ctx 0 st after := by
  have hDeclared := (ctx.reg.concrete_tagOf accessed.type).definite
  rcases bind_ok.mp hReady with ⟨payload, _, hField, hReady⟩
  rcases payloadField?_definite hField with ⟨rfl, hPayload⟩
  rcases bind_ok.mp hReady with ⟨_, turned, hTurn, hSame⟩
  cases hSame
  refine covered_performField ?_ hDeclared hPayload hOk
  unfold readyValue at hTurn
  split at hTurn
  · rcases payload with _ | ⟨tag, field⟩
    · exact (covers_boxTopFor hTyped hState hDeclared hTurn).covered hEdit
    · exact (covers_convertTop hTyped hState (.inl (hPayload tag field rfl)) hTurn).covered hEdit
  · cases hTurn
    exact Covered.start hState hEdit

theorem covered_accessField (hOk : accessField access accessed ctx st = .ok () after) :
    ∃ marked, st.MarkedFrom marked ∧ Covered ctx 0 marked after := by
  rw [accessField_eq] at hOk
  rcases bind_ok.mp hOk with ⟨found, ready, hReady, hOk⟩
  unfold readyField at hReady
  rw [read_bind] at hReady
  split at hReady
  · rw [bind_apply, markSeeding_apply] at hReady
    exact ⟨st.marked, .inr rfl, covered_access hTyped hState.marked
      (st.edit_marked.trans hEdit) hReady hOk⟩
  · exact ⟨st, .inl rfl, covered_access hTyped hState hEdit hReady hOk⟩

end

-- Calls

/- What a call is resolved to takes and returns definite values. -/
theorem resolve_definite {resolved : MethodBinding} {found : List Tag}
    (hArguments : ∀ tag ∈ binding.arguments, tag.Definite)
    (hResult : ∀ tag, binding.result = some tag → tag.Definite)
    (hOk : resolve method binding found ctx st = .ok resolved after) :
    after = st ∧ (∀ tag ∈ resolved.arguments, tag.Definite) ∧
      ∀ tag, resolved.result = some tag → tag.Definite := by
  rcases resolve_ok hOk with ⟨rfl, rfl | ⟨cls, rfl⟩⟩
  · exact ⟨rfl, hArguments, hResult⟩
  · refine ⟨rfl, fun tag hTag => ?_, fun tag hTag => ?_⟩
    · rcases mem_map.mp hTag with ⟨argument, hArgument, rfl⟩
      exact (hArguments argument hArgument).substitute cls
    · rcases Option.map_eq_some_iff.mp hTag with ⟨result, hSome, rfl⟩
      exact (hResult result hSome).substitute cls

section

variable (hTyped : ctx.reg.Typed)
variable (hState : st.Regular ctx.plan)
variable (hEdit : st.edit = .none)
include hTyped hState hEdit

theorem covered_callBound {kind : InvokeKind}
    (hBinding : binding ∈ ctx.reg.bindings)
    (hOk : callBound kind method binding ctx st = .ok () after) :
    Covered ctx 0 st after := by
  unfold callBound at hOk
  split at hOk
  · cases hOk
  rw [bind_ok] at hOk
  rcases hOk with ⟨enough, required, hRequire, hOk⟩
  have hRequired := covers_require hState hRequire
  cases enough with
  | false =>
    cases hOk
    exact hRequired.covered hEdit
  | true =>
    simp only [if_true] at hOk
    rw [bind_ok] at hOk
    rcases hOk with ⟨found, _, hFound, hOk⟩
    cases hFound
    rw [bind_ok] at hOk
    rcases hOk with ⟨resolved, _, hResolve, hOk⟩
    rcases resolve_definite (hTyped.arguments binding hBinding)
      (hTyped.results binding hBinding) hResolve with ⟨rfl, hArguments, hResult⟩
    rcases bind_ok.mp hOk with ⟨_, ready, hConvert, hOk⟩
    have hReady := (hRequired.trans (covers_convertOperands_of_definite hTyped
      hRequired.regular hArguments hConvert)).covered hEdit
    rcases bind_ok.mp hOk with ⟨_, popped, hPop, hOk⟩
    have hPopped := hReady.calm (calm_popMany _) hPop
    cases hTag : resolved.result with
    | none =>
      simp only [hTag] at hOk
      exact hPopped.replace (.inl rfl) (Nat.zero_le _) hOk
    | some tag =>
      simp only [hTag] at hOk
      rcases bind_ok.mp hOk with ⟨_, pushed, hPush, hOk⟩
      exact (hPopped.calm (calm_push none (hResult tag hTag)) hPush).replace
        (.inl rfl) (Nat.zero_le _) hOk

/- The operands of a call are boxed, and what follows leaves the code alone. -/
theorem covered_boxed {consumers : List Tag} {next : Simulation Unit}
    (hConsumers : ∀ tag ∈ consumers, tag.Definite) (hNext : Calm next)
    (hOk : (do
      if ← require consumers.length then
        boxOperands consumers
        next : Simulation Unit) ctx st = .ok () after) :
    Covered ctx 0 st after := by
  rcases bind_ok.mp hOk with ⟨enough, required, hRequire, hOk⟩
  have hRequired := covers_require hState hRequire
  cases enough with
  | false =>
    cases hOk
    exact hRequired.covered hEdit
  | true =>
    simp only [if_true] at hOk
    rcases bind_ok.mp hOk with ⟨_, boxed, hBox, hOk⟩
    exact ((hRequired.trans (covers_boxOperands hTyped hRequired.regular hConsumers
      hBox)).covered hEdit).calm hNext hOk

theorem covered_callPlain {kind : InvokeKind}
    (hOk : callPlain kind method ctx st = .ok () after) :
    Covered ctx 0 st after := by
  unfold callPlain at hOk
  rw [read_bind] at hOk
  refine covered_boxed hTyped hState hEdit ?_ ?_ hOk
  · intro tag hTag
    rcases mem_append.mp hTag with hReceiver | hParameter
    · split at hReceiver
      · rw [mem_singleton.mp hReceiver]
        exact (ctx.reg.concrete_tagOfClass _).definite
      · cases hReceiver
    · rcases mem_map.mp hParameter with ⟨type, _, rfl⟩
      exact (ctx.reg.concrete_tagOf type).definite
  · have hResult := calm_pushResult method.type.result
    refine Along.get.bind fun named => (calm_popMany _).bind fun _ => Along.ite ?_ hResult
    split
    · exact (calm_initialized method _).bind fun _ => hResult
    · exact hResult

theorem covered_call {kind : InvokeKind}
    (hOk : call kind method ctx st = .ok () after) :
    Covered ctx 0 st after := by
  unfold call at hOk
  rw [read_bind] at hOk
  cases hBinding : ctx.reg.binding? method with
  | none =>
    simp only [hBinding] at hOk
    exact covered_callPlain hTyped hState hEdit hOk
  | some binding =>
    simp only [hBinding] at hOk
    exact covered_callBound hTyped hState hEdit (mem_of_find?_eq_some hBinding) hOk

theorem covered_callDynamic {type : MethodType}
    (hOk : callDynamic type ctx st = .ok () after) :
    Covered ctx 0 st after := by
  unfold callDynamic at hOk
  rw [read_bind] at hOk
  refine covered_boxed hTyped hState hEdit ?_ ?_ hOk
  · exact forall_mem_map.mpr fun type _ => (ctx.reg.concrete_tagOf type).definite
  · exact (calm_popMany _).bind fun _ => calm_pushResult _

-- Instructions

theorem covered_useMonitor (hOk : useMonitor ctx st = .ok () after) :
    Covered ctx 0 st after := by
  unfold useMonitor at hOk
  rcases bind_ok.mp hOk with ⟨_, boxed, hBox, hOk⟩
  exact ((covers_boxTopFor hTyped hState (by decide) hBox).covered hEdit).calm
    (calm_popReference.bind fun _ => Along.pure _) hOk

theorem covered_instruction {i : Instruction}
    (hOwn : i.localsEnd ≤ ctx.body.maxLocals) (hSettled : after.stack.issues = [])
    (hOk : instruction i ctx st = .ok () after) :
    ∃ marked, st.MarkedFrom marked ∧ Covered ctx 0 marked after := by
  -- Only an access to a field can mark the place for seeding.
  have hPlain (hCovered : Covered ctx 0 st after) :
      ∃ marked, st.MarkedFrom marked ∧ Covered ctx 0 marked after :=
    ⟨st, .inl rfl, hCovered⟩
  cases i with
  | field access accessed => exact covered_accessField hTyped hState hEdit hOk
  | plain op => exact hPlain ((calm_compute op).covered hState hEdit hOk)
  | pushNull => exact hPlain ((calm_push none (by decide)).covered hState hEdit hOk)
  | pushByte | pushShort => exact hPlain ((calm_push none (by decide)).covered hState hEdit hOk)
  | constant value =>
    have hTag : value.tag.Definite := by
      cases value <;> exact nofun
    exact hPlain ((calm_push none hTag).covered hState hEdit hOk)
  | load kind slot =>
    by_cases hKind : kind = .reference
    · subst hKind
      exact hPlain (covered_loadReference hState hEdit hOk)
    · rw [instruction_load hKind] at hOk
      exact hPlain (covered_loadPrimitive hState hEdit hOwn hOk)
  | store kind slot =>
    by_cases hKind : kind = .reference
    · subst hKind
      exact hPlain (covered_storeReference hState hEdit hTyped hOk)
    · rw [instruction_store hKind] at hOk
      exact hPlain (covered_storePrimitive hState hEdit hOk)
  | increment slot delta => exact hPlain (covered_increment hState hEdit hOwn hOk)
  | arrayLoad kind => exact hPlain (covered_loadElement hState hEdit hOk)
  | arrayStore kind => exact hPlain (covered_storeElement hState hEdit hTyped hOk)
  | arrayLength =>
    exact hPlain ((calm_popReference.bind fun _ => calm_push none (by decide)).covered
      hState hEdit hOk)
  | shuffle op => exact hPlain (covered_shuffle hState hEdit hSettled hOk)
  | invoke kind method => exact hPlain (covered_call hTyped hState hEdit hOk)
  | invokeDynamic target => exact hPlain (covered_callDynamic hTyped hState hEdit hOk)
  | newObject => exact hPlain (calm_create.covered hState hEdit hOk)
  | newArray type =>
    exact hPlain (((calm_popKind _).bind fun _ =>
      calm_push none ((Registry.concrete_tagOfBase type).definite.arrayOf 1)).covered
        hState hEdit hOk)
  | newRefArray type => exact hPlain (covered_newRefArray hState hEdit hOk)
  | newMultiArray type dimensions =>
    exact hPlain (covered_newMultiArray hState hEdit hOk)
  | checkCast type => exact hPlain (covered_checkCast hState hEdit hTyped hOk)
  | instanceOf type => exact hPlain (covered_instanceOf hState hEdit hTyped hOk)
  | monitorEnter | monitorExit => exact hPlain (covered_useMonitor hTyped hState hEdit hOk)

end

end Simulation

end Unboxing
