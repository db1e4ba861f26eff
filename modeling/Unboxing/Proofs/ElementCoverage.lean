import Unboxing.Proofs.Coverage

/-
  What is done before an element is covered: the code that makes
  the paths to a label agree, and what becomes of an instruction.
  Entries of the stack go through scratch locals, and locals are
  all loaded before the first is stored. The operands of an
  instruction are made ready, and then the stack is changed as
  the instruction does.

  Main declarations:
    * `Simulation.covers_reconcile`
    * `Simulation.Quiet`
    * `Simulation.Calm`
    * `Simulation.Covered`
    * `Simulation.Covered.replace`
-/

namespace Unboxing

open List

open OperandStack (Upholds)

namespace Simulation

variable {ctx : Context} {st after : State} {label : Label}
variable {operands : Nat} {found : Join} {move : Move} {agreed : SlotSnapshot}
variable {moves : List Move}

section

variable (hState : st.Regular ctx.plan)
include hState

-- What is agreed

theorem Covers.of_locals {locals : SlotMap}
    (hLocals : SlotMap.Follows ctx.plan st.locals locals)
    {agreed : List (Label × Join)}
    (hAgreed : ∀ entry ∈ agreed, entry.2.Regular ctx.plan) :
    Covers ctx st { st with locals := locals, agreed := agreed } where
  raises := ⟨Nat.le_refl _, hLocals.peak, Nat.le_refl _, .inl rfl⟩
  regular := ⟨hState.stack, hLocals.regular, hAgreed⟩
  fate := id
  code := ⟨[], (append_nil _).symm,
    (within_nil _ _).mpr hState.stack.counted.peak, Nat.le_refl _, nofun⟩

theorem covers_firstJoin
    (hOk : firstJoin label operands ctx st = .ok found after) :
    Covers ctx st after ∧ found.Regular ctx.plan := by
  have hStack := hState.stack.save.withoutTop operands
  unfold firstJoin at hOk
  simp only [bind_apply, read_apply, get_apply] at hOk
  cases hFrame : ctx.frames.frame? label with
  | none =>
    rw [hFrame] at hOk
    cases hOk
    exact ⟨Covers.refl hState, hStack, hState.locals.placed.cells, hState.locals.definite⟩
  | some frame =>
    rw [hFrame] at hOk
    cases hOk
    have hNarrowed := hState.locals.narrow ctx.reg frame
    have hRestored : SlotMap.Follows ctx.plan
        (st.locals.narrow ctx.reg frame)
        ((st.locals.narrow ctx.reg frame).restore st.locals.save) :=
      hNarrowed.regular.restore hState.locals.placed.cells hState.locals.definite
    exact ⟨Covers.of_locals hState (hNarrowed.trans hRestored) hState.agreed,
      hStack.narrow ctx.reg frame, hNarrowed.regular.placed.cells,
        hNarrowed.regular.definite⟩

theorem covers_agree {join : Join} (hJoin : join.Regular ctx.plan)
    (hOk : agree label join ctx st = .ok () after) :
    Covers ctx st after := by
  cases hOk
  apply Covers.of_locals hState hState.locals.follows
  exact forall_mem_append.mpr ⟨hState.agreed, forall_mem_singleton.mpr hJoin⟩

theorem covers_join (hOk : join label operands ctx st = .ok found after) :
    Covers ctx st after ∧ found.Regular ctx.plan := by
  unfold join at hOk
  rw [get_bind] at hOk
  cases hKnown : st.agreed.lookup label with
  | some known =>
    rw [hKnown] at hOk
    cases hOk
    exact ⟨Covers.refl hState, hState.lookup hKnown⟩
  | none =>
    rw [hKnown] at hOk
    rcases bind_ok.mp hOk with ⟨fresh, joined, hFirst, hOk⟩
    rcases covers_firstJoin hState hFirst with ⟨hJoined, hFresh⟩
    rcases bind_ok.mp hOk with ⟨_, settled, hAgree, hOk⟩
    cases hOk
    exact ⟨hJoined.trans (covers_agree hJoined.regular hFresh hAgree), hFresh⟩

end

-- Locals

/-
  A local that is moved is counted where it is, and its target
  is the address of its slot, which has room for what it becomes.
-/
structure Move.Ready (ctx : Context) (st : State) (move : Move) : Prop where
  source : move.source + move.found.dstWidth ≤ st.locals.peak
  target : move.target = planned ctx.plan move.slot
  room : move.want.isPayload = true → 2 ≤ plannedRoom ctx.plan move.slot
  found : move.found.Definite
  want : move.want.Definite

theorem Move.Ready.mono (hReady : move.Ready ctx st)
    (hRaises : Raises st after) :
    move.Ready ctx after :=
  { hReady with source := Nat.le_trans hReady.source hRaises.locals }

/- The locals that are collected are ready to be moved. -/
theorem covers_collectMoves (hState : st.Regular ctx.plan)
    (hCells : PlacedCells ctx.plan agreed.cells)
    (hDefinite : DefiniteCells agreed.cells) {vars : List (Nat × Tag)}
    (hVars : ∀ entry ∈ vars, entry ∈ agreed.vars)
    (hOk : collectMoves label agreed vars ctx st = .ok moves after) :
    Covers ctx st after ∧ ∀ move ∈ moves, move.Ready ctx after := by
  induction vars generalizing st moves with
  | nil =>
    cases hOk
    exact ⟨Covers.refl hState, nofun⟩
  | cons entry rest ih =>
    rcases entry with ⟨slot, want⟩
    rcases forall_mem_cons.mp hVars with ⟨hVar, hOthers⟩
    have hRoom := vars_room hCells hVar
    rcases SlotMap.mem_varsOf.mp hVar with ⟨hTag, hUsed⟩
    have hWant : want.Definite := hTag ▸ hDefinite slot
    unfold collectMoves at hOk
    rw [get_bind] at hOk
    split at hOk
    · exact ih hState hOthers hOk
    split at hOk
    · cases hOk
    rename_i hPossible
    simp only [Bool.or_eq_true, bne_iff_ne, beq_iff_eq, not_or, ne_eq, not_not,
      Bool.not_eq_true] at hPossible
    rcases hPossible with ⟨⟨hFound, hWidth⟩, _⟩
    split at hOk
    · rcases bind_ok.mp hOk with ⟨_, turned, hTurn, hOk⟩
      cases hTurn
      have hFollows : SlotMap.Follows ctx.plan st.locals
          ((st.locals.retag? slot want).getD st.locals) := by
        cases hRetag : st.locals.retag? slot want with
        | none => exact hState.locals.follows
        | some locals =>
          exact hState.locals.retag? hWant hFound hWidth hRoom hRetag
      have hTurned := Covers.of_locals hState hFollows hState.agreed
      rcases ih hTurned.regular hOthers hOk with ⟨hAfter, hMoves⟩
      exact ⟨hTurned.trans hAfter, hMoves⟩
    · rcases bind_ok.mp hOk with ⟨more, final, hMore, hOk⟩
      cases hOk
      rcases ih hState hOthers hMore with ⟨hAfter, hMoves⟩
      refine ⟨hAfter, forall_mem_cons.mpr ⟨?_, hMoves⟩⟩
      have hSource : st.locals.address slot + (st.locals.tagAt slot).dstWidth ≤
          st.locals.peak := by
        rw [hState.locals.placed.address_eq]
        exact hState.locals.end_le_peak hFound
      have hInside : slot < agreed.cells.size :=
        SlotMap.lt_size_of_tagIn (hTag ▸ hUsed)
      exact
        { source := Nat.le_trans hSource hAfter.raises.locals
          target := hCells.snapshot_address (Nat.le_of_lt hInside)
          room := hRoom
          found := hState.locals.definite slot
          want := hWant }

theorem localsPeak_le_reach (ctx : Context) (st : State) :
    st.locals.peak ≤ st.reach ctx := by
  unfold State.reach
  omega

theorem covers_loadForMove (hState : st.Regular ctx.plan)
    (hReady : move.Ready ctx st)
    (hOk : loadForMove move ctx st = .ok () after) :
    Covers ctx st after := by
  unfold loadForMove at hOk
  split at hOk
  · rcases bind_ok.mp hOk with ⟨slot, _, hSlot, hOk⟩
    rcases slotNumber_ok hSlot with ⟨rfl, rfl⟩
    cases hOk
    refine Covers.of_push hState hReady.found ?_ ?_
    · rw [depthAfter_load, Tag.cells_valueKind]
    · rw [Instruction.localsEnd, Tag.cells_valueKind]
      exact Nat.le_trans hReady.source (localsPeak_le_reach ctx _)
  · cases hOk
    exact Covers.refl hState

theorem covers_storeLocal (hState : st.Regular ctx.plan)
    (hReady : move.Ready ctx st)
    (hTop : (st.stack.tagAt 0).dstWidth ≤ move.want.dstWidth)
    (hOk : storeMoved label move ctx st = .ok () after) :
    Covers ctx st after := by
  rcases bind_ok.mp hOk with ⟨slot, _, hSlot, hOk⟩
  rcases slotNumber_ok hSlot with ⟨rfl, rfl⟩
  rw [get_bind] at hOk
  rcases bind_ok.mp hOk with ⟨tag, popped, hPop, hOk⟩
  rcases withStack_state hPop with ⟨rfl, rfl⟩
  rcases bind_ok.mp hOk with ⟨_, stored, hStore, hOk⟩
  cases hStore
  rw [get_bind] at hOk
  cases hPut : st.locals.put move.slot move.want (st.stack.nameAt 0) with
  | none =>
    simp only [hPut] at hOk
    cases hOk
  | some result =>
    simp only [hPut] at hOk
    cases hOk
    rcases hState.locals.put hReady.want hReady.room hPut with ⟨hLocals, _, hEnd⟩
    have hPopped : OperandStack.Upholds True Tag.Definite _ _ := st.stack.upholds_pop
    have hCounted := hState.stack.counted.peak
    have hTag : st.stack.pop.1 = st.stack.tagAt 0 := by
      unfold OperandStack.pop OperandStack.popEntry OperandStack.tagAt
      cases st.stack.entries <;> rfl
    have hDst := dst_pop st.stack
    rw [hTag] at hDst
    exact
      { raises := ⟨hPopped.peak, hLocals.peak, Nat.le_refl _, .inl rfl⟩
        regular := ⟨hPopped.regular hState.stack, hLocals.regular, hState.agreed⟩
        fate := id
        code := by
          refine ⟨[.store move.want.valueKind move.target], rfl, ?_, ?_, ?_⟩
          · have hPeak := hPopped.peak
            simp only [within_cons, within_nil, depthAfter_store, Tag.cells_valueKind]
            change st.stack.dst ≤ st.stack.pop.2.peak ∧ _ ≤ st.stack.pop.2.peak
            omega
          · simp only [depthAfter_cons, depthAfter_nil, depthAfter_store, Tag.cells_valueKind]
            omega
          · refine forall_mem_singleton.mpr ?_
            refine Nat.le_trans ?_ (localsPeak_le_reach ctx _)
            simp only [Instruction.localsEnd, Tag.cells_valueKind, hReady.target]
            exact hEnd }

/- The value on top is no wider than what it was turned into. -/
theorem dstWidth_convertTop {want : Tag}
    (hOk : convertTop want ctx st = .ok () after) :
    (after.stack.tagAt 0).dstWidth ≤ want.dstWidth := by
  rw [OperandStack.tagAt_eq, entries_convertTop hOk]
  cases st.stack.entries with
  | nil => exact want.dstWidth_pos
  | cons entry entries => exact Nat.le_of_eq (dstWidth_converted _ want)

theorem covers_storeForMove (hTyped : ctx.reg.Typed)
    (hState : st.Regular ctx.plan) (hReady : move.Ready ctx st)
    (hOk : storeForMove label move ctx st = .ok () after) :
    Covers ctx st after := by
  unfold storeForMove at hOk
  split at hOk
  · rename_i hNull
    rcases bind_ok.mp hOk with ⟨info, _, hClass, hOk⟩
    rcases valueClass_ok hClass with ⟨_, rfl⟩
    rcases bind_ok.mp hOk with ⟨_, emitted, hEmit, hOk⟩
    cases hEmit
    rcases bind_ok.mp hOk with ⟨_, pushed, hPush, hOk⟩
    cases hPush
    have hWide : move.want.dstWidth = 2 :=
      Tag.dstWidth_of_isPayload (Bool.and_eq_true_iff.mp hNull).2
    have hPushed : Covers ctx st
        { st with
          stack := st.stack.push move.want none
          edit := st.edit.emit [nullConstant info.nullValue]
          modified := true } := by
      refine Covers.of_push hState hReady.want ?_ ?_
      · rw [depthAfter_nullConstant, hWide]
      · rw [localsEnd_nullConstant]
        exact Nat.zero_le _
    exact hPushed.trans (covers_storeLocal hPushed.regular
      (hReady.mono hPushed.raises) (Nat.le_refl _) hOk)
  · rcases bind_ok.mp hOk with ⟨_, turned, hTurn, hOk⟩
    have hTurned := covers_convertTop hTyped hState (.inl hReady.want) hTurn
    exact hTurned.trans (covers_storeLocal hTurned.regular
      (hReady.mono hTurned.raises) (dstWidth_convertTop hTurn) hOk)

theorem covers_reconcileLocals (hTyped : ctx.reg.Typed)
    (hState : st.Regular ctx.plan) (hCells : PlacedCells ctx.plan agreed.cells)
    (hDefinite : DefiniteCells agreed.cells)
    (hOk : reconcileLocals label agreed ctx st = .ok () after) :
    Covers ctx st after := by
  unfold reconcileLocals at hOk
  rcases bind_ok.mp hOk with ⟨moves, collected, hCollect, hOk⟩
  rcases covers_collectMoves hState hCells hDefinite (fun _ hVar => hVar) hCollect with
    ⟨hCollected, hReady⟩
  rcases bind_ok.mp hOk with ⟨_, loaded, hLoad, hStore⟩
  have hLoaded := covers_forM (Move.Ready ctx) Move.Ready.mono covers_loadForMove
    hCollected.regular hReady hLoad
  refine (hCollected.trans hLoaded).trans (covers_forM (Move.Ready ctx) Move.Ready.mono
    (covers_storeForMove hTyped) hLoaded.regular ?_ hStore)
  intro move hMove
  exact (hReady move (mem_reverse.mp hMove)).mono hLoaded.raises

-- The stack

theorem covers_retagEntries (hState : st.Regular ctx.plan)
    {want rest : List Tag} (hWant : ∀ tag ∈ want, tag.Definite)
    (hOk : retagEntries label operands want ctx st = .ok rest after) :
    Covers ctx st after ∧ ∀ tag ∈ rest, tag.Definite := by
  induction want generalizing st rest with
  | nil =>
    cases hOk
    exact ⟨Covers.refl hState, hWant⟩
  | cons want others ih =>
    rcases forall_mem_cons.mp hWant with ⟨hHead, hOthers⟩
    cases retagEntries_cons_ok hOk with
    | same _ hAbove => exact ih hState hOthers hAbove
    | wait _ hRest hAbove => exact ⟨(ih hState hOthers hAbove).1, hRest ▸ hWant⟩
    | turn hFree hCast hTurn hAbove =>
      have hBetween := covers_retag hState hHead hCast hFree hHead rfl hTurn
      rcases ih hBetween.regular hOthers hAbove with ⟨hAfter, hRest⟩
      exact ⟨hBetween.trans hAfter, hRest⟩

theorem covers_reconcileStack (hTyped : ctx.reg.Typed)
    (hState : st.Regular ctx.plan) {agreed : StackSnapshot}
    (hAgreed : agreed.Regular)
    (hOk : reconcileStack label agreed operands ctx st = .ok () after) :
    Covers ctx st after := by
  unfold reconcileStack at hOk
  rw [get_bind] at hOk
  split at hOk
  · rcases bind_ok.mp hOk with ⟨_, _, hThrow, _⟩
    cases hThrow
  rcases bind_ok.mp hOk with ⟨want, turned, hRetag, hOk⟩
  rcases covers_retagEntries hState (fun _ hTag => hAgreed.tags hTag) hRetag with
    ⟨hTurned, hWant⟩
  cases want with
  | nil =>
    cases hOk
    exact hTurned
  | cons deepest above =>
    rcases bind_ok.mp hOk with ⟨spilled, stored, hSpill, hReload⟩
    rcases covers_spill hTurned.regular hSpill with ⟨hStored, hKept⟩
    refine (hTurned.trans hStored).trans
      (covers_reloadAs hTyped hStored.regular ?_ ?_ hReload)
    · exact fun item hItem => hKept item (mem_reverse.mp hItem)
    · exact fun pair hPair => .inl (hWant pair.2 (of_mem_zip hPair).2)

theorem covers_reconcile (hTyped : ctx.reg.Typed)
    (hState : st.Regular ctx.plan)
    (hOk : reconcile label operands ctx st = .ok found after) :
    Covers ctx st after ∧ found.Regular ctx.plan := by
  unfold reconcile at hOk
  rcases bind_ok.mp hOk with ⟨agreed, joined, hJoin, hOk⟩
  rcases covers_join hState hJoin with ⟨hJoined, hAgreed⟩
  rcases bind_ok.mp hOk with ⟨_, stacked, hStack, hOk⟩
  have hStacked := covers_reconcileStack hTyped hJoined.regular hAgreed.stack hStack
  rcases bind_ok.mp hOk with ⟨_, located, hLocals, hOk⟩
  have hLocated := covers_reconcileLocals hTyped hStacked.regular hAgreed.cells
    hAgreed.definite hLocals
  cases hOk
  exact ⟨(hJoined.trans hStacked).trans hLocated, hAgreed⟩

end Simulation

-- Substitutes

/-
  The instruction that is put in the place of another, unless it
  is an access to a field or a call. Those stand for one of
  their own sort, and take the operands that were made for it.
-/
def Fate.substitute : Fate → List Instruction
  | .replaced (.insn (.field ..)) | .replaced (.insn (.invoke ..)) => []
  | .replaced (.insn i) => [i]
  | _ => []

theorem Fate.substitute_insn (i : Instruction) :
    (Fate.replaced (.insn i)).substitute = [] ∨ (Fate.replaced (.insn i)).substitute = [i] := by
  cases i <;> first | exact .inl rfl | exact .inr rfl

theorem Fate.substitute_of_instructions {fate : Fate} (hFate : fate.instructions = []) :
    fate.substitute = [] := by
  cases fate with
  | replaced node =>
    cases node with
    | insn i => cases hFate
    | _ => rfl
  | _ => rfl

namespace Simulation

variable {ctx : Context} {st after : State} {α : Type}

-- Steps that leave the code alone

/- The edit at hand stays as it is, and no peak gets lower. -/
structure Quiet (ctx : Context) (st after : State) : Prop where
  raises : Raises st after
  regular : after.Regular ctx.plan
  edit : after.edit = st.edit

theorem Quiet.refl (hState : st.Regular ctx.plan) : Quiet ctx st st :=
  ⟨Raises.refl st, hState, rfl⟩

theorem Quiet.trans {first second third : State} (hFirst : Quiet ctx first second)
    (hSecond : Quiet ctx second third) :
    Quiet ctx first third :=
  ⟨hFirst.raises.trans hSecond.raises, hSecond.regular, hSecond.edit.trans hFirst.edit⟩

/- A change of anything but peaks, places and edits. -/
theorem Quiet.of_same (hState : st.Regular ctx.plan)
    (hStack : Upholds True Tag.Definite st.stack after.stack)
    (hLocals : SlotMap.Follows ctx.plan st.locals after.locals)
    (hAgreed : ∀ entry ∈ after.agreed, entry.2.Regular ctx.plan)
    (hScratch : after.scratchEnd = st.scratchEnd)
    (hSeeding : after.seeding = st.seeding ∨ after.seeding = .suppressed)
    (hEdit : after.edit = st.edit) :
    Quiet ctx st after where
  raises := ⟨hStack.peak, hLocals.peak, Nat.le_of_eq hScratch.symm, hSeeding⟩
  regular := ⟨hStack.regular hState.stack, hLocals.regular, hAgreed⟩
  edit := hEdit

instance : Lasts fun ctx st after =>
    st.Regular ctx.plan → Quiet ctx st after where
  refl _ _ := Quiet.refl
  trans hFirst hSecond hState := (hFirst hState).trans (hSecond (hFirst hState).regular)

/- A step that leaves the edit at hand alone. -/
abbrev Calm {α : Type} (act : Simulation α) : Prop :=
  Along (fun ctx st after => st.Regular ctx.plan → Quiet ctx st after) act

theorem calm_withStack {act : OperandStack → α × OperandStack}
    (hAct : ∀ stack, Upholds True Tag.Definite stack (act stack).2) :
    Calm (withStack act) := by
  intro ctx st result after hOk hState
  rw [(withStack_state hOk).2]
  exact Quiet.of_same hState (hAct st.stack) hState.locals.follows hState.agreed rfl
    (.inl rfl) rfl

theorem calm_changeStack {change : OperandStack → OperandStack}
    (hChange : ∀ stack, Upholds True Tag.Definite stack (change stack)) :
    Calm (changeStack change) := by
  intro ctx st result after hOk hState
  cases hOk
  exact Quiet.of_same hState (hChange st.stack) hState.locals.follows hState.agreed rfl
    (.inl rfl) rfl

theorem calm_push {tag : Tag} (name : Option String) (hTag : tag.Definite) :
    Calm (push tag name) :=
  calm_changeStack fun stack => OperandStack.upholds_push stack name hTag

theorem calm_pop : Calm pop :=
  calm_withStack OperandStack.upholds_pop

theorem calm_popMany (count : Nat) : Calm (popMany count) := by
  induction count with
  | zero => exact Along.pure _
  | succ count ih => exact calm_pop.bind fun _ => ih

theorem calm_popReference : Calm popReference :=
  calm_withStack fun stack => OperandStack.upholds_popIf stack _ _

theorem calm_popKind (kind : ValueKind) : Calm (popKind kind) :=
  (calm_withStack fun stack => OperandStack.upholds_popIf stack _ _).bind
    fun _ => Along.pure _

/- What is only noted leaves the code alone. -/
theorem Noting.quiet {act : Simulation α} {result : α} (hNoting : Noting act)
    (hState : st.Regular ctx.plan) (hOk : act ctx st = .ok result after)
    (hEdit : after.edit = st.edit) :
    Quiet ctx st after := by
  have hAfter : after = _ := hNoting.of_ok hOk
  rw [hEdit] at hAfter
  rw [hAfter]
  exact Quiet.of_same hState (Upholds.refl _) hState.locals.follows hState.agreed rfl
    (.inl rfl) rfl

theorem calm_diagnose (kind : DiagnosticKind) : Calm (diagnose kind) :=
  fun _ _ _ _ hOk hState =>
    (noting_diagnose kind).quiet hState hOk (congrArg Bench.edit (diagnose_ok hOk))

theorem calm_valueClass (cls : ClassIndex) : Calm (valueClass cls) := by
  intro ctx st info after hOk hState
  rw [← (valueClass_ok hOk).2]
  exact Quiet.refl hState

theorem calm_checkZeroFill (element : Tag) : Calm (checkZeroFill element) :=
  (calm_valueClass _).bind fun _ => .ite (calm_diagnose _) (.pure _)

theorem calm_pushResult (result : Option FieldType) : Calm (pushResult result) := by
  intro ctx st done after hOk hState
  unfold pushResult at hOk
  rw [read_bind] at hOk
  cases result with
  | none =>
    cases hOk
    exact Quiet.refl hState
  | some type =>
    exact calm_push none (ctx.reg.concrete_tagOf type).definite _ _ _ _ hOk hState

theorem calm_create : Calm create := by
  intro ctx st done after hOk hState
  cases hOk
  exact Quiet.of_same hState
    (OperandStack.upholds_push st.stack _ (by decide : Tag.object.Definite))
    hState.locals.follows hState.agreed rfl (.inl rfl) rfl

theorem calm_suppressSeeding : Calm suppressSeeding := by
  intro ctx st done after hOk hState
  cases hOk
  simp only
  split
  · exact Quiet.of_same hState (Upholds.refl _) hState.locals.follows hState.agreed rfl
      (.inr rfl) rfl
  · exact Quiet.of_same hState (Upholds.refl _) hState.locals.follows hState.agreed rfl
      (.inr rfl) rfl
  · exact Quiet.refl hState

theorem calm_initialized (method : MethodRef) (name : String) :
    Calm (initialized method name) := by
  have hForget : Calm (changeLocals (·.forgetName name)) := by
    intro ctx st done after hOk hState
    cases hOk
    exact Quiet.of_same hState (Upholds.refl _) (hState.locals.forgetName name)
      hState.agreed rfl (.inl rfl) rfl
  refine Along.read.bind fun ctx => .first calm_suppressSeeding ?_
  have hTag := ctx.reg.concrete_tagOfClass
  exact (calm_changeStack fun stack =>
    OperandStack.upholds_retagNamed stack name (hTag _).definite).bind fun _ => hForget

theorem calm_compute (op : Plain) : Calm (compute op) := by
  refine (Along.forM calm_popKind).bind fun _ => ?_
  split
  · exact calm_push none (Tag.concrete_ofKind _).definite
  · exact Along.pure _

-- Covered elements

/-
  The code before an element and the instruction in its place
  are covered, but for some cells that are still owed.
-/
structure Covered (ctx : Context) (owed : Nat) (st after : State) : Prop where
  raises : Raises st after
  regular : after.Regular ctx.plan
  within : Within (max after.stack.peak owed) st.stack.dst
    (after.edit.before ++ after.edit.fate.substitute)
  reach : ∀ i ∈ after.edit.before ++ after.edit.fate.instructions, i.localsEnd ≤ after.reach ctx

theorem Covers.covered (hCovers : Covers ctx st after)
    (hEdit : st.edit = .none) :
    Covered ctx 0 st after where
  raises := hCovers.raises
  regular := hCovers.regular
  within := by
    have hFate := hCovers.fate (by rw [hEdit]; rfl)
    rcases hCovers.code with ⟨code, hBefore, hWithin, _, _⟩
    rw [Fate.substitute_of_instructions hFate, append_nil, hBefore, hEdit]
    exact hWithin.mono (Nat.le_max_left _ _) (Nat.le_refl _)
  reach := by
    have hFate := hCovers.fate (by rw [hEdit]; rfl)
    rcases hCovers.code with ⟨code, hBefore, _, _, hEnds⟩
    rw [hFate, append_nil, hBefore, hEdit]
    exact hEnds

theorem Covered.start (hState : st.Regular ctx.plan) (hEdit : st.edit = .none) :
    Covered ctx 0 st st :=
  (Covers.refl hState).covered hEdit

namespace Covered

variable {owed : Nat} {between : State} {i : Instruction}

theorem owe (hCovered : Covered ctx 0 st after) :
    Covered ctx owed st after :=
  { hCovered with within := hCovered.within.mono (by omega) (Nat.le_refl _) }

theorem quiet (hCovered : Covered ctx owed st between)
    (hQuiet : Quiet ctx between after) :
    Covered ctx owed st after where
  raises := hCovered.raises.trans hQuiet.raises
  regular := hQuiet.regular
  within := by
    rw [hQuiet.edit]
    have hPeak := hQuiet.raises.stack
    exact hCovered.within.mono (by omega) (Nat.le_refl _)
  reach := by
    rw [hQuiet.edit]
    intro i hMember
    exact Nat.le_trans (hCovered.reach i hMember) (hQuiet.raises.reach ctx)

theorem calm {α : Type} {act : Simulation α} {result : α}
    (hCovered : Covered ctx owed st between) (hCalm : Calm act)
    (hOk : act ctx between = .ok result after) :
    Covered ctx owed st after :=
  hCovered.quiet (hCalm _ _ _ _ hOk hCovered.regular)

theorem before (hCovered : Covered ctx owed st after) :
    Within (max after.stack.peak owed) st.stack.dst after.edit.before :=
  ((within_append _ _ _ _).mp hCovered.within).1

section

variable (hCovered : Covered ctx 0 st between)
include hCovered

theorem edited {edit : Edit} {modified : Bool}
    (hWithin : Within (max between.stack.peak owed) st.stack.dst
      (edit.before ++ edit.fate.substitute))
    (hReach : ∀ i ∈ edit.before ++ edit.fate.instructions, i.localsEnd ≤ between.reach ctx) :
    Covered ctx owed st { between with edit := edit, modified := modified } where
  raises := ⟨hCovered.raises.stack, hCovered.raises.locals, hCovered.raises.scratch,
    hCovered.raises.seeding⟩
  regular := ⟨hCovered.regular.stack, hCovered.regular.locals, hCovered.regular.agreed⟩
  within := hWithin
  reach := hReach

/-
  An instruction that takes no less than it leaves is put in the
  place of the element; what it leaves is owed.
-/
theorem replace
    (hLevel : (Fate.replaced (.insn i)).substitute = [] ∨ i.left ≤ i.taken ∧ i.left ≤ owed)
    (hEnd : i.localsEnd ≤ between.reach ctx)
    (hOk : replaceNode (.insn i) ctx between = .ok () after) :
    Covered ctx owed st after := by
  cases hOk
  have hBefore := hCovered.before
  have hFirst : Within (max between.stack.peak owed) st.stack.dst
      between.edit.before := hBefore.mono (by omega) (Nat.le_refl _)
  refine hCovered.edited ?_ ?_
  · change Within _ _ (between.edit.before ++ (Fate.replaced (.insn i)).substitute)
    rcases Fate.substitute_insn i with hNone | hSome
    · rw [hNone, append_nil]
      exact hFirst
    · rcases hLevel with hNone | ⟨hLess, hOwed⟩
      · rw [hSome] at hNone
        cases hNone
      · have hLast := hBefore.finish
        rw [hSome, within_append]
        refine ⟨hFirst, ?_⟩
        simp only [within_cons, within_nil, Instruction.depthAfter]
        omega
  · exact forall_mem_append.mpr
      ⟨(forall_mem_append.mp hCovered.reach).1, forall_mem_singleton.mpr hEnd⟩

theorem useInstead {found wanted : Instruction}
    (hLevel : wanted.left ≤ wanted.taken ∧ wanted.left ≤ owed)
    (hEnd : wanted.localsEnd ≤ between.reach ctx)
    (hOk : useInstead found wanted ctx between = .ok () after) :
    Covered ctx owed st after := by
  unfold Simulation.useInstead at hOk
  split at hOk
  · exact hCovered.replace (.inr hLevel) hEnd hOk
  · cases hOk
    exact hCovered.owe

end

/- Any instruction can be put in the place of an element before its code. -/
theorem replaceFirst (hState : st.Regular ctx.plan) (hEdit : st.edit = .none)
    (hOwed : i.depthAfter st.stack.dst ≤ owed)
    (hEnd : i.localsEnd ≤ st.reach ctx)
    (hOk : replaceNode (.insn i) ctx st = .ok () after) :
    Covered ctx owed st after := by
  cases hOk
  have hCounted := hState.stack.counted.peak
  refine (Covered.start hState hEdit).edited ?_ ?_
  · rw [hEdit]
    change Within _ _ (Fate.replaced (.insn i)).substitute
    rcases Fate.substitute_insn i with hNone | hSome
    · rw [hNone, within_nil]
      omega
    · simp only [hSome, within_cons, within_nil]
      omega
  · rw [hEdit]
    exact forall_mem_singleton.mpr hEnd

section

variable (hCovered : Covered ctx 0 st between)
include hCovered

/- Nothing is put in the place of the element. -/
theorem remove (hOk : removeNode ctx between = .ok () after) :
    Covered ctx 0 st after := by
  cases hOk
  refine hCovered.edited ?_ ?_
  · exact (append_nil _).symm ▸ hCovered.before
  · exact (append_nil _).symm ▸ (forall_mem_append.mp hCovered.reach).1

end

/- A value that is pushed pays what is owed. -/
theorem push {tag : Tag} {name : Option String}
    (hCovered : Covered ctx owed st between) (hTag : tag.Definite)
    (hOwed : owed ≤ between.stack.dst + tag.dstWidth)
    (hOk : push tag name ctx between = .ok () after) :
    Covered ctx 0 st after := by
  have hAfter := hCovered.calm (calm_push name hTag) hOk
  refine { hAfter with within := hAfter.within.mono ?_ (Nat.le_refl _) }
  cases hOk
  have hPeak : (between.stack.push tag name).dst ≤ (between.stack.push tag name).peak :=
    Nat.le_max_right _ _
  have hDst : (between.stack.push tag name).dst = between.stack.dst + tag.dstWidth := rfl
  change max (between.stack.push tag name).peak owed ≤ max (between.stack.push tag name).peak 0
  omega

end Covered

end Simulation

end Unboxing
