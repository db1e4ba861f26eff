import Unboxing.Proofs.HelperTypes
import Unboxing.Proofs.OperandConversion

/-
  Code that is put before an element is covered by the peaks.
  While operands are made ready, the simulated depth is never
  below the real one, so at every point of the code the stack is
  no deeper than the peak, and all locals of the code are
  counted.

  Main declarations:
    * `Simulation.Raises`
    * `Simulation.Covers`
    * `ConversionCode.cells`
    * `Simulation.covers_convertTop`
    * `Simulation.covers_convertOperands`
-/

namespace Unboxing

open List

open OperandStack (Upholds)

def Fate.instructions : Fate → List Instruction
  | .replaced (.insn i) => [i]
  | _ => []

-- The code of a conversion

/- What is no payload and was a reference takes one cell. -/
theorem Tag.dstWidth_of_other {tag : Tag} (hReference : tag.isSrcReference = true)
    (hKind : tag.hasPayloadKind = false) :
    tag.dstWidth = 1 := by
  rw [dstWidth_of_reference hReference, isPayload, hKind]
  rfl

/- Code that takes some cells off the stack, leaves others, and uses no locals. -/
structure Exchanges (taken left : Nat) (code : List Instruction) : Prop where
  within : ∀ depth, taken ≤ depth → Within (max depth (depth - taken + left)) depth code
  leaves : ∀ depth, taken ≤ depth → depthAfter depth code ≤ depth - taken + left
  slotless : ∀ i ∈ code, i.localsEnd = 0

namespace Exchanges

variable {taken left more : Nat} {code rest : List Instruction}

theorem nil (hLess : taken ≤ left) : Exchanges taken left [] where
  within depth _ := (within_nil _ _).mpr (Nat.le_max_left _ _)
  leaves depth hDepth := by
    rw [depthAfter_nil]
    omega
  slotless := fun _ => nofun

theorem of_instruction {i : Instruction}
    (hDepth : ∀ depth, i.depthAfter depth = depth - taken + left) (hEnd : i.localsEnd = 0) :
    Exchanges taken left [i] where
  within depth _ := by
    rw [within_cons, within_nil, hDepth]
    exact ⟨Nat.le_max_left _ _, Nat.le_max_right _ _⟩
  leaves depth _ := Nat.le_of_eq (hDepth depth)
  slotless := forall_mem_singleton.mpr hEnd

theorem append (hCode : Exchanges taken left code) (hRest : Exchanges left more rest)
    (hLess : left ≤ taken) :
    Exchanges taken more (code ++ rest) where
  within depth hDepth := by
    have hFirst := hCode.within depth hDepth
    have hLeaves := hCode.leaves depth hDepth
    have hSecond := hRest.within (depth - taken + left) (Nat.le_add_left _ _)
    rw [within_append]
    exact ⟨hFirst.mono (by omega) (Nat.le_refl _), hSecond.mono (by omega) hLeaves⟩
  leaves depth hDepth := by
    have hLeaves := depthAfter_mono rest (hCode.leaves depth hDepth)
    have hMore := hRest.leaves (depth - taken + left) (Nat.le_add_left _ _)
    rw [depthAfter_append]
    omega
  slotless := forall_mem_append.mpr ⟨hCode.slotless, hRest.slotless⟩

end Exchanges

theorem exchanges_unboxCheck (reg : Registry) (found want : Tag) :
    Exchanges 1 1 (unboxCheck reg found want) := by
  have hNone : Exchanges 1 1 [] := .nil (Nat.le_refl 1)
  unfold unboxCheck
  split
  · exact hNone
  · split
    · exact .of_instruction (fun _ => rfl) rfl
    · exact hNone

/-
  The code of a conversion takes the found value off the stack
  and leaves the expected one, which is definite.
-/
theorem ConversionCode.cells {reg : Registry} (hTyped : reg.Typed)
    {found want : Tag} {code : List Instruction}
    (hCode : ConversionCode reg found want code)
    (hCast : found.cast want ≠ .failure) (hAgree : found.Agreeable want) :
    want.Definite ∧ Exchanges found.dstWidth want.dstWidth code := by
  have hReference {tag : Tag} (hKind : tag.hasReferenceKind = true) : tag.dstWidth = 1 := by
    rcases tag with ⟨kind, depth⟩
    cases kind <;> cases hKind
    exact Tag.dstWidth_of_other (by simp [Tag.isSrcReference]) rfl
  have hOther {tag : Tag} (hKind : tag.kind = .object ∨ tag.kind = .null) :
      tag.dstWidth = 1 := by
    rcases hKind with hKind | hKind <;>
      exact Tag.dstWidth_of_other (by simp [Tag.isSrcReference, hKind])
        (by simp [Tag.hasPayloadKind, hKind])
  cases hCode with
  | keep hKeep =>
    have hDefinite : want.Definite := by
      rcases hAgree with hDefinite | hNeeds
      · exact hDefinite
      · rw [hKeep] at hNeeds
        cases hNeeds
    exact ⟨hDefinite, .nil (Tag.dstWidth_le_of_free hDefinite hCast hKeep)⟩
  | box hBoxing hClass hMethod =>
    rcases Tag.of_cast_boxing hBoxing with ⟨hPayload, hWant⟩
    rcases (hTyped.class? hClass).cells_boxMethod hPayload hMethod with ⟨hTaken, hLeft⟩
    have hBoxed : want.Definite ∧ want.dstWidth = 1 := by
      rcases hWant with ⟨hKind, hSame, _⟩ | ⟨hKind, _⟩
      · refine ⟨Tag.Concrete.definite ?_, hReference hKind⟩
        intro hOpen
        rw [hSame, hOpen] at hClass
        cases hClass
      · exact ⟨by simp [Tag.Definite, hKind], hOther (.inl hKind)⟩
    refine ⟨hBoxed.1, .of_instruction (fun depth => ?_) rfl⟩
    rw [Instruction.depthAfter, hTaken, hLeft, hBoxed.2]
  | unboxNull hUnboxing hNull hClass =>
    have hFoundKind : found.kind = .null := beq_iff_eq.mp hNull
    have hPayload : want.isPayload = true := by
      rcases Tag.of_cast_unboxing hUnboxing with
        ⟨_, ⟨hKind, _⟩ | ⟨_, hScalar⟩ | ⟨hKind, _⟩⟩
      · rw [Tag.hasReferenceKind, hFoundKind] at hKind
        cases hKind
      · exact hScalar
      · rw [hFoundKind] at hKind
        cases hKind
    refine ⟨Tag.definite_of_hasPayloadKind (Bool.and_eq_true_iff.mp hPayload).1, ?_⟩
    rw [hOther (.inr hFoundKind), Tag.dstWidth_of_isPayload hPayload]
    have hPop : Exchanges 1 0 [.shuffle .pop] := .of_instruction (fun _ => rfl) rfl
    exact hPop.append (.of_instruction (depthAfter_nullConstant _) (localsEnd_nullConstant _))
      (Nat.zero_le _)
  | unbox hUnboxing hNull hClass hMethod =>
    rcases Tag.of_cast_unboxing hUnboxing with ⟨hPayload, hFound⟩
    rcases (hTyped.class? hClass).cells_unboxMethod hPayload hMethod with
      ⟨hTaken, hLeft⟩
    have hOne : found.dstWidth = 1 := by
      rcases hFound with ⟨hKind, _⟩ | ⟨hKind, _⟩ | ⟨hKind, _⟩
      · exact hReference hKind
      · exact hOther (.inr hKind)
      · exact hOther (.inl hKind)
    refine ⟨Tag.definite_of_hasPayloadKind hPayload, ?_⟩
    rw [hOne]
    refine (exchanges_unboxCheck reg found want).append
      (.of_instruction (fun depth => ?_) rfl) (Nat.le_refl 1)
    rw [Instruction.depthAfter, hTaken, hLeft]

namespace Simulation

variable {ctx : Context} {st after : State} {stack : OperandStack}
variable {spilled : List Spilled} {want : List Tag}
variable {entries : List Entry} {first second third : State} {α : Type}
variable {count : Nat} {tag : Tag} {consumers : List Tag}

-- Covered code

/- The locals that would be reported in a state. -/
def State.reach (ctx : Context) (st : State) : Nat :=
  max (max st.locals.peak st.scratchEnd)
    (planned ctx.plan ctx.body.maxLocals)

/-
  No peak gets lower, and the place where fields are seeded is
  not found anew.
-/
structure Raises (st after : State) : Prop where
  stack : st.stack.peak ≤ after.stack.peak
  locals : st.locals.peak ≤ after.locals.peak
  scratch : st.scratchEnd ≤ after.scratchEnd
  seeding : after.seeding = st.seeding ∨ after.seeding = .suppressed

theorem Raises.refl (st : State) : Raises st st :=
  ⟨Nat.le_refl _, Nat.le_refl _, Nat.le_refl _, .inl rfl⟩

theorem Raises.trans (hFirst : Raises first second) (hSecond : Raises second third) :
    Raises first third where
  stack := Nat.le_trans hFirst.stack hSecond.stack
  locals := Nat.le_trans hFirst.locals hSecond.locals
  scratch := Nat.le_trans hFirst.scratch hSecond.scratch
  seeding := by
    rcases hSecond.seeding with hSame | hSuppressed
    · rw [hSame]
      exact hFirst.seeding
    · exact .inr hSuppressed

theorem Raises.reach (hRaises : Raises st after) (ctx : Context) :
    st.reach ctx ≤ after.reach ctx := by
  have hLocals := hRaises.locals
  have hScratch := hRaises.scratch
  unfold State.reach
  omega

/-
  Code is put before the element that is looked at. At every
  point of it the stack is no deeper than the peak, in the end
  it is no deeper than simulated, and its locals are counted.
-/
structure Covers (ctx : Context) (st after : State) : Prop where
  raises : Raises st after
  regular : after.Regular ctx.plan
  fate : st.edit.fate.instructions = [] → after.edit.fate.instructions = []
  code : ∃ code, after.edit.before = st.edit.before ++ code ∧
      Within after.stack.peak st.stack.dst code ∧
        depthAfter st.stack.dst code ≤ after.stack.dst ∧
          ∀ i ∈ code, i.localsEnd ≤ after.reach ctx

theorem Covers.trans (hFirst : Covers ctx first second)
    (hSecond : Covers ctx second third) :
    Covers ctx first third where
  raises := hFirst.raises.trans hSecond.raises
  regular := hSecond.regular
  fate := hSecond.fate ∘ hFirst.fate
  code := by
    rcases hFirst.code with ⟨code, hBefore, hWithin, hDepth, hEnds⟩
    rcases hSecond.code with ⟨more, hMoreBefore, hMoreWithin, hMoreDepth, hMoreEnds⟩
    refine ⟨code ++ more, ?_, ?_, ?_, ?_⟩
    · rw [hMoreBefore, hBefore, append_assoc]
    · rw [within_append]
      exact ⟨hWithin.mono hSecond.raises.stack (Nat.le_refl _),
        hMoreWithin.mono (Nat.le_refl _) hDepth⟩
    · rw [depthAfter_append]
      exact Nat.le_trans (depthAfter_mono more hDepth) hMoreDepth
    · refine forall_mem_append.mpr ⟨fun i hCode => ?_, hMoreEnds⟩
      exact Nat.le_trans (hEnds i hCode) (hSecond.raises.reach ctx)

section

variable (hState : st.Regular ctx.plan)
include hState

/- Code is emitted, and nothing else but the stack and scratch locals changes. -/
theorem Covers.of_code {code : List Instruction}
    (hStack : Upholds True Tag.Definite st.stack after.stack)
    (hLocals : after.locals = st.locals) (hAgreed : after.agreed = st.agreed)
    (hSeeding : after.seeding = st.seeding) (hScratch : st.scratchEnd ≤ after.scratchEnd)
    (hEdit : after.edit = st.edit.emit code)
    (hWithin : Within after.stack.peak st.stack.dst code)
    (hDepth : depthAfter st.stack.dst code ≤ after.stack.dst)
    (hEnds : ∀ i ∈ code, i.localsEnd ≤ after.reach ctx) :
    Covers ctx st after where
  raises := ⟨hStack.peak, Nat.le_of_eq (congrArg SlotMap.peak hLocals.symm),
    hScratch, .inl hSeeding⟩
  regular := by
    refine ⟨hStack.regular hState.stack, ?_, ?_⟩
    · rw [hLocals]
      exact hState.locals
    · rw [hAgreed]
      exact hState.agreed
  fate := by
    rw [hEdit, Edit.fate_emit]
    exact id
  code := ⟨code, by rw [hEdit, Edit.before_emit], hWithin, hDepth, hEnds⟩

/- An instruction is emitted, and what it leaves is pushed. -/
theorem Covers.of_push {i : Instruction} {name : Option String} (hTag : tag.Definite)
    (hDepth : i.depthAfter st.stack.dst = st.stack.dst + tag.dstWidth)
    (hEnd : i.localsEnd ≤ st.reach ctx) :
    Covers ctx st
      { st with
        stack := st.stack.push tag name
        edit := st.edit.emit [i]
        modified := true } := by
  have hPush : Upholds True Tag.Definite _ _ := st.stack.upholds_push name hTag
  refine Covers.of_code hState hPush rfl rfl rfl (Nat.le_refl _) rfl ?_ ?_
    (forall_mem_singleton.mpr hEnd)
  · rw [within_cons, within_nil, hDepth]
    exact ⟨Nat.le_trans hState.stack.counted.peak hPush.peak, Nat.le_max_right _ _⟩
  · rw [depthAfter_cons, depthAfter_nil, hDepth]
    exact Nat.le_refl _

/- Without code, the simulated depth must not fall. -/
theorem Covers.of_stack (hStack : Upholds True Tag.Definite st.stack stack)
    (hDepth : st.stack.dst ≤ stack.dst) :
    Covers ctx st { st with stack := stack } := by
  refine Covers.of_code hState hStack rfl rfl rfl (Nat.le_refl _)
    (Edit.emit_nil st.edit).symm ?_ hDepth nofun
  rw [within_nil]
  exact Nat.le_trans hState.stack.counted.peak hStack.peak

theorem Covers.refl :
    Covers ctx st st :=
  Covers.of_stack hState (Upholds.refl _) (Nat.le_refl _)

end

-- The top of the stack

/- Nothing has changed but the edit at hand and what is noted. -/
def Noted (_ : Context) (st after : State) : Prop :=
  after = { st with
    edit := after.edit
    modified := after.modified
    diagnostics := after.diagnostics }

instance : Lasts Noted where
  refl _ _ := rfl
  trans := by
    intro _ first second third hSecond hThird
    unfold Noted at *
    rw [hThird, hSecond]

/- A step that changes nothing else. -/
abbrev Noting {α : Type} (act : Simulation α) : Prop :=
  Along Noted act

theorem noting_emit (i : Instruction) : Noting (emit i) :=
  .modify fun _ _ => rfl

theorem noting_diagnose (kind : DiagnosticKind) : Noting (diagnose kind) := by
  exact Along.read.bind fun _ =>
    .ite (.first (.throw _) (.modify fun _ _ => rfl)) (.pure _)

theorem noting_valueClass (cls : ClassIndex) : Noting (valueClass cls) := by
  refine Along.read.bind fun ctx => ?_
  split
  · exact Along.pure _
  · exact Along.throw _

theorem noting_ofExcept (outcome : Except FailureCause α) :
    Noting (MonadExcept.ofExcept outcome : Simulation α) := by
  cases outcome with
  | ok result => exact Along.pure _
  | error cause => exact Along.throw _

theorem noting_emitBox (found : Tag) : Noting (emitBox found) :=
  (noting_valueClass _).bind fun _ => (noting_ofExcept _).bind fun _ =>
    (noting_emit _).bind fun _ => noting_diagnose _

theorem noting_emitUnbox (found want : Tag) : Noting (emitUnbox found want) := by
  refine (noting_valueClass _).bind fun info => ?_
  have hCall : Noting (do
      emitCall (← MonadExcept.ofExcept (info.unboxMethod want.depth))) :=
    (noting_ofExcept _).bind fun _ => noting_emit _
  refine Along.ite ((noting_emit _).bind fun _ => noting_emit _) ?_
  refine Along.ite (Along.read.bind fun ctx => ?_) hCall
  split
  · exact (noting_emit _).bind fun _ => hCall
  · exact hCall

/- What a conversion of the value on top changes. -/
theorem convertTop_frame {want : Tag}
    (hOk : convertTop want ctx st = .ok () after) :
    after = st ∨ st.stack.tagAt 0 ≠ want ∧ after = { st with
          stack := st.stack.retag 0 (converted (st.stack.tagAt 0) want)
          edit := after.edit
          modified := after.modified
          diagnostics := after.diagnostics } := by
  unfold convertTop at hOk
  rw [tagAt_bind] at hOk
  by_cases hSame : st.stack.tagAt 0 = want
  · rw [if_neg (not_not_intro hSame)] at hOk
    cases hOk
    exact .inl rfl
  refine .inr ⟨hSame, ?_⟩
  rw [if_pos hSame] at hOk
  cases hCast : (st.stack.tagAt 0).cast want with
  | failure =>
    simp only [hCast] at hOk
    cases hOk
  | success =>
    simp only [hCast] at hOk
    cases hOk
    rw [converted, hCast, if_neg (by simp)]
  | substitution =>
    simp only [hCast] at hOk
    cases hOk
    rw [converted, hCast, if_pos rfl]
  | boxing =>
    simp only [hCast] at hOk
    rcases bind_ok.mp hOk with ⟨_, between, hBox, hOk⟩
    have hBetween := noting_emitBox _ _ _ _ _ hBox
    cases hOk
    rw [converted, hCast, if_neg (by simp), hBetween]
  | unboxing =>
    simp only [hCast] at hOk
    rcases bind_ok.mp hOk with ⟨_, between, hUnbox, hOk⟩
    have hBetween := noting_emitUnbox _ _ _ _ _ _ hUnbox
    cases hOk
    rw [converted, hCast, if_neg (by simp), hBetween]

theorem retag_top (tag : Tag) (hTop : stack.entries ≠ []) :
    (stack.retag 0 tag).dst = stack.dst - (stack.tagAt 0).dstWidth + tag.dstWidth ∧
      (stack.retag 0 tag).peak = max stack.peak (stack.retag 0 tag).dst := by
  rcases hEntries : stack.entries with _ | ⟨entry, rest⟩
  · exact absurd hEntries hTop
  · simp [OperandStack.retag, OperandStack.tagAt, hEntries]

theorem dstWidth_tagAt_le (hStack : stack.Regular) (hTop : stack.entries ≠ []) :
    (stack.tagAt 0).dstWidth ≤ stack.dst := by
  rcases hEntries : stack.entries with _ | ⟨entry, rest⟩
  · exact absurd hEntries hTop
  · have hEntry : stack.entries[0]? = some entry := by rw [hEntries]; rfl
    have hWidth := (hStack.counted.width_le hEntry).2
    rwa [OperandStack.tagAt_eq, hEntry]

theorem covers_convertTop (hTyped : ctx.reg.Typed)
    (hState : st.Regular ctx.plan) {want : Tag}
    (hAgree : (st.stack.tagAt 0).Agreeable want)
    (hOk : convertTop want ctx st = .ok () after) :
    Covers ctx st after := by
  rcases convertTop_ok hOk with ⟨hCast, code, hCode, hBench⟩
  have hEdit : after.edit = st.edit.emit code := congrArg Bench.edit hBench
  rcases convertTop_frame hOk with rfl | ⟨hOther, hFrame⟩
  · exact Covers.refl hState
  -- Nothing can be made of a value that is not there.
  have hTop : st.stack.entries ≠ [] := by
    intro hEmpty
    have hVoid : st.bench.tagAt 0 = .void := by
      simp [Bench.tagAt, State.bench, hEmpty]
    rw [hVoid] at hCast
    apply hCast
    rw [Tag.cast, if_neg (hVoid ▸ hOther)]
    rfl
  have hStack : after.stack = st.stack.retag 0
      (converted (st.stack.tagAt 0) want) := congrArg State.stack hFrame
  rcases hCode.cells hTyped hCast hAgree with ⟨hDefinite, hExchanges⟩
  have hInside := dstWidth_tagAt_le hState.stack hTop
  rcases retag_top (converted (st.stack.tagAt 0) want) hTop with ⟨hDst, hPeak⟩
  rw [dstWidth_converted, ← hStack] at hDst
  rw [← hStack] at hPeak
  have hUpholds : Upholds True Tag.Definite st.stack after.stack := by
    rw [hStack]
    exact OperandStack.upholds_retag _ 0 (definite_converted _ hDefinite)
  have hCounted := hState.stack.counted.peak
  have hLocals : after.locals = st.locals := by rw [hFrame]
  have hAgreed : after.agreed = st.agreed := by rw [hFrame]
  have hSeeding : after.seeding = st.seeding := by rw [hFrame]
  have hScratch : after.scratchEnd = st.scratchEnd := by rw [hFrame]
  refine Covers.of_code hState hUpholds hLocals hAgreed hSeeding
    (Nat.le_of_eq hScratch.symm) hEdit ?_ ?_ ?_
  · refine (hExchanges.within _ hInside).mono ?_ (Nat.le_refl _)
    rw [hPeak, hDst]
    exact Nat.max_le.mpr ⟨by omega, Nat.le_max_right _ _⟩
  · rw [hDst]
    exact hExchanges.leaves _ hInside
  · intro i hMember
    rw [hExchanges.slotless i hMember]
    exact Nat.zero_le _

theorem covers_boxTopFor (hTyped : ctx.reg.Typed)
    (hState : st.Regular ctx.plan) {consumer : Tag} (hConsumer : consumer.Definite)
    (hOk : boxTopFor consumer ctx st = .ok () after) :
    Covers ctx st after := by
  unfold boxTopFor at hOk
  rw [tagAt_bind] at hOk
  split at hOk
  · exact covers_convertTop hTyped hState
      (agreeable_boxedFor (hState.stack.tagAt 0) hConsumer) hOk
  · cases hOk
    exact Covers.refl hState

theorem dst_pop (stack : OperandStack) :
    stack.dst - stack.pop.1.dstWidth ≤ stack.pop.2.dst := by
  unfold OperandStack.pop OperandStack.popEntry
  rcases stack.entries with _ | ⟨entry, rest⟩
  · exact Nat.sub_le _ _
  · exact Nat.le_refl _

theorem covers_dropTop (hState : st.Regular ctx.plan)
    (hOk : dropTop ctx st = .ok () after) :
    Covers ctx st after := by
  have hAfter : after = { st with
        stack := st.stack.pop.2
        edit := st.edit.emit [popOf st.stack.pop.1.dstWidth]
        modified := true } := by
    cases hOk
    rfl
  subst hAfter
  have hPop := dst_pop st.stack
  have hPopped : Upholds True Tag.Definite _ _ := st.stack.upholds_pop
  have hPeak := hPopped.peak
  have hCounted := hState.stack.counted.peak
  refine Covers.of_code hState hPopped rfl rfl rfl (Nat.le_refl _)
    rfl ?_ ?_ (forall_mem_singleton.mpr (Nat.zero_le _))
  · simp only [within_cons, within_nil, depthAfter_popOf]
    omega
  · simp only [depthAfter_cons, depthAfter_nil, depthAfter_popOf]
    exact hPop

-- Scratch locals

/- A definite value in a scratch local that is counted. -/
structure Spilled.Kept (st : State) (spilled : Spilled) : Prop where
  counted : spilled.slot + spilled.entry.tag.dstWidth ≤ st.scratchEnd
  definite : spilled.entry.tag.Definite

theorem Spilled.Kept.mono {spilled : Spilled} (hKept : spilled.Kept st)
    (hRaises : Raises st after) :
    spilled.Kept after :=
  ⟨Nat.le_trans hKept.counted hRaises.scratch, hKept.definite⟩

theorem scratchEnd_le_reach (ctx : Context) (st : State) :
    st.scratchEnd ≤ st.reach ctx := by
  unfold State.reach
  omega

/- What is covered for each of some items that are ready is covered for all. -/
theorem covers_forM (ready : State → α → Prop) {act : α → Simulation PUnit} {items : List α}
    (hMono : ∀ {item : α} {st after : State}, ready st item → Raises st after →
      ready after item)
    (hAct : ∀ {item : α} {st after : State}, st.Regular ctx.plan →
      ready st item → act item ctx st = .ok () after → Covers ctx st after)
    (hState : st.Regular ctx.plan) (hReady : ∀ item ∈ items, ready st item)
    (hOk : items.forM act ctx st = .ok () after) :
    Covers ctx st after := by
  induction items generalizing st with
  | nil =>
    cases hOk
    exact Covers.refl hState
  | cons item items ih =>
    rcases forall_mem_cons.mp hReady with ⟨hFirst, hOthers⟩
    rcases forM_cons_ok hOk with ⟨between, hDone, hOk⟩
    have hDone := hAct hState hFirst hDone
    exact hDone.trans (ih hDone.regular
      (fun other hOther => hMono (hOthers other hOther) hDone.raises) hOk)

section

variable (hState : st.Regular ctx.plan)
include hState

theorem covers_store {entry : Entry} {rest : List Entry} {slot : Nat}
    {popped allocated : State} (hEntries : st.stack.entries = entry :: rest)
    (hPopped : popped = { st with stack := st.stack.popEntry.2 })
    (hAllocate : allocate entry.tag ctx popped = .ok slot allocated)
    (hStore : emit (.store entry.tag.valueKind slot) ctx allocated = .ok () after) :
    Covers ctx st after ∧ Spilled.Kept after ⟨slot, entry⟩ := by
  unfold allocate at hAllocate
  simp only [bind_apply, get_apply, set_apply] at hAllocate
  rcases slotNumber_ok hAllocate with ⟨hSlot, rfl⟩
  cases hStore
  subst hPopped
  have hDst : st.stack.popEntry.2.dst = st.stack.dst - entry.tag.dstWidth := by
    simp [OperandStack.popEntry, hEntries]
  have hPeak := st.stack.accounts_popEntry.peak
  have hCounted := hState.stack.counted.peak
  have hEnd : slot + entry.tag.dstWidth ≤
      max st.scratchEnd (st.locals.dstSize + st.scratch + entry.tag.dstWidth) := by
    have hSame : slot = st.locals.dstSize + st.scratch := hSlot
    omega
  have hDefinite : entry.tag.Definite :=
    hState.stack.definite entry (by rw [hEntries]; exact mem_cons_self)
  refine ⟨?_, hEnd, hDefinite⟩
  refine Covers.of_code hState (OperandStack.upholds_popEntry _) rfl rfl rfl
    (Nat.le_max_left _ _) rfl ?_ ?_ (forall_mem_singleton.mpr ?_)
  · simp only [within_cons, within_nil, depthAfter_store, Tag.cells_valueKind]
    omega
  · simp only [depthAfter_cons, depthAfter_nil, depthAfter_store, Tag.cells_valueKind]
    exact Nat.le_of_eq hDst.symm
  · refine Nat.le_trans ?_ (scratchEnd_le_reach ctx _)
    simp only [Instruction.localsEnd, Tag.cells_valueKind]
    exact hEnd

theorem covers_spill (hOk : spill count ctx st = .ok spilled after) :
    Covers ctx st after ∧ ∀ item ∈ spilled, item.Kept after := by
  induction count generalizing st spilled with
  | zero =>
    cases hOk
    exact ⟨Covers.refl hState, nofun⟩
  | succ count ih =>
    unfold spill at hOk
    rcases bind_ok.mp hOk with ⟨top, popped, hPop, hOk⟩
    have hPopped := (withStack_state hPop).2
    rcases popEntry_ok hPop with ⟨rfl, _⟩
    cases hEntries : st.stack.entries with
    | nil =>
      simp only [State.bench, hEntries, head?_nil] at hOk
      cases hOk
      have hSame : st.stack.popEntry.2.dst = st.stack.dst := by
        simp [OperandStack.popEntry, OperandStack.report, hEntries]
      rw [hPopped]
      exact ⟨Covers.of_stack hState (OperandStack.upholds_popEntry _)
        (Nat.le_of_eq hSame.symm), nofun⟩
    | cons entry rest =>
      simp only [State.bench, hEntries, head?_cons] at hOk
      rcases bind_ok.mp hOk with ⟨slot, allocated, hAllocate, hOk⟩
      rcases bind_ok.mp hOk with ⟨_, stored, hStore, hOk⟩
      rcases covers_store hState hEntries hPopped hAllocate hStore with
        ⟨hStored, hKept⟩
      rcases bind_ok.mp hOk with ⟨more, final, hMore, hOk⟩
      cases hOk
      rcases ih hStored.regular hMore with ⟨hFinal, hOthers⟩
      exact ⟨hStored.trans hFinal, forall_mem_cons.mpr ⟨hKept.mono hFinal.raises, hOthers⟩⟩

theorem covers_reload {spilled : Spilled} (hKept : spilled.Kept st)
    (hOk : reload spilled ctx st = .ok () after) :
    Covers ctx st after := by
  cases hOk
  refine Covers.of_push hState hKept.definite ?_ ?_
  · rw [depthAfter_load, Tag.cells_valueKind]
  · rw [Instruction.localsEnd, Tag.cells_valueKind]
    exact Nat.le_trans hKept.counted (scratchEnd_le_reach ctx _)

theorem covers_reloadAll (hKept : ∀ item ∈ spilled, item.Kept st)
    (hOk : spilled.forM reload ctx st = .ok () after) :
    Covers ctx st after :=
  covers_forM Spilled.Kept Spilled.Kept.mono (fun hState => covers_reload hState) hState hKept hOk

end

theorem covers_reloadAs (hTyped : ctx.reg.Typed)
    (hState : st.Regular ctx.plan) (hKept : ∀ item ∈ spilled, item.Kept st)
    (hAgree : ∀ pair ∈ spilled.zip want, pair.1.entry.tag.Agreeable pair.2)
    (hOk : reloadAs spilled want ctx st = .ok () after) :
    Covers ctx st after := by
  induction spilled generalizing want st with
  | nil =>
    have hNone : ([] : List Spilled).forM reload ctx st = .ok () after := by
      cases want <;> exact hOk
    exact covers_reloadAll hState hKept hNone
  | cons item rest ih =>
    cases want with
    | nil => exact covers_reloadAll hState hKept hOk
    | cons tag others =>
      rcases forall_mem_cons.mp hKept with ⟨hFirst, hOthers⟩
      rw [zip_cons_cons] at hAgree
      rcases forall_mem_cons.mp hAgree with ⟨hTop, hMore⟩
      unfold reloadAs at hOk
      rcases bind_ok.mp hOk with ⟨_, loaded, hLoad, hOk⟩
      have hLoaded := covers_reload hState hFirst hLoad
      have hRest {between : State}
          (hBetween : Covers ctx st between)
          (hOk : reloadAs rest others ctx between = .ok () after) :
          Covers ctx st after :=
        hBetween.trans (ih hBetween.regular
          (fun other hOther => (hOthers other hOther).mono hBetween.raises)
          hMore hOk)
      split at hOk
      · rcases bind_ok.mp hOk with ⟨_, turned, hTurn, hOk⟩
        have hTag : loaded.stack.tagAt 0 = item.entry.tag := by
          cases hLoad
          rfl
        have hTurned := covers_convertTop hTyped hLoaded.regular (hTag ▸ hTop) hTurn
        exact hRest (hLoaded.trans hTurned) hOk
      · exact hRest hLoaded hOk

-- Operands

/- Each of some entries can become what is expected in its place. -/
def AllAgreeable (entries : List Entry) (want : List Tag) : Prop :=
  Forall₂ (fun entry tag => entry.tag.Agreeable tag) entries want

/- Definite tags can be expected of any values. -/
theorem allAgreeable_of_definite (hLength : entries.length = want.length)
    (hWant : ∀ tag ∈ want, tag.Definite) :
    AllAgreeable entries want :=
  List.forall₂_iff_zip.mpr
    ⟨hLength, fun hPair => .inl (hWant _ (of_mem_zip hPair).2)⟩

theorem covers_require (hState : st.Regular ctx.plan) {enough : Bool}
    (hOk : require count ctx st = .ok enough after) :
    Covers ctx st after := by
  have hSame : (st.stack.require count).2.dst = st.stack.dst := by
    unfold OperandStack.require
    split <;> rfl
  rw [(withStack_state hOk).2]
  exact Covers.of_stack hState (OperandStack.upholds_require _ _) (Nat.le_of_eq hSame.symm)

/- A wider value is counted as such. -/
theorem dst_le_retag (stack : OperandStack) (depth : Nat)
    (hWidth : (stack.tagAt depth).dstWidth ≤ tag.dstWidth) :
    stack.dst ≤ (stack.retag depth tag).dst := by
  unfold OperandStack.retag
  split
  · exact Nat.le_refl _
  · rename_i entry hEntry
    rw [OperandStack.tagAt_eq, hEntry] at hWidth
    have hEntryWidth : entry.tag.dstWidth ≤ tag.dstWidth := hWidth
    change stack.dst ≤ stack.dst - entry.tag.dstWidth + tag.dstWidth
    omega

/- A value that takes no code is taken for what is expected. -/
theorem covers_retag (hState : st.Regular ctx.plan) {depth : Nat} {want : Tag}
    (hWant : want.Definite)
    (hCast : (st.stack.tagAt depth).cast want ≠ .failure)
    (hFree : (st.stack.tagAt depth).needsCode want = false) (hTag : tag.Definite)
    (hWidth : tag.dstWidth = want.dstWidth)
    (hOk : retag depth tag ctx st = .ok () after) :
    Covers ctx st after := by
  cases hOk
  apply Covers.of_stack hState (OperandStack.upholds_retag _ depth hTag)
  apply dst_le_retag
  rw [hWidth]
  exact Tag.dstWidth_le_of_free hWant hCast hFree

/-
  Operands that take no code are retagged. All of them can still
  become what is expected, and the tags from the first one on
  that takes code are left.
-/
theorem covers_retagOperands (hState : st.Regular ctx.plan)
    {below : List Entry} {rest : List Tag}
    (hEntries : st.stack.entries = entries.reverse ++ below)
    (hAgree : AllAgreeable entries want)
    (hOk : retagOperands want ctx st = .ok rest after) :
    Covers ctx st after ∧ rest <:+ want ∧
      ∃ tops, after.stack.entries = tops.reverse ++ below ∧ AllAgreeable tops want := by
  induction hAgree generalizing below st rest with
  | nil =>
    cases hOk
    exact ⟨Covers.refl hState, suffix_refl _, [], hEntries, .nil⟩
  | @cons entry want entries others hHead hTail ih =>
    have hDepth : others.length = entries.reverse.length := by
      rw [length_reverse, hTail.length_eq]
    have hSplit : st.bench.entries = entries.reverse ++ (entry :: below) := by
      rw [reverse_cons, append_assoc] at hEntries
      exact hEntries
    have hTag : st.bench.tagAt others.length = entry.tag := by
      simp [Bench.tagAt, hSplit, hDepth]
    -- The operands above are retagged over one that stays.
    have hAbove {between : State} {head : Entry} {left : List Tag}
        (hBetween : Covers ctx st between)
        (hHead : head.tag.Agreeable want)
        (hUnder : between.bench.entries = entries.reverse ++ (head :: below))
        (hOk : retagOperands others ctx between = .ok left after) :
        Covers ctx st after ∧ left <:+ want :: others ∧
          ∃ tops, after.stack.entries = tops.reverse ++ below ∧
            AllAgreeable tops (want :: others) := by
      rcases ih hBetween.regular hUnder hOk with ⟨hAfter, hLeft, tops, hTops, hAll⟩
      exact ⟨hBetween.trans hAfter, hLeft.trans (suffix_cons want others),
        head :: tops, by simpa using hTops, .cons hHead hAll⟩
    have hOk := retagOperands_cons_ok hOk
    rw [hTag] at hOk
    cases hOk with
    | same _ hRest => exact hAbove (Covers.refl hState) hHead hSplit hRest
    | wait _ hLeft hRest =>
      rcases hAbove (Covers.refl hState) hHead hSplit hRest with ⟨hAfter, _, hTops⟩
      exact ⟨hAfter, hLeft ▸ suffix_refl _, hTops⟩
    | turn hFree hCast hTurn hRest =>
      have hWant : want.Definite := by
        rcases hHead with hDefinite | hNeeds
        · exact hDefinite
        · rw [hFree] at hNeeds
          cases hNeeds
      have hFound : st.stack.tagAt others.length = entry.tag := hTag
      have hBetween := covers_retag hState hWant (hFound ▸ hCast)
        (hFound ▸ hFree) (definite_converted entry.tag hWant)
        (dstWidth_converted _ _) hTurn
      rw [hDepth] at hTurn
      exact hAbove hBetween (.inl hWant)
        (congrArg Bench.entries (retag_below hSplit hTurn)) hRest

section

variable (hTyped : ctx.reg.Typed)
variable (hState : st.Regular ctx.plan)
include hTyped hState

/-
  Operands are converted from the first one on that takes code,
  with those above it in scratch locals.
-/
theorem covers_convertPending
    {pending under : List Entry} {deepest : Tag} {above : List Tag}
    (hEntries : st.stack.entries = pending.reverse ++ under)
    (hAgree : AllAgreeable pending (deepest :: above))
    (hOk : (do
      let spilled ← spill above.length
      convertTop deepest
      reloadAs spilled.reverse above) ctx st = .ok () after) :
    Covers ctx st after := by
  cases hAgree with
  | @cons entry _ more _ hHead hTail =>
    have hLength : above.length = more.reverse.length := by
      rw [length_reverse]
      exact hTail.length_eq.symm
    have hSplit : st.bench.entries = more.reverse ++ (entry :: under) := by
      rw [reverse_cons, append_assoc] at hEntries
      exact hEntries
    rcases bind_ok.mp hOk with ⟨spilled, stored, hSpill, hOk⟩
    rcases bind_ok.mp hOk with ⟨_, turned, hTurn, hReload⟩
    rcases covers_spill hState hSpill with ⟨hStored, hKept⟩
    rcases spill_ok hSpill with ⟨hSpilled, hBench⟩
    rw [hSplit, hLength, take_left] at hSpilled
    rw [hSplit, hLength, drop_left] at hBench
    have hTop : stored.stack.tagAt 0 = entry.tag := by
      have hBelow : stored.stack.entries = entry :: under := congrArg Bench.entries hBench
      rw [OperandStack.tagAt_eq, hBelow]
      rfl
    have hTurned := covers_convertTop hTyped hStored.regular (hTop ▸ hHead) hTurn
    have hBack : spilled.reverse.map Spilled.entry = more := by
      rw [map_reverse, hSpilled, map_entry_spilledFrom, reverse_reverse]
    have hPairs : Forall₂
        (fun (item : Spilled) tag => item.entry.tag.Agreeable tag)
        spilled.reverse above := by
      rw [← hBack, List.forall₂_map_left_iff] at hTail
      exact hTail
    refine (hStored.trans hTurned).trans
      (covers_reloadAs hTyped hTurned.regular ?_ ?_ hReload)
    · intro item hItem
      exact (hKept item (mem_reverse.mp hItem)).mono hTurned.raises
    · intro pair hPair
      exact (List.forall₂_iff_zip.mp hPairs).2 hPair

theorem covers_convertOperands
    (hAgree : want.length ≤ st.stack.entries.length →
      ∃ entries below, st.stack.entries = entries.reverse ++ below ∧
        AllAgreeable entries want)
    (hOk : convertOperands want ctx st = .ok () after) :
    Covers ctx st after := by
  unfold convertOperands at hOk
  rw [bind_ok] at hOk
  rcases hOk with ⟨enough, required, hRequire, hOk⟩
  have hRequired := covers_require hState hRequire
  rcases require_ok hRequire with ⟨rfl, hSize, rfl⟩ | ⟨rfl, _, _⟩
  swap
  · cases hOk
    exact hRequired
  simp only [if_true] at hOk
  rcases hAgree hSize with ⟨entries, below, hEntries, hAll⟩
  rcases bind_ok.mp hOk with ⟨rest, turned, hRetag, hOk⟩
  rcases covers_retagOperands hState hEntries hAll hRetag with
    ⟨hTurned, ⟨front, hFront⟩, tops, hTops, hAllTops⟩
  cases rest with
  | nil =>
    cases hOk
    exact hTurned
  | cons deepest above =>
    rw [← hFront] at hAllTops
    have hPending := List.forall₂_drop_append tops front _ hAllTops
    have hUnder : turned.stack.entries = (tops.drop front.length).reverse ++
        ((tops.take front.length).reverse ++ below) := by
      rw [hTops, ← append_assoc, ← reverse_append, take_append_drop]
    exact hTurned.trans
      (covers_convertPending hTyped hTurned.regular hUnder hPending hOk)

theorem covers_convertOperands_of_definite (hWant : ∀ tag ∈ want, tag.Definite)
    (hOk : convertOperands want ctx st = .ok () after) :
    Covers ctx st after := by
  refine covers_convertOperands hTyped hState (fun hSize => ?_) hOk
  refine ⟨_, _, entries_split st.stack.entries want.length,
    allAgreeable_of_definite ?_ hWant⟩
  rw [length_reverse, length_take]
  omega

end

/- Payloads among some entries can be boxed for their consumers. -/
theorem allAgreeable_boxedFor (hLength : entries.length ≤ consumers.length)
    (hEntries : ∀ entry ∈ entries, entry.tag.Definite)
    (hConsumers : ∀ tag ∈ consumers, tag.Definite) :
    AllAgreeable entries
      (((entries.map Entry.tag).zip consumers).map fun (found, consumer) =>
        boxedFor found consumer) := by
  induction entries generalizing consumers with
  | nil => exact .nil
  | cons entry entries ih =>
    cases consumers with
    | nil => cases hLength
    | cons consumer consumers =>
      rcases forall_mem_cons.mp hEntries with ⟨hEntry, hOthers⟩
      rcases forall_mem_cons.mp hConsumers with ⟨hConsumer, hMore⟩
      exact .cons (agreeable_boxedFor hEntry hConsumer)
        (ih (Nat.le_of_succ_le_succ hLength) hOthers hMore)

theorem covers_boxOperands (hTyped : ctx.reg.Typed)
    (hState : st.Regular ctx.plan) (hConsumers : ∀ tag ∈ consumers, tag.Definite)
    (hOk : boxOperands consumers ctx st = .ok () after) :
    Covers ctx st after := by
  unfold boxOperands at hOk
  rcases bind_ok.mp hOk with ⟨found, _, hFound, hOk⟩
  cases hFound
  split at hOk
  · refine covers_convertOperands hTyped hState (fun _ => ?_) hOk
    refine ⟨_, _, entries_split st.stack.entries consumers.length, ?_⟩
    rw [← map_reverse]
    apply allAgreeable_boxedFor _ _ hConsumers
    · rw [length_reverse, length_take]
      exact Nat.min_le_left _ _
    · intro entry hEntry
      exact hState.stack.definite entry
        (mem_of_mem_take (mem_reverse.mp hEntry))
  · cases hOk
    exact Covers.refl hState

end Simulation

end Unboxing
