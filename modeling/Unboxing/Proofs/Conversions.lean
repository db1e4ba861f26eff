import Unboxing.Proofs.OperandSteps

/-
  What conversions of stack values do: the code they put before
  the element that is looked at, and the entries they leave.
  Everything is said about successful steps.

  Main declarations:
    * `Simulation.Bench`
    * `ConversionCode`
    * `converted`
    * `Simulation.convertTop_ok`
    * `Simulation.spill_ok`
    * `Simulation.reloadAs_ok`
-/

namespace Unboxing

variable {found want : Tag}

-- Stacks

namespace OperandStack

theorem entries_retag (stack : OperandStack) (depth : Nat) (tag : Tag) :
    (stack.retag depth tag).entries =
      stack.entries.modify depth fun entry => { entry with tag := tag } := by
  apply List.ext_getElem?
  intro other
  rw [List.getElem?_modify]
  unfold retag
  split
  · rename_i hNone
    by_cases hSame : depth = other
    · subst hSame
      simp [report, hNone]
    · simp [report, hSame]
  · rename_i entry hEntry
    simp only [List.getElem?_set]
    by_cases hSame : depth = other
    · subst hSame
      obtain ⟨hInside, hGet⟩ := List.getElem?_eq_some_iff.mp hEntry
      simp [hInside, hGet]
    · simp [hSame]

end OperandStack

theorem Tag.cast_self (tag : Tag) : tag.cast tag = .success := by
  simp [cast]

theorem Tag.needsCode_iff {found want : Tag} :
    found.needsCode want = true ↔
      found.cast want = .boxing ∨ found.cast want = .unboxing := by
  unfold needsCode
  cases found.cast want <;> simp

/- What a value goes through to become an expected one, and when. -/
inductive Tag.Turns (found want : Tag) : Cast → Prop where
  | same (hSame : found = want) : Turns found want .success
  | failure : Turns found want .failure
  | substitution (hFound : found.isValue = true) (hDepth : found.depth = want.depth)
      (hClass : found.class? ≠ want.class?) (hOpen : want.isWildcard = true) :
      Turns found want .substitution
  | box (hDepth : found.depth = want.depth) (hClass : found.class? = want.class?)
      (hFound : found.hasPayloadKind = true) (hWant : want.hasReferenceKind = true) :
      Turns found want .boxing
  | unbox (hDepth : found.depth = want.depth) (hClass : found.class? = want.class?)
      (hFound : found.hasReferenceKind = true) (hWant : want.hasPayloadKind = true) :
      Turns found want .unboxing
  | boxAsObject (hFound : found.hasPayloadKind = true)
      (hWant : want.kind = .object ∧ want.depth ≤ found.depth) :
      Turns found want .boxing
  | asObject (hValue : found.isValue = true) (hFound : found.hasPayloadKind = false)
      (hWant : want.kind = .object) : Turns found want .success
  | unboxNull (hFound : found.kind = .null) (hWant : want.isPayload = true) :
      Turns found want .unboxing
  | null (hFound : found.kind = .null) (hValue : want.isValue = true)
      (hWant : want.isPayload = false) : Turns found want .success
  | unboxObject (hFound : found.kind = .object)
      (hDepth : found.depth = 0 ∨ found.depth = want.depth)
      (hWant : want.hasPayloadKind = true) : Turns found want .unboxing
  | object (hFound : found.kind = .object) (hValue : want.isValue = true)
      (hWant : want.hasPayloadKind = false) : Turns found want .success
  | other (hFound : found.isValue = false) (hWant : want.isValue = false)
      (hReferences : found.isSrcReference = true ∧ want.isSrcReference = true)
      (hKind : want.kind ≠ .void ∧ want.kind ≠ .null) : Turns found want .success

/- Between two tags of a value class, nothing but code changes the tag. -/
theorem Tag.turns_castValues (hFound : found.isValue = true) (hWant : want.isValue = true) :
    Turns found want (found.castValues want) := by
  have hSame (hDepth : found.depth = want.depth) (hClass : found.class? = want.class?)
      (hBox : ¬ (found.hasPayloadKind && want.hasReferenceKind) = true)
      (hUnbox : ¬ (found.hasReferenceKind && want.hasPayloadKind) = true) :
      found = want := by
    rcases found with ⟨foundKind, foundDepth⟩
    rcases want with ⟨kind, depth⟩
    cases foundKind <;> cases kind <;> simp_all [isValue, class?, hasPayloadKind, hasReferenceKind]
  grind [castValues, Turns]

theorem Tag.turns_of_cast {cast : Cast} (hCast : found.cast want = cast) :
    Turns found want cast := by
  subst hCast
  unfold Tag.cast
  split
  case isTrue hSame => exact .same hSame
  case isFalse =>
    split
    · exact .failure
    split
    case h_1 hFound hWant => exact turns_castValues hFound hWant
    case h_2 hFound _ => grind [castFromValue, Turns]
    case h_3 _ hWant => grind [castToValue, Turns]
    case h_4 hFound hWant => grind [castOthers, isVoid, Turns]

/- A payload is boxed as a reference of its class, or as some object. -/
theorem Tag.of_cast_boxing (hCast : found.cast want = .boxing) :
    found.hasPayloadKind = true ∧
      ((want.hasReferenceKind = true ∧ found.class? = want.class? ∧
          found.depth = want.depth) ∨
        (want.kind = .object ∧ want.depth ≤ found.depth)) := by
  cases turns_of_cast hCast with
  | box hDepth hClass hFound hWant => exact ⟨hFound, .inl ⟨hWant, hClass, hDepth⟩⟩
  | boxAsObject hFound hWant => exact ⟨hFound, .inr hWant⟩

/- What is unboxed is a reference of the class, null, or some object. -/
theorem Tag.of_cast_unboxing (hCast : found.cast want = .unboxing) :
    want.hasPayloadKind = true ∧
      ((found.hasReferenceKind = true ∧ found.class? = want.class? ∧
          found.depth = want.depth) ∨
        (found.kind = .null ∧ want.isPayload = true) ∨
        (found.kind = .object ∧
          (found.depth = 0 ∨ found.depth = want.depth))) := by
  cases turns_of_cast hCast with
  | unbox hDepth hClass hFound hWant => exact ⟨hWant, .inl ⟨hFound, hClass, hDepth⟩⟩
  | unboxNull hFound hWant =>
    exact ⟨(Bool.and_eq_true_iff.mp hWant).1, .inr (.inl ⟨hFound, hWant⟩)⟩
  | unboxObject hFound hDepth hWant => exact ⟨hWant, .inr (.inr ⟨hFound, hDepth⟩)⟩

theorem Tag.of_cast_substitution (hCast : found.cast want = .substitution) :
    want.isWildcard = true ∧ found.class? ≠ want.class? := by
  cases turns_of_cast hCast with
  | substitution _ _ hClass hOpen => exact ⟨hOpen, hClass⟩

/- Code is only needed between values that take one cell. -/
theorem Tag.narrow_of_needsCode (hCode : found.needsCode want = true) :
    (found.isVoid = false ∧ found.isSrcWide = false) ∧
      want.isVoid = false ∧ want.isSrcWide = false := by
  have hPayload {tag : Tag} (hKind : tag.hasPayloadKind = true) :
      tag.isVoid = false ∧ tag.isSrcWide = false := by
    rcases tag with ⟨kind, depth⟩
    cases kind <;> simp [hasPayloadKind, isVoid, isSrcWide] at hKind ⊢
  have hReference {tag : Tag} (hKind : tag.hasReferenceKind = true) :
      tag.isVoid = false ∧ tag.isSrcWide = false := by
    rcases tag with ⟨kind, depth⟩
    cases kind <;> simp [hasReferenceKind, isVoid, isSrcWide] at hKind ⊢
  rcases needsCode_iff.mp hCode with hBoxing | hUnboxing
  · rcases of_cast_boxing hBoxing with ⟨hFound, ⟨hWant, _⟩ | ⟨hObject, _⟩⟩
    · exact ⟨hPayload hFound, hReference hWant⟩
    · exact ⟨hPayload hFound, by simp [isVoid, isSrcWide, hObject]⟩
  · rcases of_cast_unboxing hUnboxing with
      ⟨hWant, ⟨hFound, _⟩ | ⟨hNull, _⟩ | ⟨hObject, _⟩⟩
    · exact ⟨hReference hFound, hPayload hWant⟩
    · exact ⟨by simp [isVoid, isSrcWide, hNull], hPayload hWant⟩
    · exact ⟨by simp [isVoid, isSrcWide, hObject], hPayload hWant⟩

-- The code of a conversion

/- The check of a reference to an unknown class before it is unboxed. -/
def unboxCheck (reg : Registry) (found want : Tag) : List Instruction :=
  if found.isValue then
    []
  else
    match reg.typeOf? want.referenceOf with
    | some (.ref boxed) => [.checkCast boxed]
    | _ => []

/- The code that turns a found value on top into an expected one. -/
inductive ConversionCode (reg : Registry)
    (found want : Tag) : List Instruction → Prop where
  | keep
      (hKeep : found.needsCode want = false) :
      ConversionCode reg found want []
  | box
      {info : ValueClass}
      {method : MethodRef}
      (hCast : found.cast want = .boxing)
      (hClass : reg.class? (found.class?.getD .first) = some info)
      (hMethod : info.boxMethod found.depth = .ok method) :
      ConversionCode reg found want [.invoke .static method]
  | unboxNull
      {info : ValueClass}
      (hCast : found.cast want = .unboxing)
      (hNull : found.isNull = true)
      (hClass : reg.class? (want.class?.getD .first) = some info) :
      ConversionCode reg found want
        [.shuffle .pop, nullConstant info.nullValue]
  | unbox
      {info : ValueClass}
      {method : MethodRef}
      (hCast : found.cast want = .unboxing)
      (hNull : found.isNull = false)
      (hClass : reg.class? (want.class?.getD .first) = some info)
      (hMethod : info.unboxMethod want.depth = .ok method) :
      ConversionCode reg found want
        (unboxCheck reg found want ++ [.invoke .static method])

theorem ConversionCode.eq_nil {reg : Registry} {tag : Tag} {code : List Instruction}
    (hCode : ConversionCode reg tag tag code) :
    code = [] := by
  cases hCode with
  | keep => rfl
  | box hCast | unboxNull hCast | unbox hCast => simp [Tag.cast_self] at hCast

/- The tag of a found value after it was turned into an expected one. -/
def converted (found want : Tag) : Tag :=
  if found.cast want = .substitution then
    Simulation.substituted found want
  else
    want

theorem converted_of_needsCode (hCode : found.needsCode want = true) :
    converted found want = want := by
  rw [Tag.needsCode_iff] at hCode
  rw [converted, if_neg]
  rcases hCode with hBoxing | hUnboxing
  · simp [hBoxing]
  · simp [hUnboxing]

namespace Simulation

/-
  What conversions work on: the entries of the stack, the
  locals, the cells of scratch locals in use, and the edit at
  hand.
-/
structure Bench where
  entries : List Entry
  locals : SlotMap
  scratch : Nat
  edit : Edit

namespace Bench

def tagAt (bench : Bench) (depth : Nat) : Tag :=
  (bench.entries[depth]?.map Entry.tag).getD .void

def withEntries (bench : Bench) (entries : List Entry) : Bench :=
  { bench with entries := entries }

def emit (bench : Bench) (code : List Instruction) : Bench :=
  { bench with edit := bench.edit.emit code }

variable (bench : Bench)

@[simp] theorem entries_withEntries (entries : List Entry) :
    (bench.withEntries entries).entries = entries :=
  rfl

@[simp] theorem withEntries_self :
    bench.withEntries bench.entries = bench :=
  rfl

@[simp] theorem withEntries_withEntries (first second : List Entry) :
    (bench.withEntries first).withEntries second = bench.withEntries second :=
  rfl

@[simp] theorem entries_emit (code : List Instruction) :
    (bench.emit code).entries = bench.entries :=
  rfl

@[simp] theorem locals_emit (code : List Instruction) :
    (bench.emit code).locals = bench.locals :=
  rfl

@[simp] theorem emit_nil : bench.emit [] = bench := by
  simp [emit]

@[simp] theorem emit_emit (first second : List Instruction) :
    (bench.emit first).emit second = bench.emit (first ++ second) := by
  simp [emit]

@[simp] theorem withEntries_emit (code : List Instruction)
    (entries : List Entry) :
    (bench.emit code).withEntries entries = (bench.withEntries entries).emit code :=
  rfl

end Bench

def State.bench (st : State) : Bench where
  entries := st.stack.entries
  locals := st.locals
  scratch := st.scratch
  edit := st.edit

-- Small steps

section Steps

variable {ctx : Context} {st after : State} {tag : Tag}
variable {spilled : List Spilled}

theorem emit_ok {i : Instruction} (hOk : emit i ctx st = .ok () after) :
    after.bench = st.bench.emit [i] := by
  cases hOk
  rfl

theorem retag_ok {depth : Nat} (hOk : retag depth tag ctx st = .ok () after) :
    after.bench =
      st.bench.withEntries
        (st.bench.entries.modify depth fun entry => { entry with tag := tag }) := by
  cases hOk
  simp only [State.bench, OperandStack.entries_retag]
  rfl

theorem push_ok {name : Option String}
    (hOk : push tag name ctx st = .ok () after) :
    after.bench = st.bench.withEntries (⟨tag, name⟩ :: st.bench.entries) := by
  cases hOk
  rfl

theorem withStack_state {α : Type} {act : OperandStack → α × OperandStack} {result : α}
    (hOk : withStack act ctx st = .ok result after) :
    result = (act st.stack).1 ∧ after = { st with stack := (act st.stack).2 } := by
  have hApply : withStack act ctx st =
      .ok (act st.stack).1 { st with stack := (act st.stack).2 } := rfl
  rw [hApply] at hOk
  injection hOk with hResult hAfter
  exact ⟨hResult.symm, hAfter.symm⟩

theorem withStack_ok {α : Type} {act : OperandStack → α × OperandStack} {result : α}
    (hOk : withStack act ctx st = .ok result after) :
    result = (act st.stack).1 ∧
      after.bench = st.bench.withEntries (act st.stack).2.entries := by
  obtain ⟨rfl, rfl⟩ := withStack_state hOk
  exact ⟨rfl, rfl⟩

theorem popEntry_ok {top : Option Entry}
    (hOk : withStack OperandStack.popEntry ctx st = .ok top after) :
    top = st.bench.entries.head? ∧
      after.bench = st.bench.withEntries st.bench.entries.tail := by
  obtain ⟨rfl, hAfter⟩ := withStack_ok hOk
  rw [hAfter]
  cases hEntries : st.stack.entries <;>
    simp [State.bench, OperandStack.popEntry, OperandStack.report, hEntries]

theorem popKind_ok {kind : ValueKind} (hOk : popKind kind ctx st = .ok () after) :
    after.bench = st.bench.withEntries st.bench.entries.tail := by
  unfold popKind at hOk
  rw [bind_ok] at hOk
  obtain ⟨_, popped, hPop, hOk⟩ := hOk
  cases hOk
  rw [(withStack_ok hPop).2, OperandStack.popExact, OperandStack.entries_popIf]
  rfl

theorem diagnose_ok {kind : DiagnosticKind}
    (hOk : diagnose kind ctx st = .ok () after) :
    after.bench = st.bench := by
  unfold diagnose at hOk
  simp only [bind_apply, read_apply] at hOk
  cases hSuppressed : ctx.settings.isSuppressed kind <;>
    cases hStrict : ctx.settings.strict <;>
      simp [hSuppressed, hStrict, bind_apply] at hOk
  all_goals
    subst hOk
    rfl

theorem valueClass_ok {cls : ClassIndex} {info : ValueClass}
    (hOk : valueClass cls ctx st = .ok info after) :
    ctx.reg.class? cls = some info ∧ st = after := by
  unfold valueClass at hOk
  simp only [bind_apply, read_apply] at hOk
  cases hFound : ctx.reg.class? cls with
  | none =>
    rw [hFound] at hOk
    cases hOk
  | some found =>
    rw [hFound] at hOk
    cases hOk
    exact ⟨rfl, rfl⟩

theorem ofExcept_ok {α : Type} {outcome : Except FailureCause α} {result : α}
    (hOk : (MonadExcept.ofExcept outcome : Simulation α) ctx st =
      .ok result after) :
    outcome = .ok result ∧ st = after := by
  cases outcome with
  | error cause => cases hOk
  | ok found =>
    cases hOk
    exact ⟨rfl, rfl⟩

theorem slotNumber_ok {cell slot : Nat}
    (hOk : slotNumber cell ctx st = .ok slot after) :
    slot = cell ∧ st = after := by
  unfold slotNumber at hOk
  split at hOk
  · cases hOk
    exact ⟨rfl, rfl⟩
  · cases hOk

theorem allocate_ok {slot : Nat} (hOk : allocate tag ctx st = .ok slot after) :
    slot = st.bench.locals.dstSize + st.bench.scratch ∧
      after.bench =
        { st.bench with scratch := st.bench.scratch + tag.dstWidth } := by
  unfold allocate at hOk
  simp only [bind_apply, get_apply, set_apply] at hOk
  obtain ⟨hSlot, hAfter⟩ := slotNumber_ok hOk
  rw [← hAfter]
  exact ⟨hSlot, rfl⟩

theorem tagAt_ok {depth : Nat} (hOk : tagAt depth ctx st = .ok tag after) :
    tag = st.bench.tagAt depth ∧ st = after := by
  unfold tagAt at hOk
  simp only [bind_apply, get_apply, pure_apply] at hOk
  cases hOk
  exact ⟨rfl, rfl⟩

theorem popMany_apply (count : Nat) (ctx : Context) (st : State) :
    popMany count ctx st =
      .ok () { st with stack := st.stack.popped count } := by
  induction count generalizing st with
  | zero => rfl
  | succ count ih => exact ih _

theorem require_ok {count : Nat} {enough : Bool}
    (hOk : require count ctx st = .ok enough after) :
    enough = true ∧ count ≤ st.stack.entries.length ∧ after = st ∨
      enough = false ∧ st.stack.entries.length < count ∧
        after.stack.issues ≠ [] := by
  rcases withStack_state hOk with ⟨rfl, rfl⟩
  unfold OperandStack.require
  split
  · rename_i hFew
    exact .inr ⟨rfl, hFew, by simp [OperandStack.report]⟩
  · rename_i hEnough
    exact .inl ⟨rfl, Nat.le_of_not_lt hEnough, rfl⟩

-- The top of the stack

theorem emitBox_ok {found : Tag} (hOk : emitBox found ctx st = .ok () after) :
    ∃ info method,
      ctx.reg.class? (found.class?.getD .first) = some info ∧
        info.boxMethod found.depth = .ok method ∧
          after.bench = st.bench.emit [.invoke .static method] := by
  unfold emitBox at hOk
  rw [bind_ok] at hOk
  obtain ⟨info, first, hClass, hOk⟩ := hOk
  obtain ⟨hInfo, rfl⟩ := valueClass_ok hClass
  rw [bind_ok] at hOk
  obtain ⟨method, second, hMethod, hOk⟩ := hOk
  obtain ⟨hBox, rfl⟩ := ofExcept_ok hMethod
  rw [bind_ok] at hOk
  obtain ⟨_, third, hCall, hOk⟩ := hOk
  refine ⟨info, method, hInfo, hBox, ?_⟩
  rw [diagnose_ok hOk]
  exact emit_ok hCall

theorem emitUnbox_ok {found want : Tag}
    (hOk : emitUnbox found want ctx st = .ok () after) :
    ∃ info,
      ctx.reg.class? (want.class?.getD .first) = some info ∧
        if found.isNull = true then
          after.bench =
            st.bench.emit [.shuffle .pop, nullConstant info.nullValue]
        else
          ∃ method, info.unboxMethod want.depth = .ok method ∧
            after.bench =
              st.bench.emit
                (unboxCheck ctx.reg found want ++
                  [.invoke .static method]) := by
  unfold emitUnbox at hOk
  rw [bind_ok] at hOk
  obtain ⟨info, first, hClass, hOk⟩ := hOk
  obtain ⟨hInfo, rfl⟩ := valueClass_ok hClass
  refine ⟨info, hInfo, ?_⟩
  by_cases hNull : found.isNull = true
  · rw [if_pos hNull] at hOk ⊢
    rw [bind_ok] at hOk
    obtain ⟨_, second, hPop, hOk⟩ := hOk
    have hFirst := emit_ok hPop
    have hSecond := emit_ok hOk
    rw [hSecond, hFirst, Bench.emit_emit]
    rfl
  · rw [if_neg hNull] at hOk ⊢
    have hRest (start : State)
        (hOk : (do
          emitCall (← MonadExcept.ofExcept (info.unboxMethod want.depth)))
            ctx start = .ok () after) :
        ∃ method, info.unboxMethod want.depth = .ok method ∧
          after.bench = start.bench.emit [.invoke .static method] := by
      rw [bind_ok] at hOk
      obtain ⟨method, between, hMethod, hOk⟩ := hOk
      obtain ⟨hUnbox, rfl⟩ := ofExcept_ok hMethod
      exact ⟨method, hUnbox, emit_ok hOk⟩
    unfold unboxCheck
    cases hValue : found.isValue with
    | true =>
      simp only [hValue, Bool.not_true, Bool.false_eq_true, if_false] at hOk
      exact hRest _ hOk
    | false =>
      simp only [hValue, Bool.not_false, if_true] at hOk
      rw [bind_ok] at hOk
      obtain ⟨_, _, hRead, hOk⟩ := hOk
      cases hRead
      simp only [Bool.false_eq_true, if_false]
      generalize ctx.reg.typeOf? want.referenceOf = boxed at hOk ⊢
      rcases boxed with _ | ⟨_ | boxed⟩
      · exact hRest _ hOk
      · exact hRest _ hOk
      · simp only at hOk
        rw [bind_ok] at hOk
        obtain ⟨_, checked, hCheck, hOk⟩ := hOk
        obtain ⟨method, hMethod, hAfter⟩ := hRest _ hOk
        refine ⟨method, hMethod, ?_⟩
        rw [hAfter, emit_ok hCheck, Bench.emit_emit]

def retagTop (entries : List Entry) (tag : Tag) : List Entry :=
  entries.modify 0 fun entry => { entry with tag := tag }

@[simp] theorem retagTop_nil (tag : Tag) : retagTop [] tag = [] :=
  rfl

theorem retagTop_self (bench : Bench) :
    retagTop bench.entries (bench.tagAt 0) = bench.entries := by
  unfold Bench.tagAt
  cases bench.entries <;> rfl

@[simp] theorem retagTop_cons (entry : Entry) (entries : List Entry)
    (tag : Tag) :
    retagTop (entry :: entries) tag = { entry with tag := tag } :: entries :=
  rfl

theorem convertTop_ok {want : Tag}
    (hOk : convertTop want ctx st = .ok () after) :
    (st.bench.tagAt 0).cast want ≠ .failure ∧
      ∃ code,
        ConversionCode ctx.reg (st.bench.tagAt 0) want code ∧
          after.bench =
            (st.bench.withEntries
              (retagTop st.bench.entries
                (converted (st.bench.tagAt 0) want))).emit code := by
  unfold convertTop at hOk
  rw [bind_ok] at hOk
  obtain ⟨found, _, hFound, hOk⟩ := hOk
  obtain ⟨rfl, rfl⟩ := tagAt_ok hFound
  by_cases hSame : st.bench.tagAt 0 = want
  · rw [if_neg (not_not_intro hSame)] at hOk
    cases hOk
    subst hSame
    have hCast := Tag.cast_self (st.bench.tagAt 0)
    refine ⟨by simp [hCast], [], .keep (by simp [Tag.needsCode, hCast]), ?_⟩
    rw [converted, hCast, if_neg (by simp), Bench.emit_nil, retagTop_self,
      Bench.withEntries_self]
  · rw [if_pos hSame] at hOk
    cases hCast : (st.bench.tagAt 0).cast want with
    | failure =>
      simp only [hCast] at hOk
      cases hOk
    | success =>
      simp only [hCast] at hOk
      refine ⟨by simp, [], .keep (by simp [Tag.needsCode, hCast]), ?_⟩
      rw [retag_ok hOk, converted, hCast, if_neg (by simp), Bench.emit_nil]
      rfl
    | substitution =>
      simp only [hCast] at hOk
      refine ⟨by simp, [], .keep (by simp [Tag.needsCode, hCast]), ?_⟩
      rw [retag_ok hOk, converted, hCast, if_pos rfl, Bench.emit_nil]
      rfl
    | boxing =>
      simp only [hCast] at hOk
      rw [bind_ok] at hOk
      obtain ⟨_, boxed, hBox, hOk⟩ := hOk
      obtain ⟨info, method, hClass, hMethod, hBench⟩ := emitBox_ok hBox
      refine ⟨by simp, _, .box hCast hClass hMethod, ?_⟩
      rw [retag_ok hOk, hBench, converted, hCast, if_neg (by simp)]
      rfl
    | unboxing =>
      simp only [hCast] at hOk
      rw [bind_ok] at hOk
      obtain ⟨_, unboxed, hUnbox, hOk⟩ := hOk
      obtain ⟨info, hClass, hBench⟩ := emitUnbox_ok hUnbox
      rw [retag_ok hOk, converted, hCast, if_neg (by simp)]
      by_cases hNull : (st.bench.tagAt 0).isNull = true
      · rw [if_pos hNull] at hBench
        refine ⟨by simp, _, .unboxNull hCast hNull hClass, ?_⟩
        rw [hBench]
        rfl
      · rw [if_neg hNull] at hBench
        obtain ⟨method, hMethod, hBench⟩ := hBench
        rw [Bool.not_eq_true] at hNull
        refine ⟨by simp, _, .unbox hCast hNull hClass hMethod, ?_⟩
        rw [hBench]
        rfl

-- Retagging

/-
  What is done about one of some entries that are retagged, the
  deepest first: it gets a tag, or it waits for the code that
  its cast takes.
-/
def retagStep (depth : Nat) (found want substitute : Tag) (others : List Tag)
    (cause : FailureCause) (above : Simulation (List Tag)) : Simulation (List Tag) :=
  if found = want then
    above
  else
    match found.cast want with
    | .failure => throw cause
    | .boxing | .unboxing => do
        let _ ← above
        return want :: others
    | .substitution => do
        retag depth substitute
        above
    | .success => do
        retag depth want
        above

/- How one of some entries was retagged. -/
inductive RetagStep (ctx : Context) (depth : Nat) (found want turned : Tag)
    (others : List Tag) (above : Simulation (List Tag)) (st : State) (rest : List Tag)
    (after : State) : Prop where
  | same
      (hSame : found = want)
      (hAbove : above ctx st = .ok rest after)
  | wait
      {more : List Tag}
      (hCode : found.needsCode want = true)
      (hRest : rest = want :: others)
      (hAbove : above ctx st = .ok more after)
  | turn
      {between : State}
      (hFree : found.needsCode want = false)
      (hCast : found.cast want ≠ .failure)
      (hTurn : retag depth turned ctx st = .ok () between)
      (hAbove : above ctx between = .ok rest after)

theorem retagStep_ok {depth : Nat} {found want substitute : Tag}
    {others rest : List Tag} {cause : FailureCause} {above : Simulation (List Tag)}
    (hOk : retagStep depth found want substitute others cause above ctx st =
      .ok rest after) :
    RetagStep ctx depth found want
      (if found.cast want = .substitution then substitute else want) others
      above st rest after := by
  unfold retagStep at hOk
  split at hOk
  · rename_i hSame
    exact .same hSame hOk
  cases hCast : found.cast want with
  | failure =>
    rw [hCast] at hOk
    cases hOk
  | boxing | unboxing =>
    rw [hCast] at hOk
    rcases bind_ok.mp hOk with ⟨more, _, hAbove, hOk⟩
    cases hOk
    exact .wait (by simp [Tag.needsCode, hCast]) rfl hAbove
  | substitution | success =>
    rw [hCast] at hOk
    rcases bind_ok.mp hOk with ⟨_, between, hTurn, hAbove⟩
    exact .turn (by simp [Tag.needsCode, hCast]) (by simp [hCast]) hTurn hAbove

theorem retagOperands_cons_ok {want : Tag} {others rest : List Tag}
    (hOk : retagOperands (want :: others) ctx st = .ok rest after) :
    RetagStep ctx others.length (st.bench.tagAt others.length) want
      (converted (st.bench.tagAt others.length) want) others
      (retagOperands others) st rest after :=
  retagStep_ok hOk

theorem retagEntries_cons_ok {label : Label} {operands : Nat} {want : Tag}
    {others rest : List Tag}
    (hOk : retagEntries label operands (want :: others) ctx st =
      .ok rest after) :
    RetagStep ctx (operands + others.length)
      (st.bench.tagAt (operands + others.length)) want want others
      (retagEntries label operands others) st rest after := by
  have hStep := @retagStep_ok ctx st after _ _ _ want _ _ _ _ hOk
  rwa [ite_self] at hStep

-- Scratch locals

/- Entries in scratch locals, one after another from a cell on. -/
def spilledFrom (cell : Nat) : List Entry → List Spilled
  | [] => []
  | entry :: entries =>
    ⟨cell, entry⟩ :: spilledFrom (cell + entry.tag.dstWidth) entries

def Spilled.store (spilled : Spilled) : Instruction :=
  .store spilled.entry.tag.valueKind spilled.slot

def Spilled.load (spilled : Spilled) : Instruction :=
  .load spilled.entry.tag.valueKind spilled.slot

/- The top entries are in scratch locals, and the others stay. -/
theorem spill_ok {count : Nat} (hOk : spill count ctx st = .ok spilled after) :
    spilled =
        spilledFrom (st.bench.locals.dstSize + st.bench.scratch)
          (st.bench.entries.take count) ∧
      after.bench =
        { entries := st.bench.entries.drop count
          locals := st.bench.locals
          scratch :=
            st.bench.scratch + dstCells (st.bench.entries.take count)
          edit := st.bench.edit.emit (spilled.map Spilled.store) } := by
  induction count generalizing st spilled with
  | zero =>
    cases hOk
    exact ⟨rfl, by simp [dstCells]⟩
  | succ count ih =>
    unfold spill at hOk
    rw [bind_ok] at hOk
    obtain ⟨top, popped, hPop, hOk⟩ := hOk
    obtain ⟨rfl, hPopped⟩ := popEntry_ok hPop
    cases hEntries : st.bench.entries with
    | nil =>
      rw [hEntries] at hOk hPopped
      cases hOk
      rw [hPopped]
      exact ⟨rfl, by simp [Bench.withEntries, dstCells]⟩
    | cons entry entries =>
      rw [hEntries] at hOk hPopped
      simp only [List.head?_cons] at hOk
      rw [bind_ok] at hOk
      obtain ⟨slot, allocated, hAllocate, hOk⟩ := hOk
      obtain ⟨hSlot, hAllocated⟩ := allocate_ok hAllocate
      rw [bind_ok] at hOk
      obtain ⟨_, stored, hStore, hOk⟩ := hOk
      have hStored := emit_ok hStore
      rw [hAllocated, hPopped] at hStored
      rw [hPopped] at hSlot
      rw [bind_ok] at hOk
      obtain ⟨more, final, hMore, hOk⟩ := hOk
      cases hOk
      obtain ⟨hSpilled, hFinal⟩ := ih hMore
      rw [hStored] at hSpilled hFinal
      refine ⟨?_, ?_⟩
      · rw [hSpilled, hSlot]
        simp [spilledFrom, Bench.emit, Bench.withEntries, Nat.add_assoc]
      · rw [hFinal]
        simp [dstCells, Bench.emit, Bench.withEntries, Spilled.store, Nat.add_assoc]

theorem reload_ok {spilled : Spilled}
    (hOk : reload spilled ctx st = .ok () after) :
    after.bench =
      (st.bench.withEntries (spilled.entry :: st.bench.entries)).emit
        [spilled.load] := by
  unfold reload at hOk
  rw [bind_ok] at hOk
  obtain ⟨_, loaded, hLoad, hOk⟩ := hOk
  rw [push_ok hOk, emit_ok hLoad]
  rfl

/- The entries that come back, the first first, each as what is expected. -/
def reloaded : List Spilled → List Tag → List Entry
  | spilled :: rest, want :: others =>
    { spilled.entry with tag := converted spilled.entry.tag want }
      :: reloaded rest others
  | rest, _ => rest.map Spilled.entry

/- The code that puts entries back, each as what is expected. -/
inductive ReloadCode (reg : Registry) :
    List Spilled → List Tag → List Instruction → Prop where
  | plain
      (spilled : List Spilled)
      (want : List Tag)
      (hDone : spilled = [] ∨ want = []) :
      ReloadCode reg spilled want (spilled.map Spilled.load)
  | convert
      {spilled : Spilled}
      {rest : List Spilled}
      {want : Tag}
      {others : List Tag}
      {code more : List Instruction}
      (hCast : spilled.entry.tag.cast want ≠ .failure)
      (hCode : ConversionCode reg spilled.entry.tag want code)
      (hMore : ReloadCode reg rest others more) :
      ReloadCode reg (spilled :: rest) (want :: others)
        (spilled.load :: (code ++ more))

theorem reloadAll_ok (hOk : spilled.forM reload ctx st = .ok () after) :
    after.bench =
      (st.bench.withEntries
        ((spilled.map Spilled.entry).reverse ++ st.bench.entries)).emit
          (spilled.map Spilled.load) := by
  induction spilled generalizing st with
  | nil =>
    cases hOk
    simp
  | cons spilled rest ih =>
    obtain ⟨loaded, hLoad, hOk⟩ := forM_cons_ok hOk
    rw [ih hOk, reload_ok hLoad]
    simp

/- Entries come back on top of the others. -/
theorem reloadAs_ok {want : List Tag}
    (hOk : reloadAs spilled want ctx st = .ok () after) :
    ∃ code, ReloadCode ctx.reg spilled want code ∧
      after.bench =
        (st.bench.withEntries
          ((reloaded spilled want).reverse ++ st.bench.entries)).emit code := by
  induction spilled generalizing want st with
  | nil =>
    have hNone : ([] : List Spilled).forM reload ctx st = .ok () after := by
      cases want <;> exact hOk
    exact ⟨[], .plain [] want (.inl rfl), reloadAll_ok hNone⟩
  | cons spilled rest ih =>
    cases want with
    | nil => exact ⟨_, .plain (spilled :: rest) [] (.inr rfl), reloadAll_ok hOk⟩
    | cons want others =>
      unfold reloadAs at hOk
      rw [bind_ok] at hOk
      obtain ⟨_, loaded, hLoad, hOk⟩ := hOk
      have hLoaded := reload_ok hLoad
      have hTag : loaded.bench.tagAt 0 = spilled.entry.tag := by
        rw [hLoaded]
        rfl
      by_cases hSame : spilled.entry.tag = want
      · rw [if_neg (not_not_intro hSame)] at hOk
        obtain ⟨more, hMore, hAfter⟩ := ih hOk
        have hCast : spilled.entry.tag.cast want = .success := by
          rw [hSame, Tag.cast_self]
        refine ⟨spilled.load :: ([] ++ more), ?_, ?_⟩
        · exact .convert (by simp [hCast])
            (.keep (by simp [Tag.needsCode, hCast])) hMore
        · rw [hAfter, hLoaded]
          simp [reloaded, converted, Tag.cast_self, ← hSame]
      · rw [if_pos hSame, bind_ok] at hOk
        obtain ⟨_, turned, hConvert, hOk⟩ := hOk
        obtain ⟨hCast, code, hCode, hTurned⟩ := convertTop_ok hConvert
        rw [hTag] at hCast hCode hTurned
        obtain ⟨more, hMore, hAfter⟩ := ih hOk
        refine ⟨_, .convert hCast hCode hMore, ?_⟩
        rw [hAfter, hTurned, hLoaded]
        simp [reloaded]

/- The value on top is copied below the null, and both are dropped. -/
theorem dropNullBelow_ok {top : Entry} {rest : List Entry}
    (hEntries : st.stack.entries = top :: rest)
    (hOk : dropNullBelow ctx st = .ok () after) :
    after = { st with
      stack := ((st.stack.reserve (st.stack.dst + 2)).popEntry.2.pop.2).push
        top.tag top.name
      edit := st.edit.emit [.shuffle .dup2X1, .shuffle .pop2, .shuffle .pop]
      modified := true } := by
  unfold dropNullBelow at hOk
  iterate 4
    rcases bind_ok.mp hOk with ⟨_, _, hStep, hOk⟩
    cases hStep
  rcases bind_ok.mp hOk with ⟨entry, popped, hPop, hOk⟩
  rcases withStack_state hPop with ⟨hEntry, rfl⟩
  have hFound : entry = some top := by
    rw [hEntry]
    simp [OperandStack.popEntry, OperandStack.reserve, hEntries]
  subst hFound
  rcases bind_ok.mp hOk with ⟨_, dropped, hDrop, hOk⟩
  rcases withStack_state hDrop with ⟨_, rfl⟩
  cases hOk
  simp [Edit.emit, Edit.add]

/-
  A comparison is given up for want of operands, or its operands
  are made ready and it branches on a flag or on the references.
-/
theorem compareReferences_ok {test : RefTest} {target : Label}
    (hOk : compareReferences test target ctx st = .ok () after) :
    (require 2 ctx st = .ok false after ∧ after.stack.issues ≠ []) ∨
      ∃ top under rest ready, st.stack.entries = top :: under :: rest ∧
        prepare under.tag top.tag (Comparison.between under.tag top.tag) ctx st =
          .ok () ready ∧
        (if leavesFlag (Comparison.between under.tag top.tag) then branchOnFlag test target
          else branchOnReferences target) ctx ready = .ok () after := by
  rw [compareReferences_eq, bind_ok] at hOk
  rcases hOk with ⟨enough, required, hRequire, hOk⟩
  rcases require_ok hRequire with ⟨rfl, hSize, rfl⟩ | ⟨rfl, _, hIssue⟩
  · rcases hEntries : required.stack.entries with _ | ⟨top, _ | ⟨under, rest⟩⟩
    · simp [hEntries] at hSize
    · simp [hEntries] at hSize
    rw [if_pos rfl] at hOk
    iterate 2
      rcases bind_ok.mp hOk with ⟨_, _, hTag, hOk⟩
      cases hTag
    rcases bind_ok.mp hOk with ⟨_, ready, hReady, hOk⟩
    simp only [OperandStack.tagAt_eq, hEntries] at hReady hOk
    exact .inr ⟨top, under, rest, ready, rfl, hReady, hOk⟩
  · cases hOk
    exact .inl ⟨hRequire, hIssue⟩

end Steps

end Simulation

end Unboxing
