import Unboxing.Proofs.OperandConversion

/-
  What elements of the unboxed code take as references. Payloads
  are boxed before elements that need references, one operand
  after the other. Some operands are handed over as they are
  found: the receiver of a field access, an array that is stored
  into, what is thrown, and what a method without a result
  returns.

  Main declarations:
    * `Node.referenceOperands`
    * `Simulation.ready`
    * `Simulation.Context.handsOver`
    * `Simulation.instruction_suits`
    * `Method.references_not_payloads`
    * `Method.payload_as_receiver`
-/

namespace Unboxing

open List

-- Operands

/- Whether values of the type are references. -/
def FieldType.isRef : FieldType → Bool
  | .ref _ => true
  | .base _ => false

/- The depths of the arguments that are references, the last argument on top. -/
def referenceDepths (parameters : List FieldType) : List Nat :=
  (List.range parameters.length).filter fun depth =>
    parameters.reverse[depth]?.any FieldType.isRef

/- The depths of the operands that an instruction takes as references. -/
def Instruction.referenceOperands : Instruction → List Nat
  | .field .getField _ => [0]
  | .field .putField accessed => if accessed.type.isRef then [0, 1] else [1]
  | .field .putStatic accessed => if accessed.type.isRef then [0] else []
  | .invoke kind method =>
    referenceDepths method.type.parameters ++
      if kind.hasReceiver then [method.type.parameters.length] else []
  | .invokeDynamic target => referenceDepths target.type.parameters
  | .arrayStore .reference => [0, 2]
  | .checkCast _ | .instanceOf _ | .monitorEnter | .monitorExit => [0]
  | _ => []

/- The depths of the operands that a branch takes as references. -/
def Branch.referenceOperands : Branch → List Nat
  | .ifNull .. | .ret (some .reference) | .throw => [0]
  | _ => []

/- The depths of the operands that an element takes as references. -/
def Node.referenceOperands : Node → List Nat
  | .insn i => i.referenceOperands
  | .branch b => b.referenceOperands
  | _ => []

/-
  The depths of the operands that an element takes as references
  if it is not removed. Field accesses and tests of types give
  way to others of their sort, calls to calls of implementations,
  which take what their bindings say, and all else to
  instructions on payloads.
-/
def Fate.referenceOperands (fate : Fate) (node : Node) : List Nat :=
  match fate, node with
  | .kept, node => node.referenceOperands
  | .replaced (.insn (.field access accessed)), .insn (.field ..) =>
    (Instruction.field access accessed).referenceOperands
  | .replaced (.insn (.instanceOf type)), .insn (.instanceOf _) =>
    (Instruction.instanceOf type).referenceOperands
  | _, _ => []

/- Only of a field access does the type decide what is taken. -/
theorem Fate.mem_referenceOperands {fate : Fate} {node : Node} {depth : Nat}
    (hDepth : depth ∈ fate.referenceOperands node)
    (hOther : ∀ access accessed, node ≠ .insn (.field access accessed)) :
    depth ∈ node.referenceOperands := by
  unfold referenceOperands at hDepth
  split at hDepth
  · exact hDepth
  · exact absurd rfl (hOther _ _)
  · exact hDepth
  · cases hDepth

namespace Simulation

variable {access : FieldAccess} {accessed : FieldRef} {depth : Nat}
variable {kind : InvokeKind} {method : MethodRef} {node : Node}
variable {plan : Array Nat} {marked : State} {tag : Tag} {type : RefType}
variable {target : Label}

/- Whether an operand is handed over as it is found. -/
def Context.handsOver (ctx : Context) : Node → Nat → Bool
  | .insn (.field access _), depth =>
    !access.isStatic && depth == if access.isPut then 1 else 0
  | .insn (.arrayStore _), depth => depth == 2
  | .branch .throw, _ => true
  | .branch (.ret _), _ => ctx.method.type.result.isNone
  | _, _ => false

-- What is done before an element executes

/- The tags that a call wants its operands for, the deepest first. -/
def consumersOf (reg : Registry) (kind : InvokeKind)
    (method : MethodRef) : List Tag :=
  (if kind.hasReceiver then [reg.tagOfClass method.owner] else []) ++
    method.type.parameters.map reg.tagOf

/- Before a call there must be enough operands, and payloads are boxed. -/
def readyCall (consumers : List Tag) : Simulation Bool := do
  let enough ← require consumers.length
  if enough then
    boxOperands consumers
  return enough

/- Before an element of an array is stored it becomes what the array holds. -/
def readyElement : Simulation Unit := do
  let array ← tagAt 2
  if array.isPayloadArray then
    convertTop array.elementOf
  else
    boxTopFor (if array.isValue then array.elementOf else .object)

/- Before the type of a value is checked the value is boxed. -/
def readyCast : Simulation Unit := do
  let top ← tagAt 0
  if top.isUnboxed then
    convertTop top.referenceOf

/- Before the type of a value is tested the value is boxed, if that matters. -/
def readyTest (type : RefType) : Simulation Unit := do
  let target := (← read).reg.tagOfRef type
  let top ← tagAt 0
  if !(top.isPayloadArray && target.isSameValue top) then
    if top.isPayload || (top.isPayloadArray && !type.isObject) then
      convertTop top.referenceOf

/- Before a reference is returned it becomes what the method returns. -/
def readyReturn : Simulation Unit := do
  let ctx ← read
  if let some type := ctx.method.type.result then
    boxTopFor (ctx.reg.tagOf type)

/- What is done before an element with operands that are references executes. -/
def ready : Node → Simulation Unit
  | .insn (.field access accessed) => do
      let _ ← readyField access accessed
  | .insn (.invoke kind method) => do
      let _ ← readyCall (consumersOf (← read).reg kind method)
  | .insn (.invokeDynamic target) => do
      let _ ← readyCall (target.type.parameters.map (← read).reg.tagOf)
  | .insn (.arrayStore .reference) => readyElement
  | .insn (.checkCast _) => readyCast
  | .insn (.instanceOf type) => readyTest type
  | .insn .monitorEnter | .insn .monitorExit => boxTopFor .object
  | .branch (.ifNull _ target) => do
      markSeeding
      let _ ← reconcile target 1
  | .branch (.ret (some .reference)) => do
      markSeeding
      readyReturn
  | .branch _ => markSeeding
  | _ => return ()

variable {ctx : Context} {st after : State}

/-
  What is true of an operand at some depth when an element
  executes: it is no payload, or it is as it was found.
-/
structure Suits (ctx : Context) (node : Node) (depth : Nat)
    (st readied after : State) : Prop where
  readies : ready node ctx st = .ok () readied
  before : after.edit.before = readied.edit.before
  found : ctx.handsOver node depth = true → readied.stack.tagAt depth = st.stack.tagAt depth
  boxed : ctx.handsOver node depth = false → (readied.stack.tagAt depth).isPayload = false

theorem tagAt_of_bench (hBench : after.bench = st.bench) (depth : Nat) :
    after.stack.tagAt depth = st.stack.tagAt depth := by
  have hEntries : after.stack.entries = st.stack.entries :=
    congrArg Bench.entries hBench
  rw [OperandStack.tagAt_eq, OperandStack.tagAt_eq, hEntries]

-- Fields

/- The type of a payload that is no array is no reference. -/
theorem isPayload_of_typeOf? {reg : Registry} {type : FieldType}
    (hType : reg.typeOf? tag = some type) (hRef : type.isRef = true) :
    tag.isPayload = false := by
  rcases tag with ⟨kind, depth⟩
  cases depth with
  | succ depth => exact Tag.isPayload_of_isArray (by simp [Tag.isArray])
  | zero =>
    cases kind with
    | payload cls =>
      cases hType
      cases hRef
    | _ => rfl

/- What is written to a field that holds references is boxed. -/
theorem readyValue_boxed (hPut : access.isPut = true)
    (hRef : ((ctx.payloadOf accessed).elim accessed Prod.snd).type.isRef = true)
    (hOk : readyValue access (ctx.reg.tagOf accessed.type)
      (ctx.payloadOf accessed) ctx st = .ok () after) :
    TopBoxed st after := by
  unfold readyValue at hOk
  rw [if_pos hPut] at hOk
  cases hPayload : ctx.payloadOf accessed with
  | none =>
    rw [hPayload] at hOk
    exact boxTopFor_boxed (ctx.reg.isPayload_tagOf _) hOk
  | some payload =>
    rw [hPayload] at hOk hRef
    refine convertTop_boxed ?_ hOk
    unfold Context.payloadOf at hPayload
    split at hPayload
    · rcases Option.map_eq_some_iff.mp hPayload with ⟨type, hType, rfl⟩
      exact isPayload_of_typeOf? hType hRef
    · cases hPayload

/- What is below a value that is written stays as it is. -/
theorem readyValue_below {declared : Tag} {payload : Option (Tag × FieldRef)}
    (hDeclared : declared.isPayload = false)
    (hOk : readyValue access declared payload ctx st = .ok () after)
    (depth : Nat) :
    after.stack.tagAt (depth + 1) = st.stack.tagAt (depth + 1) := by
  unfold readyValue at hOk
  split at hOk
  · cases payload with
    | none => exact (boxTopFor_boxed hDeclared hOk).below depth
    | some payload => exact convertTop_below hOk depth
  · cases hOk
    rfl

/- Of a field access, only what is written is not handed over as it is found. -/
theorem written_of_taken {field : FieldRef}
    (hTaken : depth ∈ Instruction.referenceOperands (.field access field))
    (hHanded : ctx.handsOver (.insn (.field access accessed)) depth = false) :
    access.isPut = true ∧ depth = 0 ∧ field.type.isRef = true := by
  cases access with
  | getStatic => cases hTaken
  | putStatic =>
    cases hRef : field.type.isRef with
    | true =>
      simp only [Instruction.referenceOperands, hRef, if_true] at hTaken
      exact ⟨rfl, mem_singleton.mp hTaken, rfl⟩
    | false => simp [Instruction.referenceOperands, hRef] at hTaken
  | getField =>
    rw [mem_singleton.mp hTaken] at hHanded
    cases hHanded
  | putField =>
    have hTop : depth ≠ 1 := by
      simpa [Context.handsOver, FieldAccess.isStatic, FieldAccess.isPut] using hHanded
    cases hRef : field.type.isRef with
    | true =>
      have hEither : depth = 0 ∨ depth = 1 := by
        simpa [Instruction.referenceOperands, hRef] using hTaken
      exact ⟨rfl, hEither.resolve_right hTop, rfl⟩
    | false =>
      simp only [Instruction.referenceOperands, hRef] at hTaken
      exact absurd (mem_singleton.mp hTaken) hTop

theorem accessField_suits (hKept : st.edit.fate = .kept)
    (hOk : accessField access accessed ctx st = .ok () after)
    (hDepth : depth ∈ after.edit.fate.referenceOperands (.insn (.field access accessed))) :
    ∃ readied, Suits ctx (.insn (.field access accessed)) depth st readied after := by
  rcases accessField_ok hOk with ⟨readied, code, hReady, hCode, hEdit⟩
  rcases readyField_ok hReady with ⟨_, marked, hMarked, hValue⟩
  have hFate : readied.edit.fate = .kept := by
    rw [hCode, Edit.fate_emit]
    exact hKept
  have hTaken : depth ∈ Instruction.referenceOperands
      (.field access ((ctx.payloadOf accessed).elim accessed Prod.snd)) := by
    rw [hEdit] at hDepth
    cases hPayload : ctx.payloadOf accessed with
    | none =>
      rw [hPayload, Option.elim_none, hFate] at hDepth
      exact hDepth
    | some payload =>
      rw [hPayload] at hDepth
      exact hDepth
  refine ⟨readied, bind_ok.mpr ⟨_, readied, hReady, rfl⟩, ?_, ?_, ?_⟩
  · rw [hEdit]
    cases ctx.payloadOf accessed <;> rfl
  · intro hHanded
    rw [← tagAt_of_bench hMarked]
    cases access with
    | getField =>
      cases hValue
      rfl
    | putField =>
      have hOne : depth = 1 := by
        simpa [Context.handsOver, FieldAccess.isStatic, FieldAccess.isPut] using hHanded
      rw [hOne]
      exact readyValue_below (ctx.reg.isPayload_tagOf _) hValue 0
    | _ => cases hHanded
  · intro hHanded
    rcases written_of_taken hTaken hHanded with ⟨hPut, rfl, hRef⟩
    exact (readyValue_boxed hPut hRef hValue).top

-- Calls

theorem mem_referenceDepths {parameters : List FieldType}
    (hDepth : depth ∈ referenceDepths parameters) :
    depth < parameters.length :=
  mem_range.mp (mem_filter.mp hDepth).1

theorem unedited_popMany (count : Nat) : Unedited (popMany count) := by
  induction count with
  | zero => exact .pure _
  | succ count ih => exact (unedited_withStack _).bind fun _ => ih

theorem unedited_pushResult (result : Option FieldType) :
    Unedited (pushResult result) := by
  refine Along.read.bind fun _ => ?_
  cases result with
  | none => exact .pure _
  | some type => exact unedited_push _ _

theorem unedited_initialized (method : MethodRef) (name : String) :
    Unedited (initialized method name) := by
  have hSuppress : Unedited suppressSeeding := by
    apply Along.modify
    intro _ st
    cases st.seeding <;> rfl
  refine Along.read.bind fun _ => .first hSuppress (Along.bind ?_ fun _ => ?_)
  · exact .modify fun _ _ => rfl
  · exact .modify fun _ _ => rfl

/-
  A call with its payloads boxed does nothing else to the edit,
  and none of its operands is a payload.
-/
theorem boxedCall_ok {consumers : List Tag} {rest : Simulation Unit}
    (hRest : Unedited rest)
    (hConsumers : ∀ tag ∈ consumers, tag.isPayload = false ∧ tag.Concrete)
    (hOk : (do
      if ← require consumers.length then
        boxOperands consumers
        rest) ctx st = .ok () after)
    (hIssues : after.stack.issues = []) :
    ∃ readied, readyCall consumers ctx st = .ok true readied ∧ after.edit = readied.edit ∧
        AllBoxed (readied.stack.entries.take consumers.length) := by
  rw [bind_ok] at hOk
  rcases hOk with ⟨enough, required, hRequire, hOk⟩
  rcases require_ok hRequire with ⟨rfl, hSize, hSame⟩ | ⟨rfl, _, hFew⟩
  · subst hSame
    simp only [if_true] at hOk
    rcases bind_ok.mp hOk with ⟨_, readied, hBox, hOk⟩
    refine ⟨readied, ?_, hRest.of_ok hOk, boxOperands_boxed hSize hConsumers hBox⟩
    exact bind_ok.mpr ⟨true, _, hRequire, bind_ok.mpr ⟨_, readied, hBox, rfl⟩⟩
  · cases hOk
    exact absurd hIssues hFew

theorem boxed_consumersOf (reg : Registry) (kind : InvokeKind) (method : MethodRef) :
    ∀ tag ∈ consumersOf reg kind method, tag.isPayload = false ∧ tag.Concrete := by
  intro tag hTag
  rcases mem_append.mp hTag with hReceiver | hParameter
  · split at hReceiver
    · rw [mem_singleton.mp hReceiver]
      exact ⟨reg.isPayload_tagOfClass _, reg.concrete_tagOfClass _⟩
    · cases hReceiver
  · rcases mem_map.mp hParameter with ⟨type, _, rfl⟩
    exact ⟨reg.isPayload_tagOf type, reg.concrete_tagOf type⟩

theorem callPlain_ok (hOk : callPlain kind method ctx st = .ok () after)
    (hIssues : after.stack.issues = []) :
    ∃ readied, readyCall (consumersOf ctx.reg kind method) ctx st =
        .ok true readied ∧
      after.edit = readied.edit ∧ AllBoxed (readied.stack.entries.take
          (consumersOf ctx.reg kind method).length) := by
  refine boxedCall_ok ?_ (boxed_consumersOf ctx.reg kind method) hOk hIssues
  refine Along.get.bind fun stack => (unedited_popMany _).bind fun _ => ?_
  refine .ite ?_ (unedited_pushResult _)
  split
  · exact (unedited_initialized _ _).bind fun _ => unedited_pushResult _
  · exact unedited_pushResult _

/-
  A bound call with enough operands finds out its class and
  converts them. It leaves its result in their place, and the
  implementation is called instead of the method.
-/
theorem callBound_ok {binding : MethodBinding}
    (hOk : callBound kind method binding ctx st = .ok () after) :
    st.stack.entries.length < binding.arguments.length ∧
        after.stack.issues ≠ [] ∧ after.edit = st.edit ∨
      binding.arguments.length ≤ st.stack.entries.length ∧ ∃ resolved ready,
          resolve method binding (st.stack.topTags binding.arguments.length) ctx
              st = .ok resolved st ∧
            binding.Resolution resolved ∧
            convertOperands resolved.arguments ctx st = .ok () ready ∧
            after.edit = ready.edit.add
              (.replace (.insn (.invoke .static resolved.target))) ∧
            after.stack.entries = resolved.result.toList.map (Entry.mk · none) ++
              ready.stack.entries.drop binding.arguments.length := by
  unfold callBound at hOk
  by_cases hReceiver : kind.hasReceiver ≠ binding.hasReceiver
  · simp only [if_pos hReceiver] at hOk
    cases hOk
  simp only [if_neg hReceiver] at hOk
  rw [bind_ok] at hOk
  rcases hOk with ⟨enough, required, hRequire, hOk⟩
  rcases require_ok hRequire with ⟨rfl, hEnough, rfl⟩ | ⟨rfl, hFew, hIssues⟩
  · simp only [if_true] at hOk
    rw [bind_ok] at hOk
    rcases hOk with ⟨found, _, hFound, hOk⟩
    cases hFound
    rcases bind_ok.mp hOk with ⟨resolved, same, hResolve, hRest⟩
    have hSteps : Steps .any (resolve method binding _) binding.Resolution :=
      steps_resolveClass method (length_topTags hEnough)
    have hResolution := (hSteps.of_ok (.inl trivial) (State.orderly_any _) hResolve).2
    rcases resolve_ok hResolve with ⟨rfl, _⟩
    rcases bind_ok.mp hRest with ⟨_, ready, hReady, hRest⟩
    rw [bind_apply, popMany_apply] at hRest
    refine .inr ⟨hEnough, resolved, ready, hResolve, hResolution, hReady, ?_⟩
    cases hResult : resolved.result with
    | none | some tag =>
      simp only [hResult] at hRest
      cases hRest
      simp [OperandStack.entries_popped, OperandStack.push]
  · cases hOk
    exact .inl ⟨hFew, hIssues, by rw [(withStack_state hRequire).2]⟩

theorem call_suits (hOk : call kind method ctx st = .ok () after)
    (hIssues : after.stack.issues = [])
    (hDepth : depth ∈ after.edit.fate.referenceOperands (.insn (.invoke kind method))) :
    ∃ readied, Suits ctx (.insn (.invoke kind method)) depth st readied after := by
  have hTaken := Fate.mem_referenceOperands hDepth nofun
  unfold call at hOk
  rw [read_bind] at hOk
  cases hBinding : ctx.reg.binding? method with
  | some binding =>
    simp only [hBinding] at hOk
    rcases callBound_ok hOk with ⟨_, hFew, _⟩ | ⟨_, resolved, ready, _, _, _, hEdit, _⟩
    · exact absurd hIssues hFew
    · rw [hEdit] at hDepth
      cases hDepth
  | none =>
    simp only [hBinding] at hOk
    rcases callPlain_ok hOk hIssues with ⟨readied, hReady, hEdit, hBoxed⟩
    refine ⟨readied, ?_, congrArg Edit.before hEdit, nofun, fun _ => ?_⟩
    · exact bind_ok.mpr ⟨ctx, st, rfl, bind_ok.mpr ⟨true, readied, hReady, rfl⟩⟩
    · apply hBoxed.tagAt
      rw [consumersOf, length_append, length_map]
      rcases mem_append.mp hTaken with hParameter | hReceiver
      · exact Nat.lt_add_left _ (mem_referenceDepths hParameter)
      · cases hHas : kind.hasReceiver with
        | false => simp [hHas] at hReceiver
        | true =>
          simp only [hHas, if_true, mem_singleton] at hReceiver
          simp [hReceiver]

theorem callDynamic_suits {target : DynamicCall}
    (hOk : callDynamic target.type ctx st = .ok () after)
    (hIssues : after.stack.issues = [])
    (hDepth : depth ∈ after.edit.fate.referenceOperands (.insn (.invokeDynamic target))) :
    ∃ readied, Suits ctx (.insn (.invokeDynamic target)) depth st readied after := by
  have hTaken := Fate.mem_referenceOperands hDepth nofun
  have hConsumers : ∀ tag ∈ target.type.parameters.map ctx.reg.tagOf,
      tag.isPayload = false ∧ tag.Concrete :=
    forall_mem_map.mpr fun type _ =>
      ⟨ctx.reg.isPayload_tagOf type, ctx.reg.concrete_tagOf type⟩
  rcases boxedCall_ok ((unedited_popMany _).bind fun _ => unedited_pushResult _)
      hConsumers hOk hIssues with ⟨readied, hReady, hEdit, hBoxed⟩
  refine ⟨readied, ?_, congrArg Edit.before hEdit, nofun, fun _ => ?_⟩
  · exact bind_ok.mpr ⟨ctx, st, rfl, bind_ok.mpr ⟨true, readied, hReady, rfl⟩⟩
  · apply hBoxed.tagAt
    rw [length_map]
    exact mem_referenceDepths hTaken

-- Arrays and tests

/- Elements of an array that holds no payloads are none. -/
theorem isPayload_elementOf (hBoxes : tag.isPayloadArray = false) :
    tag.elementOf.isPayload = false := by
  unfold Tag.elementOf
  split
  · rename_i hArray
    have hKind : tag.hasPayloadKind = false := by
      rwa [Tag.isPayloadArray, hArray, Bool.and_true] at hBoxes
    exact Bool.and_eq_false_iff.mpr (.inl hKind)
  · rfl

theorem storeReferenceElement_suits
    (hOk : storeReferenceElement ctx st = .ok () after)
    (hDepth : depth ∈ after.edit.fate.referenceOperands (.insn (.arrayStore .reference))) :
    ∃ readied, Suits ctx (.insn (.arrayStore .reference)) depth st readied after := by
  have hTaken := Fate.mem_referenceOperands hDepth nofun
  have hEither : depth = 0 ∨ depth = 2 := by
    simpa [Node.referenceOperands, Instruction.referenceOperands] using hTaken
  have hPops : Unedited (do
      let _ ← pop
      popKind .int
      let _ ← popReference) :=
    (unedited_withStack _).bind fun _ =>
      ((unedited_withStack _).bind fun _ => .pure _).bind fun _ =>
        (unedited_withStack _).bind fun _ => .pure _
  -- The element on top is boxed, and the array is as it was.
  have hSuits {readied : State}
      (hReady : readyElement ctx st = .ok () readied)
      (hBoxed : TopBoxed st readied)
      (hEdit : after.edit = readied.edit) :
      Suits ctx (.insn (.arrayStore .reference)) depth st readied after := by
    refine ⟨hReady, congrArg Edit.before hEdit, fun hHanded => ?_, fun hHanded => ?_⟩
    · rw [of_decide_eq_true hHanded]
      exact hBoxed.below 1
    · rcases hEither with rfl | rfl
      · exact hBoxed.top
      · cases hHanded
  unfold storeReferenceElement at hOk
  rw [tagAt_bind] at hOk
  by_cases hPayloads : (st.stack.tagAt 2).isPayloadArray = true
  · simp only [if_pos hPayloads] at hOk
    rcases bind_ok.mp hOk with ⟨_, readied, hConvert, hOk⟩
    have hReady : readyElement ctx st = .ok () readied := by
      refine bind_ok.mpr ⟨_, st, rfl, ?_⟩
      rw [if_pos hPayloads]
      exact hConvert
    by_cases hElement : (st.stack.tagAt 2).elementOf.isPayload = true
    · -- An array of payloads gets the payload.
      simp only [if_pos hElement] at hOk
      rcases bind_ok.mp hOk with ⟨_, replaced, hReplace, hOk⟩
      cases hReplace
      rw [hPops.of_ok hOk] at hDepth
      cases hDepth
    · simp only [if_neg hElement] at hOk
      rw [Bool.not_eq_true] at hElement
      exact ⟨readied, hSuits hReady (convertTop_boxed hElement hConvert) (hPops.of_ok hOk)⟩
  · simp only [if_neg hPayloads] at hOk
    rcases bind_ok.mp hOk with ⟨_, readied, hBox, hOk⟩
    have hReady : readyElement ctx st = .ok () readied := by
      refine bind_ok.mpr ⟨_, st, rfl, ?_⟩
      rw [if_neg hPayloads]
      exact hBox
    refine ⟨readied, hSuits hReady (boxTopFor_boxed ?_ hBox) (hPops.of_ok hOk)⟩
    split
    · exact isPayload_elementOf (by simpa using hPayloads)
    · rfl

/- An element with one operand on top, which is boxed before. -/
theorem suits_of_top {readied : State} (hDepth : depth ∈ [0])
    (hHanded : ctx.handsOver node 0 = false)
    (hReady : ready node ctx st = .ok () readied)
    (hBefore : after.edit.before = readied.edit.before)
    (hBoxed : (readied.stack.tagAt 0).isPayload = false) :
    Suits ctx node depth st readied after := by
  rw [mem_singleton.mp hDepth]
  refine ⟨hReady, hBefore, fun hFound => ?_, fun _ => hBoxed⟩
  rw [hHanded] at hFound
  cases hFound

theorem checkCast_suits (hOk : checkCast type ctx st = .ok () after)
    (hDepth : depth ∈ after.edit.fate.referenceOperands (.insn (.checkCast type))) :
    ∃ readied, Suits ctx (.insn (.checkCast type)) depth st readied after := by
  have hTaken := Fate.mem_referenceOperands hDepth nofun
  have hMove (target : Tag) : Unedited (do
      let found ← popReference
      push (if found.isNull then .null else target) none) :=
    (unedited_withStack _).bind fun _ => unedited_push _ _
  unfold checkCast at hOk
  rw [read_bind, tagAt_bind] at hOk
  split at hOk
  · cases hOk
    cases hDepth
  by_cases hUnboxed : (st.stack.tagAt 0).isUnboxed = true
  · simp only [if_pos hUnboxed] at hOk
    rcases bind_ok.mp hOk with ⟨_, readied, hConvert, hOk⟩
    refine ⟨readied, suits_of_top hTaken rfl ?_ (congrArg Edit.before
      ((hMove _).of_ok hOk)) (convertTop_boxed (Tag.isPayload_referenceOf _) hConvert).top⟩
    refine bind_ok.mpr ⟨_, st, rfl, ?_⟩
    rw [if_pos hUnboxed]
    exact hConvert
  · simp only [if_neg hUnboxed] at hOk
    refine ⟨st, suits_of_top hTaken rfl ?_ (congrArg Edit.before
      ((hMove _).of_ok hOk)) (Tag.isPayload_of_not_isUnboxed (by simpa using hUnboxed))⟩
    refine bind_ok.mpr ⟨_, st, rfl, ?_⟩
    rw [if_neg hUnboxed]
    rfl

theorem flagNotNull_fate {payload : Tag}
    (hOk : flagNotNull payload ctx st = .ok () after) :
    after.edit.fate = .removed := by
  unfold flagNotNull at hOk
  rcases bind_ok.mp hOk with ⟨info, _, _, hOk⟩
  cases hOk
  rfl

theorem instanceOf_suits (hOk : instanceOf type ctx st = .ok () after)
    (hDepth : depth ∈ after.edit.fate.referenceOperands (.insn (.instanceOf type))) :
    ∃ readied, Suits ctx (.insn (.instanceOf type)) depth st readied after := by
  have hTaken := Fate.mem_referenceOperands hDepth nofun
  have hMove : Unedited (do
      let _ ← popReference
      push .int none) :=
    (unedited_withStack _).bind fun _ => unedited_push _ _
  unfold instanceOf at hOk
  rw [read_bind, tagAt_bind] at hOk
  split at hOk
  · rw [flagNotNull_fate hOk] at hDepth
    cases hDepth
  by_cases hSame : ((st.stack.tagAt 0).isPayloadArray &&
      (ctx.reg.tagOfRef type).isSameValue (st.stack.tagAt 0)) = true
  · -- An array of payloads is tested as what it has become.
    have hArray : (st.stack.tagAt 0).isArray = true :=
      (Bool.and_eq_true_iff.mp (Bool.and_eq_true_iff.mp hSame).1).2
    have hBefore : after.edit.before = st.edit.before := by
      simp only [if_pos hSame] at hOk
      rcases hType : ctx.reg.typeOf? (st.stack.tagAt 0) with _ | (_ | unboxed)
      · simp only [hType] at hOk
        exact congrArg Edit.before (hMove.of_ok hOk)
      · simp only [hType] at hOk
        exact congrArg Edit.before (hMove.of_ok hOk)
      · simp only [hType] at hOk
        rcases bind_ok.mp hOk with ⟨_, replaced, hReplace, hOk⟩
        cases hReplace
        rw [hMove.of_ok hOk]
        rfl
    refine ⟨st, suits_of_top hTaken rfl ?_ hBefore (Tag.isPayload_of_isArray hArray)⟩
    refine bind_ok.mpr ⟨ctx, st, rfl, bind_ok.mpr ⟨_, st, rfl, ?_⟩⟩
    simp only [hSame]
    rfl
  simp only [if_neg hSame] at hOk
  rw [Bool.not_eq_true] at hSame
  by_cases hBox : ((st.stack.tagAt 0).isPayload ||
      ((st.stack.tagAt 0).isPayloadArray && !type.isObject)) = true
  · simp only [if_pos hBox] at hOk
    rcases bind_ok.mp hOk with ⟨_, readied, hConvert, hOk⟩
    refine ⟨readied, suits_of_top hTaken rfl ?_ (congrArg Edit.before
      (hMove.of_ok hOk)) (convertTop_boxed (Tag.isPayload_referenceOf _) hConvert).top⟩
    refine bind_ok.mpr ⟨ctx, st, rfl, bind_ok.mpr ⟨_, st, rfl, ?_⟩⟩
    simp only [hSame, hBox]
    exact hConvert
  · simp only [if_neg hBox] at hOk
    rw [Bool.not_eq_true] at hBox
    refine ⟨st, suits_of_top hTaken rfl ?_ (congrArg Edit.before
      (hMove.of_ok hOk)) (Bool.or_eq_false_iff.mp hBox).1⟩
    refine bind_ok.mpr ⟨ctx, st, rfl, bind_ok.mpr ⟨_, st, rfl, ?_⟩⟩
    simp only [hSame, hBox]
    rfl

theorem useMonitor_suits (hReady : ready node = boxTopFor .object)
    (hHanded : ctx.handsOver node 0 = false) (hDepth : depth ∈ [0])
    (hOk : useMonitor ctx st = .ok () after) :
    ∃ readied, Suits ctx node depth st readied after := by
  unfold useMonitor at hOk
  rcases bind_ok.mp hOk with ⟨_, readied, hBox, hOk⟩
  have hPop : Unedited (do let _ ← popReference) :=
    (unedited_withStack _).bind fun _ => .pure _
  refine ⟨readied, suits_of_top hDepth hHanded ?_ (congrArg Edit.before (hPop.of_ok hOk))
    (boxTopFor_boxed rfl hBox).top⟩
  rw [hReady]
  exact hBox

-- Elements

/- Instructions get references where they need them. -/
theorem instruction_suits {i : Instruction} (hKept : st.edit.fate = .kept)
    (hOk : instruction i ctx st = .ok () after) (hIssues : after.stack.issues = [])
    (hDepth : depth ∈ after.edit.fate.referenceOperands (.insn i)) :
    ∃ readied, Suits ctx (.insn i) depth st readied after := by
  cases i with
  | field access accessed => exact accessField_suits hKept hOk hDepth
  | invoke kind method => exact call_suits hOk hIssues hDepth
  | invokeDynamic target => exact callDynamic_suits hOk hIssues hDepth
  | checkCast type => exact checkCast_suits hOk hDepth
  | instanceOf type => exact instanceOf_suits hOk hDepth
  | arrayStore kind =>
    cases kind with
    | reference => exact storeReferenceElement_suits hOk hDepth
    | _ => cases Fate.mem_referenceOperands hDepth nofun
  | monitorEnter | monitorExit =>
    exact useMonitor_suits rfl rfl
      (Fate.mem_referenceOperands hDepth nofun) hOk
  | _ => cases Fate.mem_referenceOperands hDepth nofun

/- The operand of a branch is not touched where a label is prepared for. -/
theorem reconcile_operand {found : Join} {operands : Nat} (hPlaced : st.Placed plan)
    (hDepth : depth < operands)
    (hOk : reconcile target operands ctx st = .ok found after) :
    after.stack.tagAt depth = st.stack.tagAt depth ∧
      after.edit.fate = st.edit.fate := by
  rcases reconcile_ok hPlaced hOk with ⟨joined, turned, hReconciled⟩
  rcases hReconciled.stack with ⟨tops, entries, code, hTops, hStack⟩
  rcases hReconciled.locals with ⟨_, _, _, hBench⟩
  rcases join_ok hReconciled.joins with ⟨_, _, hJoined, _⟩
  rcases hStack.bench_eq with ⟨scratch, hTurned⟩
  have hBefore : st.stack.entries = tops ++ entries.reverse := by
    rw [← hStack.entries_eq, hJoined]
    rfl
  have hAfter := congrArg Bench.entries hBench
  have hFate := congrArg (Edit.fate ∘ Bench.edit) hBench
  rw [hTurned] at hAfter hFate
  rw [hJoined] at hFate
  simp only [Function.comp, Edit.fate_emit] at hFate
  refine ⟨?_, hFate⟩
  change after.stack.entries = tops ++ _ at hAfter
  rw [← hTops] at hDepth
  rw [OperandStack.tagAt_eq, OperandStack.tagAt_eq, hAfter, hBefore,
    getElem?_append_left hDepth, getElem?_append_left hDepth]

theorem unedited_popReference : Unedited (do let _ ← popReference) :=
  (unedited_withStack _).bind fun _ => .pure _

/- A test for null gets a reference, or becomes a test of a flag. -/
theorem branchOnFlag_fate (hPlaced : st.Placed plan)
    (hOk : branchOnFlag test target ctx st = .ok () after) :
    after.edit.fate = .replaced (.branch (.ifInt test.negate.toIntTest target)) := by
  unfold branchOnFlag at hOk
  rcases bind_ok.mp hOk with ⟨_, replaced, hReplace, hOk⟩
  rcases bind_ok.mp hOk with ⟨found, turned, hReconcile, hPop⟩
  have hFate := (reconcile_operand ((steps_replaceNode _).placed hPlaced hReplace)
    Nat.zero_lt_one hReconcile).2
  have hPopped : Unedited (popKind .int) := (unedited_withStack _).bind fun _ => .pure _
  cases hReplace
  rw [hPopped.of_ok hPop, hFate]
  rfl

theorem compareWithNull_suits {test : RefTest} (hPlaced : marked.Placed plan)
    (hMark : markSeeding ctx st = .ok () marked)
    (hOk : compareWithNull test target ctx marked = .ok () after)
    (hDepth : depth ∈ after.edit.fate.referenceOperands (.branch (.ifNull test target))) :
    ∃ readied, Suits ctx (.branch (.ifNull test target)) depth st readied after := by
  have hTaken := Fate.mem_referenceOperands hDepth nofun
  unfold compareWithNull at hOk
  rw [tagAt_bind] at hOk
  by_cases hPayload : (marked.stack.tagAt 0).isPayload = true
  · simp only [if_pos hPayload] at hOk
    rcases bind_ok.mp hOk with ⟨_, flagged, hFlag, hOk⟩
    rw [branchOnFlag_fate ((steps_flagNull _).placed hPlaced hFlag) hOk] at hDepth
    cases hDepth
  · simp only [if_neg hPayload] at hOk
    rcases bind_ok.mp hOk with ⟨found, turned, hReconcile, hPop⟩
    refine ⟨turned, suits_of_top hTaken rfl ?_
      (congrArg Edit.before (unedited_popReference.of_ok hPop)) ?_⟩
    · exact bind_ok.mpr ⟨_, marked, hMark, bind_ok.mpr ⟨found, turned, hReconcile, rfl⟩⟩
    · rw [(reconcile_operand hPlaced Nat.zero_lt_one hReconcile).1]
      simpa using hPayload

/- A reference is returned as what the method returns, if that is known. -/
theorem leave_suits (hMark : markSeeding ctx st = .ok () marked)
    (hOk : leave (some .reference) ctx marked = .ok () after) (hDepth : depth ∈ [0]) :
    ∃ readied, Suits ctx (.branch (.ret (some .reference))) depth st readied after := by
  unfold leave at hOk
  rw [read_bind] at hOk
  cases hResult : ctx.method.type.result with
  | some type =>
    simp only [hResult] at hOk
    rcases bind_ok.mp hOk with ⟨_, readied, hBox, hPop⟩
    refine ⟨readied, suits_of_top hDepth ?_ ?_
      (congrArg Edit.before (unedited_popReference.of_ok hPop))
      (boxTopFor_boxed (ctx.reg.isPayload_tagOf _) hBox).top⟩
    · simp [Context.handsOver, hResult]
    · refine bind_ok.mpr ⟨_, marked, hMark, bind_ok.mpr
        ⟨ctx, marked, rfl, ?_⟩⟩
      simp only [hResult]
      exact hBox
  | none =>
    simp only [hResult] at hOk
    refine ⟨marked, ?_, congrArg Edit.before (unedited_popReference.of_ok hOk),
      fun _ => tagAt_of_bench (bench_markSeeding hMark) depth, ?_⟩
    · refine bind_ok.mpr ⟨_, marked, hMark, bind_ok.mpr
        ⟨ctx, marked, rfl, ?_⟩⟩
      simp only [hResult]
      rfl
    · intro hHanded
      simp [Context.handsOver, hResult] at hHanded

/- Branches get references where they need them. -/
theorem branchEffect_suits {b : Branch} (hPlaced : marked.Placed plan)
    (hMark : markSeeding ctx st = .ok () marked)
    (hOk : branchEffect b ctx marked = .ok () after)
    (hDepth : depth ∈ after.edit.fate.referenceOperands (.branch b)) :
    ∃ readied, Suits ctx (.branch b) depth st readied after := by
  have hTaken := Fate.mem_referenceOperands hDepth nofun
  cases b with
  | ifNull test target => exact compareWithNull_suits hPlaced hMark hOk hDepth
  | ret kind =>
    rcases kind with _ | _ | _ | _ | _ | _
    · cases hTaken
    · cases hTaken
    · cases hTaken
    · cases hTaken
    · cases hTaken
    · exact leave_suits hMark hOk hTaken
  | throw =>
    exact ⟨marked, hMark, congrArg Edit.before (unedited_popReference.of_ok hOk),
      fun _ => tagAt_of_bench (bench_markSeeding hMark) depth, nofun⟩
  | _ => cases hTaken

/- Elements of a body get references where they need them. -/
theorem step_suits (hPlaced : st.Placed plan) (hReachable : st.reachable = true)
    (hKept : st.edit.fate = .kept) (hOk : step node ctx st = .ok () after)
    (hIssues : after.stack.issues = [])
    (hDepth : depth ∈ after.edit.fate.referenceOperands node) :
    ∃ readied, Suits ctx node depth st readied after := by
  cases node with
  | insn i =>
    rcases step_insn_ok hReachable hOk with ⟨done, hDone, rfl⟩
    rcases instruction_suits hKept hDone hIssues hDepth with ⟨readied, hSuits⟩
    exact ⟨readied, hSuits.readies, hSuits.before, hSuits.found, hSuits.boxed⟩
  | branch b =>
    rcases step_branch_ok hReachable hOk with
      ⟨marked, done, hMark, hEffect, hDeparted⟩
    have hMarked := Steps.placed (steps_markSeeding trivial) hPlaced hMark
    rw [hDeparted.edit] at hDepth
    rcases branchEffect_suits hMarked hMark hEffect hDepth with ⟨readied, hSuits⟩
    refine ⟨readied, hSuits.readies, ?_, hSuits.found, hSuits.boxed⟩
    rw [hDeparted.edit]
    exact hSuits.before
  | _ => cases Fate.mem_referenceOperands hDepth nofun

end Simulation

-- Methods

namespace Method

open Simulation

/-
  In a body that is unboxed, what an element takes as a reference
  and does not hand over as it is found is a reference after
  unboxing if it was one before, so it is no payload.
-/
theorem references_not_payloads
    (method : Method)
    (reg : Registry)
    (settings : Settings)
    (layout : ClassLayout)
    (body : Body)
    (unboxed : UnboxedBody)
    (hOk : method.unbox reg settings layout body = .ok unboxed) :
    let ctx := Context.ofMethod reg settings layout method body
    ∀ i node, body.nodes[i]? = some node →
      ∃ st mid, stateAfter ctx i = some st ∧ midAt ctx i = some mid ∧
        (st.reachable = true → ∀ depth ∈ mid.edit.fate.referenceOperands node,
            ∃ readied, ready node ctx { st with here := i } = .ok () readied ∧
              mid.edit.before = readied.edit.before ∧ (ctx.handsOver node depth = false →
                (readied.stack.tagAt depth).isPayload = false ∧
                  ((readied.stack.tagAt depth).isSrcReference = true →
                    (readied.stack.tagAt depth).isDstReference = true)) ∧
              (ctx.handsOver node depth = true →
                readied.stack.tagAt depth = st.stack.tagAt depth)) := by
  intro ctx i node hNode
  have hInside : i < ctx.body.nodes.length := (List.getElem?_eq_some_iff.mp hNode).1
  rcases unbox_states hOk hInside with ⟨after, hAfter⟩
  rcases visited_of_lt hAfter hNode (Nat.lt_succ_self i) with ⟨st, mid, hState, hVisited⟩
  refine ⟨st, mid, hState, hVisited.edited, ?_⟩
  intro hReachable depth hDepth
  rcases step_suits hVisited.placed hReachable (congrArg Edit.fate hVisited.between.edit)
    hVisited.step hVisited.issues hDepth with ⟨readied, hSuits⟩
  refine ⟨readied, hSuits.readies, hSuits.before, ?_, hSuits.found⟩
  intro hHanded
  have hBoxed := hSuits.boxed hHanded
  exact ⟨hBoxed, Tag.isDstReference_of_not_isPayload hBoxed⟩

-- A receiver that is a payload

/- A body that keeps its parameter in a local and then uses it. -/
def usingBody (uses : List Node) : Body where
  maxStack := 2
  maxLocals := 2
  nodes :=
    [ .insn (.load .reference 0), .insn (.store .reference 1), .insn (.load .reference 1) ] ++ uses
  vars := []
  handlers := []

def usingMethod (result : FieldType) (uses : List Node) : Method :=
  ⟨⟨"use", by decide⟩, ⟨[.object Batch.moneyName], some result⟩, 8, some (usingBody uses)⟩

def usingContext (result : FieldType) (uses : List Node) : Context :=
  .ofMethod moneyRegistry ⟨[], false⟩ accountLayout (usingMethod result uses)
    (usingBody uses)

def returning : List Node :=
  [.branch (.ret (some .reference))]

def centsField : FieldRef :=
  ⟨Batch.moneyName, ⟨"cents", by decide⟩, .base .long⟩

def reading : List Node :=
  [.insn (.field .getField centsField), .branch (.ret (some .long))]

/- A payload that is returned is a reference by then. -/
theorem references_not_payloads_returning :
    ∃ unboxed st readied,
      (usingMethod (.object Batch.moneyName) returning).unbox moneyRegistry ⟨[], false⟩
          accountLayout (usingBody returning) = .ok unboxed ∧
        stateAfter (usingContext (.object Batch.moneyName) returning) 3 = some st ∧
        (st.stack.tagAt 0).isPayload = true ∧ ready (.branch (.ret (some .reference)))
          (usingContext (.object Batch.moneyName) returning)
          { st with here := 3 } = .ok () readied ∧
        (readied.stack.tagAt 0).isPayload = false := by
  have hAny : ((usingMethod (.object Batch.moneyName) returning).unbox moneyRegistry
      ⟨[], false⟩ accountLayout (usingBody returning)).toOption.any
        (fun _ => true) = true := by
    decide +kernel
  rcases ok_of_any hAny with ⟨unboxed, hOk, _⟩
  rcases references_not_payloads _ _ _ _ _ unboxed hOk 3 _ rfl with
    ⟨st, mid, hState, hMid, hOperands⟩
  change stateAfter (usingContext (.object Batch.moneyName) returning) 3 = some st
    at hState
  change midAt (usingContext (.object Batch.moneyName) returning) 3 = some mid at hMid
  have hFound : (stateAfter (usingContext (.object Batch.moneyName) returning) 3).any
      (fun st => st.reachable && (st.stack.tagAt 0).isPayload) = true := by
    decide +kernel
  have hKept : (midAt (usingContext (.object Batch.moneyName) returning) 3).any
      (fun mid => decide (mid.edit.fate = .kept)) = true := by
    decide +kernel
  rw [hState, Option.any_some, Bool.and_eq_true] at hFound
  rw [hMid, Option.any_some] at hKept
  rcases hOperands hFound.1 0 (of_decide_eq_true hKept ▸ by decide) with
    ⟨readied, hReady, _, hBoxed, _⟩
  exact ⟨unboxed, st, readied, hOk, hState, hFound.2, hReady, (hBoxed rfl).1⟩

/-
  A field of a payload is read: the receiver is handed over as it
  is found, and nothing boxes it between its load and the access.
-/
theorem payload_as_receiver :
    ∃ unboxed st readied, (usingMethod (.base .long) reading).unbox moneyRegistry ⟨[], false⟩
          accountLayout (usingBody reading) = .ok unboxed ∧
        stateAfter (usingContext (.base .long) reading) 3 = some st ∧
        ready (.insn (.field .getField centsField))
          (usingContext (.base .long) reading) { st with here := 3 } = .ok () readied ∧
        (readied.stack.tagAt 0).isPayload = true ∧
        [ .insn (.load .long 1), .insn (.field .getField centsField),
          .branch (.ret (some .long)) ] <:+ unboxed.body.nodes := by
  have hAny : ((usingMethod (.base .long) reading).unbox moneyRegistry ⟨[], false⟩
      accountLayout (usingBody reading)).toOption.any (fun unboxed => decide
        ([ .insn (.load .long 1), .insn (.field .getField centsField),
          .branch (.ret (some .long)) ] <:+ unboxed.body.nodes)) = true := by
    decide +kernel
  rcases ok_of_any hAny with ⟨unboxed, hOk, hCode⟩
  have hPayload : (stateAfter (usingContext (.base .long) reading) 3).any
      (fun st => (st.stack.tagAt 0).isPayload) = true := by
    decide +kernel
  rcases (Option.any_eq_true _ _).mp hPayload with ⟨st, hState, hFound⟩
  exact ⟨unboxed, st, { st with here := 3 }, hOk, hState, rfl, hFound,
    of_decide_eq_true hCode⟩

end Method

end Unboxing
