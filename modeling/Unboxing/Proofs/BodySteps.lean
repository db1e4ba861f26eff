import Unboxing.Proofs.Conversions

/-
  The steps that change locals and what is agreed at labels, and
  all that is done at an element of a body. Whatever is done
  there, locals and labels go on following the plan, and what
  is agreed is never changed again.

  Main declarations:
    * `Simulation.steps_call`
    * `Simulation.steps_reconcile`
    * `Simulation.steps_enter`
    * `Simulation.steps_instruction`
    * `Simulation.steps_step`
-/

namespace Unboxing

open List SlotMap Simulation

-- Locals

namespace SlotMap.Orderly

variable {scope : Scope} {map after : SlotMap} {slot : Nat} {tag : Tag}

variable (hMap : map.Orderly scope)
include hMap

theorem forgetName (name : String) : (map.forgetName name).Orderly scope :=
  ⟨hMap.tags.forgetName name, fun plan hPlan => (hMap.placed plan hPlan).forgetName name⟩

theorem restore {snapshot : SlotSnapshot}
    (hTags : AllCells (Tag.Tame scope.wild) snapshot.cells)
    (hCells : ∀ plan ∈ scope.plan?, PlacedCells plan snapshot.cells) :
    (map.restore snapshot).Orderly scope :=
  ⟨hTags, fun plan hPlan => (hMap.placed plan hPlan).restore (hCells plan hPlan)⟩

theorem put {address : Nat} {name : Option String} (hFits : scope.Fits slot tag)
    (hTag : tag.Tame scope.wild) (hPut : map.put slot tag name = some (address, after)) :
    after.Orderly scope :=
  ⟨hMap.tags.put Tag.tame_void hTag hPut,
    fun plan hPlan => (hMap.placed plan hPlan).put (hFits plan hPlan) hPut⟩

/- Under a plan, there is a place for what fits. -/
theorem of_put_none {name : Option String} (hFits : scope.Fits slot tag)
    (hPut : map.put slot tag name = none) :
    scope.plan? = none := by
  cases hPlan : scope.plan? with
  | none => rfl
  | some plan =>
    rw [(hMap.placed plan hPlan).put_eq name (hFits plan hPlan)] at hPut
    cases hPut

theorem retag (hFits : scope.Fits slot tag) (hTag : tag.Tame scope.wild) :
    ((map.retag? slot tag).getD map).Orderly scope := by
  cases hRetag : map.retag? slot tag with
  | none => exact hMap
  | some after => exact ⟨hMap.tags.retag? hTag hRetag,
      fun plan hPlan => (hMap.placed plan hPlan).retag? (hFits plan hPlan) hRetag⟩

theorem narrow (reg : Registry) (frame : Frame) :
    (map.narrow reg frame).Orderly scope :=
  ⟨hMap.tags.narrow Tag.lasting_tame reg frame,
    fun plan hPlan => (hMap.placed plan hPlan).narrow reg frame⟩

theorem declaredLocals (reg : Registry) (frame : Frame) :
    (Simulation.declaredLocals reg frame map).Orderly scope :=
  ⟨.declaredLocals Tag.lasting_tame reg frame map,
    fun plan hPlan => (hMap.placed plan hPlan).declaredLocals reg frame⟩

end SlotMap.Orderly

namespace Simulation

variable {scope : Scope} {ctx : Context} {plan : Array Nat}

-- Calls and stores

theorem steps_changeLocals (hStores : scope.stores) {change : SlotMap → SlotMap}
    (hChange : ∀ locals : SlotMap, locals.Orderly scope → (change locals).Orderly scope) :
    Goes scope (changeLocals change) :=
  .change (fun _ _ => rfl) fun _ hState =>
    ⟨⟨hState.stack, hChange _ hState.locals, hState.agreed⟩, .inl hStores, .inr ⟨rfl, rfl⟩,
      fun _ _ hJoin => hJoin,
      .inr ⟨rfl, rfl, rfl, .inl rfl, .same rfl rfl, fun _ => .inl⟩⟩

theorem length_topTags {count : Nat} {entries : List Entry}
    (hEnough : count ≤ entries.length) :
    count = ((entries.take count).map Entry.tag).reverse.length := by
  rw [length_reverse, length_map, length_take]
  omega

/- The tags of the operands of a call, if there are enough. -/
def operandTags? (count : Nat) : Simulation (Option (List Tag)) := do
  if ← require count then
    return some (← topTags count)
  else
    return none

theorem require_topTags (count : Nat) (next : List Tag → Simulation Unit) :
    (do
      if ← require count then
        next (← topTags count)) =
      operandTags? count >>= fun found => found.elim (pure ()) next := by
  unfold operandTags?
  rw [bind_assoc]
  refine bind_congr fun enough => ?_
  cases enough <;> rfl

theorem steps_operandTags? (count : Nat) :
    Steps scope (operandTags? count) (fun found => ∀ tags ∈ found, count = tags.length) := by
  have hSteps : Goes scope (operandTags? count) :=
    (steps_require count).bind fun _ _ =>
      .ite ((steps_topTags count).bind fun _ _ => .pure trivial) (.pure trivial)
  refine .sharpen hSteps fun ctx st found after _ hOk _ tags hTags => ?_
  rcases bind_ok.mp hOk with ⟨enough, between, hRequire, hNext⟩
  rcases require_ok hRequire with ⟨rfl, hEnough, rfl⟩ | ⟨rfl, _⟩
  · cases hNext
    cases hTags
    exact length_topTags hEnough
  · cases hNext
    cases hTags

/-
  A bound call leaves a result of a known class if there is an
  open class among its arguments whenever its result has one.
-/
theorem steps_callBound (kind : InvokeKind) (method : MethodRef) {binding : MethodBinding}
    (hBinding : scope.wild ∨ binding.Inferable) :
    Goes scope (callBound kind method binding) := by
  refine .guarded (by simp [noPlace]) ?_
  rw [require_topTags]
  refine (steps_operandTags? _).bind fun found hFound => ?_
  cases found with
  | none => exact .pure trivial
  | some tags =>
    refine (steps_resolveClass method (hFound tags rfl)).bind fun resolved hResolved => ?_
    refine (steps_convertOperands fun tag hTag =>
      (hResolved.arguments tag hTag).tame).bind fun _ _ => ?_
    exact (steps_popMany _).bind fun _ _ => steps_answer fun tag hTag =>
      hBinding.imp_right fun hInferable => hResolved.result.mpr hInferable tag hTag

/- The seeding is given up only for a constructor of the class at hand. -/
theorem steps_initialized (hStores : scope.stores) {method : MethodRef} (name : String)
    (hMarks : scope.MarksIf fun ctx => method.owner = ctx.layout.name) :
    Goes scope (initialized method name) := by
  refine .consult (fun _ _ => rfl) fun ctx hContext => ?_
  have hRest (tag : Tag) (hTag : tag.Concrete) :
      Goes scope (do
        changeStack (·.retagNamed name tag)
        changeLocals (·.forgetName name)) :=
    (steps_changeStack fun stack => stack.upholds_retagNamed name hTag.tame).bind fun _ _ =>
      steps_changeLocals hStores fun _ hLocals => hLocals.forgetName name
  have hTag := ctx.reg.concrete_tagOfClass
  dsimp only
  split
  · rename_i hThis
    have hOwn := eq_of_beq (Bool.and_eq_true_iff.mp hThis).2
    exact (steps_suppressSeeding (hMarks ctx hContext hOwn)).bind fun _ _ =>
      hRest _ (hTag _)
  · exact hRest _ (hTag _)

section

variable (hStores : scope.stores) {kind : InvokeKind} {method : MethodRef}
  (hMarks : kind = .special ∧ method.name = .init →
    scope.MarksIf fun ctx => method.owner = ctx.layout.name)
include hStores hMarks

theorem steps_callPlain : Goes scope (callPlain kind method) := by
  refine .consult (fun _ _ => rfl) fun ctx _ => ?_
  refine (steps_require _).bind fun _ _ => .ite ?_ (.pure trivial)
  refine (steps_boxOperands fun tag hTag => ?_).bind fun _ _ => ?_
  · rcases mem_append.mp hTag with hReceiver | hParameter
    · split at hReceiver
      · rw [mem_singleton.mp hReceiver]
        exact (ctx.reg.concrete_tagOfClass _).tame
      · cases hReceiver
    · rcases mem_map.mp hParameter with ⟨type, _, rfl⟩
      exact (ctx.reg.concrete_tagOf type).tame
  refine .look (fun _ _ => rfl) fun st _ => (steps_popMany _).bind fun _ _ => ?_
  split
  · rename_i hInit
    split
    · exact (steps_initialized hStores _ (hMarks hInit)).bind fun _ _ => steps_pushResult _
    · exact steps_pushResult _
  · exact steps_pushResult _

/- The classes of all calls can be found out, if that matters. -/
theorem steps_call : Goes scope (call kind method) := by
  refine .consult (fun _ _ => rfl) fun ctx hContext => ?_
  split
  · rename_i binding hBinding
    exact steps_callBound kind method
      (hContext.imp_right fun hCalls => hCalls.binding? hBinding)
  · exact steps_callPlain hStores hMarks

end

theorem putLocal_apply {slot : Nat} {tag : Tag} {st : State} (name : Option String)
    (hPlaced : st.Placed plan)
    (hRoom : tag.HasRoom plan slot) :
    putLocal slot tag name ctx st = slotNumber (planned plan slot) ctx
        { st with
          locals := st.locals.withCells
            (Placed.stored st.locals slot tag name) } := by
  unfold putLocal
  rw [bind_apply, get_apply]
  simp only [hPlaced.locals.put_eq name hRoom]
  rfl

theorem steps_putLocal (hStores : scope.stores) {slot : Nat} {tag : Tag}
    (name : Option String) (hFits : scope.Fits slot tag) (hTag : tag.Tame scope.wild) :
    Goes scope (putLocal slot tag name) := by
  refine .look (fun _ _ => rfl) fun st hState => ?_
  split
  · rename_i hPut
    exact .throw fun _ => hState.locals.of_put_none hFits hPut
  · rename_i hPut
    exact (steps_changeLocals hStores fun _ _ => hState.locals.put hFits hTag hPut).bind
      fun _ _ => steps_slotNumber _

theorem steps_storePrimitive (hStores : scope.stores) (kind : ValueKind) (slot : Nat) :
    Goes scope (storePrimitive kind slot) := by
  have hFits : scope.Fits slot (.ofKind kind) := by
    intro plan _ hPayload
    cases kind <;> cases hPayload
  exact (steps_popKind kind).bind fun _ _ =>
    (steps_putLocal hStores none hFits (Tag.concrete_ofKind kind).tame).bind fun _ _ =>
      steps_useInstead _ _

/- A value is stored as a payload only where there is room for one. -/
theorem storedAs_payload {found : Tag} {room : Nat}
    (hPayload : (converted found (storedAs found room)).isPayload = true) :
    2 ≤ room := by
  unfold storedAs at hPayload
  split at hPayload
  · rename_i hReference
    simp only [Bool.and_eq_true, decide_eq_true_eq] at hReference
    exact hReference.2
  · split at hPayload
    · rename_i hBoxed
      simp only [Bool.and_eq_true] at hBoxed
      obtain ⟨kind, depth⟩ := found
      cases kind <;>
        simp_all [converted, Tag.referenceOf, Tag.isPayload, Tag.hasPayloadKind,
          Tag.cast, Tag.castValues, Tag.isVoid, Tag.isValue, Tag.class?, Tag.hasReferenceKind]
    · rename_i hNarrow
      rw [converted, Tag.cast_self, if_neg (by simp)] at hPayload
      simp only [hPayload, Bool.true_and, decide_eq_true_eq] at hNarrow
      omega

/- Make the value on top what is stored in a slot, and take it. -/
def takeStored (slot : Nat) : Simulation (Option Entry) := do
  let found ← tagAt 0
  convertTop (storedAs found ((← get).locals.room slot))
  withStack OperandStack.popEntry

theorem storeReference_eq (slot : Nat) :
    storeReference slot = takeStored slot >>= fun top =>
      top.elim (pure ()) fun entry => (do
        let target ← putLocal slot entry.tag entry.name
        useInstead (.store .reference slot) (.store entry.tag.valueKind target)) := by
  unfold storeReference takeStored
  simp only [bind_assoc]
  refine bind_congr fun found => bind_congr fun st => bind_congr fun _ =>
    bind_congr fun top => ?_
  cases top <;> rfl

/- What is stored is as tame as what was on top, and has room. -/
theorem steps_takeStored (slot : Nat) :
    Steps scope (takeStored slot) (fun top => ∀ entry ∈ top,
      scope.Fits slot entry.tag ∧ entry.tag.Tame scope.wild) := by
  have hTame : Steps scope (takeStored slot) (fun top => ∀ entry ∈ top,
      entry.tag.Tame scope.wild) :=
    (steps_tagAt 0).bind fun _ hFound => .look (fun _ _ => rfl) fun _ _ =>
      (steps_convertTop (hFound.imp_right fun hConcrete => concrete_storedAs hConcrete _)).bind
        fun _ _ => steps_popEntry
  refine .sharpen hTame fun ctx st top after hState hOk hTop entry hEntry =>
    ⟨fun plan hPlan hPayload => ?_, hTop entry hEntry⟩
  rcases bind_ok.mp hOk with ⟨found, _, hFound, hOk⟩
  obtain ⟨rfl, rfl⟩ := tagAt_ok hFound
  rw [get_bind] at hOk
  rcases bind_ok.mp hOk with ⟨_, turned, hTurn, hPop⟩
  obtain ⟨_, code, _, hBench⟩ := convertTop_ok hTurn
  obtain ⟨rfl, _⟩ := popEntry_ok hPop
  rw [hBench] at hEntry
  cases hEntries : st.bench.entries with
  | nil => simp [hEntries] at hEntry
  | cons old entries =>
    simp only [hEntries, Bench.entries_emit, Bench.entries_withEntries, retagTop_cons,
      head?_cons, Option.mem_some_iff] at hEntry
    subst hEntry
    rw [← (hState.locals.placed plan hPlan).room_eq]
    exact storedAs_payload hPayload

theorem steps_storeReference (hStores : scope.stores) (slot : Nat) :
    Goes scope (storeReference slot) := by
  rw [storeReference_eq]
  refine (steps_takeStored slot).bind fun top hTop => ?_
  cases top with
  | none => exact .pure trivial
  | some entry =>
    obtain ⟨hFits, hTag⟩ := hTop entry rfl
    exact (steps_putLocal hStores entry.name hFits hTag).bind fun _ _ => steps_useInstead _ _

-- Agreement

theorem steps_firstJoin (hStores : scope.stores) (label : Label) (operands : Nat) :
    Steps scope (firstJoin label operands) (Join.Orderly scope) := by
  refine .consult (fun _ _ => rfl) fun ctx _ => ?_
  cases ctx.frames.frame? label with
  | none =>
    exact .look (fun _ _ => rfl) fun st hState =>
      .pure ⟨hState.stack.save.withoutTop operands, hState.locals.tags, fun plan hPlan =>
        (hState.locals.placed plan hPlan).cells⟩
  | some frame =>
    let reg := ctx.reg
    have hParts :
        (do
          let st ← get
          set { st with
            locals := (st.locals.narrow reg frame).restore st.locals.save }
          return ⟨(st.stack.save.withoutTop operands).narrow reg frame,
            (st.locals.narrow reg frame).save⟩ : Simulation Join) =
          (do
            let st ← get
            changeLocals fun locals => (locals.narrow reg frame).restore locals.save
            return ⟨(st.stack.save.withoutTop operands).narrow reg frame,
              (st.locals.narrow reg frame).save⟩) :=
      rfl
    refine Eq.mpr (congrArg (Steps scope · (Join.Orderly scope)) hParts) ?_
    refine .look (fun _ _ => rfl) fun st hState =>
      (steps_changeLocals hStores fun locals hLocals => ?_).bind fun _ _ => .pure ?_
    · exact (hLocals.narrow reg frame).restore hLocals.tags fun plan hPlan =>
        (hLocals.placed plan hPlan).cells
    · have hNarrowed := hState.locals.narrow reg frame
      exact ⟨(hState.stack.save.withoutTop operands).narrow Tag.lasting_tame reg frame,
        hNarrowed.tags, fun plan hPlan => (hNarrowed.placed plan hPlan).cells⟩

theorem steps_agree (hAgrees : scope.agrees) (label : Label) {join : Join}
    (hJoin : join.Orderly scope) :
    Goes scope (agree label join) := by
  refine .change (fun _ _ => rfl) fun st hState =>
    ⟨⟨hState.stack, hState.locals, ?_⟩, .inr rfl, .inl hAgrees,
      fun other known hKnown => ?_,
      .inr ⟨rfl, rfl, rfl, .inl rfl, .same rfl rfl, fun _ => .inl⟩⟩
  · exact forall_mem_append.mpr ⟨hState.agreed, forall_mem_singleton.mpr hJoin⟩
  · simp only [lookup_append, hKnown, Option.some_or]

theorem steps_join (hStores : scope.stores) (hAgrees : scope.agrees) (label : Label)
    (operands : Nat) :
    Steps scope (join label operands) (Join.Orderly scope) := by
  refine .look (fun _ _ => rfl) fun st hState => ?_
  split
  · rename_i hKnown
    exact .pure (hState.lookup hKnown)
  · exact (steps_firstJoin hStores label operands).bind fun _ hJoin =>
      (steps_agree hAgrees label hJoin).bind fun _ _ => .pure hJoin

/- A local that is moved has room for what it becomes. -/
structure MovePlaced (scope : Scope) (move : Move) : Prop where
  room : scope.Fits move.slot move.want
  found : move.found.Tame scope.wild
  want : move.want.Tame scope.wild

theorem steps_collectMoves (hStores : scope.stores) (label : Label) (agreed : SlotSnapshot)
    (vars : List (Nat × Tag))
    (hVars : ∀ entry ∈ vars, scope.Fits entry.1 entry.2 ∧ entry.2.Tame scope.wild) :
    Steps scope (collectMoves label agreed vars)
      (fun moves => ∀ move ∈ moves, MovePlaced scope move) := by
  induction vars with
  | nil => exact .pure nofun
  | cons entry rest ih =>
    obtain ⟨slot, want⟩ := entry
    rw [forall_mem_cons] at hVars
    obtain ⟨⟨hFits, hTag⟩, hVars⟩ := hVars
    have hRest := ih hVars
    refine .look (fun _ _ => rfl) fun st hState => ?_
    refine .ite hRest (.ite (.throw (by simp [noPlace])) (.ite ?_ ?_))
    · exact (steps_changeLocals hStores fun _ hLocals => hLocals.retag hFits hTag).bind
        fun _ _ => hRest
    · refine hRest.bind fun moves hMoves => .pure ?_
      exact forall_mem_cons.mpr
        ⟨⟨hFits, hState.locals.tags.tagAt Tag.tame_void slot, hTag⟩, hMoves⟩

theorem steps_storeForMove (hStores : scope.stores) (label : Label) {move : Move}
    (hMove : MovePlaced scope move) :
    Goes scope (storeForMove label move) := by
  have hStore : Goes scope (storeMoved label move) := by
    refine (steps_slotNumber _).bind fun _ _ => .look (fun _ _ => rfl) fun named _ =>
      steps_pop.bind fun _ _ => (steps_emit _).bind fun _ _ =>
        .look (fun _ _ => rfl) fun st hState => ?_
    split
    · rename_i hPut
      exact steps_changeLocals hStores fun _ _ =>
        hState.locals.put hMove.room hMove.want hPut
    · exact .throw (by simp [noPlace])
  refine .ite ?_ ?_
  · exact (steps_valueClassOf _).bind fun _ _ => (steps_emit _).bind fun _ _ =>
      (steps_push _ hMove.want).bind fun _ _ => hStore
  · exact (steps_convertTop hMove.want).bind fun _ _ => hStore

theorem vars_room {cells : Array SlotCell} (hCells : PlacedCells plan cells)
    {entry : Nat × Tag} (hEntry : entry ∈ varsOf cells)
    (hPayload : entry.2.isPayload = true) :
    2 ≤ plannedRoom plan entry.1 := by
  apply hCells.payload
  rw [(mem_varsOf.mp hEntry).1]
  exact hPayload

theorem steps_reconcileLocals (hStores : scope.stores) (label : Label) {join : Join}
    (hJoin : join.Orderly scope) :
    Goes scope (reconcileLocals label join.locals) := by
  refine (steps_collectMoves hStores label _ _ fun entry hEntry =>
    ⟨fun plan hPlan => vars_room (hJoin.placed plan hPlan) hEntry,
      hJoin.cells.vars hEntry⟩).bind fun moves hMoves => ?_
  exact (Steps.forM fun move hMove => steps_loadForMove (hMoves move hMove).found).bind
    fun _ _ => .forM fun move hMove =>
      steps_storeForMove hStores label (hMoves move (mem_reverse.mp hMove))

theorem steps_reconcile (hStores : scope.stores) (hAgrees : scope.agrees) (label : Label)
    (operands : Nat) :
    Steps scope (reconcile label operands) (Join.Orderly scope) :=
  (steps_join hStores hAgrees label operands).bind fun _ hJoin =>
    (steps_reconcileStack label operands hJoin.stack).bind fun _ _ =>
      (steps_reconcileLocals hStores label hJoin).bind fun _ _ => .pure hJoin

theorem steps_resume (hStores : scope.stores) {join : Join} (hJoin : join.Orderly scope) :
    Goes scope (resume join) :=
  (steps_changeStack fun stack => OperandStack.upholds_restore hJoin.stack stack).bind
    fun _ _ => steps_changeLocals hStores fun _ hLocals =>
      hLocals.restore hJoin.cells hJoin.placed

theorem steps_enter (hStores : scope.stores) (hAgrees : scope.agrees) (label : Label) :
    Goes scope (enter label) := by
  refine .consult (fun _ _ => rfl) fun ctx _ => .look (fun _ _ => rfl) fun st hState => ?_
  split
  · rename_i hKnown
    exact (steps_resume hStores (hState.lookup hKnown)).bind fun _ _ => .pure trivial
  · split
    · exact .pure trivial
    · rename_i frame _
      refine (steps_changeLocals hStores fun _ hLocals =>
        hLocals.declaredLocals ctx.reg frame).bind fun _ _ => ?_
      refine (steps_changeStack fun stack =>
        stack.upholds_declaredStack Tag.lasting_tame ctx.reg frame).bind
          fun _ _ => .look (fun _ _ => rfl) fun entered hEntered => ?_
      have hJoin : Join.Orderly scope ⟨entered.stack.save, entered.locals.save⟩ :=
        ⟨hEntered.stack.save, hEntered.locals.tags, fun plan hPlan =>
          (hEntered.locals.placed plan hPlan).cells⟩
      exact (steps_agree hAgrees label hJoin).bind fun _ _ => .pure trivial

-- Branches and labels

section

variable (hStores : scope.stores) (hAgrees : scope.agrees)
include hStores hAgrees

theorem steps_branchOnFlag (test : RefTest) (target : Label) :
    Goes scope (branchOnFlag test target) :=
  (steps_replaceNode _).bind fun _ _ =>
    (steps_reconcile hStores hAgrees target 1).bind fun _ _ => steps_popKind _

theorem steps_branchOnReferences (target : Label) :
    Goes scope (branchOnReferences target) :=
  (steps_reconcile hStores hAgrees target 2).bind fun _ _ =>
    steps_popReference.bind fun _ _ => steps_dropReference

theorem steps_compareReferences (test : RefTest) (target : Label) :
    Goes scope (compareReferences test target) := by
  rw [compareReferences_eq]
  refine (steps_require 2).bind fun _ _ => .ite ?_ (.pure trivial)
  refine (steps_tagAt 0).bind fun right hRight => (steps_tagAt 1).bind fun left hLeft => ?_
  exact (steps_prepare _ hLeft hRight).bind fun _ _ =>
    .ite (steps_branchOnFlag hStores hAgrees test target)
      (steps_branchOnReferences hStores hAgrees target)

theorem steps_compareWithNull (test : RefTest) (target : Label) :
    Goes scope (compareWithNull test target) :=
  (steps_tagAt 0).bind fun top _ => .ite
    ((steps_flagNull top).bind fun _ _ => steps_branchOnFlag hStores hAgrees test target)
    ((steps_reconcile hStores hAgrees target 1).bind fun _ _ => steps_dropReference)

theorem steps_checkTarget (target : Label) : Goes scope (checkTarget target) := by
  refine (steps_join hStores hAgrees target 1).bind fun join _ =>
    .look (fun _ _ => rfl) fun st _ => .guarded (by simp [noPlace]) ?_
  split
  · exact .throw (by simp [noPlace])
  · exact .pure trivial

theorem steps_switch (targets : List Label) : Goes scope (switch targets) := by
  have hReconcile :
      Goes scope (targets.forM fun target => do
        let _ ← reconcile target 1) :=
    .forM fun target _ =>
      (steps_reconcile hStores hAgrees target 1).bind fun _ _ => .pure trivial
  exact hReconcile.bind fun _ _ =>
    (Steps.forM fun target _ => steps_checkTarget hStores hAgrees target).bind fun _ _ =>
      steps_popKind _

theorem steps_branchEffect (b : Branch) : Goes scope (branchEffect b) := by
  have hReconcile := steps_reconcile hStores hAgrees
  cases b with
  | ifInt test target => exact (hReconcile target 1).bind fun _ _ => steps_popKind _
  | ifInts test target =>
    exact (hReconcile target 2).bind fun _ _ => (steps_popKind _).bind fun _ _ => steps_popKind _
  | ifRefs test target => exact steps_compareReferences hStores hAgrees test target
  | ifNull test target => exact steps_compareWithNull hStores hAgrees test target
  | goto target => exact (hReconcile target 0).bind fun _ _ => .pure trivial
  | tableSwitch | lookupSwitch => exact steps_switch hStores hAgrees _
  | ret kind => exact steps_leave kind
  | throw => exact steps_dropReference

theorem steps_branch (hMarks : scope.marks) (b : Branch) : Goes scope (branch b) := by
  refine (steps_markSeeding hMarks).bind fun _ _ =>
    (steps_branchEffect hStores hAgrees b).bind fun _ _ => .ite ?_ (.pure trivial)
  exact .change (fun _ _ => rfl) fun st hState =>
    ⟨⟨st.stack.upholds_clear.orderly hState.stack, hState.locals, hState.agreed⟩, .inr rfl,
      .inl hAgrees, fun _ _ hJoin => hJoin,
      .inr ⟨rfl, rfl, rfl, .inl rfl, .same rfl rfl, fun _ => .inl⟩⟩

theorem steps_arrive (l : Label) : Goes scope (arrive l) :=
  .consult (fun _ _ => rfl) fun _ _ => .look (fun _ _ => rfl) fun _ _ =>
    .ite ((steps_reconcile hStores hAgrees l 0).bind fun _ hJoin => steps_resume hStores hJoin)
      (.pure trivial)

/- Nothing is marked at a label but before this. -/
theorem steps_landing (l : Label) : Goes scope (landing l) := by
  have hNote : Goes scope (modify (State.noting l)) := by
    refine .change (fun st found => ?_) fun st hState => ?_
    · unfold State.noting State.withFindings
      dsimp only
      split <;> rfl
    · unfold State.noting
      split
      · refine .of_same hState hState.stack rfl ⟨rfl, rfl⟩
          (.inr ⟨rfl, rfl, rfl, .inl rfl, .same rfl rfl, ?_⟩)
        exact forall_mem_cons.mpr ⟨.inr fun plan hPlan =>
          (hState.locals.placed plan hPlan).cells, fun _ => .inl⟩
      · exact .refl hState
  refine .look (fun _ _ => rfl) fun st _ => .ite ?_ ?_
  · exact (steps_arrive hStores hAgrees l).bind fun _ _ => hNote
  · refine (steps_enter hStores hAgrees l).bind fun known _ =>
      Steps.bind (.change (fun _ _ => rfl) fun st hState => ?_) fun _ _ => hNote
    exact ⟨⟨hState.stack, hState.locals, hState.agreed⟩, .inr rfl, .inl hAgrees,
      fun _ _ hJoin => hJoin,
      .inr ⟨rfl, rfl, rfl, .inl rfl, .same rfl rfl, fun _ => .inl⟩⟩

theorem steps_label {l : Label}
    (hMarks : scope.MarksIf fun ctx => ctx.frames.isTarget l = true) :
    Goes scope (label l) := by
  rw [label_eq]
  refine .consult (fun _ _ => rfl) fun ctx hContext => ?_
  split
  · rename_i hTarget
    exact (steps_markSeeding (hMarks ctx hContext hTarget)).bind fun _ _ =>
      steps_landing hStores hAgrees l
  · exact steps_landing hStores hAgrees l

end

-- Elements

/- What can end the search for a place for seeding. -/
def Instruction.Touches (ctx : Context) : Instruction → Prop
  | .field _ accessed => accessed.owner = ctx.layout.name
  | .invoke kind method =>
      kind = .special ∧ method.name = .init ∧ method.owner = ctx.layout.name
  | _ => False

/- The instructions that can be taken out. -/
def Instruction.Removable : Instruction → Prop
  | .shuffle _ | .checkCast _ | .instanceOf _ => True
  | _ => False

theorem steps_instruction (hStores : scope.stores) {i : Instruction}
    (hMarks : scope.MarksIf (Instruction.Touches · i))
    (hRemoves : Instruction.Removable i → scope.removes) :
    Goes scope (instruction i) := by
  cases i with
  | plain op => exact steps_compute op
  | pushNull | pushByte | pushShort => exact steps_push _ (.inr (by decide))
  | constant value => exact steps_push _ value.concrete_tag.tame
  | load kind slot =>
    cases kind with
    | reference => exact steps_loadReference slot
    | _ => exact steps_loadPrimitive _ slot
  | store kind slot =>
    cases kind with
    | reference => exact steps_storeReference hStores slot
    | _ => exact steps_storePrimitive hStores _ slot
  | increment slot delta => exact steps_increment slot delta
  | arrayLoad kind => exact steps_loadElement kind
  | arrayStore kind => exact steps_storeElement kind
  | arrayLength =>
    exact steps_popReference.bind fun _ _ => steps_push _ (.inr (by decide))
  | shuffle op => exact steps_shuffle (hRemoves trivial) op
  | field access accessed => exact steps_accessField access hMarks
  | invoke kind method =>
    exact steps_call hStores fun hInit ctx hContext hOwn =>
      hMarks ctx hContext ⟨hInit.1, hInit.2, hOwn⟩
  | invokeDynamic target => exact steps_callDynamic _
  | newObject => exact steps_create
  | newArray type =>
    exact (steps_popKind _).bind fun _ _ => steps_push _
      ((Registry.concrete_tagOfBase type).arrayOf 1).tame
  | newRefArray type => exact steps_newRefArray type
  | newMultiArray type dimensions => exact steps_newMultiArray type dimensions
  | checkCast type => exact steps_checkCast (hRemoves trivial) type
  | instanceOf type => exact steps_instanceOf (hRemoves trivial) type
  | monitorEnter | monitorExit => exact steps_useMonitor

/- Every element but a frame leaves the code as it is. -/
theorem steps_step (hStores : scope.stores) (hAgrees : scope.agrees) (hMarks : scope.marks)
    {node : Node} (hNode : scope.edits ∨ ∀ change, node ≠ .frame change)
    (hRemoves : ∀ i, node = .insn i → Instruction.Removable i → scope.removes) :
    Goes scope (step node) := by
  have hNote : Goes scope
      (modify fun st => { st with label := labelAfter st.label node }) :=
    .change (fun _ _ => rfl) fun _ hState =>
      .of_ground hState hState.stack rfl (.same rfl rfl)
  refine .look (fun _ _ => rfl) fun st _ => ?_
  cases node with
  | line number =>
    exact Steps.bind (.change (fun _ _ => rfl) fun _ hState =>
      .of_ground hState hState.stack rfl (.same rfl rfl)) fun _ _ => hNote
  | label l =>
    exact (steps_label hStores hAgrees fun _ _ _ => hMarks).bind fun _ _ => hNote
  | frame change =>
    have hEdits := hNode.resolve_right fun hNone => hNone change rfl
    have hFrame : Goes scope frame :=
      .consult (fun _ _ => rfl) fun _ _ => .change (fun _ _ => rfl) fun _ hState =>
        .of_same hState hState.stack rfl ⟨rfl, rfl⟩ (.inl hEdits)
    exact .first hFrame hNote
  | insn i => exact .first (steps_instruction hStores (fun _ _ _ => hMarks) (hRemoves i rfl)) hNote
  | branch b => exact .first (steps_branch hStores hAgrees hMarks b) hNote

end Simulation

end Unboxing
