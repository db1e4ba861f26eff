import Unboxing.Proofs.Steps

/-
  The steps that work on the stack and on the edit at hand, and
  the instructions that are made of them. They are within every
  scope, unless they mark the place for seeding. Each proof
  follows the step it is about.

  Main declarations:
    * `Simulation.steps_convertOperands`
    * `Simulation.steps_reconcileStack`
    * `Simulation.steps_shuffle`
    * `Simulation.steps_accessField`
-/

namespace Unboxing

open List

namespace Simulation

variable {α : Type} {st after : State} {ctx : Context} {l : Label}

section Steps

variable {scope : Scope} {want : List Tag}
variable {act : OperandStack → α × OperandStack} {tag consumer : Tag}
variable {binding : MethodBinding}

-- Stack and locals

theorem steps_changeStack {change : OperandStack → OperandStack}
    (hChange : ∀ stack, scope.Upholds stack (change stack)) :
    Goes scope (changeStack change) :=
  .change (fun _ _ => rfl) fun st hState =>
    .of_ground hState ((hChange st.stack).orderly hState.stack) rfl
      (.same rfl rfl)

theorem steps_withStack {want : α → Prop}
    (hAct : ∀ stack, scope.Upholds stack (act stack).2)
    (hResult : ∀ stack, stack.All (Tag.Tame scope.wild) → want (act stack).1) :
    Steps scope (withStack act) want := by
  have hParts : withStack act = (get >>= fun st =>
        changeStack (fun stack => (act stack).2) >>= fun _ => pure (act st.stack).1) :=
    rfl
  rw [hParts]
  exact .look (fun _ _ => rfl) fun st hState =>
    (steps_changeStack hAct).bind fun _ _ => .pure (hResult _ hState.stack.tags)

theorem steps_workStack
    (hAct : ∀ stack, scope.Upholds stack (act stack).2) :
    Goes scope (withStack act) :=
  steps_withStack hAct fun _ _ => trivial

theorem steps_tagAt (depth : Nat) : Steps scope (tagAt depth) (Tag.Tame scope.wild) :=
  .look (fun _ _ => rfl) fun _ hState => .pure (hState.tagAt depth)

theorem steps_push (name : Option String) (hTag : tag.Tame scope.wild) :
    Goes scope (push tag name) :=
  steps_changeStack fun stack => stack.upholds_push name hTag

theorem steps_popEntry :
    Steps scope (withStack OperandStack.popEntry)
      (fun top => ∀ entry, top = some entry → entry.tag.Tame scope.wild) :=
  steps_withStack OperandStack.upholds_popEntry fun _ hStack _ hEntry => hStack.entry hEntry

theorem steps_pop : Goes scope pop :=
  steps_workStack OperandStack.upholds_pop

theorem steps_popMany (count : Nat) : Goes scope (popMany count) := by
  induction count with
  | zero => exact .pure trivial
  | succ count ih => exact steps_pop.bind fun _ _ => ih

theorem steps_popReference : Goes scope popReference :=
  steps_workStack fun stack => stack.upholds_popIf _ _

theorem steps_dropReference : Goes scope (do let _ ← popReference : Simulation Unit) :=
  steps_popReference.bind fun _ _ => .pure trivial

theorem steps_popKind (kind : ValueKind) : Goes scope (popKind kind) :=
  Steps.bind (steps_workStack fun stack => stack.upholds_popIf _ _) fun _ _ =>
    .pure trivial

theorem steps_require (count : Nat) : Goes scope (require count) :=
  steps_workStack fun stack => stack.upholds_require count

theorem steps_retag (depth : Nat) (hTag : tag.Tame scope.wild) :
    Goes scope (retag depth tag) :=
  steps_changeStack fun stack => stack.upholds_retag depth hTag

theorem steps_reserveMore (cells : Nat) : Goes scope (reserveMore cells) :=
  steps_changeStack fun stack => stack.upholds_reserve _

theorem steps_checkStack : Goes scope checkStack :=
  .look (fun _ _ => rfl) fun _ _ =>
    Steps.bind (steps_changeStack fun stack => (stack.accounts_issues []).upholds id) fun _ _ =>
      .ite (.throw (by simp [noPlace])) (.pure trivial)

-- Edits and limits

/- Only to take the element out needs leave. -/
theorem steps_edit {change : Change} (hRemoves : change = .remove → scope.removes) :
    Goes scope
      (modify fun st => { st with edit := st.edit.add change, modified := true }) := by
  refine .change (fun _ _ => rfl) fun st hState =>
    .of_ground hState hState.stack rfl ⟨nofun, ?_⟩
  by_cases hRemove : change = .remove
  · exact .inl (hRemoves hRemove)
  · refine .inr fun hStands => ?_
    exact not_mem_cons_of_ne_of_not_mem (Ne.symm hRemove) hStands

theorem steps_emit (i : Instruction) : Goes scope (emit i) :=
  steps_edit nofun

theorem steps_replaceNode (node : Node) : Goes scope (replaceNode node) :=
  steps_edit nofun

theorem steps_removeNode (hRemoves : scope.removes) : Goes scope removeNode :=
  steps_edit fun _ => hRemoves

theorem steps_slotNumber (cell : Nat) : Goes scope (slotNumber cell) :=
  .ite (.pure trivial) (.throw (by simp [noPlace]))

theorem steps_allocate (tag : Tag) : Goes scope (allocate tag) := by
  have hParts : allocate tag = (get >>= fun st =>
        modify (fun st : State =>
          { st with
            scratch := st.scratch + tag.dstWidth
            scratchEnd := max st.scratchEnd
              (st.locals.dstSize + st.scratch + tag.dstWidth) }) >>=
          fun _ => slotNumber (st.locals.dstSize + st.scratch)) :=
    rfl
  rw [hParts]
  exact .look (fun _ _ => rfl) fun _ _ =>
    Steps.bind (.change (fun _ _ => rfl) fun _ hState => .of_ground hState hState.stack rfl
      (.same rfl rfl)) fun _ _ => steps_slotNumber _

theorem steps_valueClass (cls : ClassIndex) : Goes scope (valueClass cls) := by
  refine .consult (fun _ _ => rfl) fun ctx _ => ?_
  split
  · exact .pure trivial
  · exact .throw (by simp [noPlace])

theorem steps_valueClassOf (tag : Tag) : Goes scope (valueClassOf tag) :=
  steps_valueClass _

-- Conversions

theorem steps_emitCall (method : MethodRef) : Goes scope (emitCall method) :=
  steps_emit _

/- A method that boxes or unboxes can only be missing. -/
def OnlyMissing (outcome : Except FailureCause α) : Prop :=
  ∀ cause, outcome = .error cause → ∃ what, cause = .missingImplementation what

theorem steps_ofExcept {outcome : Except FailureCause α}
    (hOutcome : OnlyMissing outcome) :
    Goes scope (MonadExcept.ofExcept outcome : Simulation α) := by
  cases outcome with
  | ok result => exact .pure trivial
  | error cause =>
    rcases hOutcome cause rfl with ⟨what, rfl⟩
    exact .throw (by simp [noPlace])

theorem onlyMissing_boxMethod (info : ValueClass) (depth : Nat) :
    OnlyMissing (info.boxMethod depth) := by
  unfold ValueClass.boxMethod
  split
  · simp [OnlyMissing]
  · split <;> simp [OnlyMissing]
  · simp [OnlyMissing]

theorem onlyMissing_unboxMethod (info : ValueClass) (depth : Nat) :
    OnlyMissing (info.unboxMethod depth) := by
  unfold ValueClass.unboxMethod
  split
  · simp [OnlyMissing]
  · split <;> simp [OnlyMissing]
  · simp [OnlyMissing]

theorem steps_emitBox (found : Tag) : Goes scope (emitBox found) :=
  (steps_valueClassOf _).bind fun info _ =>
    (steps_ofExcept (onlyMissing_boxMethod info _)).bind fun _ _ =>
      (steps_emitCall _).bind fun _ _ => .note _

theorem steps_emitUnbox (found want : Tag) : Goes scope (emitUnbox found want) := by
  refine (steps_valueClassOf _).bind fun info _ => ?_
  have hCall : Goes scope
      (do
        emitCall (← MonadExcept.ofExcept (info.unboxMethod want.depth))) :=
    (steps_ofExcept (onlyMissing_unboxMethod info _)).bind fun _ _ => steps_emitCall _
  refine .ite ((steps_emit _).bind fun _ _ => steps_emit _) (.ite ?_ hCall)
  refine .consult (fun _ _ => rfl) fun ctx _ => ?_
  split
  · exact (steps_emit _).bind fun _ _ => hCall
  · exact hCall

theorem steps_convertTop {want : Tag} (hWant : want.Tame scope.wild) :
    Goes scope (convertTop want) := by
  refine (steps_tagAt _).bind fun found _ => .ite ?_ (.pure trivial)
  split
  · exact steps_retag _ hWant
  · exact steps_retag _ (hWant.imp_right (concrete_substituted found))
  · exact (steps_emitBox _).bind fun _ _ => steps_retag _ hWant
  · exact (steps_emitUnbox _ _).bind fun _ _ => steps_retag _ hWant
  · exact .throw (by simp [noPlace])

theorem tame_boxedFor {found : Tag} (hFound : found.Tame scope.wild)
    (hConsumer : consumer.Tame scope.wild) :
    (boxedFor found consumer).Tame scope.wild :=
  hFound.elim .inl fun hFound => hConsumer.imp_right (concrete_boxedFor hFound)

theorem steps_boxTopFor (hConsumer : consumer.Tame scope.wild) :
    Goes scope (boxTopFor consumer) :=
  (steps_tagAt _).bind fun _ hFound =>
    .ite (steps_convertTop (tame_boxedFor hFound hConsumer)) (.pure trivial)

theorem steps_dropTop : Goes scope dropTop :=
  steps_pop.bind fun _ _ => steps_emit _

theorem steps_spill (count : Nat) :
    Steps scope (spill count)
      (fun kept => ∀ spilled ∈ kept, spilled.entry.tag.Tame scope.wild) := by
  induction count with
  | zero => exact .pure nofun
  | succ count ih =>
    refine steps_popEntry.bind fun top hTop => ?_
    cases top with
    | none => exact .pure nofun
    | some entry =>
      refine (steps_allocate _).bind fun slot _ => (steps_emit _).bind fun _ _ => ?_
      refine ih.bind fun more hMore => .pure ?_
      exact forall_mem_cons.mpr ⟨hTop entry rfl, hMore⟩

theorem steps_reload {spilled : Spilled} (hSpilled : spilled.entry.tag.Tame scope.wild) :
    Goes scope (reload spilled) :=
  (steps_emit _).bind fun _ _ => steps_push _ hSpilled

theorem steps_reloadAs {kept : List Spilled}
    (hKept : ∀ spilled ∈ kept, spilled.entry.tag.Tame scope.wild)
    (hWant : ∀ tag ∈ want, tag.Tame scope.wild) :
    Goes scope (reloadAs kept want) := by
  induction kept generalizing want with
  | nil => exact .forM nofun
  | cons first rest ih =>
    cases want with
    | nil => exact .forM fun spilled hSpilled => steps_reload (hKept spilled hSpilled)
    | cons tag others =>
      rw [forall_mem_cons] at hKept hWant
      exact (steps_reload hKept.1).bind fun _ _ =>
        .first (steps_convertTop hWant.1) (ih hKept.2 hWant.2)

theorem steps_retagOperands (hWant : ∀ tag ∈ want, tag.Tame scope.wild) :
    Steps scope (retagOperands want)
      (fun wanted => ∀ tag ∈ wanted, tag.Tame scope.wild) := by
  induction want with
  | nil => exact .pure hWant
  | cons tag above ih =>
    rcases forall_mem_cons.mp hWant with ⟨hTag, hAbove⟩
    have hRest := ih hAbove
    refine (steps_tagAt _).bind fun found _ => .ite hRest ?_
    split
    · exact .throw (by simp [noPlace])
    · exact hRest.bind fun _ _ => .pure hWant
    · exact hRest.bind fun _ _ => .pure hWant
    · exact (steps_retag _ (hTag.imp_right (concrete_substituted found))).bind
        fun _ _ => hRest
    · exact (steps_retag _ hTag).bind fun _ _ => hRest

theorem steps_convertOperands (hWant : ∀ tag ∈ want, tag.Tame scope.wild) :
    Goes scope (convertOperands want) := by
  refine (steps_require _).bind fun enough _ => .ite ?_ (.pure trivial)
  refine (steps_retagOperands hWant).bind fun wanted hWanted => ?_
  cases wanted with
  | nil => exact .pure trivial
  | cons deepest above =>
    rw [forall_mem_cons] at hWanted
    refine (steps_spill _).bind fun kept hKept => ?_
    refine (steps_convertTop hWanted.1).bind fun _ _ => ?_
    exact steps_reloadAs
      (fun spilled hSpilled => hKept spilled (mem_reverse.mp hSpilled)) hWanted.2

theorem steps_topTags (count : Nat) :
    Steps scope (topTags count) (fun found => ∀ tag ∈ found, tag.Tame scope.wild) := by
  refine .look (fun _ _ => rfl) fun st hState => .pure fun tag hTag => ?_
  rcases mem_map.mp (mem_reverse.mp hTag) with ⟨entry, hEntry, rfl⟩
  exact hState.stack.tags entry (mem_of_mem_take hEntry)

theorem steps_boxOperands {consumers : List Tag}
    (hConsumers : ∀ tag ∈ consumers, tag.Tame scope.wild) :
    Goes scope (boxOperands consumers) := by
  refine (steps_topTags _).bind fun found hFound => ?_
  refine .ite (steps_convertOperands fun tag hTag => ?_) (.pure trivial)
  rcases mem_map.mp hTag with ⟨pair, hPair, rfl⟩
  exact tame_boxedFor (hFound _ (of_mem_zip hPair).1)
    (hConsumers _ (of_mem_zip hPair).2)

-- Rearrangements

theorem steps_popOne : Goes scope popOne :=
  Steps.bind (steps_workStack fun stack => stack.upholds_popIf _ _) fun _ _ =>
    .ite (steps_replaceNode _) (.pure trivial)

section

variable (hRemoves : scope.removes)
include hRemoves

theorem steps_popTwo : Goes scope popTwo := by
  refine .look (fun _ _ => rfl) fun st _ => ?_
  dsimp only
  split
  · exact Steps.bind (steps_workStack fun stack => stack.upholds_popIf _ _) fun _ _ =>
      .pure trivial
  · refine (steps_popMany _).bind fun _ _ => .ite ?_ (.pure trivial)
    exact (Steps.forM fun _ _ => steps_emit _).bind fun _ _ =>
      steps_removeNode hRemoves

theorem steps_swap : Goes scope swap := by
  refine (steps_tagAt _).bind fun _ _ => (steps_tagAt _).bind fun _ _ => ?_
  refine Steps.bind (steps_changeStack OperandStack.upholds_swap) fun _ _ => ?_
  refine .ite ?_ (.pure trivial)
  exact (Steps.forM fun _ _ => steps_emit _).bind fun _ _ =>
    (steps_removeNode hRemoves).bind fun _ _ => steps_reserveMore _

theorem steps_dupBySpilling (count depth : Nat) :
    Goes scope (dupBySpilling count depth) := by
  refine (steps_spill _).bind fun kept hKept => ?_
  refine (Steps.forM fun spilled hSpilled => steps_reload (hKept spilled ?_)).bind
    fun _ _ => steps_removeNode hRemoves
  simp only [mem_append, mem_reverse] at hSpilled
  rcases hSpilled with (hCopy | hSkipped) | hCopy
  · exact mem_of_mem_take hCopy
  · exact mem_of_mem_drop hSkipped
  · exact mem_of_mem_take hCopy

theorem steps_dup (op : Shuffle) (copied skipped : Nat) :
    Goes scope (dup op copied skipped) := by
  refine Steps.bind (steps_workStack fun stack => stack.upholds_dupShape _ _)
    fun shape _ => ?_
  split
  · exact .pure trivial
  · rename_i count depth
    refine .look (fun _ _ => rfl) fun st _ => ?_
    dsimp only
    split
    · exact .first (steps_replaceNode _)
        (steps_changeStack fun stack => stack.upholds_dupAt count depth)
    · exact .guarded (by simp [noPlace]) (steps_dupBySpilling hRemoves _ _)

theorem steps_shuffle (op : Shuffle) : Goes scope (shuffle op) := by
  unfold shuffle
  split
  · exact steps_popOne
  · exact steps_popTwo hRemoves
  · exact steps_swap hRemoves
  · split
    · exact steps_dup hRemoves _ _ _
    · exact .pure trivial

end

-- Seeding

/- The state with the place for seeding marked, if it is still searched. -/
def State.marked (st : State) : State :=
  if st.seeding = .searching then
    { st with seeding := .found (st.code.prev? st.here) st.stack.dst }
  else
    st

theorem markSeeding_apply {st : State} :
    markSeeding ctx st = .ok () st.marked :=
  rfl

/- Where fields are seeded is changed, and nothing else. -/
theorem steps_seeding (hMarks : scope.marks) {change : State → State}
    (hFindings : ∀ st found,
      change (st.withFindings found) = (change st).withFindings found)
    (hChange : ∀ st, ∃ seeding, change st = { st with seeding := seeding } ∧
      SeededFrom st { st with seeding := seeding }) :
    Goes scope (modify change) := by
  refine .change hFindings fun st hState => ?_
  rcases hChange st with ⟨seeding, hSeeding, hSeeded⟩
  rw [hSeeding]
  exact ⟨⟨hState.stack, hState.locals, hState.agreed⟩, .inr rfl, .inr ⟨rfl, rfl⟩,
    fun _ _ hJoin => hJoin,
    .inr ⟨rfl, rfl, rfl, .inr ⟨hMarks, hSeeded⟩, .same rfl rfl, fun _ => .inl⟩⟩

theorem steps_markSeeding (hMarks : scope.marks) : Goes scope markSeeding := by
  refine steps_seeding hMarks ?_ ?_
  · intro st found
    unfold State.withFindings
    dsimp only
    split <;> rfl
  · intro st
    split
    · rename_i hSearching
      refine ⟨_, rfl, .inr ⟨?_, .inr ⟨hSearching, _, rfl⟩⟩⟩
      simp [hSearching]
    · exact ⟨st.seeding, rfl, .inl rfl⟩

theorem steps_suppressSeeding (hMarks : scope.marks) : Goes scope suppressSeeding := by
  refine steps_seeding hMarks ?_ ?_
  · intro st found
    unfold State.withFindings
    dsimp only
    split <;> rfl
  · intro st
    split
    · rename_i hOpen
      exact ⟨_, rfl, .inr ⟨by simp [hOpen], .inl rfl⟩⟩
    · rename_i hOpen
      exact ⟨_, rfl, .inr ⟨by simp [hOpen], .inl rfl⟩⟩
    · exact ⟨st.seeding, rfl, .inl rfl⟩

-- Loads, array elements and fields

theorem steps_remap (slot : Nat) : Goes scope (remap slot) :=
  .look (fun _ _ => rfl) fun _ _ => steps_slotNumber _

theorem steps_useInstead (found wanted : Instruction) :
    Goes scope (useInstead found wanted) :=
  .ite (steps_replaceNode _) (.pure trivial)

theorem steps_increment (slot : Nat) (delta : Int) : Goes scope (increment slot delta) :=
  (steps_remap _).bind fun _ _ => steps_useInstead _ _

theorem steps_loadPrimitive (kind : ValueKind) (slot : Nat) :
    Goes scope (loadPrimitive kind slot) :=
  (steps_remap _).bind fun _ _ => (steps_useInstead _ _).bind fun _ _ =>
    steps_push _ (Tag.concrete_ofKind kind).tame

theorem steps_loadReference (slot : Nat) : Goes scope (loadReference slot) := by
  refine .look (fun _ _ => rfl) fun st hState => ?_
  exact .guarded (by simp [noPlace]) ((steps_remap _).bind fun _ _ =>
    (steps_useInstead _ _).bind fun _ _ =>
      steps_push _ (hState.locals.tags.tagAt Tag.tame_void slot))

theorem steps_loadReferenceElement : Goes scope loadReferenceElement := by
  refine (steps_tagAt 1).bind fun array hArray => ?_
  have hElement : (if array.isNull then Tag.null else array.elementOf).Tame scope.wild := by
    split
    · exact .inr (by decide)
    · exact hArray.imp_right Tag.Concrete.elementOf
  exact (steps_popKind _).bind fun _ _ => steps_popReference.bind fun _ _ =>
    .first (steps_replaceNode _) (steps_push _ hElement)

theorem steps_loadElement (kind : ArrayKind) : Goes scope (loadElement kind) := by
  unfold loadElement
  split
  · exact steps_loadReferenceElement
  · exact (steps_popKind _).bind fun _ _ => steps_popReference.bind fun _ _ =>
      steps_push _ (Tag.concrete_ofKind _).tame

theorem steps_storeReferenceElement : Goes scope storeReferenceElement := by
  refine (steps_tagAt 2).bind fun array hArray => ?_
  have hPop : Goes scope
      (do
        let _ ← pop
        popKind .int
        let _ ← popReference) :=
    steps_pop.bind fun _ _ => (steps_popKind _).bind fun _ _ => steps_dropReference
  have hElement := hArray.imp_right Tag.Concrete.elementOf
  have hConsumer :
      (if array.isValue then array.elementOf else Tag.object).Tame scope.wild := by
    split
    · exact hElement
    · exact .inr (by decide)
  exact .ite
    ((steps_convertTop hElement).bind fun _ _ =>
      .first (steps_replaceNode _) hPop)
    ((steps_boxTopFor hConsumer).bind fun _ _ => hPop)

theorem steps_storeElement (kind : ArrayKind) : Goes scope (storeElement kind) := by
  unfold storeElement
  split
  · exact steps_storeReferenceElement
  · exact (steps_popKind _).bind fun _ _ => (steps_popKind _).bind fun _ _ =>
      steps_dropReference

theorem steps_payloadField? {declared : Tag} (accessed : FieldRef)
    (hDeclared : declared.Tame scope.wild) :
    Steps scope (payloadField? declared accessed)
      (fun payload => ∀ pair ∈ payload, pair.1.Tame scope.wild) := by
  refine .consult (fun _ _ => rfl) fun ctx _ => ?_
  refine .ite ?_ (.pure nofun)
  dsimp only
  split
  · refine .pure fun pair hPair => ?_
    cases hPair
    exact hDeclared.imp_right Tag.Concrete.payloadOf
  · exact .throw (by simp [noPlace])

/- What is written to a field is turned into what the field holds. -/
def readyValue (access : FieldAccess) (declared : Tag)
    (payload : Option (Tag × FieldRef)) : Simulation Unit :=
  if access.isPut then
    match payload with
    | some (tag, _) => convertTop tag
    | none => boxTopFor declared
  else
    return ()

/- What is done before a field access executes. -/
def readyField (access : FieldAccess)
    (accessed : FieldRef) : Simulation (Tag × Option (Tag × FieldRef)) := do
  let ctx ← read
  if accessed.owner = ctx.layout.name then
    markSeeding
  let declared := ctx.reg.tagOf accessed.type
  let payload ← payloadField? declared accessed
  readyValue access declared payload
  return (declared, payload)

/- What a field access does on the stack, given the tag that the field holds. -/
def moveField (access : FieldAccess) (held : Tag) : Simulation Unit := do
  if access.isPut then
    let _ ← pop
  if !access.isStatic then
    let _ ← popReference
  if !access.isPut then
    push held none

/- The field access itself, given the tag that is declared. -/
def performField (access : FieldAccess) (declared : Tag)
    (payload : Option (Tag × FieldRef)) : Simulation Unit := do
  moveField access ((payload.map Prod.fst).getD declared)
  if let some (_, unboxed) := payload then
    replaceNode (.insn (.field access unboxed))

/- A field access is made ready and then executes. -/
theorem accessField_eq (access : FieldAccess) (accessed : FieldRef) :
    accessField access accessed = readyField access accessed >>= fun (declared, payload) =>
        performField access declared payload := by
  unfold accessField readyField
  rw [bind_assoc]
  refine bind_congr fun ctx => ?_
  by_cases hOwner : accessed.owner = ctx.layout.name
  case' pos =>
    simp only [if_pos hOwner]
    rw [bind_assoc]
    refine bind_congr fun _ => ?_
  case' neg => simp only [if_neg hOwner]
  all_goals
    rw [bind_assoc]
    refine bind_congr fun payload => ?_
    unfold readyValue performField moveField
    cases access <;> rcases payload with _ | ⟨tag, unboxed⟩ <;>
      simp [FieldAccess.isPut, FieldAccess.isStatic]

theorem steps_readyValue (access : FieldAccess) {declared : Tag}
    {payload : Option (Tag × FieldRef)} (hDeclared : declared.Tame scope.wild)
    (hPayload : ∀ pair ∈ payload, pair.1.Tame scope.wild) :
    Goes scope (readyValue access declared payload) := by
  refine .ite ?_ (.pure trivial)
  cases payload with
  | some pair => exact steps_convertTop (hPayload pair rfl)
  | none => exact steps_boxTopFor hDeclared

theorem steps_performField (access : FieldAccess) {declared : Tag}
    {payload : Option (Tag × FieldRef)} (hDeclared : declared.Tame scope.wild)
    (hPayload : ∀ pair ∈ payload, pair.1.Tame scope.wild) :
    Goes scope (performField access declared payload) := by
  have hHeld : ((payload.map Prod.fst).getD declared).Tame scope.wild := by
    cases payload with
    | none => exact hDeclared
    | some pair => exact hPayload pair rfl
  refine Steps.bind (.first steps_pop (.first steps_popReference
    (.ite (steps_push _ hHeld) (.pure trivial)))) fun _ _ => ?_
  split
  · exact steps_replaceNode _
  · exact .pure trivial

/- Only a field of the class at hand is marked. -/
theorem steps_accessField (access : FieldAccess) {accessed : FieldRef}
    (hMarks : scope.MarksIf fun ctx => accessed.owner = ctx.layout.name) :
    Goes scope (accessField access accessed) := by
  rw [accessField_eq]
  refine Steps.bind (.consult (fun _ _ => rfl) fun ctx hContext => ?_)
    fun found (hFound : found.1.Tame scope.wild ∧ ∀ pair ∈ found.2, pair.1.Tame scope.wild) =>
      steps_performField access hFound.1 hFound.2
  have hDeclared : (ctx.reg.tagOf accessed.type).Tame scope.wild :=
    (ctx.reg.concrete_tagOf accessed.type).tame
  -- The same is done for fields of the class itself, after a mark.
  have hReady :
      Steps scope (do
        let payload ← payloadField? (ctx.reg.tagOf accessed.type) accessed
        readyValue access (ctx.reg.tagOf accessed.type) payload
        return (ctx.reg.tagOf accessed.type, payload))
        (fun found => found.1.Tame scope.wild ∧ ∀ pair ∈ found.2, pair.1.Tame scope.wild) :=
    (steps_payloadField? accessed hDeclared).bind fun _ hPayload =>
      (steps_readyValue access hDeclared hPayload).bind fun _ _ => .pure ⟨hDeclared, hPayload⟩
  split
  · rename_i hOwn
    exact (steps_markSeeding (hMarks ctx hContext hOwn)).bind fun _ _ => hReady
  · exact hReady

-- Calls

theorem steps_create : Goes scope create :=
  Steps.bind (.change (fun _ _ => rfl) fun _ hState => .of_ground hState hState.stack rfl
    (.same rfl rfl)) fun _ _ =>
      .look (fun _ _ => rfl) fun _ _ => steps_push _ (.inr (by decide))

theorem steps_pushResult (result : Option FieldType) : Goes scope (pushResult result) := by
  refine .consult (fun _ _ => rfl) fun ctx _ => ?_
  dsimp only
  split
  · exact steps_push _ (ctx.reg.concrete_tagOf _).tame
  · exact .pure trivial

theorem resolve_ok {method : MethodRef} {resolved : MethodBinding} {found : List Tag}
    (hOk : resolve method binding found ctx st = .ok resolved after) :
    after = st ∧ (resolved = binding ∨ ∃ cls, resolved = binding.substitute cls) := by
  unfold resolve at hOk
  cases hInfer : inferClass binding.arguments found with
  | closed =>
    rw [hInfer] at hOk
    cases hOk
    exact ⟨rfl, .inl rfl⟩
  | resolved cls =>
    rw [hInfer] at hOk
    cases hOk
    exact ⟨rfl, .inr ⟨cls, rfl⟩⟩
  | conflict classes =>
    rw [hInfer] at hOk
    cases hOk

/- The class of a call is found out, or the call fails. -/
theorem steps_resolveClass (method : MethodRef) {found : List Tag}
    (hLength : binding.arguments.length = found.length) :
    Steps scope (resolve method binding found) binding.Resolution := by
  unfold resolve
  rcases inferClass_cases binding.arguments found hLength with
    ⟨hClosed, hArguments⟩ | ⟨hOpen, ⟨cls, hResolved, hOne⟩ | ⟨classes, hConflict, _⟩⟩
  · rw [hClosed]
    exact .pure (MethodBinding.resolution_self hArguments)
  · rw [hResolved]
    exact .pure (MethodBinding.resolution_substitute hOpen ((hOne cls).mpr rfl).1)
  · rw [hConflict]
    exact .throw (by simp [noPlace])

/- The implementation of a method is called, and leaves its result. -/
theorem steps_answer (hResult : ∀ tag ∈ binding.result, tag.Tame scope.wild) :
    Goes scope
      (do
        if let some tag := binding.result then
          push tag none
        replaceNode (.insn (.invoke .static binding.target))) := by
  split
  · rename_i tag hTag
    exact (steps_push _ (hResult tag hTag)).bind fun _ _ => steps_replaceNode _
  · exact steps_replaceNode _

theorem steps_callDynamic (type : MethodType) : Goes scope (callDynamic type) := by
  refine .consult (fun _ _ => rfl) fun ctx _ => ?_
  refine (steps_require _).bind fun _ _ => .ite ?_ (.pure trivial)
  refine (steps_boxOperands fun tag hTag => ?_).bind fun _ _ =>
    (steps_popMany _).bind fun _ _ => steps_pushResult _
  rcases mem_map.mp hTag with ⟨parameter, _, rfl⟩
  exact (ctx.reg.concrete_tagOf parameter).tame

-- Types

theorem steps_checkZeroFill (element : Tag) : Goes scope (checkZeroFill element) :=
  (steps_valueClassOf _).bind fun _ _ => .ite (.note _) (.pure trivial)

theorem steps_newPayloadArray {payload : Tag} (hPayload : payload.Tame scope.wild) :
    Goes scope (newPayloadArray payload) := by
  have hPush : Goes scope (push (payload.arrayOf 1) none) :=
    steps_push _ hPayload
  refine .ite (.consult (fun _ _ => rfl) fun ctx _ => ?_) ?_
  · split
    · exact (steps_replaceNode _).bind fun _ _ => hPush
    · exact .throw_bind _ (by simp [noPlace]) fun _ => hPush
  · exact (steps_replaceNode _).bind fun _ _ =>
      (steps_checkZeroFill _).bind fun _ _ => hPush

theorem steps_newRefArray (type : RefType) : Goes scope (newRefArray type) := by
  refine .consult (fun _ _ => rfl) fun ctx _ => ?_
  have hElement := ctx.reg.concrete_tagOfRef type
  exact (steps_popKind _).bind fun _ _ =>
    .ite (steps_newPayloadArray hElement.payloadOf.tame)
      (steps_push _ (hElement.arrayOf 1).tame)

theorem steps_popLengths (count : Nat) : Goes scope (popLengths count) := by
  induction count with
  | zero => exact .pure trivial
  | succ count ih => exact (steps_popKind _).bind fun _ _ => ih

theorem steps_newMultiArray (type : RefType) (dimensions : Nat) :
    Goes scope (newMultiArray type dimensions) := by
  refine .consult (fun _ _ => rfl) fun ctx _ => (steps_popLengths _).bind fun _ _ => ?_
  have hTag := ctx.reg.concrete_tagOfRef type
  have hPush : Steps scope _ _ := steps_push none hTag.payloadOf.tame
  refine .ite ?_ hPush
  dsimp only
  split
  · exact (steps_replaceNode _).bind fun _ _ => .first (steps_checkZeroFill _) hPush
  · exact .first (steps_checkZeroFill _) hPush

theorem steps_checkCast (hRemoves : scope.removes) (type : RefType) :
    Goes scope (checkCast type) := by
  refine .consult (fun _ _ => rfl) fun ctx _ => (steps_tagAt _).bind fun top hTop => ?_
  refine .ite (steps_removeNode hRemoves)
    (.first (steps_convertTop (hTop.imp_right Tag.Concrete.referenceOf))
      (steps_popReference.bind fun found _ => steps_push _ (.inr ?_)))
  split
  · decide
  · exact ctx.reg.concrete_tagOfRef type

theorem steps_flagNotNull (hRemoves : scope.removes) (payload : Tag) :
    Goes scope (flagNotNull payload) :=
  (steps_valueClassOf _).bind fun _ _ => (steps_emitCall _).bind fun _ _ =>
    (steps_emit _).bind fun _ _ => (steps_emit _).bind fun _ _ =>
      (steps_removeNode hRemoves).bind fun _ _ => steps_pop.bind fun _ _ =>
        (steps_push _ (.inr (by decide))).bind fun _ _ => steps_reserveMore _

theorem steps_instanceOf (hRemoves : scope.removes) (type : RefType) :
    Goes scope (instanceOf type) := by
  refine .consult (fun _ _ => rfl) fun ctx _ => (steps_tagAt _).bind fun top hTop => ?_
  refine .ite (steps_flagNotNull hRemoves _) ?_
  have hFlag : Goes scope
      (do
        let _ ← popReference
        push .int none) :=
    steps_popReference.bind fun _ _ => steps_push _ (.inr (by decide))
  refine .ite ?_ (.first (steps_convertTop (hTop.imp_right Tag.Concrete.referenceOf)) hFlag)
  split
  · exact (steps_replaceNode _).bind fun _ _ => hFlag
  · exact hFlag

-- Comparisons and the agreement of stacks

theorem steps_dropNullBelow : Goes scope dropNullBelow := by
  refine (steps_emit _).bind fun _ _ => (steps_emit _).bind fun _ _ =>
    (steps_emit _).bind fun _ _ => (steps_reserveMore _).bind fun _ _ =>
      steps_popEntry.bind fun top hTop => steps_pop.bind fun _ _ => ?_
  split
  · exact steps_push _ (hTop _ rfl)
  · exact .pure trivial

theorem steps_flagNull (payload : Tag) : Goes scope (flagNull payload) :=
  (steps_valueClassOf _).bind fun _ _ => (steps_emitCall _).bind fun _ _ =>
    steps_pop.bind fun _ _ => steps_push _ (.inr (by decide))

theorem steps_flagEqual {cls : ClassIndex} (downgraded : Bool)
    (hClass : (Tag.payload cls).Tame scope.wild) :
    Goes scope (flagEqual cls downgraded) := by
  refine (steps_convertOperands ?_).bind fun _ _ => (steps_valueClass _).bind fun _ _ =>
    (steps_emitCall _).bind fun _ _ => (steps_popMany _).bind fun _ _ =>
      (steps_push _ (.inr (by decide))).bind fun _ _ => .ite (.note _) (.pure trivial)
  simpa using hClass

theorem steps_flagNever : Goes scope flagNever :=
  steps_dropTop.bind fun _ _ => steps_dropTop.bind fun _ _ =>
    (steps_emit _).bind fun _ _ => (steps_push _ (.inr (by decide))).bind fun _ _ =>
      .note _

/- What a comparison does to its operands before it branches. -/
def prepare (left right : Tag) : Comparison → Simulation Unit
  | .unchanged => return ()
  | .boxArray onTop =>
      convertOperands (if onTop then [left, right.referenceOf] else [left.referenceOf, right])
  | .never => flagNever
  | .withNull true => do
      dropTop
      flagNull left
  | .withNull false => do
      dropNullBelow
      flagNull right
  | .payloads downgraded => flagEqual ((left.class?.or right.class?).getD .first) downgraded

/- Whether a comparison leaves a flag in the place of its operands. -/
def leavesFlag : Comparison → Bool
  | .unchanged | .boxArray _ => false
  | .never | .withNull _ | .payloads _ => true

theorem compareReferences_eq (test : RefTest) (target : Label) :
    compareReferences test target = (do
      if ← require 2 then
        let right ← tagAt 0
        let left ← tagAt 1
        prepare left right (Comparison.between left right)
        if leavesFlag (Comparison.between left right) then
          branchOnFlag test target
        else
          branchOnReferences target) := by
  unfold compareReferences
  -- The operands are looked up alike; what differs is how a comparison ends.
  congr 1
  funext enough
  congr 1
  congr 1
  funext right
  congr 1
  funext left
  cases Comparison.between left right with
  | withNull nullOnTop =>
    cases nullOnTop <;> simp [prepare, leavesFlag, bind_assoc]
  | _ => simp [prepare, leavesFlag]

theorem steps_prepare (comparison : Comparison) {left right : Tag} (hLeft : left.Tame scope.wild)
    (hRight : right.Tame scope.wild) :
    Goes scope (prepare left right comparison) := by
  cases comparison with
  | unchanged => exact .pure trivial
  | boxArray onTop =>
    refine steps_convertOperands ?_
    split <;> rw [forall_mem_cons, forall_mem_singleton]
    · exact ⟨hLeft, hRight.imp_right Tag.Concrete.referenceOf⟩
    · exact ⟨hLeft.imp_right Tag.Concrete.referenceOf, hRight⟩
  | never => exact steps_flagNever
  | withNull nullOnTop =>
    cases nullOnTop with
    | true => exact steps_dropTop.bind fun _ _ => steps_flagNull _
    | false => exact steps_dropNullBelow.bind fun _ _ => steps_flagNull _
  | payloads downgraded =>
    exact steps_flagEqual _ (hLeft.elim .inl fun hLeft =>
      hRight.imp_right (concrete_payload_or hLeft))

theorem steps_retagEntries (label : Label) (operands : Nat)
    (hWant : ∀ tag ∈ want, tag.Tame scope.wild) :
    Steps scope (retagEntries label operands want)
      (fun wanted => ∀ tag ∈ wanted, tag.Tame scope.wild) := by
  induction want with
  | nil => exact .pure hWant
  | cons tag above ih =>
    rcases forall_mem_cons.mp hWant with ⟨hTag, hAbove⟩
    have hRest := ih hAbove
    refine (steps_tagAt _).bind fun found _ => .ite hRest ?_
    split
    · exact .throw (by simp [noPlace])
    · exact hRest.bind fun _ _ => .pure hWant
    · exact hRest.bind fun _ _ => .pure hWant
    · exact (steps_retag _ hTag).bind fun _ _ => hRest
    · exact (steps_retag _ hTag).bind fun _ _ => hRest

theorem steps_reconcileStack (label : Label) {agreed : StackSnapshot} (operands : Nat)
    (hAgreed : agreed.Orderly scope.counts (Tag.Tame scope.wild)) :
    Goes scope (reconcileStack label agreed operands) := by
  refine .look (fun _ _ => rfl) fun st _ => .guarded (by simp [noPlace]) ?_
  refine (steps_retagEntries label operands fun _ hTag => hAgreed.mem_tags hTag).bind
    fun wanted hWanted => ?_
  split
  · exact .pure trivial
  · refine (steps_spill _).bind fun kept hKept => steps_reloadAs ?_ hWanted
    exact fun spilled hSpilled => hKept spilled (mem_reverse.mp hSpilled)

/- Store the value on top where a local belongs. -/
def storeMoved (label : Label) (move : Move) : Simulation Unit := do
  let slot ← slotNumber move.target
  let name := (← get).stack.nameAt 0
  let _ ← pop
  emit (.store move.want.valueKind slot)
  match (← get).locals.put move.slot move.want name with
  | some (_, locals) => changeLocals fun _ => locals
  | none => throw (.irreconcilableFrame label (some move.slot))

theorem steps_loadForMove {move : Move} (hFound : move.found.Tame scope.wild) :
    Goes scope (loadForMove move) :=
  .ite
    ((steps_slotNumber _).bind fun _ _ => (steps_emit _).bind fun _ _ =>
      .look (fun _ _ => rfl) fun _ _ => steps_push _ hFound)
    (.pure trivial)

-- Other elements and the end of a body

theorem steps_popKinds (kinds : List ValueKind) : Goes scope (popKinds kinds) :=
  .forM fun kind _ => steps_popKind kind

theorem steps_compute (op : Plain) : Goes scope (compute op) := by
  refine (steps_popKinds _).bind fun _ _ => ?_
  split
  · exact steps_push _ (Tag.concrete_ofKind _).tame
  · exact .pure trivial

theorem steps_useMonitor : Goes scope useMonitor :=
  (steps_boxTopFor (.inr (by decide))).bind fun _ _ => steps_dropReference

theorem steps_leave (kind : Option ValueKind) : Goes scope (leave kind) := by
  refine .consult (fun _ _ => rfl) fun ctx _ => ?_
  split
  · exact .pure trivial
  · split
    · exact (steps_boxTopFor (ctx.reg.concrete_tagOf _).tame).bind fun _ _ =>
        steps_dropReference
    · exact steps_dropReference
  · exact steps_popKind _

theorem steps_remapVariable (entry : Variable) : Goes scope (remapVariable entry) := by
  refine .consult (fun _ _ => rfl) fun ctx _ => .look (fun _ _ => rfl) fun st _ => ?_
  dsimp only
  split <;> exact (steps_slotNumber _).bind fun _ _ => .pure trivial

end Steps

-- Labels

/- The state with a label noted that control has come to. -/
def State.noting (l : Label) (st : State) : State :=
  if st.reachable then
    { st with reached := (l, st.locals.save) :: st.reached }
  else
    st

/- What is done at a label once the place for seeding is marked. -/
def landing (l : Label) : Simulation Unit := do
  if (← get).reachable then
    arrive l
  else
    let known ← enter l
    modify fun st => { st with reachable := known }
  modify (State.noting l)

theorem label_eq (l : Label) :
    label l = (do
      if (← read).frames.isTarget l then
        markSeeding
      landing l) :=
  rfl

theorem label_apply (l : Label) {st : State} :
    label l ctx st = landing l ctx
        (if ctx.frames.isTarget l then st.marked else st) := by
  rw [label_eq, bind_apply, read_apply]
  simp only
  split <;> rfl

theorem step_label_landing (hOk : step (.label l) ctx st = .ok () after) :
    ∃ gone, landing l ctx (if ctx.frames.isTarget l then st.marked else st) =
          .ok () gone ∧
        after = { gone with label := some l } := by
  unfold step at hOk
  rw [get_bind] at hOk
  rcases bind_ok.mp hOk with ⟨_, gone, hLabel, hLast⟩
  cases hLast
  rw [label_apply] at hLabel
  exact ⟨gone, hLabel, rfl⟩

theorem landing_ok (hOk : landing l ctx st = .ok () after) :
    (st.reachable = true ∧ ∃ arrived, arrive l ctx st = .ok () arrived ∧
        after = arrived.noting l) ∨
      st.reachable = false ∧ ∃ known entered, enter l ctx st = .ok known entered ∧
          after = State.noting l { entered with reachable := known } := by
  unfold landing at hOk
  rw [get_bind] at hOk
  split at hOk
  · rename_i hReachable
    rcases bind_ok.mp hOk with ⟨_, arrived, hArrive, hNote⟩
    cases hNote
    exact .inl ⟨hReachable, arrived, hArrive, rfl⟩
  · rename_i hUnreachable
    rcases bind_ok.mp hOk with ⟨known, entered, hEnter, hKnown⟩
    cases hKnown
    exact .inr ⟨Bool.not_eq_true _ ▸ hUnreachable, known, entered, hEnter, rfl⟩

end Simulation

end Unboxing
