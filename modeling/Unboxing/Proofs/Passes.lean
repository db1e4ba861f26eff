import Unboxing.Proofs.SequenceOrder
import Unboxing.Proofs.BodySteps

/-
  The pass over a body, element by element. Between two
  elements nothing is pending: the code shows what has become
  of the elements so far, followed by the others as they were.

  Main declarations:
    * `Simulation.stateAfter`
    * `Simulation.midAt`
    * `Simulation.blockView`
    * `Simulation.Between`
    * `Simulation.between_stateAfter`
    * `Simulation.run_ok`
-/

namespace Unboxing

open List Sequence

namespace Simulation

variable {st after mid : State} {ctx : Context} {node : Node} {i : Nat}
variable {count : Nat} {α β : Type}

-- The steps of a pass

section

variable {scope : Scope} {start : State} (hOpen : scope.Open)
include hOpen

theorem steps_visit (h : Handle) : Goes scope (visit h) := by
  have hEnd :
      Goes scope (do
        modify fun st => { st with scratch := 0 }
        applyEdit
        checkStack) :=
    Steps.bind (.change (fun _ _ => rfl) fun _ hState => .of_ground hState hState.stack rfl
      (.same rfl rfl)) fun _ _ =>
        Steps.bind (.change (fun _ _ => rfl) fun _ hState =>
          .of_same hState hState.stack rfl ⟨rfl, rfl⟩ (.inl hOpen.edits)) fun _ _ =>
            steps_checkStack
  refine Steps.bind (.change (fun _ _ => rfl) fun _ hState =>
    .of_same hState hState.stack rfl ⟨rfl, rfl⟩ (.inl hOpen.edits)) fun _ _ =>
      .look (fun _ _ => rfl) fun st _ => ?_
  split
  · exact (steps_step hOpen.stores hOpen.agrees hOpen.marks (.inl hOpen.edits)
      fun _ _ _ => hOpen.removes).bind fun _ _ => hEnd
  · exact hEnd

theorem steps_seed : Goes scope seed := by
  have hSeedAt (place : Option Handle) (depth : Nat) :
      Goes scope (seedAt place depth) :=
    .consult (fun _ _ => rfl) fun _ _ => .change (fun _ _ => rfl) fun st hState =>
      .of_same hState ((st.stack.upholds_reserve _).orderly hState.stack) rfl ⟨rfl, rfl⟩
        (.inl hOpen.edits)
  refine .look (fun _ _ => rfl) fun st _ => ?_
  split
  · exact hSeedAt _ _
  · exact hSeedAt _ _
  · exact .pure trivial

omit hOpen in
theorem steps_cellCount {what : String} (cells : Nat)
    (hWhat : what ≠ "local variable layout") :
    Goes scope (cellCount what cells) :=
  .ite (.pure trivial) (.throw (by simp [noPlace, hWhat]))

omit hOpen in
theorem steps_modifiedBody : Goes scope modifiedBody :=
  .consult (fun _ _ => rfl) fun _ _ =>
    (Steps.mapM steps_remapVariable).bind fun _ _ =>
      .look (fun _ _ => rfl) fun _ _ =>
        (steps_cellCount _ (by decide)).bind fun _ _ =>
          (steps_cellCount _ (by decide)).bind fun _ _ => .pure trivial

/- The end of a body looks at the findings, which other steps do not. -/
theorem keeps_finish (hContext : scope.Knows ctx) :
    Keeps ctx (Leads scope start) (fun cause => cause = noPlace → scope.plan? = none) finish
      (fun _ => True) := by
  refine ((steps_seed hOpen).keeps hContext).bind fun _ _ => ?_
  refine (steps_checkStack.keeps hContext).bind fun _ _ => ?_
  refine Keeps.read.bind fun found _ => Keeps.get.bind fun st _ => ?_
  refine Keeps.ite (fun _ => ?_) (fun _ _ hState => ⟨hState, trivial⟩)
  exact (steps_modifiedBody.keeps hContext).bind fun _ _ => Keeps.pure trivial

end

def Context.plan (ctx : Context) : Array Nat :=
  slotPlan ctx.body (ctx.method.type.parameterCells !ctx.method.isStatic)

theorem placed_start (ctx : Context) :
    (State.start ctx).Placed ctx.plan where
  locals := ctx.method.placed_initialLocals _ _ _
  agreed := nofun

-- One element

/- The state once the edit of an element is made. -/
def State.settled (mid : State) : State :=
  { mid with
    stack := { mid.stack with issues := [] }
    scratch := 0
    code := mid.edit.apply mid.here mid.code
    edit := .none }

theorem checkStack_ok (hOk : checkStack ctx st = .ok () after) :
    st.stack.issues = [] ∧
      after = { st with stack := { st.stack with issues := [] } } := by
  unfold checkStack at hOk
  simp only [bind_apply, get_apply, changeStack, modify_apply] at hOk
  cases hIssues : st.stack.issues with
  | nil =>
    rw [hIssues] at hOk
    cases hOk
    exact ⟨rfl, rfl⟩
  | cons issue issues =>
    rw [hIssues] at hOk
    cases hOk

/- To look at an element is to go past it and then to settle. -/
theorem visit_ok {h : Handle} (hNode : st.code.get? h = some node)
    (hOk : visit h ctx st = .ok () after) :
    ∃ mid, step node ctx { st with here := h } = .ok () mid ∧
      mid.stack.issues = [] ∧ after = mid.settled := by
  unfold visit at hOk
  rw [bind_apply, modify_apply] at hOk
  simp only at hOk
  rw [get_bind] at hOk
  simp only [hNode] at hOk
  rw [bind_ok] at hOk
  obtain ⟨_, mid, hStep, hOk⟩ := hOk
  rw [bind_apply, modify_apply] at hOk
  simp only at hOk
  unfold applyEdit at hOk
  rw [bind_apply, modify_apply] at hOk
  obtain ⟨hIssues, hAfter⟩ := checkStack_ok hOk
  exact ⟨mid, hStep, hIssues, hAfter⟩

-- Elements that are taken out

/- The state in which a step succeeds or fails. -/
def ended : EStateM.Result FailureCause State α → State
  | .ok _ st | .error _ st => st

/-
  A step that does nothing more at the element that is looked at
  once it has taken it out, whether it succeeds or fails.
-/
structure Closes (act : Simulation α) : Prop where
  tidy : ∀ ctx {st}, st.edit.Stands → (ended (act ctx st)).edit.Tidy

namespace Closes

variable {act : Simulation α} {want : α → Prop} {next : α → Simulation β}

/- A step that leaves the element where it is goes before others. -/
theorem bind (hAct : Steps .standing act want)
    (hNext : ∀ result, Closes (next result)) :
    Closes (act >>= next) := by
  refine ⟨fun ctx st hStands => ?_⟩
  have hState : st.Orderly .standing := State.orderly_of_placed trivial id nofun
  have hStays {after : State} (hLeads : Leads .standing st after) : after.edit.Stands :=
    (hLeads.place.resolve_left id).edit.stands.resolve_left id hStands
  have hKnows : Scope.standing.Knows ctx := .inl trivial
  have hKeeps := hAct.keeps hKnows st (.refl hState)
  rw [bind_apply]
  cases hOk : act ctx st with
  | ok result after =>
    rw [hOk] at hKeeps
    exact (hNext result).tidy ctx (hStays hKeeps.1)
  | error cause after =>
    rw [hOk] at hKeeps
    exact (hStays hKeeps.1).tidy

theorem pure (result : α) : Closes (pure result) :=
  ⟨fun _ _ => Edit.Stands.tidy⟩

theorem of_steps (hAct : Steps .standing act want) : Closes act := by
  rw [← bind_pure act]
  exact .bind hAct .pure

theorem look {next : State → Simulation α} (hNext : ∀ st, Closes (next st)) :
    Closes (get >>= next) :=
  ⟨fun ctx st => (hNext st).tidy ctx⟩

theorem consult {next : Context → Simulation α} (hNext : ∀ ctx, Closes (next ctx)) :
    Closes (read >>= next) :=
  ⟨fun ctx _ => (hNext ctx).tidy ctx⟩

theorem ite {condition : Prop} [Decidable condition] {yes no : Simulation α}
    (hYes : Closes yes) (hNo : Closes no) :
    Closes (if condition then yes else no) := by
  split
  · exact hYes
  · exact hNo

/- What comes last leaves the edit as it is. -/
theorem before (hAct : Closes act)
    (hNext : ∀ result ctx st, (ended (next result ctx st)).edit = st.edit) :
    Closes (act >>= next) := by
  refine ⟨fun ctx st hStands => ?_⟩
  have hTidy := hAct.tidy ctx hStands
  rw [bind_apply]
  cases hOk : act ctx st with
  | ok result after =>
    rw [hOk] at hTidy
    exact (hNext result ctx after).symm ▸ hTidy
  | error cause after =>
    rw [hOk] at hTidy
    exact hTidy

end Closes

theorem closes_removeNode : Closes removeNode :=
  ⟨fun _ _ => id⟩

theorem closes_popTwo : Closes popTwo := by
  refine .look fun st => ?_
  dsimp only
  split
  · exact .bind (steps_workStack fun stack => stack.upholds_popIf _ _) fun _ => .pure _
  · refine .bind (steps_popMany _) fun _ => .ite ?_ (.pure _)
    exact .bind (Steps.forM fun _ _ => steps_emit _) fun _ => closes_removeNode

theorem closes_swap : Closes swap := by
  refine .bind (steps_tagAt _) fun _ => .bind (steps_tagAt _) fun _ => ?_
  refine .bind (steps_changeStack OperandStack.upholds_swap) fun _ => .ite ?_ (.pure _)
  exact .bind (Steps.forM fun _ _ => steps_emit _) fun _ =>
    closes_removeNode.before fun _ _ _ => rfl

theorem closes_dupBySpilling (count depth : Nat) : Closes (dupBySpilling count depth) :=
  .bind (steps_spill _) fun _ =>
    .bind (Steps.forM fun _ _ => steps_reload (.inl trivial)) fun _ => closes_removeNode

theorem closes_dup (op : Shuffle) (copied skipped : Nat) :
    Closes (dup op copied skipped) := by
  refine .bind (steps_workStack fun stack => stack.upholds_dupShape _ _) fun shape => ?_
  split
  · exact .pure _
  · rename_i count depth
    refine .look fun st => ?_
    dsimp only
    split
    · exact .of_steps (.first (steps_replaceNode _)
        (steps_changeStack fun stack => stack.upholds_dupAt count depth))
    · exact .ite (.bind (.throw (by simp [noPlace]) : Goes _ _)
        fun _ => closes_dupBySpilling _ _) (closes_dupBySpilling _ _)

/- Shuffles take the element out last, if they do. -/
theorem closes_shuffle (op : Shuffle) : Closes (shuffle op) := by
  unfold shuffle
  split
  · exact .of_steps steps_popOne
  · exact closes_popTwo
  · exact closes_swap
  · split
    · exact closes_dup _ _ _
    · exact .pure _

theorem closes_checkCast (type : RefType) : Closes (checkCast type) := by
  refine .consult fun ctx => .bind (steps_tagAt _) fun top => .ite closes_removeNode ?_
  exact .of_steps (.first (steps_convertTop (.inl trivial))
    (steps_popReference.bind fun _ _ => steps_push _ (.inl trivial)))

theorem closes_flagNotNull (payload : Tag) : Closes (flagNotNull payload) :=
  .bind (steps_valueClassOf _) fun _ => .bind (steps_emitCall _) fun _ =>
    .bind (steps_emit _) fun _ => .bind (steps_emit _) fun _ =>
      closes_removeNode.before fun _ _ _ => rfl

theorem closes_instanceOf (type : RefType) : Closes (instanceOf type) := by
  refine .consult fun ctx => .bind (steps_tagAt _) fun top => .ite (closes_flagNotNull _) ?_
  have hFlag : Goes .standing (do
      let _ ← popReference
      push .int none) :=
    steps_popReference.bind fun _ _ => steps_push _ (.inl trivial)
  refine .of_steps (.ite ?_ (.first (steps_convertTop (.inl trivial)) hFlag))
  split
  · exact (steps_replaceNode _).bind fun _ _ => hFlag
  · exact hFlag

theorem closes_instruction (i : Instruction) : Closes (instruction i) := by
  cases i with
  | shuffle op => exact closes_shuffle op
  | checkCast type => exact closes_checkCast type
  | instanceOf type => exact closes_instanceOf type
  | _ => exact .of_steps (steps_instruction trivial (fun _ _ _ => trivial) False.elim)

/- Whatever the element, nothing is done at it once it is taken out. -/
theorem closes_step (node : Node) : Closes (step node) := by
  cases node with
  | insn i =>
    exact .look fun st => .ite ((closes_instruction i).before fun _ _ _ => rfl)
      ⟨fun _ _ => Edit.Stands.tidy⟩
  | frame change =>
    exact .look fun st => .ite ⟨fun _ _ => Edit.Stands.tidy⟩ ⟨fun _ _ => Edit.Stands.tidy⟩
  | _ => exact .of_steps (steps_step trivial trivial trivial (.inr nofun) nofun)

/- A state after an element was gone past, before its edit is made. -/
structure Past (plan : Array Nat) (node : Node) (st mid : State) : Prop where
  placed : mid.Placed plan
  agreed : ∀ label join, st.agreed.lookup label = some join → mid.agreed.lookup label = some join
  code : mid.code = st.code
  here : mid.here = st.here
  frames : ∃ noted, mid.pendingFrames = st.pendingFrames ++ noted ∧
    ∀ entry ∈ noted, (∃ change, node = .frame change) ∧
      ∃ locals stack, entry = (st.here, .full locals stack)
  seeding : SeededFrom st mid
  edit : mid.modified = false → st.modified = false ∧ mid.edit = st.edit
  tidy : st.edit.Stands → mid.edit.Tidy
  noted : ∀ entry ∈ mid.reached, entry ∈ st.reached ∨ PlacedCells plan entry.2.cells

/- A frame is only noted, in full, if control comes to it. -/
theorem step_frame_ok {change : FrameChange}
    (hOk : step (.frame change) ctx st = .ok () mid) :
    ∃ noted label,
      mid = { st with pendingFrames := st.pendingFrames ++ noted, label := label } ∧
        (∀ entry ∈ noted, ∃ locals stack, entry = (st.here, .full locals stack)) ∧
          (st.reachable = true → noted ≠ []) := by
  unfold step at hOk
  rw [get_bind] at hOk
  by_cases hReachable : st.reachable = true
  · rw [if_pos hReachable] at hOk
    simp only [frame, bind_apply, read_apply, modify_apply] at hOk
    cases hOk
    refine ⟨[_], _, rfl, ?_, fun _ => cons_ne_nil _ _⟩
    intro entry hEntry
    exact ⟨_, _, mem_singleton.mp hEntry⟩
  · rw [if_neg hReachable] at hOk
    cases hOk
    refine ⟨[], labelAfter st.label (.frame change), ?_, forall_mem_nil _,
      fun hReached => absurd hReached hReachable⟩
    rw [append_nil]

theorem step_ok {plan : Array Nat} (hPlaced : st.Placed plan)
    (hOk : step node ctx st = .ok () mid) :
    Past plan node st mid := by
  by_cases hFrame : ∃ change, node = .frame change
  · obtain ⟨change, rfl⟩ := hFrame
    obtain ⟨noted, label, rfl, hNoted, _⟩ := step_frame_ok hOk
    refine ⟨⟨hPlaced.locals, hPlaced.agreed⟩, fun _ _ hJoin => hJoin, rfl, rfl,
      ⟨noted, rfl, ?_⟩, .inl rfl, fun hModified => ⟨hModified, rfl⟩,
      Edit.Stands.tidy, fun _ => .inl⟩
    exact fun entry hEntry => ⟨⟨change, rfl⟩, hNoted entry hEntry⟩
  · have hNode : ∀ change, node ≠ .frame change :=
      fun change hSame => hFrame ⟨change, hSame⟩
    have hState : st.Orderly (.onward plan) := State.orderly_of_placed trivial id
      fun _ hPlan => Option.mem_some_iff.mp hPlan ▸ hPlaced
    obtain ⟨hLeads, _⟩ := (steps_step trivial trivial trivial (.inr hNode)
      fun _ _ _ => trivial).of_ok
      (.inl trivial) hState hOk
    have hPlace := hLeads.place.resolve_left id
    have hTidy := @(closes_step node).tidy ctx st
    rw [hOk] at hTidy
    refine ⟨hLeads.orderly.placed rfl, hLeads.agreed, hPlace.code, hPlace.here,
      ⟨[], ?_, forall_mem_nil _⟩, hPlace.seededFrom, hPlace.edit.modified, hTidy,
      fun entry hEntry => (hPlace.noted entry hEntry).imp_right (· plan rfl)⟩
    rw [hPlace.frames, append_nil]

-- The elements so far

/- The state after the first elements, if they were gone past. -/
def stateAfter (ctx : Context) : Nat → Option State
  | 0 => some (State.start ctx)
  | count + 1 =>
    (stateAfter ctx count).bind fun st =>
      match visit count ctx st with
      | .ok _ after => some after
      | .error _ _ => none

theorem visit_of_stateAfter (hAfter : stateAfter ctx (count + 1) = some after) :
    ∃ before, stateAfter ctx count = some before ∧
      ∃ result, visit count ctx before = .ok result after := by
  rw [stateAfter, Option.bind_eq_some_iff] at hAfter
  rcases hAfter with ⟨before, hBefore, hAfter⟩
  split at hAfter
  · rename_i hOk
    cases hAfter
    exact ⟨before, hBefore, _, hOk⟩
  · cases hAfter

/- The elements before the last one that was gone past were, too. -/
theorem stateAfter_of_le (hState : stateAfter ctx count = some st)
    (hLe : i ≤ count) :
    ∃ earlier, stateAfter ctx i = some earlier := by
  induction count generalizing st with
  | zero =>
    rw [Nat.le_zero.mp hLe]
    exact ⟨st, hState⟩
  | succ count ih =>
    rcases Nat.lt_or_eq_of_le hLe with hLt | hSame
    · rcases visit_of_stateAfter hState with ⟨before, hBefore, _⟩
      exact ih hBefore (Nat.le_of_lt_succ hLt)
    · rw [hSame]
      exact ⟨st, hState⟩

/- The state in which an element was gone past, before its edit is made. -/
def midAt (ctx : Context) (i : Nat) : Option State :=
  (stateAfter ctx i).bind fun st =>
    ctx.body.nodes[i]?.bind fun node =>
      match step node ctx { st with here := i } with
      | .ok _ mid => some mid
      | .error _ _ => none

theorem midAt_of_step (hNode : ctx.body.nodes[i]? = some node)
    (hState : stateAfter ctx i = some st)
    (hStep : step node ctx { st with here := i } = .ok () mid) :
    midAt ctx i = some mid := by
  simp [midAt, hState, hNode, hStep]

/- What stands in the place of an element in the end, with handles. -/
def blockView (ctx : Context) (i : Nat) : List (Handle × Node) :=
  match midAt ctx i, ctx.body.nodes[i]? with
  | some mid, some node => mid.edit.view mid.code.links.size i node
  | _, _ => []

/- The elements from one on as they were, with handles. -/
def restView (ctx : Context) (i : Nat) : List (Handle × Node) :=
  ((ctx.body.nodes.drop i).zipIdx i).map Prod.swap

/- What holds between two elements. -/
structure Between (ctx : Context) (i : Nat) (st : State) : Prop where
  placed : st.Placed ctx.plan
  edit : st.edit = .none
  code : Shows st.code
    ((List.range i).flatMap (blockView ctx) ++ restView ctx i)
  frames : ∀ entry ∈ st.pendingFrames,
    entry.1 < i ∧ (∃ change, ctx.body.nodes[entry.1]? = some (.frame change)) ∧
      ∃ locals stack, entry.2 = .full locals stack
  seeding : ∀ h depth, st.seeding = .found (some h) depth →
    h ∈ ((List.range i).flatMap (blockView ctx)).map Prod.fst
  unmodified : st.modified = false → ∀ j < i, blockView ctx j =
      (ctx.body.nodes[j]?.map fun node => (j, node)).toList

theorem restView_cons (hNode : ctx.body.nodes[i]? = some node) :
    restView ctx i = (i, node) :: restView ctx (i + 1) := by
  obtain ⟨hInside, hSame⟩ := List.getElem?_eq_some_iff.mp hNode
  unfold restView
  rw [List.drop_eq_getElem_cons hInside, hSame, List.zipIdx_cons, List.map_cons]
  rfl

theorem map_fst_restView (ctx : Context) (i : Nat) :
    (restView ctx i).map Prod.fst = List.range' i (ctx.body.nodes.length - i) := by
  unfold restView
  rw [map_map, ← length_drop]
  exact zipIdx_map_snd i (ctx.body.nodes.drop i)

theorem shows_start (ctx : Context) :
    Shows (State.start ctx).code (restView ctx 0) := by
  have hListed := listed_ofList ctx.body.nodes
  refine ⟨?_, ?_⟩
  · rw [map_fst_restView, Nat.sub_zero, ← range_eq_range']
    exact hListed.ordered
  · intro entry hEntry
    obtain ⟨⟨node, j⟩, hMember, rfl⟩ := mem_map.mp hEntry
    rw [drop_zero, mem_zipIdx_iff_getElem?] at hMember
    exact (hListed.get? j).trans hMember

theorem between_start (ctx : Context) :
    Between ctx 0 (State.start ctx) where
  placed := placed_start ctx
  edit := rfl
  code := shows_start ctx
  frames := nofun
  seeding := by
    intro h depth hFound
    have hStart : (State.start ctx).seeding = .start ctx.method ctx.layout := rfl
    rw [hStart, Seeding.start] at hFound
    split at hFound <;> cases hFound
  unmodified := fun _ j hBefore => absurd hBefore (Nat.not_lt_zero j)

section

variable (hBetween : Between ctx i st)
variable (hNode : ctx.body.nodes[i]? = some node)
variable (hState : stateAfter ctx i = some st)
include hBetween hNode hState

/- The element between two states was gone past without an issue. -/
theorem Between.step_of_stateAfter (hAfter : stateAfter ctx (i + 1) = some after) :
    ∃ mid, step node ctx { st with here := i } = .ok () mid ∧
      mid.stack.issues = [] ∧ after = mid.settled := by
  have hCode := hBetween.code
  rw [restView_cons hNode] at hCode
  have hItem : st.code.get? i = some node :=
    hCode.items (i, node) (mem_append_right _ (mem_cons_self ..))
  rcases visit_of_stateAfter hAfter with ⟨before, hBefore, _, hOk⟩
  cases hState.symm.trans hBefore
  exact visit_ok hItem hOk

/- What holds between two elements holds after the second one, too. -/
theorem Between.visit (hAfter : stateAfter ctx (i + 1) = some after) :
    Between ctx (i + 1) after := by
  have hCode := hBetween.code
  rw [restView_cons hNode] at hCode
  obtain ⟨mid, hStep, hIssues, rfl⟩ :=
    hBetween.step_of_stateAfter hNode hState hAfter
  have hPast : Past ctx.plan node { st with here := i } mid :=
    step_ok ⟨hBetween.placed.locals, hBetween.placed.agreed⟩ hStep
  have hMid := midAt_of_step hNode hState hStep
  have hBlock : blockView ctx i = mid.edit.view mid.code.links.size i node := by
    simp [blockView, hMid, hNode]
  have hDone : (List.range (i + 1)).flatMap (blockView ctx) =
      (List.range i).flatMap (blockView ctx) ++ blockView ctx i := by
    simp [range_succ]
  have hMidCode : mid.code = st.code := hPast.code
  have hMidHere : mid.here = i := hPast.here
  have hTidy : mid.edit.Tidy := hPast.tidy (hBetween.edit ▸ Edit.stands_none)
  refine ⟨⟨hPast.placed.locals, hPast.placed.agreed⟩, rfl, ?_, ?_, ?_, ?_⟩
  · rw [hDone, hBlock]
    rw [← hMidCode] at hCode
    have hApplied := hCode.apply hTidy
    simp only [State.settled, hMidHere]
    exact hApplied
  · intro entry hEntry
    obtain ⟨noted, hFrames, hNoted⟩ := hPast.frames
    have hMember : entry ∈ st.pendingFrames ++ noted := hFrames ▸ hEntry
    rcases mem_append.mp hMember with hOld | hNew
    · obtain ⟨hLt, hFrame⟩ := hBetween.frames entry hOld
      exact ⟨Nat.lt_succ_of_lt hLt, hFrame⟩
    · obtain ⟨⟨change, rfl⟩, locals, stack, rfl⟩ := hNoted entry hNew
      exact ⟨Nat.lt_succ_self i, ⟨change, hNode⟩, locals, stack, rfl⟩
  · intro h depth hFound
    rw [hDone, map_append]
    apply mem_append_left
    have hSeeding : mid.seeding = .found (some h) depth := hFound
    rcases hPast.seeding with hSame | ⟨_, hSuppressed | ⟨_, other, hHere⟩⟩
    · exact hBetween.seeding h depth (hSame.symm.trans hSeeding)
    · rw [hSuppressed] at hSeeding
      cases hSeeding
    · rw [hHere] at hSeeding
      injection hSeeding with hPlace _
      have hOrdered : Ordered st.code
          (((List.range i).flatMap (blockView ctx)).map Prod.fst ++
            i :: (restView ctx (i + 1)).map Prod.fst) := by
        simpa using hCode.ordered
      have hPrev := hOrdered.prev?_eq
      exact mem_of_getLast? (hPrev.symm.trans hPlace)
  · intro hUnmodified j hBefore
    obtain ⟨hBeforeModified, hEdit⟩ := hPast.edit hUnmodified
    rcases Nat.lt_succ_iff_lt_or_eq.mp hBefore with hEarlier | hSame
    · exact hBetween.unmodified hBeforeModified j hEarlier
    · subst hSame
      have hNone : mid.edit = .none := hEdit.trans hBetween.edit
      rw [hBlock, hNone, hNode]
      rfl

end

/- Between any two elements nothing is pending. -/
theorem between_stateAfter (hInside : i ≤ ctx.body.nodes.length)
    (hState : stateAfter ctx i = some st) :
    Between ctx i st := by
  induction i generalizing st with
  | zero =>
    cases hState
    exact between_start ctx
  | succ i ih =>
    obtain ⟨before, hBefore⟩ := stateAfter_of_le hState (Nat.le_succ i)
    have hNode : ctx.body.nodes[i]? = some ctx.body.nodes[i] :=
      getElem?_eq_getElem (by omega)
    exact (ih (by omega) hBefore).visit hNode hBefore hState

/- An element that was gone past, with the states around it. -/
structure Visited (ctx : Context) (i : Nat) (node : Node)
    (st mid : State) : Prop where
  between : Between ctx i st
  placed : State.Placed ctx.plan { st with here := i }
  step : step node ctx { st with here := i } = .ok () mid
  issues : mid.stack.issues = []
  edited : midAt ctx i = some mid
  after : stateAfter ctx (i + 1) = some mid.settled

theorem visited_stateAfter (hNode : ctx.body.nodes[i]? = some node)
    (hState : stateAfter ctx i = some st)
    (hAfter : stateAfter ctx (i + 1) = some after) :
    ∃ mid, Visited ctx i node st mid ∧ after = mid.settled := by
  have hInside := (List.getElem?_eq_some_iff.mp hNode).1
  have hBetween := between_stateAfter (Nat.le_of_lt hInside) hState
  rcases hBetween.step_of_stateAfter hNode hState hAfter with ⟨mid, hStep, hIssues, rfl⟩
  exact ⟨mid, ⟨hBetween, hBetween.placed.of_same rfl rfl, hStep, hIssues,
    midAt_of_step hNode hState hStep, hAfter⟩, rfl⟩

theorem Visited.past (hVisited : Visited ctx i node st mid) :
    Past ctx.plan node { st with here := i } mid :=
  step_ok hVisited.placed hVisited.step

theorem visited_of_lt {last : State} (hLast : stateAfter ctx count = some last)
    (hNode : ctx.body.nodes[i]? = some node) (hBefore : i < count) :
    ∃ st mid, stateAfter ctx i = some st ∧ Visited ctx i node st mid := by
  rcases stateAfter_of_le hLast (Nat.le_of_lt hBefore) with ⟨st, hState⟩
  rcases stateAfter_of_le hLast hBefore with ⟨after, hAfter⟩
  rcases visited_stateAfter hNode hState hAfter with ⟨mid, hVisited, _⟩
  exact ⟨st, mid, hState, hVisited⟩

/- What holds at the start and lasts past every element holds between any two. -/
theorem stateAfter_induct {motive : Nat → State → Prop}
    (hStart : motive 0 (State.start ctx))
    (hStep : ∀ i node st mid, ctx.body.nodes[i]? = some node →
      stateAfter ctx i = some st → Visited ctx i node st mid →
        motive i st → motive (i + 1) mid.settled)
    (hInside : i ≤ ctx.body.nodes.length)
    (hState : stateAfter ctx i = some st) :
    motive i st := by
  induction i generalizing st with
  | zero =>
    cases hState
    exact hStart
  | succ i ih =>
    rcases stateAfter_of_le hState (Nat.le_succ i) with ⟨before, hBefore⟩
    have hNode := getElem?_eq_getElem hInside
    rcases visited_stateAfter hNode hBefore hState with ⟨mid, hVisited, rfl⟩
    exact hStep i _ before mid hNode hBefore hVisited
      (ih (Nat.le_of_succ_le hInside) hBefore)

/- What every element keeps is kept from any state on. -/
theorem kept_stateAfter (property : State → Prop)
    (hKept : ∀ i node st mid, ctx.body.nodes[i]? = some node →
      stateAfter ctx i = some st → Visited ctx i node st mid →
        property st → property mid.settled)
    {j : Nat} {first last : State}
    (hLe : i ≤ j)
    (hInside : j ≤ ctx.body.nodes.length)
    (hFirst : stateAfter ctx i = some first)
    (hLast : stateAfter ctx j = some last)
    (hProperty : property first) :
    property last := by
  refine stateAfter_induct (motive := fun j last => i ≤ j → property last) ?_ ?_
    hInside hLast hLe
  · intro hLe
    rw [Nat.le_zero.mp hLe] at hFirst
    cases hFirst
    exact hProperty
  · intro j node st mid hNode hState hVisited ih hLe
    rcases Nat.lt_or_eq_of_le hLe with hLt | rfl
    · exact hKept j node st mid hNode hState hVisited (ih (Nat.le_of_lt_succ hLt))
    · cases hFirst.symm.trans hVisited.after
      exact hProperty

/- The handles of new code are not those of elements. -/
theorem length_le_size (hInside : i ≤ ctx.body.nodes.length)
    (hState : stateAfter ctx i = some st) :
    ctx.body.nodes.length ≤ st.code.links.size := by
  refine stateAfter_induct
    (motive := fun _ st => ctx.body.nodes.length ≤ st.code.links.size)
    ?_ ?_ hInside hState
  · exact Nat.le_of_eq (listed_ofList ctx.body.nodes).size.symm
  · intro i node before mid _ _ hVisited hEarlier
    have hCode : mid.code = before.code := hVisited.past.code
    have hGrown := Nat.le.intro (mid.edit.size_apply mid.here mid.code).symm
    rw [hCode] at hGrown
    exact Nat.le_trans hEarlier (by simpa [State.settled, hCode] using hGrown)

-- The whole run

/-
  Between two elements the links lead from each element to the next one
  of the body, whatever was put before the first.
-/
theorem walk_eq (fuel : Nat) (hInside : i ≤ ctx.body.nodes.length)
    (hFuel : ctx.body.nodes.length ≤ i + fuel)
    (hState : stateAfter ctx i = some st) :
    walk fuel ((restView ctx i).map Prod.fst).head? ctx st =
      (List.range' i (ctx.body.nodes.length - i)).forM visit ctx st := by
  induction fuel generalizing i st with
  | zero =>
    have hEnd : i = ctx.body.nodes.length := by omega
    rw [hEnd, Nat.sub_self]
    rfl
  | succ fuel ih =>
    rcases Nat.lt_or_eq_of_le hInside with hLt | rfl
    · have hNode := getElem?_eq_getElem hLt
      have hOrdered := (between_stateAfter hInside hState).code.ordered
      rw [restView_cons hNode, map_append, List.map_cons] at hOrdered
      have hCount : ctx.body.nodes.length - i = ctx.body.nodes.length - (i + 1) + 1 := by
        omega
      rw [restView_cons hNode, hCount, range'_succ, forM_eq_forM, forM_cons,
        bind_apply]
      simp only [List.map_cons, head?_cons, walk, bind_apply, get_apply, hOrdered.next?_eq]
      cases hVisit : visit i ctx st with
      | error cause last => rfl
      | ok _ after =>
        have hAfter : stateAfter ctx (i + 1) = some after := by
          rw [stateAfter, hState, Option.bind_some, hVisit]
        exact ih hLt (by omega) hAfter
    · rw [map_fst_restView, Nat.sub_self]
      rfl

/- More steps than there are elements change nothing. -/
theorem walk_start (ctx : Context) (extra : Nat) :
    walk (ctx.body.nodes.length + extra) (State.start ctx).code.first ctx (State.start ctx) =
      (List.range ctx.body.nodes.length).forM visit ctx (State.start ctx) := by
  have hFirst : (State.start ctx).code.first =
      ((restView ctx 0).map Prod.fst).head? := by
    rw [head?_eq_getElem?]
    exact (shows_start ctx).ordered.first
  rw [hFirst, walk_eq _ (Nat.zero_le _) (by omega) rfl, range_eq_range', Nat.sub_zero]

theorem run_apply (ctx : Context) (st : State) :
    run ctx st = if ctx.body.handlers.isEmpty then
        ((List.range ctx.body.nodes.length).forM visit >>= fun _ => finish)
          ctx (State.start ctx)
      else
        .error .unsupportedHandlers st := by
  unfold run
  rw [bind_apply, read_apply]
  cases hEmpty : ctx.body.handlers.isEmpty with
  | false => simp [hEmpty, bind_apply]
  | true =>
    simp only [hEmpty, Bool.not_true, Bool.false_eq_true, if_false, if_true]
    rw [bind_apply, set_apply]
    simp only
    rw [bind_apply, get_apply]
    simp only
    rw [bind_apply, bind_apply, ← walk_start ctx 0, Nat.add_zero]

/- No body is given up for want of a place. -/
theorem run_ne_noPlace (ctx : Context) {cause : FailureCause}
    (hRun : run ctx st = .error cause after) :
    cause ≠ noPlace := by
  rw [run_apply] at hRun
  split at hRun
  · have hContext : (Scope.following True ctx.plan).Knows ctx := .inl trivial
    have hOpen : (Scope.following True ctx.plan).Open := ⟨trivial, trivial, trivial, trivial, trivial⟩
    have hVisits : Goes (.following True ctx.plan)
        ((List.range ctx.body.nodes.length).forM visit) :=
      .forM fun h _ => steps_visit hOpen h
    intro hCause
    cases (((hVisits.keeps hContext).bind fun _ _ => keeps_finish hOpen hContext).of_error
      (.refl (placed_start ctx).orderly) hRun).2 hCause
  · cases hRun
    simp [noPlace]

/- The first elements are gone past one after another. -/
theorem forM_visit_ok
    (hOk : (List.range count).forM visit ctx (State.start ctx) = .ok () after) :
    stateAfter ctx count = some after := by
  induction count generalizing after with
  | zero =>
    cases hOk
    rfl
  | succ count ih =>
    rw [forM_eq_forM] at ih hOk
    rw [range_succ, forM_append, bind_ok] at hOk
    obtain ⟨_, between, hFirst, hOk⟩ := hOk
    rw [forM_cons, bind_ok] at hOk
    obtain ⟨_, last, hLast, hOk⟩ := hOk
    cases hOk
    rw [stateAfter, ih hFirst, Option.bind_some, hLast]

/- A run that succeeds goes past every element and then finishes. -/
theorem run_ok {final : State} {out : UnboxedBody}
    (hRun : run ctx st = .ok out final) :
    ctx.body.handlers = [] ∧ ∃ last, stateAfter ctx ctx.body.nodes.length = some last ∧
        finish ctx last = .ok out final := by
  rw [run_apply] at hRun
  split at hRun
  · rename_i hEmpty
    rw [bind_ok] at hRun
    obtain ⟨_, last, hVisits, hFinish⟩ := hRun
    exact ⟨List.isEmpty_iff.mp hEmpty, last, forM_visit_ok hVisits, hFinish⟩
  · cases hRun

end Simulation

end Unboxing
