import Mathlib.Logic.Relation
import Unboxing.Proofs.Output
import Unboxing.Proofs.Settling

/-
  One assignment of addresses to slots for each method. It is
  planned before the body is gone through. Every state that is
  reached on the way keeps to it, also in the middle of an
  element, and so does every access that comes out.

  Main declarations:
    * `Simulation.Advance`
    * `Simulation.Reached`
    * `Method.unbox_ok`
    * `Method.unbox_error`
    * `Method.slots_as_planned`
    * `Method.variables_at_slots_iff`
-/

namespace Unboxing

open SlotMap Simulation

namespace Simulation

-- States that are reached

/- A step ends in a state, whether it succeeds or fails. -/
def EndsIn {α : Type} (ctx : Context) (act : Simulation α)
    (st after : State) : Prop :=
  (∃ result, act ctx st = .ok result after) ∨ ∃ cause, act ctx st = .error cause after

/- The parts of going past an element that go by labels and locals. -/
inductive Part : {α : Type} → Simulation α → Prop where
  | visit (h : Handle) : Part (visit h)
  | step (node : Node) : Part (step node)
  | instruction (i : Instruction) : Part (instruction i)
  | branch (b : Branch) : Part (branch b)
  | branchEffect (b : Branch) : Part (branchEffect b)
  | switch (targets : List Label) : Part (switch targets)
  | label (l : Label) : Part (label l)
  | arrive (l : Label) : Part (arrive l)
  | enter (l : Label) : Part (enter l)
  | firstJoin (l : Label) (operands : Nat) : Part (firstJoin l operands)
  | join (l : Label) (operands : Nat) : Part (join l operands)
  | reconcile (l : Label) (operands : Nat) : Part (reconcile l operands)
  | finish : Part finish

/- How a state can be left for another one. -/
inductive Advance (ctx : Context) : State → State → Prop where
  /- Something else than locals and labels is changed. -/
  | elsewhere
      {st after : State}
      (hLocals : after.locals = st.locals)
      (hAgreed : after.agreed = st.agreed) :
      Advance ctx st after
  | part
      {α : Type} {act : Simulation α} {st after : State}
      (hPart : Part act)
      (hEnds : EndsIn ctx act st after) :
      Advance ctx st after
  /- The locals are restored for a label. -/
  | restore
      {st : State} {label : Label} {join : Join}
      (hJoin : st.agreed.lookup label = some join) :
      Advance ctx st
        { st with locals := st.locals.restore join.locals }
  /- The locals become what a frame declares. -/
  | declare
      {st : State}
      (frame : Frame) :
      Advance ctx st
        { st with
          locals := declaredLocals ctx.reg frame st.locals }
  /- Some locals are compared with what is agreed at a label. -/
  | collect
      {st after : State} {label : Label} {join : Join} {vars : List (Nat × Tag)}
      (hJoin : st.agreed.lookup label = some join)
      (hVars : ∀ entry ∈ vars, entry ∈ join.locals.vars)
      (hEnds : EndsIn ctx (collectMoves label join.locals vars) st after) :
      Advance ctx st after
  /- A local becomes what is agreed at a label. -/
  | store
      {st after : State} {label : Label} {join : Join} {move : Move}
      (hJoin : st.agreed.lookup label = some join)
      (hMove : (move.slot, move.want) ∈ join.locals.vars)
      (hEnds : EndsIn ctx (storeForMove label move) st after) :
      Advance ctx st after

/- A state that some others lead to from the start. -/
def Reached (ctx : Context) (st : State) : Prop :=
  Relation.ReflTransGen (Advance ctx) (State.start ctx) st

section Leading

variable {α : Type} {scope : Scope} {ctx : Context} {plan : Array Nat}
variable {start st after : State} {act : Simulation α}

theorem Keeps.endsIn
    {invariant : State → Prop} {allowed : FailureCause → Prop} {want : α → Prop}
    (hKeeps : Keeps ctx invariant allowed act want) (hState : invariant st)
    (hEnds : EndsIn ctx act st after) :
    invariant after := by
  rcases hEnds with ⟨result, hOk⟩ | ⟨cause, hError⟩
  · exact (hKeeps.of_ok hState hOk).1
  · exact (hKeeps.of_error hState hError).1

theorem keeps_part (hOpen : scope.Open) (hContext : scope.Knows ctx)
    (hPart : Part act) :
    Keeps ctx (Leads scope start) (fun cause => cause = noPlace → scope.plan? = none) act
      (fun _ => True) := by
  have ⟨hStores, hAgrees, hMarks, hEdits, hRemoves⟩ := hOpen
  cases hPart with
  | visit h => exact (steps_visit hOpen h).keeps hContext
  | step node => exact (steps_step hStores hAgrees hMarks (.inl hEdits)
      fun _ _ _ => hRemoves).keeps hContext
  | instruction i => exact (steps_instruction hStores (fun _ _ _ => hMarks)
      fun _ => hRemoves).keeps hContext
  | branch b => exact (steps_branch hStores hAgrees hMarks b).keeps hContext
  | branchEffect b => exact (steps_branchEffect hStores hAgrees b).keeps hContext
  | switch targets => exact (steps_switch hStores hAgrees targets).keeps hContext
  | label l => exact (steps_label hStores hAgrees fun _ _ _ => hMarks).keeps hContext
  | arrive l => exact (steps_arrive hStores hAgrees l).keeps hContext
  | enter l => exact (steps_enter hStores hAgrees l).keeps hContext
  | firstJoin l operands =>
    exact ((steps_firstJoin hStores l operands).keeps hContext).mono fun _ _ => trivial
  | join l operands =>
    exact ((steps_join hStores hAgrees l operands).keeps hContext).mono fun _ _ => trivial
  | reconcile l operands =>
    exact ((steps_reconcile hStores hAgrees l operands).keeps hContext).mono fun _ _ => trivial
  | finish => exact keeps_finish hOpen hContext

/- What follows the plan goes on following it, and agreements last. -/
theorem Advance.leads (hAdvance : Advance ctx st after) (hPlaced : st.Placed plan) :
    Leads (.following True plan) st after := by
  have hState : Leads (.following True plan) st st := .refl hPlaced.orderly
  have hContext : (Scope.following True plan).Knows ctx := .inl trivial
  cases hAdvance with
  | elsewhere hLocals hAgreed => exact (hPlaced.of_same hLocals hAgreed).leads hAgreed
  | part hPart hEnds =>
    exact (keeps_part ⟨trivial, trivial, trivial, trivial, trivial⟩ hContext hPart).endsIn hState hEnds
  | restore hJoin =>
    exact State.Placed.leads
      ⟨hPlaced.locals.restore (hPlaced.lookup hJoin), hPlaced.agreed⟩ rfl
  | declare frame =>
    exact State.Placed.leads
      ⟨hPlaced.locals.declaredLocals ctx.reg frame, hPlaced.agreed⟩ rfl
  | collect hJoin hVars hEnds =>
    refine ((steps_collectMoves trivial _ _ _ fun entry hEntry => ⟨?_, .inl trivial⟩).keeps
      hContext).endsIn hState hEnds
    intro other hPlan
    cases hPlan
    exact vars_room (hPlaced.lookup hJoin) (hVars entry hEntry)
  | store hJoin hMove hEnds =>
    refine ((steps_storeForMove trivial _ ⟨?_, .inl trivial, .inl trivial⟩).keeps
      hContext).endsIn hState hEnds
    intro other hPlan
    cases hPlan
    exact vars_room (hPlaced.lookup hJoin) hMove

theorem leads_of_advances (hAdvances : Relation.ReflTransGen (Advance ctx) st after)
    (hPlaced : st.Placed plan) :
    Leads (.following True plan) st after := by
  induction hAdvances with
  | refl => exact .refl hPlaced.orderly
  | tail _ hLast ih => exact ih.trans (hLast.leads ih.placed)

/- Every reached state follows the plan of the body. -/
theorem Reached.placed (hReached : Reached ctx st) : st.Placed ctx.plan :=
  (leads_of_advances hReached (placed_start ctx)).placed

end Leading

/- The states between two elements are reached. -/
theorem reached_stateAfter {ctx : Context} {count : Nat} {st : State}
    (hState : stateAfter ctx count = some st) :
    Reached ctx st := by
  induction count generalizing st with
  | zero =>
    cases hState
    exact .refl
  | succ count ih =>
    rcases visit_of_stateAfter hState with ⟨before, hBefore, hVisit⟩
    exact (ih hBefore).tail (.part (.visit count) (.inl hVisit))

-- Debug entries

/- What is noted at labels follows the plan. -/
theorem noted_stateAfter {ctx : Context} {i : Nat} {st : State}
    (hInside : i ≤ ctx.body.nodes.length) (hState : stateAfter ctx i = some st) :
    ∀ entry ∈ st.reached, PlacedCells ctx.plan entry.2.cells := by
  refine stateAfter_induct
    (motive := fun _ st => ∀ entry ∈ st.reached, PlacedCells ctx.plan entry.2.cells)
    nofun ?_ hInside hState
  intro i node st mid _ _ hVisited ih entry hEntry
  exact (hVisited.past.noted entry hEntry).elim (ih entry) id

/- Only slots that are not tracked where an entry starts can lead it astray. -/
theorem State.addressOf_eq_iff {plan : Array Nat} {st : State}
    (hLocals : SlotMap.Placed plan st.locals)
    (hNoted : ∀ entry ∈ st.reached, PlacedCells plan entry.2.cells) (entry : Variable) :
    st.addressOf entry = planned plan entry.slot ↔
      ∀ locals ∈ st.reached.lookup entry.start, ∀ slot, locals.cells.size ≤ slot →
        slot < entry.slot → plannedRoom plan slot = 1 := by
  unfold addressOf
  cases hReached : st.reached.lookup entry.start with
  | none => simp [hLocals.address_eq]
  | some locals => simpa using (hNoted _ (mem_of_lookup hReached)).snapshot_address_iff entry.slot

end Simulation

namespace Method

-- Unboxed bodies

section Unboxing

variable {method : Method} {reg : Registry} {settings : Settings}
variable {layout : ClassLayout} {body : Body}

/- A body that is unboxed is empty and left alone, or was gone through. -/
theorem unbox_ok {unboxed : UnboxedBody}
    (hOk : method.unbox reg settings layout body = .ok unboxed) :
    body.nodes = [] ∧ unboxed = ⟨false, body, []⟩ ∨
      ∃ final, run (.ofMethod reg settings layout method body) .initial =
        .ok unboxed final := by
  rw [unbox_apply] at hOk
  split at hOk
  · rename_i hEmpty
    cases hOk
    exact .inl ⟨List.isEmpty_iff.mp hEmpty, rfl⟩
  · exact .inr (reported_eq_ok.mp hOk)

/- A body that is unboxed was gone through, element by element. -/
theorem unbox_states {unboxed : UnboxedBody} {i : Nat}
    (hOk : method.unbox reg settings layout body = .ok unboxed)
    (hInside : i ≤ body.nodes.length) :
    ∃ st, stateAfter (.ofMethod reg settings layout method body) i = some st := by
  rcases unbox_ok hOk with ⟨hEmpty, _⟩ | ⟨final, hRun⟩
  · rw [hEmpty] at hInside
    rw [Nat.le_zero.mp hInside]
    exact ⟨_, rfl⟩
  · rcases run_ok hRun with ⟨_, last, hLast, _⟩
    exact stateAfter_of_le hLast hInside

/- An outcome with a property that holds of successes only is a success. -/
theorem ok_of_any {outcome : Except Failure UnboxedBody} {property : UnboxedBody → Bool}
    (hAny : outcome.toOption.any property = true) :
    ∃ unboxed, outcome = .ok unboxed ∧ property unboxed = true := by
  cases outcome with
  | error failure => cases hAny
  | ok unboxed => exact ⟨unboxed, rfl, hAny⟩

/- A body that fails was gone through up to its failure. -/
theorem unbox_error {failure : Failure}
    (hError : method.unbox reg settings layout body = .error failure) :
    ∃ final, run (.ofMethod reg settings layout method body) .initial =
      .error failure.cause final := by
  rw [unbox_apply] at hError
  split at hError
  · cases hError
  · generalize run (.ofMethod reg settings layout method body) .initial = outcome at hError ⊢
    cases outcome with
    | ok => cases hError
    | error cause final =>
      cases hError
      exact ⟨final, rfl⟩

/-
  A slot has room two if it is no parameter and a reference is
  stored into it, and room one if not; its address is the sum
  of the rooms before it. Every state that is reached has all
  slots at these addresses, also where it is narrowed to a frame
  or restored for a label, and has payloads only where there is
  room for them. All accesses that are reached come out at the
  addresses of their slots, and none is without a place.
-/
theorem slots_as_planned
    (method : Method)
    (reg : Registry)
    (settings : Settings)
    (layout : ClassLayout)
    (body : Body) :
    let ctx := Context.ofMethod reg settings layout method body
    let parameters := method.type.parameterCells !method.isStatic
    let room := plannedRoom (slotPlan body parameters)
    let address := planned (slotPlan body parameters)
    (∀ slot, room slot = if parameters ≤ slot ∧ .insn (.store .reference slot) ∈ body.nodes then
        2
      else
        1) ∧
      (∀ slot ≤ parameters, address slot = slot) ∧
      (∀ count st, stateAfter ctx count = some st → Reached ctx st) ∧
      (∀ st, Reached ctx st → ∀ slot, st.locals.address slot = address slot ∧
        ((st.locals.tagAt slot).isPayload = true → 2 ≤ room slot) ∧ (∀ frame,
          (st.locals.narrow reg frame).address slot = address slot) ∧
        ∀ entry ∈ st.agreed, (st.locals.restore entry.2.locals).address slot = address slot) ∧
      (∀ unboxed, method.unbox reg settings layout body = .ok unboxed →
        ∃ moved : List Node, moved.Sublist unboxed.body.nodes ∧
          List.Forall₂ (AccessMoved address) (reachedAccesses ctx) moved) ∧
      ∀ failure, method.unbox reg settings layout body = .error failure →
        failure.cause ≠ .limitExceeded "local variable layout" := by
  intro ctx parameters room address
  refine ⟨plannedRoom_slotPlan body parameters,
    fun slot hLe => planned_slotPlan_of_le body hLe,
    fun count st => reached_stateAfter, ?_, ?_, ?_⟩
  · intro st hReached slot
    have hPlaced : st.Placed (slotPlan body parameters) := hReached.placed
    refine ⟨hPlaced.locals.address_eq slot, ?_, ?_, ?_⟩
    · intro hPayload
      rw [tagAt_eq] at hPayload
      exact hPlaced.locals.cells.payload slot hPayload
    · intro frame
      exact (hPlaced.locals.narrow reg frame).address_eq slot
    · intro entry hEntry
      exact (hPlaced.locals.restore (hPlaced.agreed entry hEntry)).address_eq slot
  · intro unboxed hOk
    rcases unbox_ok hOk with ⟨hEmpty, rfl⟩ | ⟨final, hRun⟩
    · refine ⟨[], List.nil_sublist _, ?_⟩
      have hNone : reachedAccesses ctx = [] := by
        have hNodes : ctx.body.nodes = [] := hEmpty
        simp [reachedAccesses, hNodes]
      rw [hNone]
      exact .nil
    · obtain ⟨moved, hSublist, hMoved⟩ := accesses_in_output hRun
      exact ⟨moved, hSublist, hMoved⟩
  · intro failure hError
    obtain ⟨final, hRun⟩ := unbox_error hError
    exact run_ne_noPlace ctx hRun

/-
  A debug entry keeps its name and its labels, and gets the
  address that its slot has where it starts. That is the address
  at which the accesses to the slot come out exactly if control
  does not come to the start of the entry, or if all slots that
  are not tracked there and come before it have room for one.
-/
theorem variables_at_slots_iff {unboxed : UnboxedBody}
    (hOk : method.unbox reg settings layout body = .ok unboxed)
    (hModified : unboxed.modified = true) :
    let ctx := Context.ofMethod reg settings layout method body
    let address := planned ctx.plan
    ∃ last, stateAfter ctx body.nodes.length = some last ∧
      (∃ moved : List Node, moved.Sublist unboxed.body.nodes ∧
        List.Forall₂ (AccessMoved address) (reachedAccesses ctx) moved) ∧
      List.Forall₂ (Redirected last.addressOf) body.vars unboxed.body.vars ∧
      ∀ entry : Variable, last.addressOf entry = address entry.slot ↔
        ∀ locals ∈ last.reached.lookup entry.start, ∀ slot, locals.cells.size ≤ slot →
          slot < entry.slot → plannedRoom ctx.plan slot = 1 := by
  intro ctx address
  rcases unbox_ok hOk with ⟨_, rfl⟩ | ⟨final, hRun⟩
  · cases hModified
  rcases run_ok hRun with ⟨_, last, hLast, hFinish⟩
  refine ⟨last, hLast, accesses_in_output hRun, ?_, State.addressOf_eq_iff
    (between_stateAfter (Nat.le_refl _) hLast).placed.locals
    (noted_stateAfter (Nat.le_refl _) hLast)⟩
  rcases finish_ok hFinish with ⟨seeded, hSeed, hSame, ⟨hNot, _⟩ | ⟨_, vars, hVars, hFinal, hBody⟩⟩
  · rw [hSame, hNot] at hModified
    cases hModified
  · have hAddress : final.addressOf = last.addressOf := by
      rw [hFinal]
      rcases seed_cases hSeed with rfl | ⟨_, _, _, rfl⟩ <;> rfl
    rw [hBody, ← hAddress]
    exact (mapM_remapVariable_ok hVars).2

end Unboxing

-- A method with a payload

def moneyRegistry : Registry :=
  ⟨[Batch.moneyClass], [], []⟩

def accountLayout : ClassLayout :=
  ⟨Batch.accountName, none, [], []⟩

/- A body that keeps its parameter in a local, with another one after it. -/
def keepingBody : Body where
  maxStack := 1
  maxLocals := 3
  nodes :=
    [ .insn (.load .reference 0), .insn (.store .reference 1),
      .insn (.plain .iconst1), .insn (.store .int 2), .insn (.increment 2 5), .insn (.load .int 2),
      .branch (.ret (some .int)) ]
  vars := []
  handlers := []

def keepingMethod : Method :=
  ⟨⟨"keep", by decide⟩, ⟨[.object Batch.moneyName], some (.base .int)⟩, 8, some keepingBody⟩

def keepingContext : Context :=
  .ofMethod moneyRegistry ⟨[], false⟩ accountLayout keepingMethod keepingBody

/-
  After the second element the local holds a payload, and the
  local after it is two cells further on in all that follows.
-/
theorem slots_as_planned_keeping :
    ∃ st unboxed, stateAfter keepingContext 2 = some st ∧
        (st.locals.tagAt 1).isPayload = true ∧ 2 ≤ plannedRoom (slotPlan keepingBody 1) 1 ∧
        st.locals.address 2 = planned (slotPlan keepingBody 1) 2 ∧
        planned (slotPlan keepingBody 1) 2 = 3 ∧
        keepingMethod.unbox moneyRegistry ⟨[], false⟩ accountLayout keepingBody = .ok unboxed ∧
        (∃ moved : List Node, moved.Sublist unboxed.body.nodes ∧
          List.Forall₂ (AccessMoved (planned (slotPlan keepingBody 1)))
            (reachedAccesses keepingContext) moved) ∧
        (reachedAccesses keepingContext).length = 5 := by
  obtain ⟨_, _, hBetween, hStates, hOut, _⟩ :=
    slots_as_planned keepingMethod moneyRegistry ⟨[], false⟩ accountLayout keepingBody
  have hPayload : (stateAfter keepingContext 2).any
      (fun st => (st.locals.tagAt 1).isPayload) = true := by
    decide
  obtain ⟨st, hState, hPayload⟩ := (Option.any_eq_true _ _).mp hPayload
  have hUnboxed : (keepingMethod.unbox moneyRegistry ⟨[], false⟩ accountLayout
      keepingBody).toOption.isSome = true := by
    decide +kernel
  have hAfter := hStates st (hBetween 2 st hState)
  cases hUnbox : keepingMethod.unbox moneyRegistry ⟨[], false⟩ accountLayout
      keepingBody with
  | error failure =>
    rw [hUnbox] at hUnboxed
    cases hUnboxed
  | ok unboxed =>
    exact ⟨st, unboxed, hState, hPayload, (hAfter 1).2.1 hPayload,
      (hAfter 2).1, by decide, rfl, hOut unboxed hUnbox, by decide +kernel⟩

/- That body between two labels, with a debug entry for its last local. -/
def describedBody : Body :=
  { keepingBody with
    nodes := .label ⟨0⟩ :: keepingBody.nodes ++ [.label ⟨1⟩]
    vars := [⟨"count", .base .int, ⟨0⟩, ⟨1⟩, 2⟩] }

/- What becomes of it. -/
def describedOutcome : Except Failure UnboxedBody :=
  keepingMethod.unbox moneyRegistry ⟨[], false⟩ accountLayout describedBody

theorem variables_at_slots_iff_described :
    ∃ unboxed last, describedOutcome = .ok unboxed ∧ unboxed.modified = true ∧
        stateAfter (.ofMethod moneyRegistry ⟨[], false⟩ accountLayout keepingMethod describedBody)
          9 = some last ∧
        List.Forall₂ (Redirected last.addressOf) describedBody.vars unboxed.body.vars := by
  have hAny : describedOutcome.toOption.any UnboxedBody.modified = true := by
    decide +kernel
  rcases ok_of_any hAny with ⟨unboxed, hOk, hModified⟩
  rcases variables_at_slots_iff hOk hModified with ⟨last, hLast, _, hVars, _⟩
  exact ⟨unboxed, last, hOk, hModified, hLast, hVars⟩

/- The accesses to the local come out at slot 3, and its entry at slot 2. -/
theorem variable_beside_its_slot :
    describedOutcome.toOption.map (fun unboxed =>
        (unboxed.modified, decide (.insn (.store .int 3) ∈ unboxed.body.nodes),
          decide (.insn (.load .int 3) ∈ unboxed.body.nodes),
          unboxed.body.vars.map Variable.slot)) = some (true, true, true, [2]) := by
  decide +kernel

end Method

end Unboxing
