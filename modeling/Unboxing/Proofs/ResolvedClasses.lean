import Unboxing.Proofs.ReferenceOperands

/-
  Calls of bound methods with an open class. A call finds out
  the class from its operands or fails, and all that can be left
  open is a result whose class no argument tells. Where no
  binding has such a result, the states of a run are without the
  wildcard.

  Main declarations:
    * `Simulation.Moment`
    * `Simulation.Moment.leads`
    * `Simulation.call_resolved`
    * `Method.classes_resolved`
-/

namespace Unboxing

namespace Simulation

/- The operands of a bound call become what its class asks for. -/
def readyBound (method : MethodRef) (binding : MethodBinding) : Simulation Unit := do
  let resolved ← resolve method binding (← topTags binding.arguments.length)
  convertOperands resolved.arguments

/- The states of a run: its first one, and those that its parts end in. -/
inductive Moment (ctx : Context) : State → Prop where
  | start : Moment ctx (.start ctx)
  | part
      {α : Type} {act : Simulation α} {st after : State}
      (hState : Moment ctx st)
      (hPart : Part act)
      (hEnds : EndsIn ctx act st after) :
      Moment ctx after
  /- Within a bound call, before its operands are taken off. -/
  | call
      {method : MethodRef} {binding : MethodBinding} {st after : State}
      (hState : Moment ctx st)
      (hBinding : ctx.reg.binding? method = some binding)
      (hEnough : binding.arguments.length ≤ st.stack.entries.length)
      (hEnds : EndsIn ctx (readyBound method binding) st after) :
      Moment ctx after
  /- Within a label, before its frame is looked at. -/
  | restored
      {st : State} {label : Label} {join : Join}
      (hState : Moment ctx st)
      (hJoin : st.agreed.lookup label = some join) :
      Moment ctx
        { st with
          stack := st.stack.restore join.stack
          locals := st.locals.restore join.locals }

section Moments

variable {ctx : Context} {st after : State} {method : MethodRef}
variable {binding : MethodBinding} {scope : Scope}

/- The start of a body is orderly, whatever is asked of tags and counters. -/
theorem orderly_start (ctx : Context) (hPlan : ∀ plan ∈ scope.plan?, plan = ctx.plan) :
    (State.start ctx).Orderly scope where
  stack := ⟨fun _ => OperandStack.Counted.empty, nofun⟩
  locals := ⟨fun cell hCell => (ctx.method.concrete_initialLocals _ _ _ cell hCell).tame,
    fun plan hGiven => hPlan plan hGiven ▸ (placed_start ctx).locals⟩
  agreed _ hEntry := by cases hEntry

/- The operands of a bound call are converted to known classes only. -/
theorem steps_readyBound {found : List Tag} (hLength : binding.arguments.length = found.length) :
    Goes scope
      (do
        let resolved ← resolve method binding found
        convertOperands resolved.arguments) :=
  (steps_resolveClass method hLength).bind fun _ hResolved =>
    steps_convertOperands fun tag hTag => (hResolved.arguments tag hTag).tame

/- All states are orderly, if open classes are at large or no call has one left. -/
theorem Moment.leads (hOpen : scope.Open) (hContext : scope.Knows ctx)
    (hPlan : ∀ plan ∈ scope.plan?, plan = ctx.plan) (hMoment : Moment ctx st) :
    Leads scope (.start ctx) st := by
  induction hMoment with
  | start => exact .refl (orderly_start ctx hPlan)
  | part _ hPart hEnds ih => exact (keeps_part hOpen hContext hPart).endsIn ih hEnds
  | call _ _ hEnough hEnds ih =>
    exact ((steps_readyBound (length_topTags hEnough)).keeps hContext).endsIn ih hEnds
  | restored _ hJoin ih =>
    exact ih.trans ((steps_resume hOpen.stores (ih.orderly.lookup hJoin)).of_ok hContext
      ih.orderly rfl).1

/- The states between two elements are among these. -/
theorem moment_stateAfter {count : Nat} (hState : stateAfter ctx count = some st) :
    Moment ctx st := by
  induction count generalizing st with
  | zero =>
    cases hState
    exact .start
  | succ count ih =>
    rcases visit_of_stateAfter hState with ⟨before, hBefore, hVisit⟩
    exact (ih hBefore).part (.visit count) (.inl hVisit)

/- A bound call that is gone past has found out its class. -/
theorem call_resolved {i : Nat} {kind : InvokeKind}
    (hNode : ctx.body.nodes[i]? = some (.insn (.invoke kind method)))
    (hBinding : ctx.reg.binding? method = some binding)
    (hState : stateAfter ctx i = some st) (hReachable : st.reachable = true)
    (hAfter : stateAfter ctx (i + 1) = some after) :
    ∃ resolved, binding.Resolution resolved ∧
      (i, .insn (.invoke .static binding.target)) ∈ blockView ctx i ∧
        ∃ below, after.stack.entries =
          resolved.result.toList.map (Entry.mk · none) ++ below := by
  rcases visited_stateAfter hNode hState hAfter with ⟨mid, hVisited, rfl⟩
  have hHere : ({ st with here := i } : State).reachable = true := hReachable
  rcases step_insn_ok hHere hVisited.step with ⟨done, hCall, rfl⟩
  change call kind method ctx { st with here := i } = .ok () done at hCall
  unfold call at hCall
  rw [read_bind] at hCall
  simp only [hBinding] at hCall
  rcases callBound_ok hCall with
    ⟨_, hFew, _⟩ | ⟨_, resolved, ready, _, hResolved, _, hEdit, hEntries⟩
  · exact absurd hVisited.issues hFew
  have hTarget : resolved.target = binding.target := by
    rcases hResolved.class_ with rfl | ⟨index, rfl⟩ <;> rfl
  refine ⟨resolved, hResolved, ?_, _, hEntries⟩
  simp only [blockView, hVisited.edited, hNode, Edit.view, hEdit, hTarget]
  exact List.mem_append_right _ (List.mem_singleton_self _)

end Moments

end Simulation

open Simulation

namespace Method

/-
  A bound call that a run goes past has one known class for the
  open one among its arguments, and the implementation takes its
  place. Its result is of a known class exactly if there is an
  argument that tells it. If that is so for every binding, then
  nothing on the stack and in the locals is of an open class, in
  no state of any run. A run that succeeds goes past everything.
-/
theorem classes_resolved
    (method : Method)
    (reg : Registry)
    (settings : Settings)
    (layout : ClassLayout)
    (body : Body) :
    let ctx := Context.ofMethod reg settings layout method body
    (reg.Inferable → ∀ st, Moment ctx st →
      (∀ entry ∈ st.stack.entries, entry.tag.Concrete) ∧
        ∀ slot, (st.locals.tagAt slot).Concrete) ∧
      (∀ count st, stateAfter ctx count = some st → Moment ctx st) ∧
      (∀ unboxed, method.unbox reg settings layout body = .ok unboxed →
        ∀ count ≤ body.nodes.length, ∃ st, stateAfter ctx count = some st) ∧
      ∀ i kind callee binding before after, body.nodes[i]? = some (.insn (.invoke kind callee)) →
        reg.binding? callee = some binding →
        stateAfter ctx i = some before → before.reachable = true →
        stateAfter ctx (i + 1) = some after → ∃ resolved, binding.Resolution resolved ∧
            (i, .insn (.invoke .static binding.target)) ∈ blockView ctx i ∧
              ∃ below, after.stack.entries =
                resolved.result.toList.map (Entry.mk · none) ++ below := by
  intro ctx
  refine ⟨?_, fun count st => moment_stateAfter, fun _ hOk _ => unbox_states hOk,
    fun i kind callee binding before after hNode hBinding hBefore hReachable hAfter =>
      call_resolved hNode hBinding hBefore hReachable hAfter⟩
  intro hInferable st hMoment
  have hOrderly : st.Orderly (.following False ctx.plan) :=
    (hMoment.leads ⟨trivial, trivial, trivial, trivial, trivial⟩ (.inr hInferable)
      fun _ hPlan => (Option.mem_some_iff.mp hPlan).symm).orderly
  refine ⟨fun entry hEntry => (hOrderly.stack.tags entry hEntry).resolve_left id, fun slot => ?_⟩
  exact (hOrderly.locals.tags.tagAt Tag.tame_void slot).resolve_left id

-- A pool of values of any class

/- A mapping with one value class and one method that takes values of any. -/
def poolMapping (source target : String) : Mapping where
  scope := []
  suppress := []
  strict := false
  valueClasses :=
    [ ⟨"Money", -1, "Ops.box(J)LMoney;", "Ops.unbox(LMoney;)J", none, none,
        "Ops.isNull(J)Z", "Ops.same(JJ)Z", []⟩ ]
  genericMethods := [⟨source, target⟩]

def poolMethod (name : MemberName) (parameters : List FieldType) : MethodRef :=
  ⟨⟨"Pool", by decide⟩, name, ⟨parameters, some (.object .object)⟩⟩

/- A method that puts a value into the pool and gets it back. -/
def keepingPool : MethodRef :=
  poolMethod ⟨"keep", rfl⟩ [.object .object]

def pooledBody : Body :=
  ⟨1, 1, [ .insn (.load .reference 0), .insn (.invoke .static keepingPool),
    .insn (.shuffle .pop), .branch (.ret none) ], [], []⟩

def pooledMethod : Method :=
  ⟨⟨"pooled", by decide⟩, ⟨[.object Batch.moneyName], none⟩, 8, some pooledBody⟩

def keepingMapping : Mapping :=
  poolMapping "Pool.keep(Ljava/lang/Object;)Ljava/lang/Object;" "Ops.keep(J)J"

def pooledContext (reg : Registry) : Context :=
  .ofMethod reg ⟨[], false⟩ accountLayout pooledMethod pooledBody

/- The class of the operand is the class of the result. -/
theorem classes_resolved_pooled :
    ∃ reg binding st, Registry.ofMapping keepingMapping = .ok reg ∧
        reg.Inferable ∧ reg.binding? keepingPool = some binding ∧
        binding.result = some (.payload .wildcard) ∧
        stateAfter (pooledContext reg) 2 = some st ∧
        (∀ entry ∈ st.stack.entries, entry.tag.Concrete) ∧
        st.stack.tagAt 0 = .payload .first ∧ ∃ resolved, binding.Resolution resolved ∧
          (resolved.result.toList.map (Entry.mk · none)) <+: st.stack.entries := by
  have hAll : (Registry.ofMapping keepingMapping).toOption.any (fun reg =>
      decide reg.Inferable &&
        (reg.binding? keepingPool).any (fun binding =>
          decide (binding.result = some (.payload .wildcard))) &&
        (stateAfter (pooledContext reg) 1).any (fun st => st.reachable) &&
        (stateAfter (pooledContext reg) 2).any (fun st =>
          decide (st.stack.tagAt 0 = .payload .first))) = true := by
    decide +kernel
  cases hRegistry : Registry.ofMapping keepingMapping with
  | error fault =>
    rw [hRegistry] at hAll
    cases hAll
  | ok reg =>
    rw [hRegistry] at hAll
    simp only [Except.toOption, Option.any_some, Bool.and_eq_true, decide_eq_true_eq,
      Option.any_eq_true] at hAll
    rcases hAll with ⟨⟨⟨hInferable, binding, hBinding, hResult⟩, before, hBefore,
      hReachable⟩, st, hState, hTop⟩
    rcases classes_resolved pooledMethod reg ⟨[], false⟩ accountLayout pooledBody with
      ⟨hConcrete, hMoments, _, hCalls⟩
    rcases hCalls 1 .static keepingPool binding before st rfl hBinding hBefore
      hReachable hState with ⟨resolved, hResolved, _, below, hEntries⟩
    exact ⟨reg, binding, st, rfl, hInferable, hBinding, hResult, hState,
      (hConcrete hInferable st (hMoments 2 st hState)).1, hTop, resolved,
      hResolved, below, hEntries.symm⟩

/- A method that gets some value from the pool. -/
def takingPool : MethodRef :=
  poolMethod ⟨"take", by decide⟩ []

def drainBody : Body :=
  ⟨1, 0, [.insn (.invoke .static takingPool), .insn (.shuffle .pop), .branch (.ret none)], [], []⟩

def drainMethod : Method :=
  ⟨⟨"drain", by decide⟩, ⟨[], none⟩, 8, some drainBody⟩

def drainMapping : Mapping :=
  poolMapping "Pool.take()Ljava/lang/Object;" "Ops.take()J"

def drainContext (reg : Registry) : Context :=
  .ofMethod reg ⟨[], false⟩ accountLayout drainMethod drainBody

/-
  No argument tells the class of what is taken from the pool.
  The call is bound all the same, and leaves a payload of an open
  class on the stack.
-/
theorem open_result_left :
    ∃ reg st unboxed, Registry.ofMapping drainMapping = .ok reg ∧
        Moment (drainContext reg) st ∧
        (∃ entry ∈ st.stack.entries, entry.tag = .payload .wildcard) ∧
        drainMethod.unbox reg ⟨[], false⟩ accountLayout drainBody = .ok unboxed ∧
        unboxed.modified = true := by
  have hAll : (Registry.ofMapping drainMapping).toOption.any (fun reg =>
        (stateAfter (drainContext reg) 1).any (fun st =>
            decide (∃ entry ∈ st.stack.entries, entry.tag = .payload .wildcard)) &&
        (drainMethod.unbox reg ⟨[], false⟩ accountLayout drainBody).toOption.any
          (fun unboxed => unboxed.modified)) = true := by
    decide +kernel
  cases hRegistry : Registry.ofMapping drainMapping with
  | error fault =>
    rw [hRegistry] at hAll
    cases hAll
  | ok reg =>
    rw [hRegistry] at hAll
    rcases Bool.and_eq_true_iff.mp hAll with ⟨hTaken, hUnboxed⟩
    rcases (Option.any_eq_true _ _).mp hTaken with ⟨st, hState, hOpen⟩
    rcases ok_of_any hUnboxed with ⟨unboxed, hOk, hModified⟩
    exact ⟨reg, st, unboxed, rfl, moment_stateAfter hState,
      of_decide_eq_true hOpen, hOk, hModified⟩

end Method

end Unboxing
