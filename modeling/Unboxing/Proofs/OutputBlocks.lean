import Unboxing.Proofs.BranchEffects
import Unboxing.Proofs.DeclaredTags
import Unboxing.Proofs.JoinExecution

/-
  Going through a verified body keeps to its frames. Control
  comes to an element exactly if there are types for it, and
  what is agreed at a label suits the frame there: every tag is
  the declared one, or that of its payload. The body that comes
  out is cut into one block for each element. If no fields are
  seeded, a block is some code and then the element or what
  replaces it. Labels stay, so a jump comes to the blocks after
  the one that holds its label.

  Main declarations:
    * `Simulation.Fitting`
    * `Simulation.Tracked`
    * `Simulation.Tracked.step`
    * `Simulation.output_eq`
    * `Simulation.Passage.block_eq`
    * `Simulation.afterLabel?_outputFrom`
-/

namespace Unboxing

open List SlotMap

variable {reg : Registry} {frame : Frame}

-- What is agreed and what is declared

/- Whether what is agreed at a label suits the frame there. -/
structure Join.Suits (reg : Registry) (frame : Frame) (join : Join) : Prop where
  scalar : ∀ entry ∈ join.stack.entries, entry.tag.isPayloadArray = false
  stack : frame.stack.length = join.stack.size →
    StackSuits reg frame (join.stack.entries.map Entry.tag)
  locals : ∀ slot, (declaredTag reg frame.locals slot).Suits (tagIn join.locals.cells slot)

theorem Join.Suits.tagIn_scalar {join : Join} (hSuits : join.Suits reg frame)
    (slot : Nat) :
    (tagIn join.locals.cells slot).isPayloadArray = false :=
  (hSuits.locals slot).not_payloadArray (declaredTag_not_payload reg _ slot)

/- Tags that suit declared ones are not those of payload arrays. -/
theorem StackSuits.scalar {tags : List Tag} (hSuits : StackSuits reg frame tags)
    {tag : Tag} (hTag : tag ∈ tags) :
    tag.isPayloadArray = false := by
  unfold StackSuits at hSuits
  generalize frame.stack.reverse = types at hSuits
  induction hSuits with
  | nil => cases hTag
  | cons hFirst _ ih =>
    rcases mem_cons.mp hTag with rfl | hRest
    · exact hFirst.not_payloadArray (reg.tagOfFrame_not_payload _)
    · exact ih hRest

/- Whether the frames at labels are well-formed and their locals in order. -/
def SourceFrames.Proper (frames : SourceFrames) : Prop :=
  ∀ l frame, frames.frame? l = some frame → frame.isWellFormed = true ∧ frame.locals.Ascending

namespace Simulation

variable {ctx : Context} {plan : Array Nat}
variable {st before turned after : State} {operands : Nat}
variable {labels : List Label} {i : Instruction} {b other : Branch}
variable {kind : Option ValueKind} {frame : Frame} {found : Join}
variable {joined : State} {tag : Tag} {reg : Registry} {popped : Typing}

/- No array of payloads is tracked, and what is agreed suits the frames. -/
structure Fitting (ctx : Context) (st : State) : Prop where
  stack : ∀ entry ∈ st.stack.entries, entry.tag.isPayloadArray = false
  locals : ∀ slot, (st.locals.tagAt slot).isPayloadArray = false
  joins : ∀ label join, st.agreed.lookup label = some join →
    ∃ frame, ctx.frames.frame? label = some frame ∧ join.Suits ctx.reg frame

/- What a first path brings to a label suits the frame there. -/
theorem Fitting.freshJoin {label : Label} (hFitting : Fitting ctx st)
    (hProper : ctx.frames.Proper) (hPlaced : st.Placed plan)
    (hFrame : ctx.frames.frame? label = some frame) (operands : Nat) :
    (freshJoin ctx st label operands).Suits ctx.reg frame := by
  rcases hProper label frame hFrame with ⟨hWellFormed, hAscending⟩
  have hEntries : ∀ entry ∈ (st.stack.save.withoutTop operands).entries,
      entry.tag.isPayloadArray = false :=
    fun entry hEntry => hFitting.stack entry (mem_of_mem_drop hEntry)
  unfold Simulation.freshJoin
  rw [hFrame]
  refine ⟨?_, StackSnapshot.suits_narrow hEntries, ?_⟩
  · intro entry hEntry
    by_cases hSize : frame.stack.length = (st.stack.save.withoutTop operands).size
    · have hSuits := StackSnapshot.suits_narrow hEntries
        (hSize.trans (StackSnapshot.size_narrow _ ctx.reg frame).symm)
      exact hSuits.scalar (mem_map_of_mem hEntry)
    · simp only [StackSnapshot.narrow, if_neg hSize] at hEntry
      exact hEntries entry hEntry
  · exact hPlaced.locals.suits_narrow hWellFormed hAscending hFitting.locals

section

variable (hFitting : Fitting ctx before)
include hFitting

/- Agreement with a label that has a frame. -/
theorem Fitting.reconciled {label : Label} (hProper : ctx.frames.Proper)
    (hPlaced : before.Placed plan) (hFrame : ctx.frames.frame? label = some frame)
    (hReconciled :
      Reconciled ctx plan label operands found before joined turned after)
    (hSettled : Settled label found before after) :
    found.Suits ctx.reg frame ∧ Fitting ctx after := by
  have hFound : found.Suits ctx.reg frame := by
    rcases (join_ok hReconciled.joins).2.2.2 with hKnown | ⟨_, rfl⟩
    · rcases hFitting.joins label found hKnown with ⟨other, hOther, hSuits⟩
      rw [hFrame] at hOther
      cases hOther
      exact hSuits
    · exact hFitting.freshJoin hProper hPlaced hFrame operands
  refine ⟨hFound, ?_, ?_, ?_⟩
  · intro entry hEntry
    rcases hReconciled.agrees with ⟨hAgrees, hOperands⟩
    rw [← take_append_drop operands after.stack.entries, mem_append] at hEntry
    rcases hEntry with hTop | hBelow
    · rw [hOperands] at hTop
      exact hFitting.stack entry (mem_of_mem_take hTop)
    · have hTag : entry.tag ∈ found.stack.entries.map Entry.tag := by
        rw [← hAgrees.tags]
        exact mem_map_of_mem hBelow
      rcases mem_map.mp hTag with ⟨agreed, hAgreed, hSame⟩
      rw [← hSame]
      exact hFound.scalar agreed hAgreed
  · intro slot
    rcases hReconciled.locals with ⟨moves, code, hLocals, _⟩
    rcases World.tagAt_reconciled hLocals slot with hSame | hVar
    · rw [hSame, tagAt_eq, (join_ok hReconciled.joins).2.1, ← tagAt_eq]
      exact hFitting.locals slot
    · rw [← (mem_varsOf.mp hVar).1]
      exact hFound.tagIn_scalar slot
  · intro other join hLookup
    rcases hSettled.others other join hLookup with hOld | ⟨rfl, rfl⟩
    · exact hFitting.joins other join hOld
    · exact ⟨frame, hFrame, hFound⟩

theorem Fitting.visits (hProper : ctx.frames.Proper) (hPlaced : before.Placed plan)
    (hFrames : ∀ l ∈ labels, ∃ frame, ctx.frames.frame? l = some frame)
    (hVisits : Visits ctx plan operands labels before after) :
    Fitting ctx after := by
  induction hVisits with
  | nil => exact hFitting
  | cons hReconciled hSettled _ ih =>
    rcases hFrames _ (mem_cons_self ..) with ⟨frame, hFrame⟩
    rcases hFitting.reconciled hProper hPlaced hFrame hReconciled hSettled with
      ⟨_, hBetween⟩
    exact ih hBetween hReconciled.placed (forall_mem_cons.mp hFrames).2

/- The same labels, with entries and locals that are no payload arrays. -/
theorem Fitting.of_bench (hHeld : after.agreed = before.agreed)
    (hStack : ∀ entry ∈ after.bench.entries, entry.tag.isPayloadArray = false)
    (hLocals : ∀ slot, (after.bench.locals.tagAt slot).isPayloadArray = false) :
    Fitting ctx after := by
  refine ⟨hStack, hLocals, ?_⟩
  rw [hHeld]
  exact hFitting.joins

theorem Fitting.of_held (hHeld : Held before after)
    (hBench : after.bench = before.bench) :
    Fitting ctx after := by
  apply hFitting.of_bench hHeld.agreed
  · rw [hBench]
    exact hFitting.stack
  · rw [hBench]
    exact hFitting.locals

end

-- Instructions

theorem ofKind_scalar (kind : ValueKind) :
    (Tag.ofKind kind).isPayloadArray = false := by
  cases kind <;> rfl

theorem pushed?_scalar (hTag : pushed? i = some tag) : tag.isPayloadArray = false := by
  unfold pushed? at hTag
  split at hTag
  · cases hTag
    rfl
  · cases hTag
    rfl
  · cases hTag
    rfl
  · rename_i value
    cases hTag
    cases value <;> rfl
  · cases hTag

theorem storedAs_scalar {found : Tag} (hFound : found.isPayloadArray = false)
    (room : Nat) :
    (storedAs found room).isPayloadArray = false := by
  rcases found with ⟨kind, depth⟩
  unfold storedAs
  split
  · rename_i hReference
    have hScalar : 0 < depth → False := by
      simp_all [Tag.isReference, Tag.isArray]
    cases kind <;> simp_all [Tag.payloadOf, Tag.isPayloadArray, Tag.isArray]
  · split
    · cases kind <;>
        simp_all [Tag.referenceOf, Tag.isPayloadArray, Tag.hasPayloadKind]
    · exact hFound

theorem Bench.put_scalar {bench : Bench} (hPlaced : SlotMap.Placed plan bench.locals)
    (hLocals : ∀ slot, (bench.locals.tagAt slot).isPayloadArray = false)
    (hTag : tag.isPayloadArray = false) (slot : Nat) (name : Option String)
    (other : Nat) :
    ((bench.put slot tag name).locals.tagAt other).isPayloadArray = false := by
  change (tagIn (Placed.stored bench.locals slot tag name) other).isPayloadArray = false
  rw [tagIn_stored hPlaced.cells.paired]
  split
  · exact hTag
  · split
    · rfl
    · split
      · rfl
      · exact hLocals other

/- What a basic instruction leaves is no array of payloads. -/
theorem Transfer.scalar {before after : Bench}
    (hTransfer : Transfer reg plan i before after)
    (hPlaced : SlotMap.Placed plan before.locals)
    (hStack : ∀ entry ∈ before.entries, entry.tag.isPayloadArray = false)
    (hLocals : ∀ slot, (before.locals.tagAt slot).isPayloadArray = false) :
    (∀ entry ∈ after.entries, entry.tag.isPayloadArray = false) ∧
      ∀ slot, (after.locals.tagAt slot).isPayloadArray = false := by
  have hPush {tag : Tag} {name : Option String}
      (hTag : tag.isPayloadArray = false) :
      ∀ entry ∈ ⟨tag, name⟩ :: before.entries, entry.tag.isPayloadArray = false :=
    forall_mem_cons.mpr ⟨hTag, hStack⟩
  cases hTransfer with
  | compute op =>
    refine ⟨?_, hLocals⟩
    intro entry hEntry
    rcases mem_append.mp hEntry with hNew | hOld
    · rcases mem_map.mp hNew with ⟨kind, _, rfl⟩
      exact ofKind_scalar kind
    · exact hStack entry (mem_of_mem_drop hOld)
  | push hTag => exact ⟨hPush (pushed?_scalar hTag), hLocals⟩
  | load hKind slot => exact ⟨hPush (ofKind_scalar _), hLocals⟩
  | loadReference slot => exact ⟨hPush (hLocals slot), hLocals⟩
  | store hKind slot =>
    refine ⟨fun entry hEntry => hStack entry (mem_of_mem_tail hEntry), ?_⟩
    exact Bench.put_scalar hPlaced hLocals (ofKind_scalar _) slot none
  | storeReference hEntries hStored hCast hCode =>
    rename_i slot entry entries stored code
    have hEntry : entry.tag.isPayloadArray = false :=
      hStack entry (by rw [hEntries]; exact mem_cons_self ..)
    refine ⟨fun other hOther => hStack other ?_, ?_⟩
    · rw [hEntries]
      exact mem_cons_of_mem _ hOther
    · subst hStored
      exact Bench.put_scalar hPlaced hLocals (storedAs_scalar hEntry _) slot
        entry.name
  | increment slot delta => exact ⟨hStack, hLocals⟩

-- What becomes of elements

/- A mark stays, and nothing else becomes a mark. -/
def Stays (node : Node) (edit : Edit) : Prop :=
  edit.fate = .kept ∨
    node.isMark = false ∧ ∃ other, edit.fate = .replaced other ∧ other.isMark = false

theorem Transfer.stays {before after : Bench}
    (hTransfer : Transfer reg plan i before after)
    (hKept : before.edit.fate = .kept) :
    Stays (.insn i) after.edit := by
  have hUse {edit : Edit} {wanted : Instruction} (hEdit : edit.fate = .kept) :
      Stays (.insn i) (edit.use i wanted) := by
    unfold Edit.use
    split
    · exact .inl hEdit
    · exact .inr ⟨rfl, _, rfl, rfl⟩
  cases hTransfer with
  | compute | push => exact .inl hKept
  | storeReference => exact hUse ((Edit.fate_emit _ _).trans hKept)
  | load | loadReference | store | increment => exact hUse hKept

theorem Reconciled.fate_eq {label : Label}
    (hReconciled :
      Reconciled ctx plan label operands found before joined turned after) :
    after.edit.fate = before.edit.fate := by
  rcases hReconciled.locals with ⟨_, _, _, hLocals⟩
  rcases hReconciled.stack with ⟨_, _, _, _, hStack⟩
  rcases hStack.bench_eq with ⟨_, hTurned⟩
  have hAfter := congrArg (Edit.fate ∘ Bench.edit) hLocals
  have hBetween := congrArg (Edit.fate ∘ Bench.edit) hTurned
  have hJoined := congrArg (Edit.fate ∘ Bench.edit) (join_ok hReconciled.joins).2.2.1
  simp only [Function.comp, Edit.fate_emit] at hAfter hBetween hJoined
  exact hAfter.trans (hBetween.trans hJoined)

theorem Visits.fate_eq (hVisits : Visits ctx plan operands labels before after) :
    after.edit.fate = before.edit.fate := by
  induction hVisits with
  | nil => rfl
  | cons hReconciled _ _ ih => exact ih.trans hReconciled.fate_eq

theorem Visits.reachable_eq (hVisits : Visits ctx plan operands labels before after) :
    after.reachable = before.reachable := by
  induction hVisits with
  | nil => rfl
  | cons _ hSettled _ ih => exact ih.trans hSettled.reachable

-- Branches

theorem Fitting.readied {readied : State} (hFitting : Fitting ctx st)
    (hReadied : Readied ctx.reg b other st readied) :
    Fitting ctx readied := by
  cases hReadied with
  | keep => exact hFitting
  | flag target hPayload hClass hHeld hBench =>
    apply hFitting.of_bench hHeld.agreed
    · rw [hBench]
      intro entry hEntry
      rcases mem_cons.mp hEntry with rfl | hOld
      · rfl
      · exact hFitting.stack entry (mem_of_mem_tail hOld)
    · rw [hBench]
      exact hFitting.locals

/- A branch that goes to labels with frames. -/
theorem Fitting.departs {readied : State} (hFitting : Fitting ctx st)
    (hProper : ctx.frames.Proper)
    (hFrames : ∀ l ∈ b.labels, ∃ frame, ctx.frames.frame? l = some frame)
    (hDeparts : Departs ctx plan b other st readied turned after) :
    Fitting ctx after := by
  have hTurned : Fitting ctx turned :=
    (hFitting.readied hDeparts.ready).visits hProper hDeparts.placed
      (fun l hLabel => hFrames l (mem_eraseDups.mp hLabel)) hDeparts.visits
  apply hTurned.of_bench hDeparts.held.agreed
  · rw [hDeparts.bench]
    exact fun entry hEntry => hTurned.stack entry (mem_of_mem_drop hEntry)
  · rw [hDeparts.bench]
    exact hTurned.locals

theorem Departs.stays {readied : State}
    (hDeparts : Departs ctx plan b other st readied turned after)
    (hKept : st.edit.fate = .kept) :
    Stays (.branch b) after.edit := by
  have hAfter : after.edit.fate = readied.edit.fate :=
    (congrArg (Edit.fate ∘ Bench.edit) hDeparts.bench).trans hDeparts.visits.fate_eq
  unfold Stays
  rw [hAfter]
  cases hDeparts.ready with
  | keep => exact .inl hKept
  | flag target hPayload hClass hHeld hBench =>
    have hFate := congrArg (Edit.fate ∘ Bench.edit) hBench
    exact .inr ⟨rfl, _, hFate, rfl⟩

theorem Departs.reachable_eq {readied : State}
    (hDeparts : Departs ctx plan b other st readied turned after) :
    after.reachable = st.reachable := by
  have hReadied : readied.reachable = st.reachable := by
    cases hDeparts.ready with
    | keep => rfl
    | flag target hPayload hClass hHeld hBench => exact hHeld.reachable
  exact hDeparts.held.reachable.trans (hDeparts.visits.reachable_eq.trans hReadied)

/- A branch that returns. -/
theorem Fitting.leaves (hFitting : Fitting ctx st)
    (hAgreed : after.agreed = st.agreed) (hLeaves : Leaves ctx kind st after) :
    Fitting ctx after := by
  have hTail {code : List Instruction}
      (hBench : after.bench = (st.bench.withEntries st.bench.entries.tail).emit code) :
      Fitting ctx after := by
    apply hFitting.of_bench hAgreed
    · rw [hBench]
      exact fun entry hEntry => hFitting.stack entry (mem_of_mem_tail hEntry)
    · rw [hBench]
      exact hFitting.locals
  cases hLeaves with
  | nothing => exact hFitting
  | primitive hKind hBench =>
    apply hTail
    rw [hBench]
    exact (Bench.emit_nil _).symm
  | reference hType hCode hBench => exact hTail hBench

theorem Leaves.fate_eq (hLeaves : Leaves ctx kind st after) :
    after.edit.fate = st.edit.fate := by
  cases hLeaves with
  | nothing => rfl
  | primitive hKind hBench => exact congrArg (Edit.fate ∘ Bench.edit) hBench
  | reference hType hCode hBench =>
    exact (congrArg (Edit.fate ∘ Bench.edit) hBench).trans (Edit.fate_emit _ _)

-- Elements

/- A state that keeps to the frames, where control comes if there are types. -/
structure Tracked (ctx : Context) (typing : Option Typing)
    (st : State) : Prop where
  fitting : Fitting ctx st
  reachable : st.reachable = typing.isSome

/- The verifier of the body that is gone through. -/
structure Checks (verifier : Verifier) (ctx : Context) : Prop where
  frames : verifier.frames = ctx.frames
  result : verifier.result = ctx.method.type.result
  proper : ctx.frames.Proper

/- The result of a method is declared if one is returned. -/
theorem Checks.result_of_ret {verifier : Verifier} {typing : Typing}
    (hChecks : Checks verifier ctx)
    (hPassed : verifier.Passed typing popped (.ret kind)) (hKind : kind.isSome = true) :
    ∃ type, ctx.method.type.result = some type ∧
      typing.stack.head?.any (verifier.assignable · (.ofFieldType type)) = true := by
  have hReturns := hPassed.returns
  cases kind with
  | none => cases hKind
  | some kind =>
    rcases (Option.any_eq_true _ _).mp hReturns with ⟨type, hType, hFits⟩
    exact ⟨type, hChecks.result ▸ hType, hFits⟩

theorem Departed.tracked {done : State} (hDeparted : Departed b done after)
    (hDone : Fitting ctx done)
    (hReachable : b.fallsThrough = true → done.reachable = true) :
    Tracked ctx (if b.fallsThrough then some popped else none) after := by
  have hLocals : ∀ slot, (after.locals.tagAt slot).isPayloadArray = false := by
    rw [hDeparted.locals]
    exact hDone.locals
  cases hFalls : b.fallsThrough with
  | true =>
    rcases hDeparted.falls hFalls with ⟨hReach, hEntries⟩
    refine ⟨hDone.of_bench hDeparted.agreed ?_ hLocals, hReach.trans (hReachable hFalls)⟩
    change ∀ entry ∈ after.stack.entries, _
    rw [hEntries]
    exact hDone.stack
  | false =>
    rcases hDeparted.stops hFalls with ⟨hStops, hEmpty⟩
    refine ⟨hDone.of_bench hDeparted.agreed ?_ hLocals, hStops⟩
    change ∀ entry ∈ after.stack.entries, _
    rw [hEmpty]
    exact nofun

namespace Tracked

variable {verifier : Verifier} {typing next : Option Typing}
variable {st after : State} {node : Node} {frame : Frame} {l : Label}

theorem unreachable (hTracked : Tracked ctx none st)
    (hEdit : st.edit.fate = .kept) (hNode : node.isMark = false)
    (hOk : step node ctx st = .ok () after) :
    Tracked ctx none after ∧ Stays node after.edit := by
  have hAfter := step_unreachable_ok hNode hTracked.reachable hOk
  subst hAfter
  exact ⟨⟨⟨hTracked.fitting.stack, hTracked.fitting.locals, hTracked.fitting.joins⟩,
    hTracked.reachable⟩, .inl hEdit⟩

theorem insn (hTracked : Tracked ctx typing st) (hPlaced : st.Placed plan)
    (hEdit : st.edit.fate = .kept) (hBasic : i.isBasic = true)
    (hVerified : verifier.step typing (.insn i) = some next)
    (hOk : step (.insn i) ctx st = .ok () after)
    (hIssues : after.stack.issues = []) :
    Tracked ctx next after ∧ Stays (.insn i) after.edit := by
  cases typing with
  | none =>
    cases hVerified
    exact hTracked.unreachable hEdit rfl hOk
  | some typing =>
    rcases Option.map_eq_some_iff.mp hVerified with ⟨typed, _, rfl⟩
    have hReachable : st.reachable = true := hTracked.reachable
    rcases step_insn_ok hReachable hOk with ⟨done, hDone, rfl⟩
    have hHeld := Steps.held (steps_instruction trivial (fun _ _ _ => trivial)
      fun _ => trivial) hDone
    have hTransfer := instruction_ok hBasic hPlaced hDone hIssues
    rcases hTransfer.scalar hPlaced.locals hTracked.fitting.stack
      hTracked.fitting.locals with ⟨hStack, hLocals⟩
    exact ⟨⟨hTracked.fitting.of_bench hHeld.agreed hStack hLocals,
      hHeld.reachable.trans hReachable⟩, hTransfer.stays hEdit⟩

theorem branch (hChecks : Checks verifier ctx)
    (hTracked : Tracked ctx typing st) (hPlaced : st.Placed plan)
    (hEdit : st.edit.fate = .kept) (hBasic : b.isBasic = true)
    (hVerified : verifier.step typing (.branch b) = some next)
    (hOk : step (.branch b) ctx st = .ok () after) :
    Tracked ctx next after ∧ Stays (.branch b) after.edit := by
  cases typing with
  | none =>
    cases hVerified
    exact hTracked.unreachable hEdit rfl hOk
  | some typing =>
    rcases Verifier.branch?_ok hVerified with ⟨popped, hPassed, rfl⟩
    have hReachable : st.reachable = true := hTracked.reachable
    rcases step_branch_ok hReachable hOk with
      ⟨marked, done, hMark, hEffect, hDeparted⟩
    have hMarked := Steps.placed (steps_markSeeding trivial) hPlaced hMark
    have hHeld := Steps.held (steps_markSeeding trivial) hMark
    have hSame := bench_markSeeding hMark
    have hKept : marked.edit.fate = .kept :=
      (congrArg (Edit.fate ∘ Bench.edit) hSame).trans hEdit
    have hFitting := hTracked.fitting.of_held hHeld hSame
    rw [hDeparted.edit]
    by_cases hLeaves : ∃ kind, b = .ret kind
    · rcases hLeaves with ⟨kind, rfl⟩
      have hLeft := leave_ok (fun hKind =>
        (hChecks.result_of_ret hPassed hKind).imp fun _ hType => hType.1) hEffect
      have hAgreed := ((steps_leave kind).held hEffect).agreed
      exact ⟨hDeparted.tracked (hFitting.leaves hAgreed hLeft)
        nofun, .inl (hLeft.fate_eq.trans hKept)⟩
    · rcases branchEffect_ok hBasic (fun kind hRet => hLeaves ⟨kind, hRet⟩) hMarked
        hEffect with ⟨other, readied, turned, hDeparts⟩
      have hFrames : ∀ l ∈ b.labels, ∃ frame, ctx.frames.frame? l = some frame := by
        intro l hLabel
        rcases hPassed.labels l hLabel with ⟨frame, hFrame, _⟩
        exact ⟨frame, hChecks.frames ▸ hFrame⟩
      have hReach : done.reachable = true :=
        hDeparts.reachable_eq.trans (hHeld.reachable.trans hReachable)
      exact ⟨hDeparted.tracked (hFitting.departs hChecks.proper hFrames hDeparts)
        (fun _ => hReach), hDeparts.stays hKept⟩

/- Control goes on at a label with what is agreed there. -/
theorem of_resumed {found : Join} (hResumed : Resumed found turned after)
    (hFound : found.Suits ctx.reg frame)
    (hJoins : ∀ label join, turned.agreed.lookup label = some join →
      ∃ frame, ctx.frames.frame? label = some frame ∧ join.Suits ctx.reg frame)
    (typing : Typing) :
    Tracked ctx (some typing) after := by
  refine ⟨⟨?_, ?_, ?_⟩, hResumed.reachable⟩
  · rw [hResumed.entries]
    exact hFound.scalar
  · intro slot
    rw [tagAt_eq, hResumed.cells]
    exact hFound.tagIn_scalar slot
  · rw [hResumed.agreed]
    exact hJoins

/- What a frame declares suits it. -/
theorem suits_declared {locals : SlotMap}
    (hFrame : frame.isWellFormed = true ∧ frame.locals.Ascending)
    (hLocals : SlotMap.Placed plan locals) (reg : Registry) (stack : OperandStack) :
    Join.Suits reg frame
      ⟨(declaredStack reg frame stack).save, (declaredLocals reg frame locals).save⟩ := by
  have hEntries := entries_declaredStack reg frame stack
  refine ⟨?_, ?_, ?_⟩
  · intro entry hEntry
    change entry ∈ (declaredStack reg frame stack).entries at hEntry
    rw [hEntries] at hEntry
    rcases mem_map.mp hEntry with ⟨type, _, rfl⟩
    have hKind := reg.tagOfFrame_not_payload type
    simp [Tag.isPayloadArray, hKind]
  · intro _
    change StackSuits reg frame
      ((declaredStack reg frame stack).entries.map Entry.tag)
    rw [hEntries, map_map, StackSuits, List.forall₂_map_right_iff, List.forall₂_same]
    exact fun type _ => .inl rfl
  · intro slot
    exact .inl (hLocals.tagAt_declaredLocals hFrame.1 hFrame.2 slot)

section

variable (hChecks : Checks verifier ctx)
variable (hTracked : Tracked ctx typing st)
include hChecks hTracked

/- A label that is known, described or jumped to has a frame. -/
theorem frame_of_meant (hVerified : verifier.step typing (.label l) = some next)
    (hMeant : st.agreed.lookup l ≠ none ∨ ctx.frames.frame? l ≠ none ∨
      ctx.frames.isTarget l = true) :
    ∃ frame, ctx.frames.frame? l = some frame := by
  cases hFrame : ctx.frames.frame? l with
  | some frame => exact ⟨frame, rfl⟩
  | none =>
    rcases Verifier.step_label_free (hChecks.frames ▸ hFrame) hVerified with
      ⟨_, hFree⟩
    rcases hMeant with hKnown | hSome | hTarget
    · rcases Option.ne_none_iff_exists'.mp hKnown with ⟨join, hJoin⟩
      rcases hTracked.fitting.joins l join hJoin with ⟨frame, hOther, _⟩
      exact absurd (hFrame.symm.trans hOther) (by simp)
    · exact absurd hFrame hSome
    · rw [hChecks.frames] at hFree
      exact absurd hTarget (by simp [hFree])

theorem label (hPlaced : st.Placed plan) (hEdit : st.edit.fate = .kept)
    (hVerified : verifier.step typing (.label l) = some next)
    (hOk : step (.label l) ctx st = .ok () after) :
    Tracked ctx next after ∧ Stays (.label l) after.edit := by
  have hFrames := hChecks.frames
  cases step_label_ok hPlaced hOk with
  | pass hKnown hFrame hTarget hHeld hBench =>
    rcases Verifier.step_label_free (hFrames ▸ hFrame) hVerified with ⟨rfl, _⟩
    exact ⟨⟨hTracked.fitting.of_held hHeld hBench, hHeld.reachable.trans hTracked.reachable⟩,
      .inl ((congrArg (Edit.fate ∘ Bench.edit) hBench).trans hEdit)⟩
  | arrive hReachable hMeant hHeld hBench hReconciled hSettled hResumed =>
    rcases hTracked.frame_of_meant hChecks hVerified hMeant with ⟨frame, hFrame⟩
    rcases Verifier.step_label_frame (hFrames ▸ hFrame) hVerified with ⟨rfl, _⟩
    have hFirst := hTracked.fitting.of_held hHeld hBench
    rcases hFirst.reconciled hChecks.proper (hHeld.placed hBench hPlaced) hFrame
      hReconciled hSettled with ⟨hSuits, hTurned⟩
    refine ⟨of_resumed hResumed hSuits hTurned.joins _, .inl ?_⟩
    rw [hResumed.edit, hReconciled.fate_eq]
    exact (congrArg (Edit.fate ∘ Bench.edit) hBench).trans hEdit
  | resume hReachable hKnown hResumed =>
    rcases hTracked.fitting.joins l _ hKnown with ⟨frame, hFrame, hSuits⟩
    rcases Verifier.step_label_frame (hFrames ▸ hFrame) hVerified with ⟨rfl, _⟩
    exact ⟨of_resumed hResumed hSuits hTracked.fitting.joins _, .inl (hResumed.edit ▸ hEdit)⟩
  | declare hReachable hKnown hFrame hLocals hFound hResumed =>
    rename_i found frame stack locals
    rcases Verifier.step_label_frame (hFrames ▸ hFrame) hVerified with ⟨rfl, _⟩
    have hSuits : found.Suits ctx.reg frame := by
      rw [hFound]
      exact suits_declared (hChecks.proper l frame hFrame) hLocals _ stack
    refine ⟨of_resumed hResumed hSuits ?_ _, .inl (hResumed.edit ▸ hEdit)⟩
    intro other join hLookup
    rcases lookup_settle hLookup with hOld | ⟨rfl, rfl⟩
    · exact hTracked.fitting.joins other join hOld
    · exact ⟨frame, hFrame, hSuits⟩

theorem step (hPlaced : st.Placed plan) (hEdit : st.edit.fate = .kept)
    (hBasic : node.isBasic = true) (hVerified : verifier.step typing node = some next)
    (hOk : Simulation.step node ctx st = .ok () after)
    (hIssues : after.stack.issues = []) :
    Tracked ctx next after ∧ Stays node after.edit := by
  cases node with
  | insn i => exact hTracked.insn hPlaced hEdit hBasic hVerified hOk hIssues
  | branch b => exact hTracked.branch hChecks hPlaced hEdit hBasic hVerified hOk
  | label l => exact hTracked.label hChecks hPlaced hEdit hVerified hOk
  | line number =>
    cases hVerified
    cases hOk
    exact ⟨⟨⟨hTracked.fitting.stack, hTracked.fitting.locals,
      hTracked.fitting.joins⟩, hTracked.reachable⟩, .inl hEdit⟩
  | frame change =>
    cases hVerified
    rcases step_frame_ok hOk with ⟨_, _, rfl, _⟩
    exact ⟨⟨⟨hTracked.fitting.stack, hTracked.fitting.locals,
      hTracked.fitting.joins⟩, hTracked.reachable⟩, .inl hEdit⟩

end

end Tracked

open Sequence

variable {frames : List (Handle × FrameChange)} {i : Nat}

-- Blocks

/- What stands in the place of an element in the body that comes out. -/
def outputBlock (ctx : Context) (frames : List (Handle × FrameChange))
    (i : Nat) : List Node :=
  (blockView ctx i).map fun entry => (dressed frames entry).2

/- What stands in the place of the elements from one on. -/
def outputFrom (ctx : Context) (frames : List (Handle × FrameChange))
    (i : Nat) : List Node :=
  (List.range' i (ctx.body.nodes.length - i)).flatMap
    (outputBlock ctx frames)

/- Whether frames are put only in the place of frames. -/
def ForFrames (ctx : Context) (frames : List (Handle × FrameChange)) : Prop :=
  ∀ entry ∈ frames, ∃ change, ctx.body.nodes[entry.1]? = some (.frame change)

theorem outputFrom_cons (hInside : i < ctx.body.nodes.length) :
    outputFrom ctx frames i =
      outputBlock ctx frames i ++ outputFrom ctx frames (i + 1) := by
  have hCount : ctx.body.nodes.length - i = ctx.body.nodes.length - (i + 1) + 1 := by omega
  rw [outputFrom, hCount, range'_succ, flatMap_cons]
  rfl

/- Without fields to seed, none are looked for. -/
theorem seeding_stateAfter (hSeeds : ctx.method.seedsFields ctx.layout = false)
    (hInside : i ≤ ctx.body.nodes.length)
    (hState : stateAfter ctx i = some st) :
    st.seeding = .inapplicable := by
  refine kept_stateAfter (fun st => st.seeding = .inapplicable) ?_
    (Nat.zero_le i) hInside rfl hState ?_
  · intro i node before mid _ _ hVisited hBefore
    rcases hVisited.past.seeding with hSame | ⟨hApplicable, _⟩
    · exact hSame.trans hBefore
    · exact absurd hBefore hApplicable
  · change Seeding.start ctx.method ctx.layout = .inapplicable
    simp [Seeding.start, hSeeds]

/- The body that comes out is its blocks, one after another. -/
theorem output_eq {final : State} {out : UnboxedBody}
    (hSeeds : ctx.method.seedsFields ctx.layout = false)
    (hRun : run ctx st = .ok out final) :
    ∃ frames, ForFrames ctx frames ∧ out.body.nodes = outputFrom ctx frames 0 := by
  rcases run_ok hRun with ⟨_, last, hLast, hFinish⟩
  have hBetween := between_stateAfter (Nat.le_refl _) hLast
  rcases finish_ok hFinish with ⟨seeded, hSeed, _, hOut⟩
  have hSeeding := seeding_stateAfter hSeeds (Nat.le_refl _) hLast
  have hSame : seeded = last := by
    unfold seed at hSeed
    rw [get_bind] at hSeed
    simp only [hSeeding] at hSeed
    cases hSeed
    rfl
  subst hSame
  have hBlocks (frames : List (Handle × FrameChange)) :
      outputFrom ctx frames 0 = (((List.range ctx.body.nodes.length).flatMap
          (blockView ctx)).map (dressed frames)).map Prod.snd := by
    rw [outputFrom, ← range_eq_range', map_map, map_flatMap]
    rfl
  rcases hOut with ⟨hModified, hBody⟩ | ⟨_, vars, _, _, hBody⟩
  · refine ⟨[], forall_mem_nil _, ?_⟩
    have hPlain : dressed [] = id := rfl
    rw [hBlocks, hPlain, map_id, hBetween.blocks_unmodified hModified, hBody]
  · refine ⟨seeded.pendingFrames, fun entry hEntry => (hBetween.frames entry hEntry).2.1, ?_⟩
    rw [hBlocks, hBody, nodes_remade, (shows_withFrames hBetween.shows_blocks _).toList_eq]

-- Verified bodies

/- Being tracked depends on entries, locals, labels and reachability only. -/
theorem Tracked.of_same {typing : Option Typing} (hTracked : Tracked ctx typing st)
    (other : State) (hEntries : other.stack.entries = st.stack.entries)
    (hLocals : other.locals = st.locals) (hAgreed : other.agreed = st.agreed)
    (hReachable : other.reachable = st.reachable) :
    Tracked ctx typing other := by
  refine ⟨⟨?_, ?_, ?_⟩, hReachable.trans hTracked.reachable⟩
  · rw [hEntries]
    exact hTracked.fitting.stack
  · rw [hLocals]
    exact hTracked.fitting.locals
  · rw [hAgreed]
    exact hTracked.fitting.joins

/- An element of a verified body with the states before and after it. -/
structure Passage (verifier : Verifier) (ctx : Context) (i : Nat) (node : Node)
    (typing next : Option Typing) (st mid : State) : Prop where
  here : ctx.body.nodes[i]? = some node
  basic : node.isBasic = true
  before : stateAfter ctx i = some st
  tracked : Tracked ctx typing { st with here := i }
  verified : verifier.step typing node = some next
  step : step node ctx { st with here := i } = .ok () mid
  issues : mid.stack.issues = []
  after : stateAfter ctx (i + 1) = some mid.settled
  stays : Stays node mid.edit

/- A body whose pass was verified and went through. -/
structure Verified (verifier : Verifier) (initial : Typing) (ctx : Context)
    (last : State) : Prop where
  checks : Checks verifier ctx
  start : Tracked ctx (some initial) (State.start ctx)
  basic : ∀ node ∈ ctx.body.nodes, node.isBasic = true
  typed : (verifier.typingAt? initial ctx.body.nodes
    ctx.body.nodes.length).isSome = true
  last : stateAfter ctx ctx.body.nodes.length = some last

/- What becomes of an element, apart from the code before it. -/
inductive Becomes (node : Node) : Fate → Node → Prop where
  | kept : Becomes node .kept node
  | replaced (other : Node) : Becomes node (.replaced other) other
  | frame
      {change : FrameChange}
      (hFrame : node = .frame change)
      (other : FrameChange) :
      Becomes node .kept (.frame other)

theorem dressed_cases (frames : List (Handle × FrameChange)) (entry : Handle × Node) :
    (∀ frame ∈ frames, frame.1 ≠ entry.1) ∧ dressed frames entry = entry ∨
      ∃ change, (entry.1, change) ∈ frames ∧ dressed frames entry = (entry.1, .frame change) := by
  induction frames generalizing entry with
  | nil => exact .inl ⟨forall_mem_nil _, rfl⟩
  | cons first frames ih =>
    rcases first with ⟨h, change⟩
    unfold dressed at ih ⊢
    simp only [foldl_cons]
    split
    · rename_i hSame
      subst hSame
      rcases ih (entry.1, .frame change) with ⟨_, hKept⟩ | ⟨other, hOther, hDressed⟩
      · exact .inr ⟨change, mem_cons_self .., hKept⟩
      · exact .inr ⟨other, mem_cons_of_mem _ hOther, hDressed⟩
    · rename_i hOther
      rcases ih entry with ⟨hOthers, hKept⟩ | ⟨other, hOther, hDressed⟩
      · exact .inl ⟨forall_mem_cons.mpr ⟨hOther, hOthers⟩, hKept⟩
      · exact .inr ⟨other, mem_cons_of_mem _ hOther, hDressed⟩

theorem le_of_mem_numbered
    {fresh : Handle} {code : List Instruction} {entry : Handle × Node}
    (hEntry : entry ∈ numbered fresh code) :
    fresh ≤ entry.1 := by
  induction code generalizing fresh with
  | nil => cases hEntry
  | cons i code ih =>
    rcases mem_cons.mp hEntry with rfl | hRest
    · exact Nat.le_refl _
    · exact Nat.le_of_succ_le (ih hRest)

/- New code gets no frames if they belong to handles before it. -/
theorem map_dressed_numbered {fresh : Handle} (code : List Instruction)
    (hFrames : ∀ frame ∈ frames, frame.1 < fresh) :
    (numbered fresh code).map (fun entry => (dressed frames entry).2) = code.map .insn := by
  rw [← numbered_snd fresh]
  apply map_congr_left
  intro entry hEntry
  rw [dressed_of_not_mem]
  intro frame hFrame
  exact Nat.ne_of_lt (Nat.lt_of_lt_of_le (hFrames frame hFrame)
    (le_of_mem_numbered hEntry))

/- A block is the code before an element and what becomes of the element. -/
theorem block_of_stays {node : Node} {mid : State}
    (hNode : ctx.body.nodes[i]? = some node)
    (hState : stateAfter ctx i = some st)
    (hStep : step node ctx { st with here := i } = .ok () mid)
    (hStays : Stays node mid.edit) (hFrames : ForFrames ctx frames) :
    ∃ image, Becomes node mid.edit.fate image ∧
      outputBlock ctx frames i = mid.edit.before.map .insn ++ [image] := by
  have hInside : i < ctx.body.nodes.length := (List.getElem?_eq_some_iff.mp hNode).1
  have hBlock : blockView ctx i = mid.edit.view mid.code.links.size i node := by
    simp [blockView, midAt_of_step hNode hState hStep, hNode]
  -- The handles of new code are not those of elements.
  have hSize : ctx.body.nodes.length ≤ mid.code.links.size := by
    have hPlaced : State.Placed ctx.plan { st with here := i } :=
      (between_stateAfter (Nat.le_of_lt hInside) hState).placed.of_same rfl rfl
    have hCode : mid.code = st.code := (step_ok hPlaced hStep).code
    rw [hCode]
    exact length_le_size (Nat.le_of_lt hInside) hState
  have hCode : (numbered mid.code.links.size mid.edit.before).map
      (fun entry => (dressed frames entry).2) = mid.edit.before.map .insn := by
    apply map_dressed_numbered
    intro frame hFrame
    rcases hFrames frame hFrame with ⟨change, hChange⟩
    exact Nat.lt_of_lt_of_le (List.getElem?_eq_some_iff.mp hChange).1 hSize
  have hImage (other : Node) (hOther : Becomes node mid.edit.fate other)
      (hFrame : ∀ change, node = .frame change → mid.edit.fate = .kept) :
      Becomes node mid.edit.fate (dressed frames (i, other)).2 := by
    rcases dressed_cases frames (i, other) with ⟨_, hKept⟩ | ⟨change, hMember, hDressed⟩
    · rw [hKept]
      exact hOther
    · rcases hFrames _ hMember with ⟨source, hSource⟩
      have hFramed : node = .frame source := Option.some.inj (hNode.symm.trans hSource)
      rw [hDressed, hFrame source hFramed]
      exact .frame hFramed change
  rw [outputBlock, hBlock, Edit.view, map_append, hCode]
  rcases hStays with hKept | ⟨hNoMark, other, hReplaced, _⟩
  · refine ⟨_, hImage node ?_ fun _ _ => hKept, ?_⟩
    · rw [hKept]
      exact .kept
    · rw [hKept]
      rfl
  · refine ⟨_, hImage other ?_ ?_, ?_⟩
    · rw [hReplaced]
      exact .replaced other
    · rintro change rfl
      cases hNoMark
    · rw [hReplaced]
      rfl

namespace Passage

variable {verifier : Verifier} {i : Nat} {node : Node}
variable {typing next : Option Typing} {st mid : State}
variable (hPassage : Passage verifier ctx i node typing next st mid)
include hPassage

theorem inside : i < ctx.body.nodes.length :=
  (List.getElem?_eq_some_iff.mp hPassage.here).1

theorem between : Between ctx i st :=
  between_stateAfter (Nat.le_of_lt hPassage.inside) hPassage.before

theorem placed : State.Placed ctx.plan { st with here := i } :=
  ⟨hPassage.between.placed.locals, hPassage.between.placed.agreed⟩

theorem kept : ({ st with here := i } : State).edit = .none :=
  hPassage.between.edit

theorem block_eq (hFrames : ForFrames ctx frames) :
    ∃ image, Becomes node mid.edit.fate image ∧
      outputBlock ctx frames i = mid.edit.before.map .insn ++ [image] :=
  block_of_stays hPassage.here hPassage.before hPassage.step hPassage.stays hFrames

end Passage

namespace Verified

variable {verifier : Verifier} {initial : Typing} {last : State} {i : Nat}
variable {node : Node}

section

variable (hVerified : Verified verifier initial ctx last)
include hVerified

/- The pass goes from one element to the next and keeps to the frames. -/
theorem passage_of_tracked {typing : Option Typing} {st : State}
    (hNode : ctx.body.nodes[i]? = some node)
    (hTyping : verifier.typingAt? initial ctx.body.nodes i = some typing)
    (hState : stateAfter ctx i = some st)
    (hTracked : Tracked ctx typing st) :
    ∃ next mid, Passage verifier ctx i node typing next st mid ∧
      verifier.typingAt? initial ctx.body.nodes (i + 1) = some next ∧
        Tracked ctx next mid.settled := by
  have hInside : i < ctx.body.nodes.length :=
    (List.getElem?_eq_some_iff.mp hNode).1
  have hBasic := hVerified.basic node (List.mem_of_getElem? hNode)
  rcases Verifier.typingAt?_of_le hVerified.typed hInside with ⟨next, hNext⟩
  have hStep := hNext
  rw [Verifier.typingAt?_succ hNode, hTyping, Option.bind_some] at hStep
  rcases stateAfter_of_le hVerified.last hInside with ⟨after, hAfter⟩
  rcases visited_stateAfter hNode hState hAfter with ⟨mid, hVisited, rfl⟩
  have hHere := hTracked.of_same { st with here := i } rfl rfl rfl rfl
  have hKept : st.edit.fate = .kept := congrArg Edit.fate hVisited.between.edit
  rcases hHere.step hVerified.checks hVisited.placed hKept hBasic hStep hVisited.step
    hVisited.issues with ⟨hTrackedMid, hStays⟩
  exact ⟨next, mid, ⟨hNode, hBasic, hState, hHere, hStep, hVisited.step, hVisited.issues,
    hAfter, hStays⟩, hNext, hTrackedMid.of_same mid.settled rfl rfl rfl rfl⟩

/- Before every element the state keeps to the frames. -/
theorem tracked (hInside : i ≤ ctx.body.nodes.length) :
    ∃ typing st, verifier.typingAt? initial ctx.body.nodes i = some typing ∧
        stateAfter ctx i = some st ∧ Tracked ctx typing st := by
  induction i with
  | zero => exact ⟨some initial, State.start ctx, rfl, rfl, hVerified.start⟩
  | succ i ih =>
    have hNode : ctx.body.nodes[i]? = some ctx.body.nodes[i] :=
      getElem?_eq_getElem (by omega)
    rcases ih (by omega) with ⟨typing, st, hTyping, hState, hTracked⟩
    rcases hVerified.passage_of_tracked hNode hTyping hState hTracked with
      ⟨next, mid, hPassage, hNext, hAfter⟩
    exact ⟨next, mid.settled, hNext, hPassage.after, hAfter⟩

/- Every element was gone past. -/
theorem passage (hNode : ctx.body.nodes[i]? = some node) :
    ∃ typing next st mid, Passage verifier ctx i node typing next st mid ∧
        verifier.typingAt? initial ctx.body.nodes i = some typing ∧
          verifier.typingAt? initial ctx.body.nodes (i + 1) = some next := by
  have hInside : i < ctx.body.nodes.length :=
    (List.getElem?_eq_some_iff.mp hNode).1
  rcases hVerified.tracked (Nat.le_of_lt hInside) with
    ⟨typing, st, hTyping, hState, hTracked⟩
  rcases hVerified.passage_of_tracked hNode hTyping hState hTracked with
    ⟨next, mid, hPassage, hNext, _⟩
  exact ⟨typing, next, st, mid, hPassage, hTyping, hNext⟩

end

-- Jumps

/- Code before an element is no place to jump to. -/
theorem afterLabel?_code (target : Label) (code : List Instruction) (rest : List Node) :
    afterLabel? target (code.map .insn ++ rest) = afterLabel? target rest := by
  induction code with
  | nil => rfl
  | cons i code ih => simpa [afterLabel?] using ih

/- An element is a label exactly if what becomes of it is. -/
theorem becomes_label {image : Node} {edit : Edit} (hStays : Stays node edit)
    (hBecomes : Becomes node edit.fate image) (target : Label) :
    image = .label target ↔ node = .label target := by
  rcases hStays with hKept | ⟨hNode, other, hReplaced, hOther⟩
  · rw [hKept] at hBecomes
    cases hBecomes with
    | kept => exact Iff.rfl
    | frame hFrame => simp [hFrame]
  · rw [hReplaced] at hBecomes
    cases hBecomes
    constructor
    · rintro rfl
      cases hOther
    · rintro rfl
      cases hNode

/- A jump comes to the blocks after the label that it goes to. -/
theorem afterLabel?_outputFrom (hVerified : Verified verifier initial ctx last)
    (hFrames : ForFrames ctx frames) {i : Nat} {target : Label} {next : List Node}
    (hTarget : afterLabel? target (ctx.body.nodes.drop i) = some next) :
    ∃ j, ctx.body.nodes[j]? = some (.label target) ∧ next = ctx.body.nodes.drop (j + 1) ∧
        afterLabel? target (outputFrom ctx frames i) =
          some (outputFrom ctx frames (j + 1)) := by
  by_cases hInside : i < ctx.body.nodes.length
  · have hNode : ctx.body.nodes[i]? = some ctx.body.nodes[i] :=
      getElem?_eq_getElem hInside
    rcases hVerified.passage hNode with ⟨_, _, _, mid, hPassage, _⟩
    rcases hPassage.block_eq hFrames with ⟨image, hBecomes, hBlock⟩
    have hLabel := becomes_label hPassage.stays hBecomes target
    rw [outputFrom_cons hInside, hBlock, append_assoc, afterLabel?_code]
    rw [drop_eq_getElem_cons hInside] at hTarget
    unfold afterLabel? at hTarget
    split at hTarget
    · rename_i hHere
      cases hTarget
      refine ⟨i, hHere ▸ hNode, rfl, ?_⟩
      simp [afterLabel?, hLabel.mpr hHere]
    · rename_i hOther
      rcases hVerified.afterLabel?_outputFrom hFrames hTarget with
        ⟨j, hPlace, hNext, hOutput⟩
      refine ⟨j, hPlace, hNext, ?_⟩
      rw [← hOutput]
      simp [afterLabel?, mt hLabel.mp hOther]
  · rw [drop_eq_nil_of_le (Nat.le_of_not_lt hInside)] at hTarget
    cases hTarget
termination_by ctx.body.nodes.length - i

end Verified

end Simulation

end Unboxing
